import Mathlib.Data.Finset.Card
import Mathlib.Data.Finset.Max
import Mathlib.Logic.Relation

/-! Relations without cycles. -/

namespace Clou

variable {X : Type} {edge : X → X → Prop}

def Acyclic (edge : X → X → Prop) : Prop := ∀ x, ¬ Relation.TransGen edge x x

theorem Acyclic.of_rank {Y : Type} [Preorder Y] (rank : X → Y)
    (grows : ∀ {x y}, edge x y → rank x < rank y) : Acyclic edge := by
  have further {x y : X} (path : Relation.TransGen edge x y) : rank x < rank y := by
    induction path with
    | single step => exact grows step
    | tail _ step ih => exact ih.trans (grows step)
  exact fun x cycle => lt_irrefl _ (further cycle)

section

open Classical in
noncomputable def ancestors (edge : X → X → Prop) (among : Finset X) (x : X) : Finset X :=
  among.filter fun y => Relation.TransGen edge y x

variable {among : Finset X}

theorem mem_ancestors {x y : X} :
    y ∈ ancestors edge among x ↔ y ∈ among ∧ Relation.TransGen edge y x := by
  simp [ancestors]

theorem Acyclic.ancestors_lt (acyclic : Acyclic edge) {x y : X} (member : x ∈ among)
    (step : edge x y) : (ancestors edge among x).card < (ancestors edge among y).card := by
  apply Finset.card_lt_card
  refine Finset.ssubset_iff_subset_ne.mpr ⟨?_, ?_⟩
  · intro z before
    rcases mem_ancestors.mp before with ⟨known, path⟩
    exact mem_ancestors.mpr ⟨known, path.tail step⟩
  · intro same
    have here : x ∈ ancestors edge among y := mem_ancestors.mpr ⟨member, .single step⟩
    rw [← same] at here
    exact acyclic x (mem_ancestors.mp here).2

theorem Acyclic.exists_sink (acyclic : Acyclic edge) (nonempty : among.Nonempty) :
    ∃ x ∈ among, ∀ y ∈ among, ¬ edge x y := by
  rcases among.exists_max_image (fun x => (ancestors edge among x).card) nonempty with
    ⟨x, member, most⟩
  refine ⟨x, member, fun y known step => ?_⟩
  exact absurd (most y known) (Nat.not_le_of_lt (acyclic.ancestors_lt member step))

theorem Acyclic.swap (acyclic : Acyclic edge) : Acyclic (Function.swap edge) :=
  fun x cycle => acyclic x (Relation.transGen_swap.mp cycle)

/-- What holds of an element when it holds of all that it leads to, holds. -/
theorem Acyclic.induction (acyclic : Acyclic edge) (within : ∀ {x y}, edge x y → y ∈ among)
    {motive : X → Prop} (step : ∀ x, (∀ y, edge x y → motive y) → motive x) (x : X) : motive x := by
  induction below : (ancestors (Function.swap edge) among x).card using Nat.strong_induction_on
    generalizing x with
  | _ n ih =>
    apply step
    intro y next
    exact ih _ (below ▸ acyclic.swap.ancestors_lt (within next) next) y rfl

end

/-- A fold along a topological order: at each element, all that lead to it have been there. -/
theorem foldlM_sorted {A S : Type} {edge : A → A → Prop} (acyclic : Acyclic edge) {f : S → A → Option S}
    {motive : List A → S → Prop} {finished order : List A} (nodup : (finished ++ order).Nodup)
    (sorted : order.Pairwise fun x y => ¬ edge y x)
    (closed : ∀ {x y}, edge x y → y ∈ order → x ∈ finished ++ order)
    (step : ∀ {finished x s}, x ∈ order → motive finished s → x ∉ finished →
      (∀ y, edge y x → y ∈ finished) → ∃ s', f s x = some s' ∧ motive (finished ++ [x]) s')
    {s : S} (start : motive finished s) :
    ∃ s', order.foldlM f s = some s' ∧ motive (finished ++ order) s' := by
  induction order generalizing finished s with
  | nil => exact ⟨s, rfl, by rwa [List.append_nil]⟩
  | cons x order ih =>
    rcases List.pairwise_cons.mp sorted with ⟨first, sorted'⟩
    have new : x ∉ finished := fun old =>
      (List.nodup_append'.mp nodup).2.2 old List.mem_cons_self
    have ready : ∀ y, edge y x → y ∈ finished := by
      intro y before
      rcases List.mem_append.mp (closed before List.mem_cons_self) with old | here
      · exact old
      · rcases List.mem_cons.mp here with rfl | later
        · exact absurd (.single before) (acyclic y)
        · exact absurd before (first y later)
    rcases step List.mem_cons_self start new ready with ⟨s₁, stepped, start₁⟩
    rw [List.append_cons] at nodup
    have closed' {x' y : A} (before : edge x' y) (later : y ∈ order) : x' ∈ finished ++ [x] ++ order := by
      rw [← List.append_cons]
      exact closed before (List.mem_cons_of_mem x later)
    rcases ih nodup sorted' closed' (fun later => step (List.mem_cons_of_mem x later)) start₁ with
      ⟨s', folded, finish⟩
    refine ⟨s', ?_, by rwa [List.append_cons]⟩
    rw [List.foldlM_cons, stepped]
    exact folded

end Clou
