import Mathlib.Data.List.Chain
import Clou.Acyclic

/-! Straight pieces of a relation: steps that are the only one from where they start and the only
one to where they end, followed as far as they go. -/

namespace Clou

structure Straight {X : Type} (edge : X → X → Prop) (x y : X) : Prop where
  next : ∀ {z}, edge x z ↔ z = y
  previous : ∀ {z}, edge z y ↔ z = x

/-- No straight step leads here. -/
def Head {X : Type} (edge : X → X → Prop) (x : X) : Prop := ∀ y, ¬ Straight edge y x

inductive Onward {X : Type} (edge : X → X → Prop) : X → List X → Prop where
  | stop {x : X} (last : ∀ y, ¬ Straight edge x y) : Onward edge x []
  | step {x y : X} {rest : List X} (next : Straight edge x y) (onward : Onward edge y rest) :
      Onward edge x (y :: rest)

variable {X : Type} {edge : X → X → Prop} {x y z : X}

namespace Straight

theorem related (straight : Straight edge x y) : edge x y := straight.next.mpr rfl

theorem right_unique (first : Straight edge x y) (second : Straight edge x z) : y = z :=
  second.next.mp first.related

theorem left_unique (first : Straight edge x z) (second : Straight edge y z) : x = y :=
  second.previous.mp first.related

theorem swap_iff : Straight (Function.swap edge) y x ↔ Straight edge x y :=
  ⟨fun straight => ⟨straight.previous, straight.next⟩, fun straight => ⟨straight.previous, straight.next⟩⟩

end Straight

theorem Straight.reaches (path : Relation.ReflTransGen (Straight edge) x y) :
    Relation.ReflTransGen edge x y := by
  induction path with
  | refl => exact .refl
  | tail _ step ih => exact ih.tail step.related

/-- Straight steps that lead to one element come from one head. -/
theorem Head.unique (first : Head edge x) (second : Head edge y)
    (path : Relation.ReflTransGen (Straight edge) x z)
    (other : Relation.ReflTransGen (Straight edge) y z) : x = y := by
  induction path with
  | refl =>
    cases other with
    | refl => rfl
    | tail _ step => exact absurd step (first _)
  | tail _ step ih =>
    cases other with
    | refl => exact absurd step (second _)
    | tail before step' =>
      cases step'.left_unique step
      exact ih before

namespace Onward

variable {rest : List X}

section

variable (onward : Onward edge x rest)

include onward

theorem path (member : y ∈ x :: rest) : Relation.ReflTransGen (Straight edge) x y := by
  induction onward with
  | stop => rw [List.mem_singleton.mp member]
  | step next _ ih =>
    cases member with
    | head => exact .refl
    | tail _ later => exact .head next (ih later)

theorem path_last (member : y ∈ x :: rest) :
    Relation.ReflTransGen (Straight edge) y (rest.getLastD x) := by
  induction onward generalizing y with
  | stop => rw [List.mem_singleton.mp member, List.getLastD_nil]
  | step next _ ih =>
    rw [List.getLastD_cons]
    cases member with
    | head => exact .head next (ih List.mem_cons_self)
    | tail _ later => exact ih later

omit onward in
theorem path_back {before : List X} (back : Onward (Function.swap edge) x before)
    (member : y ∈ x :: before) : Relation.ReflTransGen (Straight edge) y x := by
  induction back with
  | stop => rw [List.mem_singleton.mp member]
  | step next _ ih =>
    cases member with
    | head => exact .refl
    | tail _ earlier => exact (ih earlier).tail (Straight.swap_iff.mp next)

/-- The next element of a piece is where the straight step leads. -/
theorem getElem?_succ {i : Nat} (here : (x :: rest)[i]? = some y) :
    (x :: rest)[i + 1]? = some z ↔ Straight edge y z := by
  induction onward generalizing i with
  | stop last =>
    cases i with
    | zero =>
      cases here
      exact ⟨nofun, fun step => absurd step (last z)⟩
    | succ i => cases here
  | step next _ ih =>
    cases i with
    | zero =>
      cases here
      refine ⟨fun there => ?_, fun step => ?_⟩
      · cases there
        exact next
      · rw [next.right_unique step]
        rfl
    | succ i => exact ih here

theorem mem_next (member : y ∈ x :: rest) (step : Straight edge y z) : z ∈ x :: rest := by
  rcases List.getElem?_of_mem member with ⟨i, here⟩
  exact List.mem_of_getElem? ((onward.getElem?_succ here).mpr step)

theorem mem_path (member : y ∈ x :: rest) (path : Relation.ReflTransGen (Straight edge) y z) :
    z ∈ x :: rest := by
  induction path with
  | refl => exact member
  | tail _ step ih => exact onward.mem_next ih step

theorem comparable (here : y ∈ x :: rest) (there : z ∈ x :: rest) :
    Relation.ReflTransGen (Straight edge) y z ∨ Relation.ReflTransGen (Straight edge) z y :=
  Relation.ReflTransGen.total_of_right_unique (fun _ _ _ first second => first.right_unique second)
    (onward.path here) (onward.path there)

theorem pairwise : (x :: rest).Pairwise (Relation.TransGen edge) := by
  apply List.isChain_iff_pairwise.mp
  induction onward with
  | stop => exact .singleton _
  | step next _ ih => exact .cons_cons (.single next.related) ih

theorem nodup (acyclic : Acyclic edge) : (x :: rest).Nodup := by
  apply onward.pairwise.imp
  intro y z path same
  exact acyclic y (same ▸ path)

theorem idxOf_lt_iff [DecidableEq X] (acyclic : Acyclic edge) (here : y ∈ x :: rest)
    (there : z ∈ x :: rest) :
    (x :: rest).idxOf y < (x :: rest).idxOf z ↔ Relation.TransGen edge y z := by
  have later {y z : X} (here : y ∈ x :: rest) (there : z ∈ x :: rest)
      (less : (x :: rest).idxOf y < (x :: rest).idxOf z) : Relation.TransGen edge y z := by
    have path := List.pairwise_iff_getElem.mp onward.pairwise _ _ (List.idxOf_lt_length_of_mem here)
      (List.idxOf_lt_length_of_mem there) less
    rwa [List.getElem_idxOf, List.getElem_idxOf] at path
  refine ⟨later here there, fun path => ?_⟩
  by_contra notLess
  rcases Nat.lt_or_eq_of_le (Nat.le_of_not_lt notLess) with less | same
  · exact acyclic y (path.trans (later there here less))
  · have equal := (List.idxOf_inj there).mp same
    exact acyclic y (equal ▸ path)

omit onward in
theorem getLastD_mem : rest.getLastD x ∈ x :: rest := by
  rw [← List.getLast_eq_getLastD]
  exact List.getLast_mem (List.cons_ne_nil x rest)

/-- The last element of a piece is the one without a straight step. -/
theorem eq_last_iff (acyclic : Acyclic edge) (member : y ∈ x :: rest) :
    y = rest.getLastD x ↔ ∀ z, ¬ Straight edge y z := by
  induction onward with
  | stop last =>
    rw [List.mem_singleton.mp member]
    exact ⟨fun _ => last, fun _ => rfl⟩
  | @step x x' rest next onward ih =>
    rw [List.getLastD_cons]
    cases member with
    | tail _ later => exact ih later
    | head =>
      refine ⟨fun same => ?_, fun stuck => absurd next (stuck x')⟩
      have first : y ∉ x' :: rest := (List.nodup_cons.mp ((onward.step next).nodup acyclic)).1
      rw [same] at first
      exact absurd getLastD_mem first

end

/-- Of finitely many elements without a cycle each can be followed to an end. -/
theorem exists_of_acyclic (acyclic : Acyclic edge) {among : Finset X}
    (within : ∀ {x y}, edge x y → y ∈ among) (x : X) : ∃ rest, Onward edge x rest := by
  induction x using acyclic.induction within with
  | step x ih =>
    by_cases stuck : ∀ y, ¬ Straight edge x y
    · exact ⟨[], .stop stuck⟩
    · rcases not_forall_not.mp stuck with ⟨y, next⟩
      rcases ih y next.related with ⟨rest, onward⟩
      exact ⟨y :: rest, .step next onward⟩

end Onward

end Clou
