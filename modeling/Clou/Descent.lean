import Mathlib.Data.Set.Card
import Mathlib.Order.Lattice
import Mathlib.Algebra.Order.BigOperators.Group.List

/-! Values that only descend: meets of lists, greatest values that a step does not lower, and
how long an assignment of values to finitely many keys can go on descending. -/

namespace Clou.Descent

section

variable {K V : Type} [SemilatticeInf V]

def meetOver (value : K → V) (keys : List K) (start : V) : V :=
  keys.foldl (fun met k => met ⊓ value k) start

theorem le_meetOver {value : K → V} {keys : List K} {start low : V} :
    low ≤ meetOver value keys start ↔ low ≤ start ∧ ∀ k ∈ keys, low ≤ value k := by
  induction keys generalizing start with
  | nil => simp [meetOver]
  | cons k keys ih =>
    rw [meetOver, List.foldl_cons]
    refine ih.trans ?_
    simp [and_assoc]

theorem meetOver_le_start (value : K → V) (keys : List K) (start : V) :
    meetOver value keys start ≤ start :=
  (le_meetOver.mp le_rfl).1

theorem meetOver_le {value : K → V} {keys : List K} {start : V} {k : K} (member : k ∈ keys) :
    meetOver value keys start ≤ value k :=
  (le_meetOver.mp le_rfl).2 k member

/-- Meeting with the same values once more changes nothing. -/
theorem meetOver_again (value : K → V) (keys : List K) (start : V) :
    meetOver value keys (meetOver value keys start) = meetOver value keys start :=
  le_antisymm (meetOver_le_start ..)
    (le_meetOver.mpr ⟨le_rfl, fun _ member => meetOver_le member⟩)

end

section

variable {V : Type} [SemilatticeInf V] {step greatest : V → V}

section

variable (preserves : ∀ v w, step (v ⊓ w) = step v ⊓ step w)
  (isGreatest : ∀ e, IsGreatest {x | x ≤ e ∧ x ≤ step x} (greatest e))

include preserves isGreatest

/-- The greatest value below `e` that a step does not lower commutes with the step, if the
step preserves meets. -/
theorem greatest_step (e : V) : greatest (step e) = step (greatest e) := by
  have monotone {v w : V} (below : v ≤ w) : step v ≤ step w := by
    rw [← inf_eq_left.mpr below, preserves]
    exact inf_le_right
  apply le_antisymm
  · rcases (isGreatest (step e)).1 with ⟨below, kept⟩
    have both : greatest (step e) ≤ step (e ⊓ greatest (step e)) := by
      rw [preserves]
      exact le_inf below kept
    exact both.trans (monotone ((isGreatest e).2 ⟨inf_le_left, inf_le_right.trans both⟩))
  · rcases (isGreatest e).1 with ⟨below, kept⟩
    exact (isGreatest (step e)).2 ⟨monotone below, monotone kept⟩

omit isGreatest in
theorem iterate_inf (count : Nat) (v w : V) :
    step^[count] (v ⊓ w) = step^[count] v ⊓ step^[count] w := by
  induction count generalizing v w with
  | zero => rfl
  | succ count ih => simp only [Function.iterate_succ_apply, preserves, ih]

theorem greatest_iterate (count : Nat) (e : V) :
    greatest (step^[count] e) = step^[count] (greatest e) := by
  induction count with
  | zero => rfl
  | succ count ih =>
    rw [Function.iterate_succ_apply', greatest_step preserves isGreatest, ih,
      ← Function.iterate_succ_apply' step]

/-- Steps from the greatest such value lead to the same one as steps from `e`. -/
theorem greatest_iterate_again (count : Nat) (e : V) :
    greatest (step^[count] (greatest e)) = greatest (step^[count] e) := by
  have again (v : V) : greatest (greatest v) = greatest v :=
    le_antisymm (isGreatest _).1.1 ((isGreatest _).2 ⟨le_rfl, (isGreatest v).1.2⟩)
  rw [← greatest_iterate preserves isGreatest, again]

end

end

section

variable {K V : Type} [PartialOrder V] [Finite V]

noncomputable def height (v : V) : Nat := (Set.Iio v).ncard

theorem height_lt {v w : V} (below : v < w) : height v < height w := by
  have inside : Set.Iio v ⊆ Set.Iio w := fun _ lower => lower.trans below
  exact Set.ncard_lt_ncard ((Set.ssubset_iff_of_subset inside).mpr ⟨v, below, lt_irrefl v⟩)
    (Set.toFinite _)

theorem height_le {v w : V} (below : v ≤ w) : height v ≤ height w :=
  Set.ncard_le_ncard (fun _ lower => lt_of_lt_of_le lower below)

theorem height_le_card (v : V) : height v ≤ Nat.card V := Set.ncard_le_card _

noncomputable def potential (keys : List K) (value : K → V) : Nat :=
  (keys.map fun k => height (value k)).sum

theorem potential_le_card (keys : List K) (value : K → V) :
    potential keys value ≤ keys.length * Nat.card V := by
  have bound := List.sum_le_card_nsmul (keys.map fun k => height (value k)) (Nat.card V) (by
    intro n member
    rcases List.mem_map.mp member with ⟨k, -, rfl⟩
    exact height_le_card (value k))
  simpa [potential] using bound

theorem potential_lt {keys : List K} {value value' : K → V}
    (below : ∀ k ∈ keys, value k ≤ value' k) {k : K} (member : k ∈ keys)
    (changes : value k ≠ value' k) : potential keys value < potential keys value' :=
  List.sum_lt_sum _ _ (fun j here => height_le (below j here))
    ⟨k, member, height_lt (lt_of_le_of_ne (below k member) changes)⟩

end

end Clou.Descent
