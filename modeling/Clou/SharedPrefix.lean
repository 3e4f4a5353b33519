import Mathlib.Data.List.Infix

/-! The longest common beginning of sequences, as their greatest lower bound. -/

namespace Clou

variable {A B : Type}

theorem eq_nil_iff_forall_not_prefix {l : List A} : l = [] ↔ ∀ a, ¬ [a] <+: l := by
  cases l with
  | nil => simp
  | cons a l =>
    constructor
    · intro empty
      cases empty
    · intro none
      exact absurd (List.cons_prefix_cons.mpr (by simp)) (none a)

variable [DecidableEq A]

def sharedPrefix : List A → List A → List A
  | [], _ => []
  | _ :: _, [] => []
  | a :: as, b :: bs => if a = b then a :: sharedPrefix as bs else []

/-- A sequence begins the shared one if and only if it begins both. -/
theorem prefix_sharedPrefix_iff {p as bs : List A} :
    p <+: sharedPrefix as bs ↔ p <+: as ∧ p <+: bs := by
  induction as generalizing p bs with
  | nil =>
    rw [sharedPrefix, List.prefix_nil]
    constructor
    · intro empty
      simp [empty]
    · exact And.left
  | cons a as ih =>
    cases bs with
    | nil =>
      rw [sharedPrefix, List.prefix_nil]
      constructor
      · intro empty
        simp [empty]
      · exact And.right
    | cons b bs =>
      cases p with
      | nil => simp
      | cons x p =>
        by_cases same : a = b
        · subst same
          rw [sharedPrefix, if_pos rfl, List.cons_prefix_cons, List.cons_prefix_cons,
            List.cons_prefix_cons, ih]
          tauto
        · rw [sharedPrefix, if_neg same, List.cons_prefix_cons, List.cons_prefix_cons]
          constructor
          · intro empty
            cases List.prefix_nil.mp empty
          · intro both
            exact absurd (both.1.1.symm.trans both.2.1) same

/-- Reducing many sequences to what they share with a first one. -/
theorem prefix_foldl_sharedPrefix_iff {f : B → List A} {l : List B} {p first : List A} :
    p <+: l.foldl (fun acc b => sharedPrefix acc (f b)) first ↔
      p <+: first ∧ ∀ b ∈ l, p <+: f b := by
  induction l generalizing first with
  | nil => simp
  | cons b l ih =>
    rw [List.foldl_cons, ih, prefix_sharedPrefix_iff, List.forall_mem_cons, and_assoc]

end Clou
