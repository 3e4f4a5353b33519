import Mathlib.Algebra.BigOperators.Group.Finset.Basic
import Mathlib.Tactic.Abel

/-! Threads over one shared state that act in any order, and accounts of what the shared state and
all of the threads hold together. -/

namespace Clou.Threads

variable {ι S P A : Type} [DecidableEq ι]

section

variable (act : S → P → Option (S × P))

/-- A thread acts, if it can, and the others stay where they are. -/
def step (c : S × (ι → P)) (t : ι) : Option (S × (ι → P)) :=
  (act c.1 (c.2 t)).map fun next => (next.1, Function.update c.2 t next.2)

def run (c : S × (ι → P)) (schedule : List ι) : Option (S × (ι → P)) := schedule.foldlM (step act) c

end

variable [Fintype ι] [AddCommMonoid A]

def account (shared : S → A) (place : P → A) (c : S × (ι → P)) : A := shared c.1 + ∑ t, place (c.2 t)

variable {act : S → P → Option (S × P)} {shared : S → A} {place : P → A} {cost : A}
  (law : ∀ {s p next}, act s p = some next → shared next.1 + place next.2 + cost = shared s + place p)

include law

/-- What a thread's action costs the thread and the shared state, it costs the whole. -/
theorem account_step {c d : S × (ι → P)} {t : ι} (stepped : step act c t = some d) :
    account shared place d + cost = account shared place c := by
  obtain ⟨next, acts, rfl⟩ := Option.map_eq_some_iff.mp stepped
  have others : ∀ u ∈ Finset.univ.erase t, place (Function.update c.2 t next.2 u) = place (c.2 u) := by
    intro u other
    rw [Function.update_of_ne (Finset.ne_of_mem_erase other)]
  simp only [account]
  rw [← Finset.add_sum_erase _ _ (Finset.mem_univ t), Function.update_self,
    Finset.sum_congr rfl others, ← Finset.add_sum_erase _ (fun u => place (c.2 u)) (Finset.mem_univ t),
    ← add_assoc, ← add_assoc, ← law acts]
  abel

theorem account_run {schedule : List ι} {c d : S × (ι → P)} (ran : run act c schedule = some d) :
    account shared place d + schedule.length • cost = account shared place c := by
  induction schedule generalizing c with
  | nil =>
    cases ran
    rw [List.length_nil, zero_nsmul, add_zero]
  | cons t schedule ih =>
    obtain ⟨e, stepped, rest⟩ := Option.bind_eq_some_iff.mp ran
    rw [List.length_cons, succ_nsmul, ← add_assoc, ih rest, account_step law stepped]

end Clou.Threads
