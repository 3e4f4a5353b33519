import Mathlib.Algebra.BigOperators.Intervals
import Mathlib.Algebra.BigOperators.Pi
import Clou.Threads

/-! The threads that examine the candidate transmitters of a function. Each fetches the number of
a candidate and runs a job for it, until there are none left. A job holds the lock of the graph
except while it uses its solver. -/

namespace Clou.DetectorMain

open Threads

variable {L : Type}

/-- The job of a candidate is given by the leaks that it adds before it first unlocks for its solver
and after each time. Without a semaphore the calls for it have no effect. The counters have 32 bits,
which no number of fetches may exceed. -/
structure Pool (L : Type) where
  totalTasks : Nat
  maxParallel : Nat
  job : Nat → List L × List (List L)
  semaphore : Bool
  client : Bool
  noWrap : totalTasks + min maxParallel totalTasks < 2 ^ 32

/-- The lock and the semaphore are the numbers of threads that they still let in. The candidates
whose jobs have started are recorded in addition. -/
structure Shared (L : Type) where
  nextTask : Nat
  completedTasks : Nat
  lock : Nat
  permits : Nat
  leaks : List L
  started : List Nat

inductive Place (L : Type) where
  | fetching
  | acquiring (task : Nat)
  | constructing (task : Nat)
  | running (leaks : List L) (later : List (List L))
  | checking (leaks : List L) (later : List (List L))
  | destroying
  | counting
  | reporting
  | sending
  | exited

section

variable (pool : Pool L) (s : Shared L)

def Pool.solvers : Nat := min pool.maxParallel pool.totalTasks

def Pool.permit : Nat := if pool.semaphore then 1 else 0

def Shared.acquireLock : Option (Shared L) :=
  if 0 < s.lock then some { s with lock := s.lock - 1 } else none

def Shared.unlock : Shared L := { s with lock := s.lock + 1 }

/-- The permit of a job is given back before the job ends and with it the lock. -/
def act : Place L → Option (Shared L × Place L)
  | .fetching => some ({ s with nextTask := s.nextTask + 1 },
      if s.nextTask < pool.totalTasks then .acquiring s.nextTask else .exited)
  | .acquiring task =>
    if pool.permit ≤ s.permits then
      some ({ s with permits := s.permits - pool.permit }, .constructing task)
    else none
  | .constructing task => s.acquireLock.map fun s =>
      ({ s with started := s.started ++ [task] }, .running (pool.job task).1 (pool.job task).2)
  | .running leaks (next :: later) =>
    some ({ s.unlock with leaks := s.leaks ++ leaks }, .checking next later)
  | .checking leaks later => s.acquireLock.map (·, .running leaks later)
  | .running leaks [] =>
    some ({ s with permits := s.permits + pool.permit, leaks := s.leaks ++ leaks }, .destroying)
  | .destroying => some (s.unlock, .counting)
  | .counting => some ({ s with completedTasks := s.completedTasks + 1 },
      if pool.client then .reporting else .fetching)
  | .reporting => s.acquireLock.map (·, .sending)
  | .sending => some (s.unlock, .fetching)
  | .exited => none

def initial (permits : Nat) : Shared L × (Fin pool.solvers → Place L) :=
  (⟨0, 0, 1, permits, [], []⟩, fun _ => .fetching)

end

theorem Shared.acquireLock_eq {s s' : Shared L} (locked : s.acquireLock = some s') :
    0 < s.lock ∧ s' = { s with lock := s.lock - 1 } := by
  simpa [Shared.acquireLock, eq_comm] using locked

/-! Accounts -/

@[simp] def Place.locks : Place L → Bool
  | running .. | destroying | sending => true
  | _ => false

@[simp] def Place.permits : Place L → Bool
  | constructing _ | running .. | checking .. => true
  | _ => false

/-- The fetches, the completions, a candidate's starts, a leak and the steps are counted in advance. -/
inductive Account (L : Type) where
  | lock
  | permits
  | fetched
  | completed
  | task (i : Nat)
  | leak (l : L)
  | steps

section

variable (pool : Pool L)

def Pool.found (task : Nat) : List L := (pool.job task).1 ++ (pool.job task).2.flatten

/-- The steps of a thread from a fetch to the next. -/
def taskSteps (task : Nat) : Nat := 2 * (pool.job task).2.length + 6 + if pool.client then 2 else 0

def totalSteps : Nat := pool.solvers + ∑ task ∈ Finset.range pool.totalTasks, taskSteps pool task

@[simp] def stepsLeft : Place L → Nat
  | .fetching => 1
  | .acquiring task => taskSteps pool task
  | .constructing task => taskSteps pool task - 1
  | .running _ later => 2 * later.length + 4 + if pool.client then 2 else 0
  | .checking _ later => 2 * later.length + 5 + if pool.client then 2 else 0
  | .destroying => 3 + if pool.client then 2 else 0
  | .counting => 2 + if pool.client then 2 else 0
  | .reporting => 3
  | .sending => 2
  | .exited => 0

variable [DecidableEq L]

@[simp] def shared (s : Shared L) : Account L → Nat
  | .lock => s.lock
  | .permits => s.permits
  | .fetched => max s.nextTask pool.totalTasks
  | .completed => s.completedTasks + (pool.totalTasks - s.nextTask)
  | .task i => s.started.count i + ∑ task ∈ Finset.Ico s.nextTask pool.totalTasks, if task = i then 1 else 0
  | .leak l => s.leaks.count l + ∑ task ∈ Finset.Ico s.nextTask pool.totalTasks, (pool.found task).count l
  | .steps => ∑ task ∈ Finset.Ico s.nextTask pool.totalTasks, taskSteps pool task

@[simp] def place (p : Place L) : Account L → Nat
  | .lock => if p.locks then 1 else 0
  | .permits => if p.permits then pool.permit else 0
  | .fetched => match p with
    | .exited => 0
    | _ => 1
  | .completed => match p with
    | .fetching | .reporting | .sending | .exited => 0
    | _ => 1
  | .task i => match p with
    | .acquiring task | .constructing task => if task = i then 1 else 0
    | _ => 0
  | .leak l => match p with
    | .acquiring task | .constructing task => (pool.found task).count l
    | .running leaks later | .checking leaks later => (leaks ++ later.flatten).count l
    | _ => 0
  | .steps => stepsLeft pool p

@[simp] def cost : Account L → Nat
  | .steps => 1
  | _ => 0

theorem act_law {s : Shared L} {p : Place L} {next : Shared L × Place L}
    (acts : act pool s p = some next) :
    shared pool next.1 + place pool next.2 + cost = shared pool s + place pool p := by
  funext account
  simp only [Pi.add_apply]
  cases p with
  | fetching =>
    cases acts
    rcases Nat.lt_or_ge s.nextTask pool.totalTasks with more | none
    · cases account <;> simp [more, Finset.sum_eq_sum_Ico_succ_bot more] <;> omega
    · have noneLater := Finset.Ico_eq_empty_of_le (Nat.le_succ_of_le none)
      cases account <;> simp [Nat.not_lt.mpr none, none, noneLater] <;> omega
  | acquiring task =>
    by_cases enough : pool.permit ≤ s.permits
    · simp only [act, if_pos enough] at acts
      cases acts
      cases account <;> simp [taskSteps] <;> omega
    · simp [act, enough] at acts
  | constructing | checking | reporting =>
    obtain ⟨s', locked, rfl⟩ := Option.map_eq_some_iff.mp acts
    obtain ⟨free, rfl⟩ := Shared.acquireLock_eq locked
    cases account <;> simp [taskSteps, Pool.found, List.count_cons] <;> omega
  | running leaks later =>
    cases later <;> cases acts <;> cases account <;> simp [Shared.unlock] <;> omega
  | counting =>
    cases acts
    cases client : pool.client <;> cases account <;> simp [client] <;> omega
  | destroying | sending =>
    cases acts
    cases account <;> simp [Shared.unlock] <;> omega
  | exited => cases acts

def budget (permits : Nat) : Account L → Nat
  | .lock => 1
  | .permits => permits
  | .fetched => pool.totalTasks + pool.solvers
  | .completed => pool.totalTasks
  | .task i => if i < pool.totalTasks then 1 else 0
  | .leak l => ∑ task ∈ Finset.range pool.totalTasks, (pool.found task).count l
  | .steps => totalSteps pool

end

section

variable [DecidableEq L] {pool : Pool L} {permits : Nat} {schedule : List (Fin pool.solvers)}
  {c : Shared L × (Fin pool.solvers → Place L)}
  (ran : run (act pool) (initial pool permits) schedule = some c)

include ran

/-- At every point of a run the accounts add up to what there was at its start. -/
theorem balance (account : Account L) :
    shared pool c.1 account + ∑ t, place pool (c.2 t) account + schedule.length * cost account =
      budget pool permits account := by
  have whole := congrFun (account_run (act_law pool) ran) account
  simp only [Threads.account, Pi.add_apply, Finset.sum_apply, Pi.smul_apply, smul_eq_mul] at whole
  rw [whole]
  cases account <;> simp [initial, budget, totalSteps]
  omega

theorem card_locks : (Finset.univ.filter fun t => (c.2 t).locks).card + c.1.lock = 1 := by
  have lock := balance ran .lock
  simp only [shared, place, cost, budget] at lock
  rw [Finset.card_filter]
  omega

/-- In every order of the steps no candidate is examined twice, no two threads hold the lock, and
no more jobs run than the semaphore permits. The counters stay within their bounds and do not wrap. -/
theorem jobs_exclusive : c.1.started.Nodup ∧ (∀ task ∈ c.1.started, task < pool.totalTasks) ∧
    (∀ t u, (c.2 t).locks → (c.2 u).locks → t = u) ∧
    (pool.semaphore → (Finset.univ.filter fun t => (c.2 t).permits).card ≤ permits) ∧
    c.1.nextTask ≤ pool.totalTasks + pool.solvers ∧ c.1.nextTask < 2 ^ 32 ∧
    c.1.completedTasks ≤ pool.totalTasks := by
  have once : ∀ i, c.1.started.count i ≤ if i < pool.totalTasks then 1 else 0 := by
    intro i
    have task := balance ran (.task i)
    simp only [shared, budget] at task
    omega
  have fetches : c.1.nextTask ≤ pool.totalTasks + pool.solvers := by
    have fetched := balance ran .fetched
    simp only [shared, budget] at fetched
    omega
  refine ⟨List.nodup_iff_count_le_one.mpr fun i => (once i).trans (by split <;> omega), ?_, ?_, ?_,
    fetches, fetches.trans_lt pool.noWrap, ?_⟩
  · intro i listed
    by_contra out
    have none := once i
    rw [if_neg out] at none
    exact Nat.not_lt.mpr none (List.count_pos_iff.mpr listed)
  · intro t u left right
    have few := Nat.le.intro (card_locks ran)
    exact Finset.card_le_one.mp few t (Finset.mem_filter.mpr ⟨Finset.mem_univ t, left⟩) u
      (Finset.mem_filter.mpr ⟨Finset.mem_univ u, right⟩)
  · intro semaphore
    have taken := balance ran .permits
    simp only [shared, place, cost, budget, Pool.permit, semaphore, if_true] at taken
    rw [Finset.card_filter]
    omega
  · have completed := balance ran .completed
    simp only [shared, budget] at completed
    omega

/-- Whoever holds the lock can go on. When it is free, so can whoever holds a permit. -/
theorem exists_step (permitted : pool.semaphore → 0 < permits) {t : Fin pool.solvers}
    (unfinished : c.2 t ≠ .exited) : ∃ u d, step (act pool) c u = some d := by
  have able : ∀ u, (act pool c.1 (c.2 u)).isSome → ∃ u d, step (act pool) c u = some d := by
    intro u some
    exact ⟨u, Option.isSome_iff_exists.mp (by rwa [step, Option.isSome_map])⟩
  by_cases held : ∃ u, (c.2 u).locks
  · obtain ⟨u, locks⟩ := held
    refine able u ?_
    cases here : c.2 u with
    | running leaks later => cases later <;> rfl
    | destroying | sending => rfl
    | _ => simp [here] at locks
  · have away : ∀ u, ¬ (c.2 u).locks := not_exists.mp held
    have lock : c.1.acquireLock.isSome := by
      have lock := card_locks ran
      rw [Finset.filter_false_of_mem fun u _ => away u, Finset.card_empty, Nat.zero_add] at lock
      rw [Shared.acquireLock, if_pos (lock ▸ Nat.one_pos)]
      rfl
    have holder : ∀ u, (c.2 u).permits → ∃ u d, step (act pool) c u = some d := by
      intro u holds
      have := away u
      refine able u ?_
      cases here : c.2 u <;> simp_all [act]
    by_cases short : c.1.permits < pool.permit
    · have taken := balance ran .permits
      have some : ∑ u, place pool (c.2 u) .permits ≠ 0 := by
        simp only [Pool.permit] at short
        split at short
        · have := permitted ‹_›
          simp only [shared, budget, cost] at taken
          omega
        · omega
      obtain ⟨u, -, holds⟩ := Finset.exists_ne_zero_of_sum_ne_zero some
      exact holder u (by_contra fun none => holds (by simp_all))
    · have := away t
      refine able t ?_
      cases here : c.2 t <;> simp_all [act]

theorem all_fetched (parallel : 0 < pool.maxParallel) (exited : ∀ t, c.2 t = .exited) :
    Finset.Ico c.1.nextTask pool.totalTasks = ∅ := by
  have fetched := balance ran .fetched
  simp only [shared, place, budget, cost, exited, Finset.sum_const_zero] at fetched
  have some : pool.totalTasks = 0 ∨ 0 < pool.solvers := by
    unfold Pool.solvers
    omega
  exact Finset.Ico_eq_empty_of_le (by omega)

/-- No order of the steps ends in a deadlock: every run goes on until it has taken all steps that
there are to take. -/
theorem pool_finishes (parallel : 0 < pool.maxParallel) (permitted : pool.semaphore → 0 < permits) :
    schedule.length ≤ totalSteps pool ∧
      (schedule.length < totalSteps pool → ∃ t d, step (act pool) c t = some d) := by
  have steps := balance ran .steps
  simp only [shared, budget, cost] at steps
  refine ⟨by omega, fun more => ?_⟩
  by_cases unfinished : ∃ t, c.2 t ≠ .exited
  · obtain ⟨t, unfinished⟩ := unfinished
    exact exists_step ran permitted unfinished
  · have exited : ∀ t, c.2 t = .exited := fun t => by_contra fun not => unfinished ⟨t, not⟩
    simp only [all_fetched ran parallel exited, Finset.sum_empty, place, exited, stepsLeft,
      Finset.sum_const_zero] at steps
    omega

/-- When all threads are done every candidate has been examined once, and all of the leaks that
the jobs found are there. -/
theorem exited_complete (parallel : 0 < pool.maxParallel) (exited : ∀ t, c.2 t = .exited) :
    c.1.started.Perm (List.range pool.totalTasks) ∧ c.1.completedTasks = pool.totalTasks ∧
      c.1.leaks.Perm ((List.range pool.totalTasks).flatMap pool.found) ∧ c.1.permits = permits := by
  have none := all_fetched ran parallel exited
  have permits := balance ran .permits
  have completed := balance ran .completed
  simp [exited, cost, budget] at permits completed
  refine ⟨List.perm_iff_count.mpr fun i => ?_, ?_, List.perm_iff_count.mpr fun l => ?_, permits⟩
  · have task := balance ran (.task i)
    simp [exited, cost, budget, none] at task
    rw [List.nodup_range.count, task]
    simp
  · rw [Finset.Ico_eq_empty_iff] at none
    omega
  · have leak := balance ran (.leak l)
    simp [exited, cost, budget, none] at leak
    rw [List.count_flatMap]
    exact leak

end

/-- Two threads with a job each, that finds one leak after it has used its solver. -/
def pair : Pool Nat := ⟨2, 2, fun task => ([], [[task]]), true, false, by decide⟩

/-- The second thread is in its job while the first uses its solver, and the other way round. -/
def interleaved : List (Fin 2) := [0, 1, 0, 1, 0, 0, 1, 1, 0, 0, 0, 1, 1, 1, 0, 1, 0, 1]

theorem pair_exclusive : ∃ c, run (act pair) (initial pair 2) (interleaved.take 7) = some c ∧
    c.1.started = [0, 1] ∧ c.1.started.Nodup ∧ (∀ t u, (c.2 t).locks → (c.2 u).locks → t = u) ∧
    (Finset.univ.filter fun t => (c.2 t).permits).card ≤ 2 := by
  obtain ⟨c, ran, started⟩ : ∃ c, run (act pair) (initial pair 2) (interleaved.take 7) = some c ∧
      c.1.started = [0, 1] := ⟨_, rfl, rfl⟩
  obtain ⟨once, -, alone, permitted, -⟩ := jobs_exclusive ran
  exact ⟨c, ran, started, once, alone, permitted rfl⟩

theorem pair_finishes : ∃ c, run (act pair) (initial pair 2) (interleaved.take 7) = some c ∧
    ∃ t d, step (act pair) c t = some d := by
  obtain ⟨c, ran⟩ : ∃ c, run (act pair) (initial pair 2) (interleaved.take 7) = some c := ⟨_, rfl⟩
  exact ⟨c, ran, (pool_finishes ran (by decide) (by decide)).2 (by decide)⟩

theorem pair_complete : ∃ c, run (act pair) (initial pair 2) interleaved = some c ∧
    c.1.started.Perm [0, 1] ∧ c.1.leaks.Perm [0, 1] ∧ c.1.permits = 2 := by
  obtain ⟨c, ran, exited⟩ : ∃ c, run (act pair) (initial pair 2) interleaved = some c ∧
      ∀ t, c.2 t = .exited :=
    ⟨_, rfl, fun (t : Fin 2) => match t with | 0 => rfl | 1 => rfl⟩
  obtain ⟨started, -, leaks, permits⟩ := exited_complete ran (by decide) exited
  exact ⟨c, ran, started, leaks, permits⟩

end Clou.DetectorMain
