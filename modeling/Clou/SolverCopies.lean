import Mathlib.Algebra.GroupWithZero.Nat
import Mathlib.Data.List.Nodup
import Mathlib.Data.List.Perm.Basic
import Mathlib.Data.List.Range
import Mathlib.Logic.Function.Basic

/-! The solvers of the workers: the first is a translation of the detector's own solver, and the
others are translated from one another in rounds of threads that double their number. -/

namespace Clou.SolverCopies

/-- A solver, with its context and the number of its open scopes. -/
structure Solver (A : Type) where
  ctx : Nat
  scopes : Nat
  assertions : List A
  deriving DecidableEq, Repr

/-- What ends the function without a result: an exception, which a thread cannot pass on
either, or, in this model only, the end of the fuel. -/
inductive Abort
  | exception
  | fuel
  deriving DecidableEq, Repr

abbrev Copy := Nat × Nat

inductive Thread (A : Type)
  | reading (copy : Copy)
  | assigning (copy : Copy) (result : Solver A)

structure Round (A : Type) where
  slots : Nat → Solver A
  unspawned : List Copy
  threads : List (Thread A)
  done : List Copy

section

variable {A : Type}

def translate (s : Solver A) (ctx : Nat) : Except Abort (Solver A) :=
  if s.scopes ≠ 0 then .error .exception else .ok ⟨ctx, 0, s.assertions⟩

def parallelContext (slot : Nat) : Solver A := ⟨slot, 0, []⟩

def copies (N idx : Nat) : List Copy :=
  ((List.range idx).filter fun i => idx + i < N).map fun i => (i, idx + i)

namespace Round

/-- The threads that run, and the one that makes them while it has some left to make. -/
def actors (r : Round A) : Nat := r.threads.length + if r.unspawned = [] then 0 else 1

/-- A step of one of the actors. A thread reads its source in one step and assigns its target
in another, and `at` checks the slots of a new thread. -/
def step (N : Nat) (r : Round A) (actor : Nat) : Except Abort (Round A) :=
  match r.threads.drop actor, r.unspawned with
  | .reading copy :: after, _ => do
    let result ← translate (r.slots copy.1) (r.slots copy.2).ctx
    return { r with threads := r.threads.take actor ++ .assigning copy result :: after }
  | .assigning copy result :: after, _ =>
    return { r with
      slots := Function.update r.slots copy.2 result
      threads := r.threads.take actor ++ after
      done := r.done ++ [copy] }
  | [], copy :: rest =>
    if copy.1 < N ∧ copy.2 < N then
      return { r with unspawned := rest, threads := r.threads ++ [.reading copy] }
    else throw .exception
  | [], [] => return r

/-- A round up to the last `join`, in the order that a schedule gives to the steps. -/
def run (N : Nat) (schedule : Nat → Nat) : Nat → Round A → Except Abort (Round A)
  | fuel, r =>
    if r.actors = 0 then return r
    else match fuel with
      | 0 => throw .fuel
      | fuel + 1 => do
        let r ← r.step N (schedule fuel % r.actors)
        r.run N schedule fuel

end Round

/-- The slots, and the assignments by rounds, each with the slot that is its source or none
where the source is the detector's solver. -/
abbrev Result (A : Type) := (Nat → Solver A) × List (List (Option Nat × Nat))

def createLoop (N : Nat) (schedule : Nat → Nat → Nat) (fuel : Nat) :
    Nat → Nat → Result A → Except Abort (Result A)
  | rounds, idx, (slots, log) =>
    if idx < N then match rounds with
      | 0 => throw .fuel
      | rounds + 1 => do
        let r ← Round.run N (schedule idx) fuel ⟨slots, copies N idx, [], []⟩
        createLoop N schedule fuel rounds (idx * 2 % 2 ^ 64)
          (r.slots, log ++ [r.done.map fun copy => (some copy.1, copy.2)])
    else return (slots, log)

def createSolvers (schedule : Nat → Nat → Nat) (fuel : Nat) (fromSolver : Solver A) (N : Nat) :
    Except Abort (Result A) :=
  if N = 0 then return (parallelContext, [])
  else do
    let first ← translate fromSolver (parallelContext 0 : Solver A).ctx
    createLoop N schedule fuel fuel 1 (Function.update parallelContext 0 first, [[(none, 0)]])

end

section Rounds

variable {A : Type} {N : Nat} {slots : Nat → Solver A} {all : List Copy} {r r' : Round A}

/-- Threads that can run in any order: they write different slots, and read none of them. -/
structure Independent (N : Nat) (slots : Nat → Solver A) (all : List Copy) : Prop where
  within : ∀ {copy}, copy ∈ all → copy.1 < N ∧ copy.2 < N
  distinct : (all.map Prod.snd).Nodup
  apart : ∀ {copy}, copy ∈ all → copy.1 ∉ all.map Prod.snd
  unscoped : ∀ {copy}, copy ∈ all → (slots copy.1).scopes = 0

def Thread.copy : Thread A → Copy
  | .reading copy => copy
  | .assigning copy _ => copy

def copied (slots : Nat → Solver A) (copy : Copy) : Solver A :=
  ⟨(slots copy.2).ctx, 0, (slots copy.1).assertions⟩

/-- Every thread of the round is still to be made, runs or is done. The slots are as they were,
but for those that are assigned. -/
structure Round.Sound (slots : Nat → Solver A) (all : List Copy) (r : Round A) : Prop where
  split : (r.unspawned ++ (r.threads.map Thread.copy ++ r.done)).Perm all
  assigned : ∀ {copy}, copy ∈ r.done → r.slots copy.2 = copied slots copy
  kept : ∀ {k}, k ∉ r.done.map Prod.snd → r.slots k = slots k
  held : ∀ {copy result}, Thread.assigning copy result ∈ r.threads → result = copied slots copy

def Thread.weight : Thread A → Nat
  | .reading _ => 2
  | .assigning _ _ => 1

def Round.weight (r : Round A) : Nat :=
  3 * r.unspawned.length + (r.threads.map Thread.weight).sum

namespace Round.Sound

theorem mem_thread (sound : Sound slots all r) {t : Thread A} (running : t ∈ r.threads) :
    t.copy ∈ all :=
  sound.split.subset (List.mem_append_right _ (List.mem_append_left _ (List.mem_map_of_mem running)))

theorem mem_done (sound : Sound slots all r) {copy : Copy} (listed : copy ∈ r.done) : copy ∈ all :=
  sound.split.subset (List.mem_append_right _ (List.mem_append_right _ listed))

theorem source (independent : Independent N slots all) (sound : Sound slots all r) {copy : Copy}
    (listed : copy ∈ all) : r.slots copy.1 = slots copy.1 := by
  apply sound.kept
  intro assigned
  obtain ⟨other, done, target⟩ := List.mem_map.mp assigned
  exact independent.apart listed (target ▸ List.mem_map_of_mem (sound.mem_done done))

/-- The target of a thread is not assigned before the thread does so. -/
theorem target (independent : Independent N slots all) (sound : Sound slots all r) {t : Thread A}
    (running : t ∈ r.threads) : t.copy.2 ∉ r.done.map Prod.snd := by
  have distinct := (sound.split.map Prod.snd).nodup_iff.mpr independent.distinct
  rw [List.map_append, List.map_append] at distinct
  have apart := (List.nodup_append.mp (List.nodup_append.mp distinct).2.1).2.2
  intro assigned
  exact apart _ (List.mem_map_of_mem (List.mem_map_of_mem running)) _ assigned rfl

variable {now : Nat → Solver A} {unspawned done : List Copy} {threads before after : List (Thread A)}
  {copy : Copy} {result : Solver A}

theorem read (sound : Sound slots all ⟨now, unspawned, before ++ .reading copy :: after, done⟩) :
    Sound slots all
      ⟨now, unspawned, before ++ .assigning copy (copied slots copy) :: after, done⟩ where
  split := by simpa [Thread.copy] using sound.split
  assigned := sound.assigned
  kept := sound.kept
  held := by
    intro other result held
    rcases List.mem_append.mp held with earlier | later
    · exact sound.held (List.mem_append_left _ earlier)
    · rcases List.mem_cons.mp later with same | later
      · cases same
        rfl
      · exact sound.held (List.mem_append_right _ (List.mem_cons_of_mem _ later))

theorem assign (independent : Independent N slots all)
    (sound : Sound slots all ⟨now, unspawned, before ++ .assigning copy result :: after, done⟩) :
    Sound slots all ⟨Function.update now copy.2 result, unspawned, before ++ after, done ++ [copy]⟩ := by
  have here : Thread.assigning copy result ∈ before ++ .assigning copy result :: after :=
    List.mem_append_right _ List.mem_cons_self
  have fresh : copy.2 ∉ done.map Prod.snd := sound.target independent here
  have others : (before ++ after).Sublist (before ++ .assigning copy result :: after) :=
    (List.sublist_cons_self _ after).append_left before
  constructor
  · refine List.Perm.trans ?_ sound.split
    rw [List.perm_iff_count]
    intro other
    simp only [List.map_append, List.map_cons, List.count_append, List.count_cons, List.count_nil,
      Thread.copy]
    omega
  · intro other listed
    rcases List.mem_append.mp listed with earlier | last
    · have apart : other.2 ≠ copy.2 := fun same => fresh (same ▸ List.mem_map_of_mem earlier)
      exact (Function.update_of_ne apart ..).trans (sound.assigned earlier)
    · rw [List.mem_singleton.mp last]
      exact (Function.update_self ..).trans (sound.held here)
  · intro k unassigned
    rw [List.map_append, List.mem_append, not_or] at unassigned
    have apart : k ≠ copy.2 := by simpa using unassigned.2
    exact (Function.update_of_ne apart ..).trans (sound.kept unassigned.1)
  · exact fun held => sound.held (others.subset held)

theorem spawn (sound : Sound slots all ⟨now, copy :: unspawned, threads, done⟩) :
    Sound slots all ⟨now, unspawned, threads ++ [.reading copy], done⟩ where
  split := by
    refine List.Perm.trans ?_ sound.split
    rw [List.perm_iff_count]
    intro other
    simp only [List.map_append, List.map_cons, List.map_nil, List.count_append, List.count_cons,
      List.count_nil, Thread.copy]
    omega
  assigned := sound.assigned
  kept := sound.kept
  held := by
    intro other result held
    rcases List.mem_append.mp held with old | new
    · exact sound.held old
    · cases List.mem_singleton.mp new

/-- Each step of any actor succeeds and keeps what holds of the round. -/
theorem step (independent : Independent N slots all) (sound : Sound slots all r) {actor : Nat}
    (chosen : actor < r.actors) :
    ∃ r', r.step N actor = .ok r' ∧ Sound slots all r' ∧ r'.weight < r.weight := by
  obtain ⟨now, unspawned, threads, done⟩ := r
  cases running : threads.drop actor with
  | cons t after =>
    have split : threads.take actor ++ t :: after = threads := by
      rw [← running, List.take_append_drop]
    have total : (threads.map Thread.weight).sum =
        ((threads.take actor).map Thread.weight).sum +
          (t.weight + (after.map Thread.weight).sum) := by
      conv_lhs => rw [← split]
      rw [List.map_append, List.sum_append, List.map_cons, List.sum_cons]
    cases t with
    | reading copy =>
      have here : Thread.reading copy ∈ threads := split ▸ List.mem_append_right _ List.mem_cons_self
      have listed : copy ∈ all := sound.mem_thread here
      have source : now copy.1 = slots copy.1 := sound.source independent listed
      have target : now copy.2 = slots copy.2 := sound.kept (sound.target independent here)
      have result : translate (now copy.1) (now copy.2).ctx = .ok (copied slots copy) := by
        rw [source, target, translate, if_neg (not_not.mpr (independent.unscoped listed)), copied]
      simp only [Round.step, running, result]
      refine ⟨_, rfl, read (split.symm ▸ sound), ?_⟩
      simp only [weight, total, List.map_append, List.map_cons, List.sum_append, List.sum_cons,
        Thread.weight]
      omega
    | assigning copy result =>
      simp only [Round.step, running]
      refine ⟨_, rfl, assign independent (split.symm ▸ sound), ?_⟩
      simp only [weight, total, List.map_append, List.sum_append, Thread.weight]
      omega
  | nil =>
    have passed : threads.length ≤ actor := List.drop_eq_nil_iff.mp running
    cases unspawned with
    | nil =>
      simp only [actors, if_true] at chosen
      omega
    | cons copy unspawned =>
      have within := independent.within (sound.split.subset List.mem_cons_self)
      simp only [Round.step, running, if_pos within]
      refine ⟨_, rfl, sound.spawn, ?_⟩
      simp only [weight, List.map_append, List.map_cons, List.map_nil, List.sum_append,
        List.sum_cons, List.sum_nil, List.length_cons, Thread.weight]
      omega

theorem ended (sound : Sound slots all r) (ended : r.actors = 0) : r.done.Perm all := by
  obtain ⟨now, unspawned, threads, done⟩ := r
  cases unspawned with
  | nil =>
    have none : threads = [] := List.eq_nil_of_length_eq_zero ended
    subst none
    exact sound.split
  | cons copy unspawned => cases ended

/-- Whatever the schedule, the threads of a round all end, and have made the copies. -/
theorem run (independent : Independent N slots all) (sound : Sound slots all r)
    (schedule : Nat → Nat) {fuel : Nat} (enough : r.weight ≤ fuel) :
    ∃ r', r.run N schedule fuel = .ok r' ∧ Sound slots all r' ∧ r'.done.Perm all := by
  induction fuel generalizing r with
  | zero =>
    unfold Round.run
    split
    · exact ⟨r, rfl, sound, sound.ended ‹_›⟩
    · obtain ⟨r', -, -, less⟩ := sound.step independent (Nat.pos_of_ne_zero ‹_›)
      omega
  | succ fuel ih =>
    unfold Round.run
    split
    · exact ⟨r, rfl, sound, sound.ended ‹_›⟩
    · have chosen := Nat.mod_lt (schedule fuel) (Nat.pos_of_ne_zero ‹_›)
      obtain ⟨r', steps, sound', less⟩ := sound.step independent chosen
      simp only [steps]
      exact ih sound' (by omega)

end Round.Sound

end Rounds

section Doubling

variable {A : Type} {N idx : Nat} {slots : Nat → Solver A}

theorem mem_copies {copy : Copy} :
    copy ∈ copies N idx ↔ copy.1 < idx ∧ copy.2 = idx + copy.1 ∧ copy.2 < N := by
  obtain ⟨i, j⟩ := copy
  simp only [copies, List.mem_map, List.mem_filter, List.mem_range, decide_eq_true_eq, Prod.mk.injEq]
  constructor
  · intro listed
    obtain ⟨_, ⟨below, within⟩, rfl, rfl⟩ := listed
    exact ⟨below, rfl, within⟩
  · intro listed
    obtain ⟨below, rfl, within⟩ := listed
    exact ⟨i, ⟨below, within⟩, rfl, rfl⟩

theorem mem_targets {k : Nat} : k ∈ (copies N idx).map Prod.snd ↔ idx ≤ k ∧ k < 2 * idx ∧ k < N := by
  rw [List.mem_map]
  constructor
  · intro listed
    obtain ⟨copy, member, rfl⟩ := listed
    have listed := mem_copies.mp member
    omega
  · intro bounds
    exact ⟨(k - idx, k), mem_copies.mpr (by dsimp only; omega), rfl⟩

theorem nodup_targets : ((copies N idx).map Prod.snd).Nodup := by
  rw [copies, List.map_map]
  exact List.Nodup.map (fun i j same => Nat.add_left_cancel same) (List.nodup_range.filter _)

theorem copies_independent (unscoped : ∀ k < idx, (slots k).scopes = 0) :
    Independent N slots (copies N idx) where
  within member := by
    have listed := mem_copies.mp member
    omega
  distinct := nodup_targets
  apart member target := by
    have listed := mem_copies.mp member
    have bounds := mem_targets.mp target
    omega
  unscoped member := unscoped _ (mem_copies.mp member).1

/-- The slots below a bound are copies of a solver with the assertions, and every slot keeps its
own context. -/
structure Copied (assertions : List A) (bound : Nat) (slots : Nat → Solver A) : Prop where
  own : ∀ k, (slots k).ctx = k
  below : ∀ k < bound, slots k = ⟨k, 0, assertions⟩

/-- A round copies to the slots up to twice its index, and leaves the others alone. -/
theorem Copied.round {assertions : List A} (start : Copied assertions idx slots)
    (schedule : Nat → Nat) {fuel : Nat} (enough : 3 * idx ≤ fuel) :
    ∃ r, Round.run N schedule fuel ⟨slots, copies N idx, [], []⟩ = .ok r ∧
      r.done.Perm (copies N idx) ∧ Copied assertions (min (idx * 2) N) r.slots := by
  have sound : Round.Sound slots (copies N idx) ⟨slots, copies N idx, [], []⟩ :=
    ⟨by simp, nofun, fun _ => rfl, nofun⟩
  have independent : Independent N slots (copies N idx) :=
    copies_independent fun k below => by rw [start.below k below]
  have length : (copies N idx).length ≤ idx := by
    rw [copies, List.length_map]
    exact (List.length_filter_le ..).trans List.length_range.le
  have steps : Round.weight (A := A) ⟨slots, copies N idx, [], []⟩ ≤ fuel := by
    simp only [Round.weight, List.map_nil, List.sum_nil]
    omega
  obtain ⟨r, runs, sound, ends⟩ := sound.run independent schedule steps
  have assigned {k : Nat} (target : idx ≤ k ∧ k < 2 * idx ∧ k < N) :
      r.slots k = copied slots (k - idx, k) := by
    have listed : (k - idx, k) ∈ copies N idx := mem_copies.mpr (by dsimp only; omega)
    exact sound.assigned (ends.mem_iff.mpr listed)
  have kept {k : Nat} (other : ¬ (idx ≤ k ∧ k < 2 * idx ∧ k < N)) : r.slots k = slots k :=
    sound.kept fun target => other (mem_targets.mp ((ends.map Prod.snd).mem_iff.mp target))
  refine ⟨r, runs, ends, fun k => ?_, fun k below => ?_⟩
  · by_cases target : idx ≤ k ∧ k < 2 * idx ∧ k < N
    · rw [assigned target, copied, start.own]
    · rw [kept target, start.own]
  · by_cases target : idx ≤ k ∧ k < 2 * idx ∧ k < N
    · rw [assigned target, copied, start.own, start.below (k - idx) (by omega)]
    · rw [kept target, start.below k (by omega)]

/-- Every slot is assigned once, slot 0 from the detector's solver and every other from a slot that
an earlier round has assigned. In a round no source is a target, and the targets differ. -/
structure EachOnce (N : Nat) (rounds : List (List (Option Nat × Nat))) : Prop where
  once : (rounds.flatten.map Prod.snd).Perm (List.range N)
  first : ∀ copy ∈ rounds.flatten, copy.1 = none ↔ copy.2 = 0
  earlier : ∀ {n round}, rounds[n]? = some round → ∀ {i j}, (some i, j) ∈ round →
    i ∈ (rounds.take n).flatten.map Prod.snd
  apart : ∀ round ∈ rounds, ∀ {i j}, (some i, j) ∈ round → i ∉ round.map Prod.snd
  distinct : ∀ round ∈ rounds, (round.map Prod.snd).Nodup

theorem EachOnce.snoc {rounds : List (List (Option Nat × Nat))} (each : EachOnce idx rounds)
    (positive : 0 < idx) (more : idx < N) {done : List Copy} (ends : done.Perm (copies N idx)) :
    EachOnce (min (idx * 2) N) (rounds ++ [done.map fun copy => (some copy.1, copy.2)]) := by
  have targets : (done.map fun copy => (some copy.1, copy.2)).map Prod.snd = done.map Prod.snd := by
    rw [List.map_map]
    rfl
  have mem_round {i j : Nat} (member : (some i, j) ∈ done.map fun copy => (some copy.1, copy.2)) :
      i < idx ∧ j = idx + i := by
    obtain ⟨copy, listed, same⟩ := List.mem_map.mp member
    cases same
    have source := mem_copies.mp (ends.mem_iff.mp listed)
    exact ⟨source.1, source.2.1⟩
  constructor
  · rw [List.flatten_append, List.map_append, List.flatten_singleton, targets]
    refine (each.once.append (ends.map Prod.snd)).trans ?_
    have apart : (List.range idx ++ (copies N idx).map Prod.snd).Nodup := by
      refine List.nodup_append.mpr ⟨List.nodup_range, nodup_targets, fun k old l new same => ?_⟩
      have below := List.mem_range.mp old
      have above := mem_targets.mp new
      omega
    rw [List.perm_ext_iff_of_nodup apart List.nodup_range]
    intro k
    rw [List.mem_append, List.mem_range, List.mem_range, mem_targets]
    omega
  · intro copy listed
    rw [List.flatten_append, List.flatten_singleton] at listed
    rcases List.mem_append.mp listed with old | new
    · exact each.first copy old
    · obtain ⟨⟨i, j⟩, member, rfl⟩ := List.mem_map.mp new
      have target := (mem_round new).2
      exact iff_of_false nofun (by dsimp only; omega)
  · intro n round found i j member
    rcases Nat.lt_or_ge n rounds.length with old | new
    · rw [List.getElem?_append_left old] at found
      rw [List.take_append_of_le_length old.le]
      exact each.earlier found member
    · rw [List.getElem?_append_right new, List.getElem?_singleton] at found
      split at found
      · cases found
        have all : n = rounds.length := by omega
        rw [all, List.take_left, each.once.mem_iff]
        exact List.mem_range.mpr (mem_round member).1
      · cases found
  · intro round listed i j member
    rcases List.mem_append.mp listed with old | new
    · exact each.apart round old member
    · rw [List.mem_singleton.mp new] at member ⊢
      have source := (mem_round member).1
      rw [targets, (ends.map Prod.snd).mem_iff, mem_targets]
      omega
  · intro round listed
    rcases List.mem_append.mp listed with old | new
    · exact each.distinct round old
    · rw [List.mem_singleton.mp new, targets]
      exact (ends.map Prod.snd).nodup_iff.mpr nodup_targets

theorem createLoop_copies {assertions : List A} {log : List (List (Option Nat × Nat))}
    (start : Copied assertions (min idx N) slots) (each : EachOnce (min idx N) log)
    (positive : 0 < idx) (unsigned : N < 2 ^ 32) (schedule : Nat → Nat → Nat) {fuel rounds : Nat}
    (enough : 3 * N ≤ fuel) (enoughRounds : N - idx ≤ rounds) :
    ∃ last log', createLoop N schedule fuel rounds idx (slots, log) = .ok (last, log') ∧
      EachOnce N log' ∧ Copied assertions N last := by
  induction rounds generalizing idx slots log with
  | zero =>
    have past : N ≤ idx := by omega
    rw [Nat.min_eq_right past] at start each
    unfold createLoop
    rw [if_neg past.not_gt]
    exact ⟨slots, log, rfl, each, start⟩
  | succ rounds ih =>
    unfold createLoop
    split
    · rename_i more
      rw [Nat.min_eq_left more.le] at start each
      obtain ⟨r, runs, ends, copied⟩ := start.round (N := N) (schedule idx) (show 3 * idx ≤ fuel by omega)
      have fits : idx * 2 % 2 ^ 64 = idx * 2 := Nat.mod_eq_of_lt (by omega)
      simp only [runs, fits, bind, Except.bind]
      exact ih copied (each.snoc positive more ends) (by omega) (by omega)
    · rename_i past
      rw [Nat.min_eq_right (not_lt.mp past)] at start each
      exact ⟨slots, log, rfl, each, start⟩

end Doubling

/-- A solver without open scopes is copied to every slot, for every number of workers and every
order of the threads' steps. One with open scopes is not copied at all. -/
theorem createSolvers_copies {A : Type} (fromSolver : Solver A) (N : Nat) (unsigned : N < 2 ^ 32)
    (schedule : Nat → Nat → Nat) (fuel : Nat) (enough : 3 * N ≤ fuel) :
    (fromSolver.scopes = 0 ∨ N = 0 → ∃ slots rounds,
      createSolvers schedule fuel fromSolver N = .ok (slots, rounds) ∧ EachOnce N rounds ∧
        ∀ k < N, slots k = ⟨k, 0, fromSolver.assertions⟩) ∧
    (fromSolver.scopes ≠ 0 ∧ N ≠ 0 →
      createSolvers schedule fuel fromSolver N = .error .exception) := by
  by_cases none : N = 0
  · subst none
    refine ⟨fun _ => ⟨parallelContext, [], rfl, ?_, nofun⟩, fun some => absurd rfl some.2⟩
    constructor
    all_goals simp
  · unfold createSolvers translate
    rw [if_neg none]
    constructor
    · intro unscoped
      have closed : ¬ fromSolver.scopes ≠ 0 := by omega
      have one : min 1 N = 1 := by omega
      have start : Copied fromSolver.assertions (min 1 N)
          (Function.update parallelContext 0 ⟨0, 0, fromSolver.assertions⟩) := by
        refine ⟨fun k => ?_, fun k below => ?_⟩
        · by_cases zero : k = 0
          · subst zero
            rw [Function.update_self]
          · rw [Function.update_of_ne zero, parallelContext]
        · obtain rfl : k = 0 := by omega
          exact Function.update_self ..
      have each : EachOnce (min 1 N) [[(Option.none, 0)]] := by
        rw [one]
        refine ⟨by simp, by simp, fun found _ _ member => ?_, by simp, by simp⟩
        rw [List.mem_singleton.mp (List.mem_of_getElem? found)] at member
        simp at member
      obtain ⟨last, log, loops, each, all⟩ := createLoop_copies start each Nat.one_pos unsigned
        schedule enough (show N - 1 ≤ fuel by omega)
      rw [if_neg closed]
      exact ⟨last, log, loops, each, all.below⟩
    · intro failing
      rw [if_pos failing.1]
      rfl

theorem createSolvers_three :
    3 < 2 ^ 32 ∧ 3 * 3 ≤ 9 ∧ ∃ slots rounds,
      createSolvers (fun _ step => step) 9 (⟨7, 0, [true]⟩ : Solver Bool) 3 = .ok (slots, rounds) ∧
        EachOnce 3 rounds ∧ ∀ k < 3, slots k = ⟨k, 0, [true]⟩ :=
  ⟨by decide, le_rfl, (createSolvers_copies (⟨7, 0, [true]⟩ : Solver Bool) 3 (by decide)
    (fun _ step => step) 9 le_rfl).1 (.inl rfl)⟩

/-- A solver with an open scope is not copied, for a single worker in whatever order. -/
theorem scope_not_copied :
    ¬ ∃ schedule fuel result, createSolvers schedule fuel (⟨7, 1, [true]⟩ : Solver Bool) 1 = .ok result := by
  intro made
  obtain ⟨schedule, fuel, result, run⟩ := made
  cases run

end Clou.SolverCopies
