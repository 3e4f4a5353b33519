import Mathlib.Data.List.Chain
import Clou.DetectorJob

/-! A job with its stack of actions beside the search that passes its chain along. -/

namespace Clou.DetectorJob

open Z3 Leakage Procedure
open Backtrack (Oracle CheckResult State)

/-- The actions, the oldest first, lead from `ref` to `target`. -/
def Linked : NodeRef → List Action → NodeRef → Prop
  | target, [], ref => ref = target
  | target, action :: newer, ref => action.dst = target ∧ Linked action.src newer ref

variable {target ref : NodeRef} {stack : List Action}

theorem Linked.push {src : NodeRef} (linked : Linked target stack ref) (kind : EdgeKind) :
    Linked target (stack ++ [⟨src, kind, ref⟩]) src := by
  induction stack generalizing target with
  | nil => exact ⟨linked, rfl⟩
  | cons action newer ih => exact ⟨linked.1, ih linked.2⟩

theorem Linked.oldest (linked : Linked target stack ref) {action : Action}
    (first : stack.head? = some action) : action.dst = target := by
  cases stack with
  | nil => cases first
  | cons _ newer =>
    cases first
    exact linked.1

theorem Linked.chain (linked : Linked target stack ref) :
    stack.reverse.IsChain fun newer older => newer.dst = older.src := by
  rw [List.isChain_reverse]
  induction stack generalizing target with
  | nil => exact .nil
  | cons action newer ih =>
    rw [List.isChain_cons]
    exact ⟨fun next first => linked.2.oldest first, ih linked.2⟩

section Follows

variable {V : Type} {config : Config} {oracle : Oracle (BoolExpr V)} {transmitter : NodeRef}

/-- Between the steps of a search the stack holds the actions of the chain, and what was put out
are the leaks; `armed` says that the last lookahead is known to have succeeded. -/
structure Agree (config : Config) (transmitter : NodeRef) (armed : Prop) (chain : List (Step V))
    (job : DetectorJob V) (s : State (BoolExpr V) (Event V)) : Prop where
  asserted : job.asserted = s.asserted
  checks : job.checks = s.checks
  actions : job.actions = Leakage.actions chain
  leaks : job.outputs.map (·.leak) = s.events.filterMap Event.leaks
  armed : armed → job.lookaheadTmp = true
  unused : config.useLookahead = false → job.lookaheadTmp = true
  linked : ∀ output ∈ job.outputs, output.lookaheadTmp = true ∧
    config.deps.length ≤ output.leak.actions.length ∧
      ∃ ref, Linked transmitter output.leak.actions ref

def Follows (config : Config) (transmitter : NodeRef) (before after : Prop) (chain : List (Step V))
    (m : Thunk V) (r : Run V) : Prop :=
  ∀ job s, Agree config transmitter before chain job s →
    (m job).1 = (r s).1 ∧ Agree config transmitter after chain (m job).2 (r s).2

variable {before between after : Prop} {chain : List (Step V)} {m n trial : Thunk V}
  {r q trial' : Run V} {mode : CheckMode}

theorem Agree.weaken {job : DetectorJob V} {s : State (BoolExpr V) (Event V)}
    (agree : Agree config transmitter before chain job s) (known : after → before) :
    Agree config transmitter after chain job s :=
  { agree with armed := fun need => agree.armed (known need) }

theorem Follows.weaken {before' after' : Prop} (run : Follows config transmitter before after chain m r)
    (less : before → before') (more : after' → after) :
    Follows config transmitter before' after' chain m r := by
  intro job s agree
  obtain ⟨same, ended⟩ := run job s (agree.weaken less)
  exact ⟨same, ended.weaken more⟩

theorem follows_throw (outcome : Backtrack.Outcome) :
    Follows config transmitter before before chain (throw outcome : Thunk V)
      (Backtrack.throw outcome) :=
  fun _ _ agree => ⟨rfl, agree⟩

theorem follows_skip :
    Follows config transmitter before before chain (skip : Thunk V) Backtrack.skip :=
  follows_throw .done

theorem follows_add (facts : List (BoolExpr V)) :
    Follows config transmitter before before chain (solverAdd facts) (Backtrack.add facts) :=
  fun _ _ agree => ⟨rfl, { agree with asserted := congrArg (· ++ facts) agree.asserted }⟩

theorem follows_invoked (invocation : State (BoolExpr V) (Event V) → Invocation V) :
    Follows config transmitter before before chain (skip : Thunk V)
      (fun s => Backtrack.emit (.invoked (invocation s)) s) := by
  intro job s agree
  refine ⟨rfl, { agree with leaks := ?_ }⟩
  exact agree.leaks.trans (List.filterMap_append.trans (List.append_nil _)).symm

theorem Follows.seq (first : Follows config transmitter before between chain m r)
    (second : Follows config transmitter between after chain n q) (known : after → between) :
    Follows config transmitter before after chain (seq m n) (Backtrack.seq r q) := by
  intro job s agree
  obtain ⟨same, ended⟩ := first job s agree
  change ((if (m job).1 = .done then n else throw (m job).1) (m job).2).1 = _ ∧
    Agree _ _ _ chain ((if (m job).1 = .done then n else throw (m job).1) (m job).2).2 _
  unfold Backtrack.seq
  cases run : r s with
  | mk outcome t =>
    rw [run] at same ended
    rw [same]
    cases outcome with
    | done => exact second _ _ ended
    | found => exact ⟨rfl, ended.weaken known⟩
    | next => exact ⟨rfl, ended.weaken known⟩
    | aborted => exact ⟨rfl, ended.weaken known⟩

theorem Follows.ite {condition : Prop} [Decidable condition]
    (yes : Follows config transmitter before after chain m r)
    (no : Follows config transmitter before after chain n q) :
    Follows config transmitter before after chain (if condition then m else n)
      (if condition then r else q) := by
  by_cases holds : condition
  · rwa [if_pos holds, if_pos holds]
  · rwa [if_neg holds, if_neg holds]

theorem Follows.ask {limit : Bool} {answer : CheckResult → Thunk V} {answer' : CheckResult → Run V}
    (each : ∀ result, Follows config transmitter before after chain (answer result)
      (answer' result)) :
    Follows config transmitter before after chain (solverCheck oracle limit answer)
      (Backtrack.ask oracle limit answer') := by
  intro job s agree
  have counted : Agree config transmitter before chain { job with checks := job.checks + 1 }
      { s with checks := s.checks + 1 } :=
    { agree with checks := congrArg (· + 1) agree.checks }
  have asked := each (oracle limit s.checks s.asserted) _ _ counted
  unfold solverCheck Backtrack.ask
  rwa [agree.checks, agree.asserted] at *

theorem Follows.scope (inner : Follows config transmitter before after chain m r) :
    Follows config transmitter before after chain ((ops oracle).scope m)
      ((Leakage.ops oracle).scope r) := by
  intro job s agree
  obtain ⟨same, ended⟩ := inner job s agree
  exact ⟨same, { ended with asserted := agree.asserted }⟩

theorem Follows.unlessUnsat (inner : Follows config transmitter before after chain m r)
    (known : after → before) :
    Follows config transmitter before after chain ((ops oracle).unlessUnsat mode m)
      ((Leakage.ops oracle).unlessUnsat mode r) := by
  refine Follows.ite (Follows.ask fun result => ?_) inner
  exact (follows_skip.weaken id known).ite inner

/-- The stack is that of the longer chain inside, and that of the chain again outside. -/
theorem Follows.push {step : Step V} {action : Action} (taken : step.action = some action)
    (inner : Follows config transmitter before after (chain ++ [step]) m r) :
    Follows config transmitter before after chain (push action m) r := by
  intro job s agree
  have pushed : Leakage.actions (chain ++ [step]) = Leakage.actions chain ++ [action] := by
    simp [Leakage.actions, taken]
  have entered : Agree config transmitter before (chain ++ [step])
      { job with actions := job.actions ++ [action] } s :=
    { agree with actions := by rw [pushed, agree.actions] }
  obtain ⟨same, ended⟩ := inner _ _ entered
  refine ⟨same, { ended with actions := ?_ }⟩
  change (m _).2.actions.dropLast = _
  rw [ended.actions, pushed, List.dropLast_concat]

theorem Follows.congr {chain' : List (Step V)} (same : Leakage.actions chain = Leakage.actions chain')
    (inner : Follows config transmitter before after chain' m r) :
    Follows config transmitter before after chain m r := by
  intro job s agree
  obtain ⟨outcome, ended⟩ := inner job s { agree with actions := agree.actions.trans same }
  exact ⟨outcome, { ended with actions := ended.actions.trans same.symm }⟩

theorem Follows.inStep {G : Graph V} (step : Step V)
    (inner : Follows config transmitter before after (chain ++ [step]) m r) (known : after → before) :
    Follows config transmitter before after chain ((ops oracle).inStep G mode step m)
      ((Leakage.ops oracle).inStep G mode step r) := by
  have taken : Follows config transmitter before after chain ((ops oracle).take step m)
      ((Leakage.ops oracle).take step r) := by
    cases step with
    | read load => exact Follows.congr (by simp [Leakage.actions, Step.action]) inner
    | commit | source | edge => exact Follows.push rfl inner
  have added : Follows config transmitter before after chain
      ((ops oracle).seq ((ops oracle).whenSlow mode (solverAdd (step.constraints G)))
        ((ops oracle).take step m))
      ((Leakage.ops oracle).seq ((Leakage.ops oracle).whenSlow mode (Backtrack.add (step.constraints G)))
        ((Leakage.ops oracle).take step r)) :=
    Follows.seq (Follows.ite (follows_add _) follows_skip) taken known
  exact added.scope.ite added

/-- The rest of a search runs after a lookahead that succeeded, or without lookahead. The flag that
the job keeps is not read by the search. -/
theorem Follows.lookahead (tried : Follows config transmitter False False chain trial trial')
    (rest : Follows config transmitter (mode = .slow) False chain m r) :
    Follows config transmitter False False chain ((ops oracle).lookahead config mode trial m)
      ((Leakage.ops oracle).lookahead config mode trial' r) := by
  unfold Ops.lookahead
  by_cases used : mode = .slow ∧ config.useLookahead = true
  · rw [if_pos used, if_pos used]
    have never {wrong : Prop} : config.useLookahead = false → wrong := fun off =>
      Bool.noConfusion (used.2.symm.trans off)
    intro job s agree
    obtain ⟨same, ended⟩ := tried job s agree
    simp only [ops, Leakage.ops, handle, Backtrack.ifFound]
    cases run : trial' s with
    | mk outcome t =>
      rw [run] at same ended
      rw [same]
      cases outcome with
      | done => exact ⟨rfl, { ended with armed := False.elim, unused := never }⟩
      | found => exact rest _ _ { ended with armed := fun _ => rfl, unused := never }
      | next => exact ⟨rfl, ended⟩
      | aborted => exact ⟨rfl, ended⟩
  · rw [if_neg used, if_neg used]
    intro job s agree
    exact rest job s { agree with
      armed := fun slow => agree.unused (Bool.eq_false_iff.mpr fun on => used ⟨slow, on⟩) }

theorem Follows.catchNext (inner : Follows config transmitter before after chain m r) :
    Follows config transmitter before after chain ((ops oracle).catchNext m)
      ((Leakage.ops oracle).catchNext r) := by
  intro job s agree
  obtain ⟨same, ended⟩ := inner job s agree
  simp only [ops, Leakage.ops, handle, Backtrack.catchNext]
  cases run : r s with
  | mk outcome t =>
    rw [run] at same ended
    rw [same]
    cases outcome with
    | done => exact ⟨rfl, ended⟩
    | found => exact ⟨rfl, ended⟩
    | next => exact ⟨rfl, ended⟩
    | aborted => exact ⟨rfl, ended⟩

theorem Follows.withActions {body : List Action → Thunk V}
    (inner : Follows config transmitter before after chain (body (Leakage.actions chain)) r) :
    Follows config transmitter before after chain ((ops oracle).withActions () body) r := by
  intro job s agree
  change (body job.actions job).1 = _ ∧ Agree _ _ _ _ (body job.actions job).2 _
  rw [agree.actions]
  exact inner job s agree

/-- Every action is that of some step. -/
theorem pushed (action : Action) :
    (Step.edge action.src action.dst action.edge (boolVal true) : Step V).action = some action := rfl

theorem follows_output (armed : before)
    (deep : config.deps.length ≤ (Leakage.actions chain).length)
    (linked : ∃ ref, Linked transmitter (Leakage.actions chain) ref) (vec : List NodeRef)
    (leaks : NodeRef) :
    Follows config transmitter before before chain ((ops oracle).output () vec leaks)
      ((Leakage.ops oracle).output chain vec leaks) := by
  intro job s agree
  refine ⟨rfl, { agree with leaks := ?_, linked := fun output member => ?_ }⟩
  · change (job.outputs ++ [_]).map _ = (s.events ++ [_]).filterMap _
    rw [List.map_append, List.filterMap_append, agree.leaks, agree.actions]
    rfl
  · rcases List.mem_append.mp member with earlier | last
    · exact agree.linked output earlier
    · cases List.mem_singleton.mp last
      rw [agree.actions]
      exact ⟨agree.armed armed, deep, linked⟩

end Follows

end Clou.DetectorJob
