import Clou.ActionStack
import Clou.LookaheadAgree

/-! A job reports the leaks of the search that passes its chain along. When it puts out an
execution, the stack of actions leads to the transmitter and the last lookahead has succeeded. -/

namespace Clou.DetectorJob

open Z3 Leakage Procedure
open Backtrack (Oracle CheckResult State)

section

variable {V : Type} {G : Graph V} {config : Config} {oracle : Oracle (BoolExpr V)}
  {transmitter : NodeRef} {w : World Unit (List (Step V))}

/-- In slow mode the stack leads from the node to the transmitter, with an action for each of the
dependencies that are committed. -/
def Placed (config : Config) (transmitter : NodeRef) (w : World Unit (List (Step V))) : Prop :=
  w.mode = .slow → config.deps.length ≤ (Leakage.actions w.chain').length + w.todo ∧
    Linked transmitter (Leakage.actions w.chain') w.node

theorem Placed.push (placed : Placed config transmitter w) (step : Step V)
    (from' : step.dst = w.node) :
    Placed config transmitter (w.push (ops oracle) (Leakage.ops oracle) step) := by
  intro slow
  obtain ⟨deep, linked⟩ := placed slow
  change config.deps.length ≤ (Leakage.actions (w.chain' ++ [step])).length + step.left w.todo ∧
    Linked transmitter (Leakage.actions (w.chain' ++ [step])) step.src
  rw [actions_append]
  rw [← from'] at linked
  cases step with
  | read load =>
    rw [Step.action, Option.toList_none, List.append_nil]
    exact ⟨deep, linked⟩
  | commit | source | edge =>
    refine ⟨?_, linked.push _⟩
    simp only [Step.action, Option.toList_some, List.length_append, List.length_singleton, Step.left]
    omega

def Armed (w : World Unit (List (Step V))) : Prop := w.armed = true ∧ w.mode = .slow

theorem armed_keep {k : Bool} : Armed (w.keep k) ↔ k = true ∧ Armed w := by
  unfold Armed World.keep
  rw [Bool.and_eq_true, and_assoc]

/-- A job does as the search that hands its chain on, where this is the chain on its stack. -/
def FollowsAt (config : Config) (transmitter : NodeRef) (k : Bool) :
    Comparison Unit (List (Step V)) (Thunk V) (Run V) := fun w m r =>
  w.pairing ≠ .cross → Placed config transmitter w →
    Follows config transmitter (Armed w) (k = true ∧ Armed w) w.chain' m r

/-- A trial needs neither the stack nor the flag. -/
theorem FollowsAt.trial {node : NodeRef} {m : Thunk V} {r : Run V}
    (tried : FollowsAt config transmitter false (w.trial node) m r) :
    Follows config transmitter False False w.chain' m r :=
  (tried Pairing.noConfusion fun slow => CheckMode.noConfusion slow).weaken
    (fun armed => CheckMode.noConfusion armed.2) False.elim

theorem follows_laws : Laws (ops oracle) (Leakage.ops oracle) id G config config.useLookahead
    config.useLookahead (FollowsAt config transmitter) (FollowsAt config transmitter false) where
  weaken := id
  forget related here placed := (related here placed).weaken id fun known => ⟨rfl, known.2⟩
  disarm related here placed :=
    (related here placed).weaken (fun armed => (armed_keep.mp armed).2) fun never =>
      Bool.noConfusion never.1
  skip _ _ := follows_skip.weaken id And.right
  seq {k l} w m m' n n' first second here placed := by
    refine (first here placed).seq ((second here placed).weaken armed_keep.mp id) ?_ |>.weaken id ?_
    · exact fun known => armed_keep.mp known.2
    · rintro ⟨both, armed⟩
      rw [Bool.and_eq_true] at both
      exact ⟨both.2, armed_keep.mpr ⟨both.1, armed⟩⟩
  after first second here placed :=
    (first here placed).seq ((second here placed).weaken (fun armed => ⟨rfl, armed⟩) id)
      fun never => Bool.noConfusion never.1
  step step from' inner here placed := by
    rw [World.mode_eq here]
    exact (inner here (placed.push step from')).inStep step And.right
  unlessUnsat related here placed := by
    rw [World.mode_eq here]
    exact (related here placed).unlessUnsat And.right
  unlessLast {w} m m' related here placed := by
    change Follows _ _ _ _ _ (if w.tracebacks = 0 then _ else _) (if w.tracebacks = 0 then _ else _)
    split
    · exact follows_skip.weaken id And.right
    · rename_i further
      exact related further here placed
  deeper _ := id
  lookahead m m' tried _ rest here placed := by
    have found := (rest here placed).weaken And.right False.elim
    rw [World.mode_eq here] at found ⊢
    exact (tried.trial.lookahead found).weaken False.elim fun never => Bool.noConfusion never.1
  lookaheadStep step m m' from' tried _ rest here placed := by
    have found := (rest here (placed.push step from')).weaken And.right False.elim
    rw [World.mode_eq here] at found ⊢
    exact (tried.trial.lookahead (found.inStep step False.elim)).weaken False.elim
      fun never => Bool.noConfusion never.1

theorem follows_records : Records (ops oracle) (Leakage.ops oracle) id
    (FollowsAt config transmitter) := by
  intro w vec vec' m m' _ related here placed
  rw [World.mode_eq here]
  split
  · exact (follows_invoked _).seq (related here placed) And.right
  · exact related here placed

theorem follows_mirror : Mirror (ops oracle) (Leakage.ops oracle) (FollowsAt config transmitter) where
  cross here other := absurd here other
  throw outcome _ _ := (follows_throw outcome).weaken id And.right
  add facts _ _ := (follows_add facts).weaken id And.right
  check each here placed := Follows.ask fun result => each result here placed
  scope related here placed := (related here placed).scope
  withActions each here placed := Follows.withActions (each _ here placed)
  pushSkip action _ _ := (follows_skip.push (pushed action)).weaken id And.right
  pushThrow action outcome _ _ := ((follows_throw outcome).push (pushed action)).weaken id And.right
  -- What is put out is put out with a stack that leads to the transmitter.
  output ready slow vec leaks here placed := by
    obtain ⟨deep, linked⟩ := placed slow
    rw [ready.todo] at deep
    exact (follows_output ⟨ready.armed, slow⟩ deep ⟨_, linked⟩ vec leaks).weaken id And.right

theorem follows_runTransmitter (detector : Detector) (mode : CheckMode) :
    Follows config transmitter False False [] (runTransmitter G config oracle detector transmitter mode)
      (Leakage.runTransmitter G config oracle detector transmitter mode) := by
  have laws : Laws (ops oracle) (Leakage.ops oracle) id G config _ _ _
      (FollowsAt config transmitter false) := follows_laws
  have called := (follows_mirror.leaves laws).callback laws detector (follows_mirror.runPostdeps laws)
  have begun (p : Pairing) : Placed config transmitter
      (⟨p, (), [], transmitter, config.deps.reverse.length, config.maxTraceback, false⟩ :
        World Unit (List (Step V))) :=
    fun _ => ⟨by simp, rfl⟩
  have follows (p : Pairing) := laws.tracebackDepsRec (laws.depsBody follows_records called)
    config.maxTraceback config.deps.reverse ⟨p, (), [], transmitter, _, _, false⟩ rfl rfl
    (Eq.refl ([] ++ [transmitter]).head?) fun _ => rfl
  cases mode with
  | fast =>
    exact (follows .trial Pairing.noConfusion (begun .trial)).weaken
      (fun armed => Bool.noConfusion armed.1) False.elim
  | slow =>
    exact (follows .main Pairing.noConfusion (begun .main)).weaken
      (fun armed => Bool.noConfusion armed.1) False.elim

theorem follows_forOneTransmitter (detector : Detector) (known : Bool)
    (window order : List (BoolExpr V)) :
    Follows config transmitter False False []
      (forOneTransmitter G config oracle detector transmitter known window order)
      (Leakage.forOneTransmitter G config oracle detector transmitter known window order) := by
  refine Follows.lookahead (follows_runTransmitter detector .fast) ?_
  refine Follows.weaken (follows_skip.ite ?_) False.elim id
  refine (follows_add window).seq (Follows.unlessUnsat ?_ id) id
  exact (follows_add order).seq (follows_runTransmitter detector .slow).catchNext id

end

theorem agree_start {V : Type} (config : Config) (transmitter : NodeRef)
    (asserted : List (BoolExpr V)) :
    Agree config transmitter False [] (start asserted) ⟨asserted, [], 0⟩ :=
  ⟨rfl, rfl, rfl, rfl, False.elim, fun _ => rfl, fun _ member => by cases member⟩

/-- The leaks that a job reports are those of the search, with the actions of its chains. -/
theorem reported_leaks {V : Type} (G : Graph V) (config : Config) (oracle : Oracle (BoolExpr V))
    (detector : Detector) (transmitter : NodeRef) (known : Bool)
    (asserted window order : List (BoolExpr V)) :
    (forOneTransmitter G config oracle detector transmitter known window order
      (start asserted)).2.outputs.map (·.leak) =
    (Leakage.forOneTransmitter G config oracle detector transmitter known window order
      ⟨asserted, [], 0⟩).2.events.filterMap Event.leaks :=
  (follows_forOneTransmitter detector known window order _ _
    (agree_start config transmitter asserted)).2.leaks

/-- Whenever a job puts out an execution, the last lookahead has succeeded, and the actions, from
the most recent to the oldest, are a chain that ends at the transmitter, with an action for each
dependency. -/
theorem outputs_linked {V : Type} (G : Graph V) (config : Config) (oracle : Oracle (BoolExpr V))
    (detector : Detector) (transmitter : NodeRef) (known : Bool)
    (asserted window order : List (BoolExpr V)) {output : Output}
    (reached : output ∈ (forOneTransmitter G config oracle detector transmitter known window order
      (start asserted)).2.outputs) :
    output.lookaheadTmp = true ∧
    (output.leak.actions.reverse.IsChain fun newer older => newer.dst = older.src) ∧
    (∀ oldest, output.leak.actions.head? = some oldest → oldest.dst = transmitter) ∧
    config.deps.length ≤ output.leak.actions.length := by
  have ended : Agree config transmitter False []
      (forOneTransmitter G config oracle detector transmitter known window order (start asserted)).2 _ :=
    (follows_forOneTransmitter detector known window order _ _
      (agree_start config transmitter asserted)).2
  obtain ⟨flag, deep, ref, linked⟩ := ended.linked output reached
  exact ⟨flag, linked.chain, fun oldest first => linked.oldest first, deep⟩

/-- The lookahead for the first load fails before the one for the second succeeds. -/
theorem twoLoads_output : (⟨true, [2, 3], 3, [⟨2, .addr, 3⟩]⟩ : Output) ∈
      (forOneTransmitter twoLoads (taintedConfig.withLookahead true) (oneValuation .unsat) .spectreV1 3
        false [] [] (start [])).2.outputs ∧
    ∀ output ∈ (forOneTransmitter twoLoads (taintedConfig.withLookahead true) (oneValuation .unsat)
      .spectreV1 3 false [] [] (start [])).2.outputs, output.lookaheadTmp = true :=
  ⟨by decide +kernel, fun _ reached => (outputs_linked _ _ _ _ _ _ _ _ _ reached).1⟩

end Clou.DetectorJob
