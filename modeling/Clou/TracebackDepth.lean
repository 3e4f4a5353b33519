import Clou.DetectorJob
import Clou.MeteredProcedure
import Clou.SearchLaws

/-! The search for leaks with the depth counter that the source has: a 32-bit field, which is
compared with the maximum for equality and which a scope object increments and decrements.
The functions that call each other through callbacks are metered. -/

namespace Clou.TracebackDepth

open Z3 Leakage Metered MeteredProcedure
open Backtrack (Oracle CheckResult)

abbrev Depth := BitVec 32

abbrev Thunk (V : Type) := Fuelled (DetectorJob V) Depth

section

variable {V : Type} (G : Graph V) (config : Config) (oracle : Oracle (BoolExpr V))

def solverCheck (limit : Bool) (answer : CheckResult → Thunk V) : Thunk V :=
  bind (lift fun job =>
    (oracle limit job.checks job.asserted, { job with checks := job.checks + 1 })) answer

/-- The counter is decremented however the scope is left. -/
def incDepth (inner : Thunk V) : Thunk V := scope (· + 1) (fun _ depth => depth - 1) inner

def maxTraceback : Depth := BitVec.ofNat 32 config.maxTraceback

def ops : Ops V Unit Unit (Thunk V) where
  start := ()
  extend _ _ := ()
  skip := skip
  throw := ret
  seq := seq
  add facts := lift (DetectorJob.solverAdd facts)
  check := solverCheck oracle
  scope := within id fun before job => { job with asserted := before.asserted }
  ifFound trial rest := bind trial fun
    | .done => lift (DetectorJob.setLookaheadTmp false)
    | .found => seq (lift (DetectorJob.setLookaheadTmp true)) rest
    | outcome => ret outcome
  catchNext body := bind body fun outcome => if outcome = .next then skip else ret outcome
  push action := within (fun job => { job with actions := job.actions ++ [action] })
    fun _ job => { job with actions := job.actions.dropLast }
  withActions _ body := fun job => body job.actions job
  call _ _ _ rest := rest
  output _ vec transmitter := lift ((DetectorJob.ops oracle).output () vec transmitter)
  unlessLast _ rest := ask fun depth => if depth = maxTraceback config then skip else rest
  deeper := incDepth

/-- The trial calls the function itself, with the node on the vector a second time. -/
def tracebackDepsRec (callback : Callback Unit Unit (Thunk V)) :
    Nat → List (EdgeKind × ExecMode) → Rec Unit (Thunk V)
  | 0, _, _, _, _, _ => exhausted
  | fuel + 1, deps, chain, vec, ref, mode =>
    (ops config oracle).lookahead config mode
        (tracebackDepsRec callback fuel deps chain (vec ++ [ref]) ref .fast) <|
      (ops config oracle).depsBody G config callback () deps (tracebackDepsRec callback fuel deps.tail)
        (tracebackDepsRec callback fuel deps) chain (vec ++ [ref]) ref mode

def runBypassedStore : Nat → List NodeRef → Visit Unit (Thunk V)
  | 0, _, _, _, _ => exhausted
  | fuel + 1, vec, chain, load, mode =>
    (ops config oracle).bypassedStoreBody G config () (runBypassedStore fuel) chain load vec mode

def callback (fuel : Nat) : Detector → Callback Unit Unit (Thunk V)
  | .spectreV1 => fun _ => (ops config oracle).runPostdeps G config
  | .spectreV4 => fun _ => (ops config oracle).examine G config
      (runBypassedStore G config oracle fuel)

def runTransmitter (fuel : Nat) (detector : Detector) (ref : NodeRef) (mode : CheckMode) : Thunk V :=
  tracebackDepsRec G config oracle (callback G config oracle fuel detector) fuel config.deps.reverse ()
    [] ref mode

end

/-! How many tracebacks are left -/

section

variable {config : Config} {depth : Depth}

/-- From a depth above the maximum the counter first wraps around. -/
def remaining (config : Config) (depth : Depth) : Nat := (maxTraceback config - depth).toNat

theorem remaining_eq_zero : remaining config depth = 0 ↔ depth = maxTraceback config := by
  unfold remaining
  constructor
  · intro none
    bv_omega
  · rintro rfl
    simp

theorem remaining_step (deeper : depth ≠ maxTraceback config) :
    remaining config depth = remaining config (depth + 1) + 1 := by
  unfold remaining
  bv_omega

theorem remaining_start (small : config.maxTraceback < 2 ^ 32) :
    remaining config 0 = config.maxTraceback := by
  simpa [remaining, maxTraceback] using small

end

/-! Agreement with the search that counts tracebacks down -/

section Agreement

variable {V : Type} {G : Graph V} {config : Config} {oracle : Oracle (BoolExpr V)}
  {depth : Depth} {x y : Thunk V} {m n : DetectorJob.Thunk V}

/-- The search ends as the one without a counter, and leaves the counter as it was. -/
abbrev AgreesAt (depth : Depth) (x : Thunk V) (m : DetectorJob.Thunk V) : Prop :=
  Agrees (· = depth) x m

theorem scope_agrees (inner : AgreesAt depth x m) :
    AgreesAt depth ((ops config oracle).scope x) ((DetectorJob.ops oracle).scope m) := by
  simp only [ops, DetectorJob.ops]
  exact inner.within

theorem push_agrees (action : Action) (inner : AgreesAt depth x m) :
    AgreesAt depth ((ops config oracle).push action x) (DetectorJob.push action m) :=
  inner.within

theorem inStep_agrees (step : Step V) (mode : CheckMode) (inner : AgreesAt depth x m) :
    AgreesAt depth ((ops config oracle).inStep G mode step x)
      ((DetectorJob.ops oracle).inStep G mode step m) := by
  have added : AgreesAt depth ((ops config oracle).whenSlow mode ((ops config oracle).add _))
      ((DetectorJob.ops oracle).whenSlow mode (DetectorJob.solverAdd (step.constraints G))) :=
    Agrees.ite (fun _ => Agrees.lift _) fun _ => Agrees.skip
  have taken : AgreesAt depth ((ops config oracle).take step x)
      ((DetectorJob.ops oracle).take step m) := by
    cases step with
    | read load => exact inner
    | commit | source | edge => exact push_agrees _ inner
  exact Agrees.ite (fun _ => scope_agrees (added.seq taken)) fun _ => added.seq taken

theorem check_agrees {limit : Bool} {answer : CheckResult → Thunk V}
    {answer' : CheckResult → DetectorJob.Thunk V}
    (each : ∀ result, AgreesAt depth (answer result) (answer' result)) :
    AgreesAt depth ((ops config oracle).check limit answer)
      ((DetectorJob.ops oracle).check limit answer') :=
  Agrees.read each

theorem lookahead_agrees (mode : CheckMode) (trial : mode = .slow → AgreesAt depth x m)
    (rest : AgreesAt depth y n) :
    AgreesAt depth ((ops config oracle).lookahead config mode x y)
      ((DetectorJob.ops oracle).lookahead config mode m n) := by
  refine Agrees.ite (fun both => ?_) fun _ => rest
  simp only [ops, DetectorJob.ops]
  refine (trial both.1).handle fun outcome => ?_
  cases outcome with
  | done => exact Agrees.lift _
  | found => exact (Agrees.lift _).seq rest
  | next => exact Agrees.ret _
  | aborted => exact Agrees.ret _

theorem incDepth_agrees (inner : AgreesAt (depth + 1) x m) : AgreesAt depth (incDepth x) m := by
  refine inner.scope (fun before same => ?_) fun before after _ same => ?_
  · rw [same]
  · rw [same]
    bv_omega

/-- The two searches agree at the depth at which as many tracebacks are left, `bound` at most. -/
def AgreesIn (config : Config) (bound : Nat) (_ : Bool) :
    Comparison Unit Unit (Thunk V) (DetectorJob.Thunk V) := fun w x m =>
  w.pairing ≠ .cross → w.tracebacks ≤ bound → ∀ depth, remaining config depth = w.tracebacks →
    AgreesAt depth x m

variable {bound fuel : Nat}

theorem agrees_laws : Laws (ops config oracle) (DetectorJob.ops oracle) (fun _ => ()) G config
    config.useLookahead config.useLookahead (AgreesIn config bound) (AgreesIn config bound false) where
  weaken := id
  forget := id
  disarm := id
  skip _ _ _ _ := Agrees.skip
  seq first second here few depth left := (first here few depth left).seq (second here few depth left)
  after first second here few depth left :=
    (first here few depth left).seq (second here few depth left)
  step step _ inner here few depth left := by
    rw [World.mode_eq here]
    exact inStep_agrees step _ (inner here few depth left)
  unlessUnsat related here few depth left := by
    rw [World.mode_eq here]
    have rest := related here few depth left
    exact Agrees.ite (fun _ => check_agrees fun _ => Agrees.ite (fun _ => Agrees.skip) fun _ => rest)
      fun _ => rest
  unlessLast {w} m m' related here few depth left := by
    simp only [ops, DetectorJob.ops, ← left, remaining_eq_zero]
    refine Meets.ask fun current same => ?_
    rw [same]
    refine Agrees.ite (fun _ => Agrees.skip) fun further => related ?_ here few depth left
    rwa [← left, ne_eq, remaining_eq_zero]
  deeper further related here few depth left := by
    refine incDepth_agrees (related here ((Nat.sub_le _ 1).trans few) (depth + 1) ?_)
    have step := remaining_step (mt remaining_eq_zero.mpr (left ▸ further))
    exact (congrArg (· - 1) (step.symm.trans left) :)
  lookahead m m' tried _ rest here few depth left := by
    have found := rest here few depth left
    rw [World.mode_eq here] at found ⊢
    exact lookahead_agrees _ (fun _ => tried Pairing.noConfusion few depth left) found
  lookaheadStep step m m' _ tried _ rest here few depth left := by
    have found := rest here few depth left
    rw [World.mode_eq here] at found ⊢
    exact lookahead_agrees _ (fun _ => tried Pairing.noConfusion few depth left)
      (inStep_agrees step _ found)

theorem agrees_mirror : Mirror (ops config oracle) (DetectorJob.ops oracle) (AgreesIn config bound) where
  cross here other := absurd here other
  throw outcome _ _ _ _ := Agrees.ret outcome
  add _ _ _ _ _ := Agrees.lift _
  check each here few depth left := check_agrees fun result => each result here few depth left
  scope related here few depth left := scope_agrees (related here few depth left)
  withActions each here few depth left := fun job => each job.actions here few depth left job
  pushSkip action _ _ _ _ := push_agrees action Agrees.skip
  pushThrow action outcome _ _ _ _ := push_agrees action (Agrees.ret outcome)
  output _ _ _ _ _ _ _ _ := Agrees.lift _

theorem agrees_records : Records (ops config oracle) (DetectorJob.ops oracle) (fun _ => ())
    (AgreesIn config bound) := by
  intro w vec vec' m m' _ related
  change AgreesIn config bound false w (if _ then m else m) (if _ then m' else m')
  rwa [ite_self, ite_self]

/-! The recursion -/

section

variable {C R : Type} (o : Ops V C Nat R)

theorem tracebackDepsRec_step (called : Callback C Nat R) (tracebacks : Nat)
    (deps : List (EdgeKind × ExecMode)) : ∃ rest again,
      o.tracebackDepsRec G config called tracebacks deps =
        o.depsStep G config called tracebacks deps rest again ∧
      (deps ≠ [] → rest = o.tracebackDepsRec G config called tracebacks deps.tail) ∧
      (tracebacks ≠ 0 → again = o.tracebackDepsRec G config called (tracebacks - 1) deps) := by
  cases tracebacks with
  | zero =>
    cases deps with
    | nil => exact ⟨_, _, rfl, fun more => absurd rfl more, fun further => absurd rfl further⟩
    | cons dep deps => exact ⟨_, _, rfl, fun _ => rfl, fun further => absurd rfl further⟩
  | succ tracebacks =>
    cases deps with
    | nil => exact ⟨_, _, rfl, fun more => absurd rfl more, fun _ => rfl⟩
    | cons dep deps => exact ⟨_, _, rfl, fun _ => rfl, fun _ => rfl⟩

theorem runBypassedStore_step (tracebacks : Nat) : ∃ again,
    (∀ vec chain load mode, o.runBypassedStore G config tracebacks vec chain load mode =
      o.bypassedStoreBody G config tracebacks again chain load vec mode) ∧
    (tracebacks ≠ 0 → again = o.runBypassedStore G config (tracebacks - 1)) := by
  cases tracebacks with
  | zero => exact ⟨fun _ _ _ _ => o.skip, fun _ _ _ _ => rfl, fun further => absurd rfl further⟩
  | succ tracebacks => exact ⟨o.runBypassedStore G config tracebacks, fun _ _ _ _ => rfl, fun _ => rfl⟩

end

/-- The measure: what is left of the dependencies and of the tracebacks, and the trial that a
call in slow mode may start with. -/
def measure (config : Config) (depth : Depth) (deps : List (EdgeKind × ExecMode)) (mode : CheckMode) :
    Nat :=
  2 * (remaining config depth + deps.length) + if mode = .slow then 2 else 1

variable {w : World Unit Unit} {vec vec' : List NodeRef}

theorem agrees_runBypassedStore (enough : w.tracebacks < fuel) (ready : w.Ready)
    (same : w.pairing = .main → vec = vec') :
    AgreesIn config bound false w (runBypassedStore G config oracle fuel vec () w.node w.mode)
      ((DetectorJob.ops oracle).runBypassedStore G config w.tracebacks vec' () w.node w.mode') := by
  induction fuel generalizing w vec vec' with
  | zero => omega
  | succ fuel ih =>
    obtain ⟨again, body, next⟩ := runBypassedStore_step (DetectorJob.ops oracle) w.tracebacks
    rw [body]
    refine (agrees_mirror.leaves agrees_laws).bypassedStoreBody agrees_laws ?_ ready same
    intro further y vec vec' below same
    have fewer : y.tracebacks = w.tracebacks - 1 := below.tracebacks
    rw [next further, ← fewer]
    exact ih (by omega) ⟨below.todo.trans ready.todo, below.armed⟩ same

theorem agrees_callback (enough : bound < fuel) (detector : Detector) :
    Calls (fun _ => ()) G (AgreesIn config bound) (callback G config oracle fuel detector)
      ((DetectorJob.ops oracle).callback G config detector) := by
  cases detector with
  | spectreV1 => exact agrees_mirror.runPostdeps agrees_laws
  | spectreV4 =>
    intro w vec vec' ready last last' same here few
    refine (agrees_mirror.leaves agrees_laws).examine agrees_laws ?_ last last' same here few
    exact agrees_runBypassedStore (few.trans_lt enough) ready same

variable {callback : Callback Unit Unit (Thunk V)} {called : Callback Unit Nat (DetectorJob.Thunk V)}

theorem agrees_tracebackDepsRec
    (calls : Calls (fun _ => ()) G (AgreesIn config bound) callback called)
    {deps : List (EdgeKind × ExecMode)} (todo : w.todo = deps.length)
    (enough : 2 * (w.tracebacks + deps.length) + (if w.mode = .slow then 2 else 1) ≤ fuel)
    (head : (vec ++ [w.node]).head? = (vec' ++ [w.node]).head?)
    (same : w.pairing = .main → vec = vec') :
    AgreesIn config bound false w
      (tracebackDepsRec G config oracle callback fuel deps () vec w.node w.mode)
      ((DetectorJob.ops oracle).tracebackDepsRec G config called w.tracebacks deps () vec' w.node
        w.mode') := by
  induction fuel generalizing w deps vec vec' with
  | zero =>
    split at enough <;> omega
  | succ fuel ih =>
    have least : 2 * (w.tracebacks + deps.length) ≤ fuel := by split at enough <;> omega
    -- With one dependency or traceback less there is fuel for either mode.
    have fuelled {y : World Unit Unit} {deps' : List (EdgeKind × ExecMode)}
        (fewer : y.tracebacks + deps'.length < w.tracebacks + deps.length) :
        2 * (y.tracebacks + deps'.length) + (if y.mode = .slow then 2 else 1) ≤ fuel := by
      split <;> omega
    obtain ⟨rest, again, step, committed, traced⟩ :=
      tracebackDepsRec_step (DetectorJob.ops oracle) called w.tracebacks deps
    have onward : deps ≠ [] → Recs (AgreesIn config bound false) (deps.length - 1) w.tracebacks
        (tracebackDepsRec G config oracle callback fuel deps.tail) rest := by
      intro more y vec vec' todo here head same
      have positive := List.length_pos_iff.mpr more
      rw [← List.length_tail] at todo
      rw [committed more, ← here]
      exact ih todo (fuelled (by rw [here, List.length_tail]; omega)) head same
    have back : w.tracebacks ≠ 0 → Recs (AgreesIn config bound false) deps.length (w.tracebacks - 1)
        (tracebackDepsRec G config oracle callback fuel deps) again := by
      intro further y vec vec' todo here head same
      rw [traced further, ← here]
      exact ih todo (fuelled (by omega)) head same
    have bodies : Bodies (ops config oracle) (DetectorJob.ops oracle) (fun _ => ()) G config _ _ _
        callback called := agrees_laws.depsBody agrees_records calls
    intro here few depth left
    have found := bodies (w := w.arm) todo rfl
      ⟨head, by simp [World.arm], by simp [World.arm], fun here => by rw [same here]⟩ onward back here few
      depth left
    rw [World.mode_eq (w := w.arm) here] at found
    rw [step, World.mode_eq here]
    refine lookahead_agrees w.mode (fun slow => ?_) found
    rw [if_pos slow] at enough
    have tried := ih (w := w.trial w.node) todo (Nat.le_of_succ_le_succ enough)
      (Laws.head_append head w.node) Pairing.noConfusion Pairing.noConfusion few depth left
    rw [World.trial, step] at tried
    exact tried

theorem runTransmitter_agrees {mode : CheckMode}
    (enough : measure config depth config.deps mode ≤ fuel) (detector : Detector) (ref : NodeRef) :
    AgreesAt depth (runTransmitter G config oracle fuel detector ref mode)
      ((DetectorJob.ops oracle).tracebackDepsRec G config
        ((DetectorJob.ops oracle).callback G config detector) (remaining config depth)
        config.deps.reverse () [] ref mode) := by
  have calls : Calls (fun _ => ()) G (AgreesIn config (remaining config depth))
      (callback G config oracle fuel detector)
      ((DetectorJob.ops oracle).callback G config detector) := by
    refine agrees_callback ?_ detector
    unfold measure at enough
    split at enough <;> omega
  have reversed : measure config depth config.deps.reverse mode ≤ fuel := by
    rwa [measure, List.length_reverse]
  cases mode with
  | fast =>
    exact agrees_tracebackDepsRec (w := ⟨.trial, (), (), ref, _, _, true⟩) calls rfl reversed
      (Eq.refl ([] ++ [ref]).head?) (fun _ => rfl) Pairing.noConfusion le_rfl depth rfl
  | slow =>
    exact agrees_tracebackDepsRec (w := ⟨.main, (), (), ref, _, _, true⟩) calls rfl reversed
      (Eq.refl ([] ++ [ref]).head?) (fun _ => rfl) Pairing.noConfusion le_rfl depth rfl

end Agreement

/-- With enough fuel the search ends, from every depth, however the dependencies are connected
and whatever the solver answers. The depth is then as it was, also if the search ended by an
exception, and from depth zero the result is that of the search that counts down. -/
theorem search_terminates {V : Type} (G : Graph V) (config : Config) (oracle : Oracle (BoolExpr V))
    (detector : Detector) (ref : NodeRef) (mode : CheckMode) (job : DetectorJob V) (depth : Depth)
    {fuel : Nat} (enough : measure config depth config.deps mode ≤ fuel) :
    ∃ outcome job',
      runTransmitter G config oracle fuel detector ref mode job depth = some (outcome, job', depth) ∧
      (depth = 0 → config.maxTraceback < 2 ^ 32 →
        DetectorJob.runTransmitter G config oracle detector ref mode job = (outcome, job')) := by
  obtain ⟨outcome, job', after, ends, same, agrees⟩ :=
    runTransmitter_agrees enough detector ref job depth rfl
  rw [same] at ends
  refine ⟨outcome, job', ends, fun start small => ?_⟩
  rw [start, remaining_start small] at agrees
  exact agrees

/-! Two loads, each with the other one's result as its address -/

def addressCycle : Graph Bool where
  lookup _ :=
    { arch := boolVal true
      trans := boolVal true
      read := boolVal true
      write := boolVal false
      mayWrite := false
      attackerTaint := true
      isBranch := false
      memoryOperand := none
      funcId := some [] }
  entry := 0
  nodes := [0, 1, 2, 3]
  preds _ := []
  getNodes kind ref :=
    if kind = .addr then
      if ref = 1 then [(2, boolVal true)]
      else if ref = 2 ∨ ref = 3 then [(1, boolVal true)]
      else []
    else []
  tfoOut _ := []
  rfSources _ := []
  execWindow := [1, 2, 3]
  transWindow := [1, 2, 3]
  blockPath _ _ := []
  isAlloca _ := false
  checkAlias _ _ := .mayAlias
  sameAddr _ _ := boolVal true
  rfxExists _ _ := boolVal true
  postorderIdx ref := ref

def threeTracebacks : Config where
  deps := [(.addr, .exec)]
  maxTraceback := 3
  useLookahead := true
  fastMode := false
  useAttackerControlAnalysis := false
  diffNames := false
  concreteSourcedStores := true
  lsqSize := none

def alwaysSat : Oracle (BoolExpr Bool) := fun _ _ _ => .sat

theorem addressCycle_terminates :
    measure threeTracebacks 0 threeTracebacks.deps .slow = 10 ∧ ∃ outcome job',
      runTransmitter addressCycle threeTracebacks alwaysSat 10 .spectreV1 3 .slow (DetectorJob.start [])
        0 = some (outcome, job', 0) ∧
      ((0 : Depth) = 0 → 3 < 2 ^ 32 →
        DetectorJob.runTransmitter addressCycle threeTracebacks alwaysSat .spectreV1 3 .slow
          (DetectorJob.start []) = (outcome, job')) :=
  ⟨by decide, search_terminates addressCycle threeTracebacks alwaysSat .spectreV1 3 .slow _ 0
    (by decide)⟩

-- One leak for every way around the cycle that the depth allows.
example : (runTransmitter addressCycle threeTracebacks alwaysSat 10 .spectreV1 3 .slow
      (DetectorJob.start []) 0).map (fun ended => ended.2.1.outputs.map (·.leak.vec)) =
    some [[1, 3], [2, 1, 3], [1, 2, 1, 3], [2, 1, 2, 1, 3]] := by
  decide +kernel

end Clou.TracebackDepth
