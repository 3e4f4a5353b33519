import Clou.LeakageModes

/-! What is in force in the solver when the search calls a detector: the constraints of the
chain, as long as no call on the way has left something behind. -/

namespace Clou.Leakage

open Z3 Backtrack

variable {V : Type}

def inForce (G : Graph V) (initial : List (BoolExpr V)) (chain : List (Step V)) : List (BoolExpr V) :=
  initial ++ chain.flatMap (Step.constraints G)

namespace Invocation

def Exact (G : Graph V) (initial : List (BoolExpr V)) (invocation : Invocation V) : Prop :=
  invocation.asserted = inForce G initial invocation.chain

def Harmless (G : Graph V) (config : Config) (detector : Detector) (invocation : Invocation V) : Prop :=
  invocation.tracebacks = 0 ∨ invocation.vec.getLast? = invocation.vec.head? ∨
    (detector = .spectreV1 ∧ (config.useAttackerControlAnalysis = true →
      (G.lookup (invocation.vec.getLastD G.entry)).attackerTaint = false))

end Invocation

/-! Searches in slow mode -/

variable {chain : List (Step V)}

section

variable {G : Graph V} {config : Config} {oracle : Oracle (BoolExpr V)}
  {J : State (BoolExpr V) (Event V) → Prop}
  {P : List (Step V) → State (BoolExpr V) (Event V) → Prop}

/-- A property of the states along a chain that scopes and solver calls keep. -/
structure Frame (G : Graph V) (J : State (BoolExpr V) (Event V) → Prop)
    (P : List (Step V) → State (BoolExpr V) (Event V) → Prop) : Prop where
  safe : ∀ {chain s}, P chain s → J s
  asked : ∀ {chain s}, P chain s → P chain { s with checks := s.checks + 1 }
  extended : ∀ {chain s} (step : Step V), P chain s →
    P (chain ++ [step]) { s with asserted := s.asserted ++ step.constraints G }
  closed : ∀ {chain} {s t : State (BoolExpr V) (Event V)}, P chain s → s.events <+: t.events → J t →
    P chain { t with asserted := s.asserted }

theorem triple_lookahead {P Q : State (BoolExpr V) (Event V) → Prop} {trial rest : Run V}
    (quiet : Quiet trial) (safe : ∀ {s}, P s → J s) (unfound : ∀ {s}, P s → Q s)
    (after : Triple J P rest Q) : Triple J P ((ops oracle).lookahead config .slow trial rest) Q := by
  unfold Ops.lookahead
  split
  · exact Triple.ifFound quiet.state safe unfound after
  · exact after

theorem triple_outputExecution {P : State (BoolExpr V) (Event V) → Prop} {chain : List (Step V)}
    {vec : List NodeRef} {transmitter : NodeRef} (safe : ∀ {s}, P s → J s)
    (reported : ∀ {s} leak, P s → P { s with events := s.events ++ [.leak leak] }) :
    Triple J P ((ops oracle).outputExecution config chain vec transmitter) P := by
  rw [outputExecution_eq]
  apply Triple.seq (Triple.emit fun holds => ⟨safe (reported _ holds), reported _ holds⟩)
  split
  · exact Triple.throw safe (by decide)
  · exact Triple.skip safe

namespace Frame

theorem triple_unlessUnsat (frame : Frame G J P) {Q : State (BoolExpr V) (Event V) → Prop}
    (chain : List (Step V)) {rest : Run V} (refuted : ∀ {s}, P chain s → Q s)
    (after : Triple J (P chain) rest Q) :
      Triple J (P chain) ((ops oracle).unlessUnsat .slow rest) Q := by
  rw [unlessUnsat_slow]
  apply Triple.ask frame.asked
  intro result
  split
  · exact (Triple.skip frame.safe).weaken id refuted
  · exact after

theorem triple_decideSat (frame : Frame G J P) (chain : List (Step V)) {onSat : Run V}
    (after : Triple J (P chain) onSat (P chain)) :
    Triple J (P chain) ((ops oracle).decideSat onSat) (P chain) := by
  rw [decideSat_eq]
  apply Triple.ask frame.asked
  intro result
  cases result with
  | sat => exact after
  | unsat => exact Triple.skip frame.safe
  | unknown => exact Triple.throw frame.safe (by decide)

theorem triple_step (frame : Frame G J P) {R : State (BoolExpr V) (Event V) → Prop} (step : Step V)
    {rest : Run V} (inner : Triple J (P (chain ++ [step])) rest R) : Triple J (P chain)
      ((ops oracle).inStep G .slow step rest) (P chain) := by
  rw [inStep_eq]
  apply Triple.inScope (R := R)
  · apply Triple.seq (Triple.add _) inner
    intro s holds
    have next := frame.extended step holds
    exact ⟨frame.safe next, next⟩
  · intro s t holds grows safe
    have back := frame.closed holds grows safe
    exact ⟨frame.safe back, back⟩

end Frame

def Framed (J : State (BoolExpr V) (Event V) → Prop)
    (P Q : List (Step V) → State (BoolExpr V) (Event V) → Prop) : RunComparison V :=
  fun w m m' => QuietTrial w m m' ∧ (w.pairing = .main → Triple J (P w.chain) m (Q w.chain))

theorem Frame.laws (frame : Frame G J P) :
    RunLaws G config config.useLookahead config.useLookahead oracle (Framed J P P)
      (Framed J P fun _ => J) where
  weaken related := ⟨related.1, fun here => (related.2 here).weaken id frame.safe⟩
  forget := id
  disarm := id
  skip := ⟨fun _ => quiet_skip, fun _ => Triple.skip frame.safe⟩
  seq first second :=
    ⟨(quiet_laws G config oracle).seq (k := true) (l := true) first.1 second.1,
      fun here => (first.2 here).seq (second.2 here)⟩
  after first second := ⟨(quiet_laws G config oracle).after first.1 second.1,
    fun here => (first.2 here).seq (second.2 here)⟩
  step step at' inner := by
    refine ⟨(quiet_laws G config oracle).step step at' inner.1, fun here => ?_⟩
    rw [World.mode, here]
    exact frame.triple_step step (inner.2 here)
  unlessUnsat inner := by
    refine ⟨(quiet_laws G config oracle).unlessUnsat (k := true) inner.1, fun here => ?_⟩
    rw [World.mode, here]
    exact frame.triple_unlessUnsat _ id (inner.2 here)
  unlessLast := unlessLast_related ⟨fun _ => quiet_skip, fun _ => Triple.skip frame.safe⟩
  deeper _ := id
  lookahead m m' tried crossed rest := by
    refine ⟨(quiet_laws G config oracle).lookahead m m' tried.1 crossed.1 rest.1, fun here => ?_⟩
    have found := rest.2 here
    rw [World.mode, here] at found ⊢
    exact triple_lookahead (tried.1 rfl) frame.safe frame.safe found
  lookaheadStep step m m' at' tried crossed rest := by
    refine ⟨(quiet_laws G config oracle).lookaheadStep step m m' at' tried.1 crossed.1 rest.1,
      fun here => ?_⟩
    have found := rest.2 here
    rw [World.mode, here] at found ⊢
    exact triple_lookahead (tried.1 rfl) frame.safe id (frame.triple_step step found)

end

/-! The discipline -/

section Discipline

variable (G : Graph V) (config : Config) (oracle : Oracle (BoolExpr V)) (detector : Detector)
  (initial : List (BoolExpr V))

def WayHarmless (events : List (Event V)) (chain : List (Step V)) : Prop :=
  ∀ earlier, .invoked earlier ∈ events → earlier.chain <+: chain →
    earlier.Harmless G config detector

def Disciplined (s : State (BoolExpr V) (Event V)) : Prop :=
  ∀ before call after, s.events = before ++ .invoked call :: after →
    WayHarmless G config detector before call.chain → call.Exact G initial

def Along (chain : List (Step V)) (s : State (BoolExpr V) (Event V)) : Prop :=
  Disciplined G config detector initial s ∧
    (WayHarmless G config detector s.events chain → s.asserted = inForce G initial chain)

variable {G config oracle detector initial}

theorem WayHarmless.earlier {events later : List (Event V)} {chain longer : List (Step V)}
    (harmless : WayHarmless G config detector later longer) (grows : events <+: later)
    (extends' : chain <+: longer) : WayHarmless G config detector events chain :=
  fun call known onWay => harmless call (grows.subset known) (onWay.trans extends')

variable {s : State (BoolExpr V) (Event V)}

/-- An event after the others is judged with all of them before it. -/
theorem Disciplined.emit (disciplined : Disciplined G config detector initial s) (event : Event V)
    (judged : ∀ call, event = .invoked call →
      WayHarmless G config detector s.events call.chain → call.Exact G initial) :
    Disciplined G config detector initial { s with events := s.events ++ [event] } := by
  intro before call after here harmless
  rcases List.eq_nil_or_concat after with rfl | ⟨after, last, rfl⟩
  · rcases List.append_inj' here rfl with ⟨rfl, same⟩
    exact judged call (List.cons.inj same).1 harmless
  · refine disciplined before call after ?_ harmless
    have split : s.events ++ [event] = (before ++ .invoked call :: after) ++ [last] := by
      simpa using here
    exact (List.append_inj' split rfl).1

theorem disciplined_frame :
    Frame G (Disciplined G config detector initial)
      (fun _ => Disciplined G config detector initial) where
  safe holds := holds
  asked holds := holds
  extended _ holds := holds
  closed _ _ safe := safe

theorem along_frame :
    Frame G (Disciplined G config detector initial) (Along G config detector initial) where
  safe holds := holds.1
  asked holds := holds
  extended := by
    rintro chain s step ⟨disciplined, asserted⟩
    refine ⟨disciplined, fun harmless => ?_⟩
    change s.asserted ++ step.constraints G = inForce G initial (chain ++ [step])
    rw [asserted (harmless.earlier (List.prefix_refl _) (List.prefix_append _ _))]
    simp [inForce]
  closed := by
    rintro chain s t ⟨-, asserted⟩ grows disciplined
    exact ⟨disciplined, fun harmless => asserted (harmless.earlier grows (List.prefix_refl _))⟩

def Keeps (G : Graph V) (config : Config) (detector : Detector) (initial : List (BoolExpr V))
    (m : Run V) : Prop :=
  Triple (Disciplined G config detector initial) (Disciplined G config detector initial) m
    (Disciplined G config detector initial)

theorem keeps_skip : Keeps G config detector initial skip := Triple.skip id

theorem keeps_throw {outcome : Outcome} (ended : outcome ≠ .done) :
    Keeps G config detector initial (throw outcome) := Triple.throw id ended

theorem keeps_add (facts : List (BoolExpr V)) : Keeps G config detector initial (add facts) :=
  Triple.add fun holds => ⟨holds, holds⟩

theorem keeps_scope {body : Run V} (keeps : Keeps G config detector initial body) :
    Keeps G config detector initial ((ops oracle).condScope .slow body) :=
  Triple.inScope keeps fun _ _ safe => ⟨safe, safe⟩

theorem keeps_decideSat {onSat : Run V} (keeps : Keeps G config detector initial onSat) :
    Keeps G config detector initial ((ops oracle).decideSat onSat) :=
  disciplined_frame.triple_decideSat [] keeps

theorem Disciplined.report (leak : Leak) (disciplined : Disciplined G config detector initial s) :
    Disciplined G config detector initial { s with events := s.events ++ [.leak leak] } :=
  disciplined.emit _ (fun _ same => by cases same)

theorem Along.report (leak : Leak) (along : Along G config detector initial chain s) :
    Along G config detector initial chain { s with events := s.events ++ [.leak leak] } := by
  refine ⟨along.1.report leak, fun harmless => along.2 ?_⟩
  exact harmless.earlier (List.prefix_append _ _) (List.prefix_refl _)

theorem keeps_outputExecution (chain : List (Step V)) (vec : List NodeRef) (transmitter : NodeRef) :
    Keeps G config detector initial ((ops oracle).outputExecution config chain vec transmitter) :=
  triple_outputExecution id Disciplined.report

/-! The detectors -/

theorem keeps_runPostdeps (chain : List (Step V)) (vec : List NodeRef) :
    Keeps G config detector initial ((ops oracle).runPostdeps G config chain vec .slow) := by
  apply keeps_decideSat
  split
  · exact keeps_skip
  · apply Triple.seq
    · split
      · exact keeps_add _
      · exact keeps_skip
    · exact keeps_decideSat (keeps_outputExecution _ _ _)

/-- Without a taint test to pass, a call leaves what is in force as it is. -/
theorem along_runPostdeps (chain : List (Step V)) (vec : List NodeRef)
    (untainted : config.useAttackerControlAnalysis = true →
      (G.lookup (vec.getLastD G.entry)).attackerTaint = false) :
    Triple (Disciplined G config detector initial) (Along G config detector initial chain)
      ((ops oracle).runPostdeps G config chain vec .slow)
      (Along G config detector initial chain) := by
  apply along_frame.triple_decideSat chain
  cases control : config.useAttackerControlAnalysis with
  | true =>
    simp only [untainted control, Bool.not_false, Bool.and_self, if_true]
    exact Triple.skip And.left
  | false =>
    simp only [Bool.false_and, Bool.false_eq_true, if_false, Ops.report, reduceCtorEq, control]
    apply along_frame.triple_decideSat chain
    exact triple_outputExecution along_frame.safe Along.report

theorem keeps_checkSolution (chain : List (Step V)) (load bypassedStore sourcedStore : NodeRef)
    (vec : List NodeRef) :
    Keeps G config detector initial
      ((ops oracle).checkSolution G config chain load bypassedStore sourcedStore vec .slow) := by
  change Keeps G config detector initial (if _ then _ else _)
  split
  · exact keeps_skip
  · exact keeps_decideSat (keeps_outputExecution _ _ _)

theorem keeps_runBypassedStoreFast (chain : List (Step V)) (load : NodeRef) (vec : List NodeRef) :
    Keeps G config detector initial
      ((ops oracle).runBypassedStoreFast G config chain load vec .slow) := by
  rw [runBypassedStoreFast_slow]
  split
  · exact keeps_throw (by decide)
  · exact (keeps_add _).seq (keeps_checkSolution _ _ _ _ _)

theorem keeps_leaves :
    Leaves (ops oracle) (ops oracle) G config config.useLookahead config.useLookahead fun _ =>
      Framed (Disciplined G config detector initial) (fun _ => Disciplined G config detector initial)
        fun _ => Disciplined G config detector initial where
  add same := by
    refine ⟨(quiet_leaves G config oracle).add same, fun here => ?_⟩
    rw [World.mode, here]
    exact keeps_add _
  scope inner := by
    refine ⟨(quiet_leaves G config oracle).scope inner.1, fun here => ?_⟩
    rw [World.mode, here]
    exact keeps_scope (inner.2 here)
  aborted different fails :=
    ⟨(quiet_leaves G config oracle).aborted different fails, fun _ => keeps_throw (by decide)⟩
  checkSolution load bypassedStore sourcedStore ready same := by
    refine ⟨(quiet_leaves G config oracle).checkSolution load bypassedStore sourcedStore ready same,
      fun here => ?_⟩
    rw [World.mode, here]
    exact keeps_checkSolution _ _ _ _ _
  runBypassedStoreFast load ready same := by
    refine ⟨(quiet_leaves G config oracle).runBypassedStoreFast load ready same, fun here => ?_⟩
    rw [World.mode, here]
    exact keeps_runBypassedStoreFast _ _ _

theorem keeps_callback (tracebacks : Nat) (chain : List (Step V)) (vec : List NodeRef) :
    Keeps G config detector initial (detector.callback G config oracle tracebacks chain vec .slow) := by
  have laws : RunLaws G config _ _ oracle _ (Framed (Disciplined G config detector initial) _ _) :=
    disciplined_frame.laws
  have called := keeps_leaves.callback laws detector fun w _ _ ready last last' same =>
    ⟨quiet_callback .spectreV1 w ready last last' same, fun here => by
      rw [World.mode, here]
      exact keeps_runPostdeps _ _⟩
  exact (called ⟨.main, chain, chain, _, 0, tracebacks, true⟩ ⟨rfl, rfl⟩ rfl rfl fun _ => rfl).2 rfl

def Called (G : Graph V) (config : Config) (detector : Detector) (initial : List (BoolExpr V))
    (tracebacks : Nat) (chain : List (Step V)) (vec : List NodeRef)
    (s : State (BoolExpr V) (Event V)) : Prop :=
  Disciplined G config detector initial s ∧ (tracebacks ≠ 0 → vec.getLast? ≠ vec.head? →
    WayHarmless G config detector s.events chain → s.asserted = inForce G initial chain)

theorem triple_callback (tracebacks : Nat) (chain : List (Step V)) (vec : List NodeRef)
    (asserted : List (BoolExpr V)) :
    Triple (Disciplined G config detector initial)
      (fun s => Along G config detector initial chain s ∧
        .invoked ⟨chain, vec, tracebacks, asserted⟩ ∈ s.events)
      (detector.callback G config oracle tracebacks chain vec .slow)
      (Called G config detector initial tracebacks chain vec) := by
  by_cases silent : detector = .spectreV1 ∧ (config.useAttackerControlAnalysis = true →
      (G.lookup (vec.getLastD G.entry)).attackerTaint = false)
  · rcases silent with ⟨rfl, untainted⟩
    apply (along_runPostdeps chain vec untainted).weaken And.left
    exact fun along => ⟨along.1, fun _ _ => along.2⟩
  · -- The call itself is on the way, so either it is the last or it was not harmless.
    rintro s ⟨along, recorded⟩
    rcases keeps_callback tracebacks chain vec s along.1 with ⟨grows, disciplined, -⟩
    refine ⟨grows, disciplined, fun _ => ⟨disciplined, fun further inner harmless => ?_⟩⟩
    rcases harmless _ (grows.subset recorded) (List.prefix_refl _) with last | first | quiet
    · exact absurd last further
    · exact absurd first inner
    · exact absurd quiet silent

theorem triple_invoke (tracebacks : Nat) (chain : List (Step V)) (vec : List NodeRef) :
    Triple (Disciplined G config detector initial) (Along G config detector initial chain)
      ((ops oracle).invoke (detector.callback G config oracle) tracebacks chain vec .slow)
      (Called G config detector initial tracebacks chain vec) := by
  intro s along
  have recorded : Along G config detector initial chain
      { s with events := s.events ++ [.invoked ⟨chain, vec, tracebacks, s.asserted⟩] } := by
    refine ⟨along.1.emit _ ?_, fun harmless => along.2 ?_⟩
    · intro call same harmless
      cases same
      exact along.2 harmless
    · exact harmless.earlier (List.prefix_append _ _) (List.prefix_refl _)
  rcases triple_callback tracebacks chain vec s.asserted _ ⟨recorded, by simp⟩ with
    ⟨grows, disciplined, called⟩
  exact ⟨(List.prefix_append _ _).trans grows, disciplined, called⟩

abbrev Kept (G : Graph V) (config : Config) (detector : Detector) (initial : List (BoolExpr V)) :
    RunComparison V :=
  Framed (Disciplined G config detector initial) (Along G config detector initial)
    fun _ => Disciplined G config detector initial

theorem triple_tracebackFrom {w : World (List (Step V)) (List (Step V))} (main : w.pairing = .main)
    {again again' : Rec (List (Step V)) (Run V)} {vec : List NodeRef}
    (last : vec.getLast? = some w.node)
    (kept : w.tracebacks ≠ 0 →
      Recs (Kept G config detector initial) w.todo (w.tracebacks - 1) again again') :
    Triple (Disciplined G config detector initial)
      (Called G config detector initial w.tracebacks w.chain vec)
      ((ops oracle).tracebackFrom G config w.tracebacks again w.chain vec w.node .slow)
      (Disciplined G config detector initial) := by
  unfold Ops.tracebackFrom
  split
  · exact (Triple.skip And.left).weaken id And.left
  · rename_i inner
    by_cases further : w.tracebacks = 0
    · rw [further]
      exact (Triple.skip And.left).weaken id And.left
    · have laws : RunLaws G config _ _ oracle _ (Kept G config detector initial) := along_frame.laws
      have visits : w.tracebacks ≠ 0 → Visits (Kept G config detector initial) w.deeper
          (fun chain target mode => again chain vec target mode)
          (fun chain target mode => again' chain vec target mode) :=
        fun further y below => kept further y below.todo below.tracebacks rfl fun _ => rfl
      have traced := (laws.traceback visits .exec).2 main
      rw [World.mode, main] at traced
      refine traced.weaken (fun called => ?_) And.left
      exact ⟨called.1, called.2 further (by rwa [last])⟩

theorem kept_bodies :
    Bodies (ops oracle) (ops oracle) id G config config.useLookahead config.useLookahead
      (Kept G config detector initial) (detector.callback G config oracle)
      (detector.callback G config oracle) := by
  intro w vec vec' deps rest rest' again again' todo armed met onward back
  have quiet := quiet_bodies G config oracle detector todo armed met
    (fun more y _ _ todo here head same => (onward more y todo here head same).1)
    (fun further y _ _ todo here head same => (back further y todo here head same).1)
  rw [← todo] at back
  cases deps with
  | nil =>
    refine ⟨quiet, fun main => ?_⟩
    rw [World.mode, main]
    apply along_frame.triple_unlessUnsat w.chain And.left
    exact (triple_invoke w.tracebacks w.chain vec).seq (triple_tracebackFrom main met.last back)
  | cons dep deps =>
    have laws : RunLaws G config _ _ oracle _ (Kept G config detector initial) := along_frame.laws
    exact laws.weaken (laws.depsMore todo met (onward (List.cons_ne_nil dep deps)) back)

theorem kept_tracebackDepsRec (tracebacks : Nat) (deps : List (EdgeKind × ExecMode)) :
    Recs (Kept G config detector initial) deps.length tracebacks
      (tracebackDepsRec G config oracle (detector.callback G config oracle) tracebacks deps)
      (tracebackDepsRec G config oracle (detector.callback G config oracle) tracebacks deps) := by
  have laws : RunLaws G config _ _ oracle _ (Kept G config detector initial) := along_frame.laws
  exact laws.tracebackDepsRec kept_bodies tracebacks deps

/-- In a run from the window's constraints, a call of the detector finds exactly these and
its chain's in force, if every call on the way to it was harmless. -/
theorem invocation_exact (G : Graph V) (config : Config) (oracle : Oracle (BoolExpr V))
    (detector : Detector) (initial : List (BoolExpr V)) (ref : NodeRef) (checks : Nat)
    {before after : List (Event V)} {call : Invocation V}
    (made : (runTransmitter G config oracle detector ref .slow ⟨initial, [], checks⟩).2.events =
      before ++ .invoked call :: after)
    (harmless : ∀ earlier, .invoked earlier ∈ before → earlier.chain <+: call.chain →
      earlier.Harmless G config detector) :
    call.asserted = inForce G initial call.chain := by
  have start : Along G config detector initial [] ⟨initial, [], checks⟩ :=
    ⟨fun before call after here => by simp at here, fun _ => by simp [inForce]⟩
  have kept : Kept G config detector initial ⟨.main, [], [], ref, _, _, true⟩
      (runTransmitter G config oracle detector ref .slow)
      (runTransmitter G config oracle detector ref .slow) :=
    kept_tracebackDepsRec config.maxTraceback config.deps.reverse _ rfl rfl rfl fun _ => rfl
  have disciplined := (kept.2 rfl _ start).2.1
  exact disciplined before call after made harmless

end Discipline

/-! An address that is loaded from an address -/

/-- Node 3 is the transmitter, the address of which is loaded at 2 from an address that is
loaded at 1. The load at 2 is transient or not, as the valuation says. -/
def loadedAddress : Graph Bool where
  lookup ref :=
    { arch := if ref = 2 then boolConst (fun v => !v) else boolVal (decide (ref ≠ 3))
      trans := if ref = 2 then boolConst id else boolVal (decide (ref = 3))
      read := boolVal true
      write := boolVal false
      mayWrite := false
      attackerTaint := true
      isBranch := false
      memoryOperand := none
      funcId := some [] }
  entry := 0
  nodes := [0, 1, 2, 3]
  preds ref := if ref = 0 then [] else [ref - 1]
  getNodes kind ref :=
    if kind = .addr ∧ (ref = 2 ∨ ref = 3) then [(ref - 1, boolVal true)] else []
  tfoOut ref := if ref < 3 then [(ref + 1, boolVal true)] else []
  rfSources _ := []
  execWindow := [1, 2, 3]
  transWindow := [2, 3]
  blockPath _ _ := []
  isAlloca _ := false
  checkAlias _ _ := .mayAlias
  sameAddr _ _ := boolVal true
  rfxExists _ _ := boolVal true
  postorderIdx ref := 3 - ref

def tracedConfig : Config where
  deps := [(.addr, .exec)]
  maxTraceback := 1
  useLookahead := false
  fastMode := false
  useAttackerControlAnalysis := false
  diffNames := false
  concreteSourcedStores := true
  lsqSize := none

def bothValuations : Oracle (BoolExpr Bool) := fun _ _ asserted =>
  if asserted.all (·.eval true) || asserted.all (·.eval false) then .sat else .unsat

/-- What the first detector leaves is nothing, so its second call is exact. -/
theorem loadedAddress_exact : ∃ before call after,
    (runTransmitter loadedAddress tracedConfig bothValuations .spectreV1 3 .slow
      ⟨[], [], 0⟩).2.events =
      before ++ .invoked call :: after ∧ before ≠ [] ∧ call.vec = [3, 2, 1] ∧
    call.asserted = inForce loadedAddress [] call.chain := by
  have calls : ∃ before call after,
      (runTransmitter loadedAddress tracedConfig bothValuations .spectreV1 3 .slow
        ⟨[], [], 0⟩).2.events = before ++ .invoked call :: after ∧ before ≠ [] ∧
      call.vec = [3, 2, 1] := ⟨[_, _], _, _, rfl, by simp, rfl⟩
  rcases calls with ⟨before, call, after, made, second, nodes⟩
  refine ⟨before, call, after, made, second, nodes, ?_⟩
  apply invocation_exact loadedAddress tracedConfig bothValuations .spectreV1 [] 3 0 made
  intro earlier _ _
  exact .inr (.inr ⟨rfl, fun control => by cases control⟩)

/-- The second detector's first call, for the load at 2, leaves the demand that this load is
transient, which the chain through the load at 1 does not make. -/
theorem loadedAddress_not_exact : ∃ call,
    .invoked call ∈ (runTransmitter loadedAddress tracedConfig bothValuations .spectreV4 3 .slow
      ⟨[], [], 0⟩).2.events ∧
    call.vec = [3, 2, 1] ∧ call.asserted ≠ inForce loadedAddress [] call.chain ∧
    (∀ term ∈ inForce loadedAddress [] call.chain, term.eval false = true) ∧
    ∃ term ∈ call.asserted, term.eval false = false := by
  have calls : ∃ call ∈ (runTransmitter loadedAddress tracedConfig bothValuations .spectreV4 3 .slow
      ⟨[], [], 0⟩).2.events.filterMap Event.invocation,
      call.vec = [3, 2, 1] ∧
      call.asserted.length ≠ (inForce loadedAddress [] call.chain).length ∧
      (∀ term ∈ inForce loadedAddress [] call.chain, term.eval false = true) ∧
      ∃ term ∈ call.asserted, term.eval false = false := by decide +kernel
  rcases calls with ⟨call, listed, nodes, longer, satisfied, refuted⟩
  rcases List.mem_filterMap.mp listed with ⟨event, made, same⟩
  cases event with
  | leak found => cases same
  | invoked invocation =>
    cases same
    exact ⟨call, made, nodes, fun same => longer (congrArg List.length same), satisfied, refuted⟩

end Clou.Leakage
