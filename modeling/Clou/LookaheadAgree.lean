import Clou.Lookahead

/-! Searches with and without lookahead report the same leaks. -/

namespace Clou.Leakage

open Z3 Backtrack

variable {V : Type} {G : Graph V} {config : Config} {oracle : Oracle (BoolExpr V)}

/-! How the search can end -/

section Exits

def Allowed (P : Prop) : CheckMode → Outcome → Prop
  | _, .done => True
  | .fast, .found => True
  | .slow, .found => False
  | _, .next => False
  | _, .aborted => P

variable {P : Prop}

theorem allowed_done (mode : CheckMode) : Allowed P mode .done := by cases mode <;> trivial

theorem allowed_aborted {mode : CheckMode} (can : P) : Allowed P mode .aborted := by
  cases mode <;> exact can

variable {mode : CheckMode}

theorem endsIn_condScope {mode' : CheckMode} {inner : Run V}
    (inside : EndsIn (Allowed P mode) inner) :
    EndsIn (Allowed P mode) ((ops oracle).condScope mode' inner) := by
  cases mode' with
  | fast => exact inside
  | slow => exact inside.inScope

theorem endsIn_whenSlow (facts : List (BoolExpr V)) :
    EndsIn (Allowed P mode) ((ops oracle).whenSlow mode (add facts)) := by
  cases mode with
  | fast => exact endsIn_skip (allowed_done _)
  | slow => exact endsIn_add (allowed_done _) facts

theorem endsIn_unlessUnsat {rest : Run V} (after : EndsIn (Allowed P mode) rest) :
    EndsIn (Allowed P mode) ((ops oracle).unlessUnsat mode rest) := by
  cases mode with
  | fast => exact after
  | slow =>
    rw [unlessUnsat_slow]
    apply EndsIn.ask
    intro result _
    split
    · exact endsIn_skip (allowed_done _)
    · exact after

theorem endsIn_lookahead {trial rest : Run V} (tried : EndsIn (Allowed P .fast) trial)
    (after : EndsIn (Allowed P mode) rest) :
    EndsIn (Allowed P mode) ((ops oracle).lookahead config mode trial rest) := by
  unfold Ops.lookahead
  split
  · rename_i slow
    apply EndsIn.ifFound tried _ after
    intro outcome allowed uncaught
    cases outcome with
    | done => exact allowed_done mode
    | found => exact absurd rfl uncaught
    | next => exact absurd allowed id
    | aborted => exact allowed_aborted allowed
  · exact after

def CanAbort (G : Graph V) (config : Config) (oracle : Oracle (BoolExpr V)) (detector : Detector) :
    Prop :=
  (∃ calls facts, oracle false calls facts = .unknown) ∨
    (detector = .spectreV4 ∧ config.diffNames = true ∧
      ∃ load store, SpectreV4.differentNames G load store = none)

theorem endsIn_decideSat {onSat : Run V} (after : EndsIn (Allowed P .slow) onSat)
    (unknown : (∃ calls facts, oracle false calls facts = .unknown) → P) :
    EndsIn (Allowed P .slow) ((ops oracle).decideSat onSat) := by
  rw [decideSat_eq]
  apply EndsIn.ask
  intro result given
  cases result with
  | sat => exact after
  | unsat => exact endsIn_skip (allowed_done _)
  | unknown => exact endsIn_throw (unknown given)

theorem endsIn_outputExecution (keepsOn : config.fastMode = false) (chain : List (Step V))
    (vec : List NodeRef) (transmitter : NodeRef) :
    EndsIn (Allowed P .slow) ((ops oracle).outputExecution config chain vec transmitter) := by
  rw [outputExecution_eq, keepsOn]
  exact (endsIn_emit (allowed_done _) _).seq (endsIn_skip (allowed_done _))

def Exits (P : Prop) : RunComparison V :=
  fun w m _ => w.pairing ≠ .cross → EndsIn (Allowed P w.mode) m

theorem exits_laws : RunLaws G config config.useLookahead config.useLookahead oracle (Exits P)
    (Exits P) where
  weaken := id
  forget := id
  disarm := id
  skip _ := endsIn_skip (allowed_done _)
  seq first second here := (first here).seq (second here)
  after first second here := (first here).seq (second here)
  step _ _ inner here := by
    rw [inStep_eq]
    exact endsIn_condScope ((endsIn_whenSlow _).seq (inner here))
  unlessUnsat inner here := endsIn_unlessUnsat (inner here)
  unlessLast := unlessLast_related fun _ => endsIn_skip (allowed_done _)
  deeper _ := id
  lookahead _ _ tried _ rest here := endsIn_lookahead (tried Pairing.noConfusion) (rest here)
  lookaheadStep _ _ _ _ tried _ rest here := by
    rw [inStep_eq]
    exact endsIn_lookahead (tried Pairing.noConfusion)
      (endsIn_condScope ((endsIn_whenSlow _).seq (rest here)))

theorem exits_records : Records (ops oracle) (ops oracle) id fun _ => Exits P := by
  intro w vec vec' m m' _ exits here
  split
  · exact EndsIn.seq (fun _ => allowed_done _) (exits here)
  · exact exits here

theorem exits_runPostdeps (keepsOn : config.fastMode = false) (chain : List (Step V))
    (vec : List NodeRef) (mode : CheckMode) :
    EndsIn (Allowed (CanAbort G config oracle .spectreV1) mode)
      ((ops oracle).runPostdeps G config chain vec mode) := by
  unfold Ops.runPostdeps
  cases mode with
  | fast =>
    simp only [reduceCtorEq, if_false]
    split
    · exact endsIn_skip (allowed_done _)
    · exact endsIn_throw trivial
  | slow =>
    simp only [if_true, Ops.report, reduceCtorEq, if_false]
    apply endsIn_decideSat _ Or.inl
    split
    · exact endsIn_skip (allowed_done _)
    · apply EndsIn.seq
      · split
        · exact endsIn_add (allowed_done _) _
        · exact endsIn_skip (allowed_done _)
      · exact endsIn_decideSat (endsIn_outputExecution keepsOn _ _ _) Or.inl

theorem exits_checkSolution (keepsOn : config.fastMode = false) (chain : List (Step V))
    (load bypassedStore sourcedStore : NodeRef) (vec : List NodeRef) (mode : CheckMode) :
    EndsIn (Allowed (CanAbort G config oracle .spectreV4) mode)
      ((ops oracle).checkSolution G config chain load bypassedStore sourcedStore vec mode) := by
  change EndsIn _ (if _ then _ else _)
  split
  · exact endsIn_skip (allowed_done _)
  · cases mode with
    | fast => exact endsIn_throw trivial
    | slow => exact endsIn_decideSat (endsIn_outputExecution keepsOn _ _ _) Or.inl

variable {load : NodeRef}

/-- Both the bypassing of a store and the search for one rest on the failing cast. -/
theorem canAbort_of_names (different : config.diffNames = true) {store : NodeRef}
    (fails : SpectreV4.differentNames G load store = none) : CanAbort G config oracle .spectreV4 :=
  .inr ⟨rfl, different, load, store, fails⟩

theorem canAbort_of_bypassable {store : NodeRef}
    (fails : SpectreV4.bypassable G config load store = none) :
    CanAbort G config oracle .spectreV4 := by
  unfold SpectreV4.bypassable at fails
  split at fails
  · split at fails
    · rename_i different
      exact canAbort_of_names different fails
    · cases fails
  · cases fails

theorem exits_walk (load : NodeRef) (stores : List NodeRef) :
    EndsIn (Allowed (CanAbort G config oracle .spectreV4) .fast)
      ((ops oracle).forEach stores ((ops oracle).tryStore G config load .fast)) := by
  induction stores with
  | nil => exact endsIn_skip (allowed_done _)
  | cons store rest ih =>
    refine EndsIn.seq ?_ ih
    unfold Ops.tryStore
    cases can : SpectreV4.bypassable G config load store with
    | none => exact endsIn_throw (canAbort_of_bypassable can)
    | some can' =>
      cases can' with
      | true => exact endsIn_throw trivial
      | false => exact endsIn_skip (allowed_done _)

theorem canAbort_of_bypassedStores {stores : List NodeRef}
    (fails : SpectreV4.bypassedStores G config load stores = none) :
    CanAbort G config oracle .spectreV4 := by
  unfold SpectreV4.bypassedStores at fails
  generalize [boolVal false] = exprs at fails
  induction stores generalizing exprs with
  | nil => cases fails
  | cons store rest ih =>
    rw [List.foldlM_cons] at fails
    cases can : SpectreV4.bypassable G config load store with
    | none => exact canAbort_of_bypassable can
    | some can' =>
      rw [can] at fails
      exact ih _ fails

theorem exits_runBypassedStoreFast (keepsOn : config.fastMode = false) (chain : List (Step V))
    (load : NodeRef) (vec : List NodeRef) (mode : CheckMode) :
    EndsIn (Allowed (CanAbort G config oracle .spectreV4) mode)
      ((ops oracle).runBypassedStoreFast G config chain load vec mode) := by
  cases mode with
  | fast => exact (exits_walk _ _).seq (endsIn_skip (allowed_done _))
  | slow =>
    rw [runBypassedStoreFast_slow]
    split
    · rename_i fails
      exact endsIn_throw (canAbort_of_bypassedStores fails)
    · exact (endsIn_add (allowed_done _) _).seq (exits_checkSolution keepsOn _ _ _ _ _ _)

theorem exits_leaves (keepsOn : config.fastMode = false) :
    Leaves (ops oracle) (ops oracle) G config config.useLookahead config.useLookahead fun _ =>
      Exits (CanAbort G config oracle .spectreV4) where
  add _ _ := endsIn_whenSlow _
  scope inner here := endsIn_condScope (inner here)
  aborted different fails _ := endsIn_throw (allowed_aborted (canAbort_of_names different fails))
  checkSolution _ _ _ _ _ _ := exits_checkSolution keepsOn _ _ _ _ _ _
  runBypassedStoreFast _ _ _ _ := exits_runBypassedStoreFast keepsOn _ _ _ _

theorem exits_callback (keepsOn : config.fastMode = false) (detector : Detector) :
    Calls id G (fun _ => Exits (CanAbort G config oracle detector)) (detector.callback G config oracle)
      (detector.callback G config oracle) := by
  cases detector with
  | spectreV1 => exact fun _ _ _ _ _ _ _ _ => exits_runPostdeps keepsOn _ _ _
  | spectreV4 => exact (exits_leaves keepsOn).examined exits_laws

end Exits

/-! The same leaks -/

section

variable {rest rest' : Run V}

theorem agree_step (step : Step V) (alike : Alike Event.leaks rest rest') :
    Agree Event.leaks (Same Event.leaks) ((ops oracle).inStep G .slow step rest)
      ((ops oracle).inStep G .slow step rest') := by
  rw [inStep_eq, inStep_eq]
  exact ((agree_add _).seq alike).inScope

variable {Q : State (BoolExpr V) (Event V) → State (BoolExpr V) (Event V) → Prop}

theorem agree_unlessUnsat (steady : oracle.Steady)
    (refuted : Agree Event.leaks Q (skip : Run V) skip) (agree : Agree Event.leaks Q rest rest') :
    Agree Event.leaks Q ((ops oracle).unlessUnsat .slow rest)
      ((ops oracle).unlessUnsat .slow rest') := by
  rw [unlessUnsat_slow, unlessUnsat_slow]
  apply Agree.ask steady
  intro result
  split
  · exact refuted
  · exact agree

theorem agree_decideSat (steady : oracle.Steady) {onSat onSat' : Run V}
    (agree : Agree Event.leaks (Same Event.leaks) onSat onSat') :
    Agree Event.leaks (Same Event.leaks) ((ops oracle).decideSat onSat)
      ((ops oracle).decideSat onSat') := by
  rw [decideSat_eq, decideSat_eq]
  apply Agree.ask steady
  intro result
  cases result with
  | sat => exact agree
  | unsat => exact agree_skip
  | unknown => exact agree_throw (by decide)

theorem agree_outputExecution (chain : List (Step V)) (vec : List NodeRef) (transmitter : NodeRef) :
    Agree Event.leaks (Same Event.leaks)
      ((ops oracle).outputExecution (config.withLookahead true) chain vec transmitter)
      ((ops oracle).outputExecution (config.withLookahead false) chain vec transmitter) := by
  rw [outputExecution_eq, outputExecution_eq]
  apply (agree_emit _).seq
  change Agree _ _ (if config.fastMode = true then _ else _) (if config.fastMode = true then _ else _)
  split
  · exact agree_throw (by decide)
  · exact agree_skip

/-- With lookahead the rest is left out where the trial finds nothing. -/
theorem agree_lookahead {trial trial' : Run V} (quiet : Quiet trial)
    (pruned : Ends trial → Agree Event.leaks Q skip rest') (agree : Agree Event.leaks Q rest rest') :
    Agree Event.leaks Q ((ops oracle).lookahead (config.withLookahead true) .slow trial rest)
      ((ops oracle).lookahead (config.withLookahead false) .slow trial' rest') := by
  have with' : (ops oracle).lookahead (config.withLookahead true) .slow trial rest =
      ifFound trial rest :=
    rfl
  have without : (ops oracle).lookahead (config.withLookahead false) .slow trial' rest' = rest' := rfl
  rw [with', without]
  exact Agree.ifFound quiet pruned agree

end

theorem agree_runPostdeps (steady : oracle.Steady) (chain : List (Step V)) (vec : List NodeRef) :
    Agree Event.leaks (Same Event.leaks)
      ((ops oracle).runPostdeps G (config.withLookahead true) chain vec .slow)
      ((ops oracle).runPostdeps G (config.withLookahead false) chain vec .slow) := by
  apply agree_decideSat steady
  change Agree _ _ (if (config.useAttackerControlAnalysis && _) = true then _ else _)
    (if (config.useAttackerControlAnalysis && _) = true then _ else _)
  split
  · exact agree_skip
  · apply Agree.seq
    · change Agree _ _ (if config.useAttackerControlAnalysis = true then _ else _)
        (if config.useAttackerControlAnalysis = true then _ else _)
      split
      · exact agree_add _
      · exact agree_skip
    · exact agree_decideSat steady (agree_outputExecution _ _ _)

theorem agree_checkSolution (steady : oracle.Steady) (chain : List (Step V))
    (load bypassedStore sourcedStore : NodeRef) (vec : List NodeRef) :
    Agree Event.leaks (Same Event.leaks)
      ((ops oracle).checkSolution G (config.withLookahead true) chain load bypassedStore sourcedStore vec
        .slow)
      ((ops oracle).checkSolution G (config.withLookahead false) chain load bypassedStore sourcedStore vec
        .slow) := by
  change Agree _ _ (if SpectreV4.filter G (actions chain) then _ else _)
    (if SpectreV4.filter G (actions chain) then _ else _)
  split
  · exact agree_skip
  · exact agree_decideSat steady (agree_outputExecution _ _ _)

theorem agree_runBypassedStoreFast (steady : oracle.Steady) (chain : List (Step V)) (load : NodeRef)
    (vec : List NodeRef) :
    Agree Event.leaks (Same Event.leaks)
      ((ops oracle).runBypassedStoreFast G (config.withLookahead true) chain load vec .slow)
      ((ops oracle).runBypassedStoreFast G (config.withLookahead false) chain load vec .slow) := by
  have same : SpectreV4.bypassedStores G (config.withLookahead false) load
      (SpectreV4.walk G [load] []) =
      SpectreV4.bypassedStores G (config.withLookahead true) load (SpectreV4.walk G [load] []) := rfl
  rw [runBypassedStoreFast_slow, runBypassedStoreFast_slow, same]
  cases SpectreV4.bypassedStores G (config.withLookahead true) load (SpectreV4.walk G [load] []) with
  | none => exact agree_throw (by decide)
  | some exprs => exact (agree_add _).seq (agree_checkSolution steady _ _ _ _ _)

/-- Trials only decide how they end. Where one finds nothing, along no more actions than the search
it is for, this search reports nothing, so searches with and without lookahead report the same;
`after` relates where these get to. -/
def Prunes (use use' : Bool)
    (after : State (BoolExpr V) (Event V) → State (BoolExpr V) (Event V) → Prop) :
    RunComparison V := fun w m m' =>
  match w.pairing with
  | .trial => Quiet m ∧ Quiet m'
  | .cross => Quiet m ∧ (actions w.chain ⊆ actions w.chain' → Ends m → Silent Event.leaks m')
  | .main => use = true ∧ use' = false ∧ w.chain = w.chain' → Agree Event.leaks after m m'

section

variable {use use' : Bool}

abbrev Tight (use use' : Bool) : RunComparison V := Prunes use use' (Same Event.leaks)

abbrev Loose (use use' : Bool) : RunComparison V :=
  Prunes use use' fun s t => s.marked Event.leaks = t.marked Event.leaks

variable {w : World (List (Step V)) (List (Step V))} {m m' n n' : Run V}
  {after : State (BoolExpr V) (Event V) → State (BoolExpr V) (Event V) → Prop}

theorem prunes_skip : Tight use use' w skip skip := by
  rcases w with ⟨p, _, _, _, _, _, _⟩
  cases p with
  | trial => exact ⟨quiet_skip, quiet_skip⟩
  | cross => exact ⟨quiet_skip, fun _ _ => silent_skip⟩
  | main => exact fun _ => agree_skip

theorem prunes_seq (first : Tight use use' w m m') (second : Prunes use use' after w n n') :
    Prunes use use' after w (seq m n) (seq m' n') := by
  rcases w with ⟨p, _, _, _, _, _, _⟩
  cases p with
  | trial => exact ⟨first.1.seq second.1, first.2.seq second.2⟩
  | cross =>
    refine ⟨first.1.seq second.1, fun fewer ends => ?_⟩
    have both := ends_seq first.1 ends
    exact (first.2 fewer both.1).seq (second.2 fewer both.2)
  | main => exact fun setting => (first setting).seq (second setting)

theorem prunes_step (step : Step V)
    (inner : Loose use use' (w.push (ops oracle) (ops oracle) step) m m') :
    Tight use use' w ((ops oracle).inStep G w.mode step m)
      ((ops oracle).inStep G w.mode' step m') := by
  rcases w with ⟨p, _, _, _, _, _, _⟩
  cases p with
  | trial =>
    rw [inStep_eq, inStep_eq]
    exact inner
  | cross =>
    refine ⟨?_, fun fewer ends => ?_⟩
    · rw [inStep_eq]
      exact inner.1
    · rw [inStep_eq] at ends
      exact silent_step step (inner.2 (actions_extend fewer step) ends)
  | main =>
    exact fun setting =>
      agree_step step (inner ⟨setting.1, setting.2.1, congrArg (· ++ [step]) setting.2.2⟩)

theorem prunes_unlessUnsat (steady : oracle.Steady) (inner : Tight use use' w m m') :
    Tight use use' w ((ops oracle).unlessUnsat w.mode m) ((ops oracle).unlessUnsat w.mode' m') := by
  rcases w with ⟨p, _, _, _, _, _, _⟩
  cases p with
  | trial => exact inner
  | cross => exact ⟨inner.1, fun fewer ends => silent_unlessUnsat (inner.2 fewer ends)⟩
  | main => exact fun setting => agree_unlessUnsat steady agree_skip (inner setting)

variable {t t' : Run V}

/-- What the trial decides about is `rest`, which is left out on one side if it finds nothing. -/
theorem prunes_lookahead {rest rest' : Run V} (tried : Quiet t ∧ Quiet t')
    (related : Prunes use use' after w rest rest')
    (pruned : w.pairing = .main → w.chain = w.chain' → Ends t → Agree Event.leaks after skip rest') :
    Prunes use use' after w ((ops oracle).lookahead (config.withLookahead use) w.mode t rest)
      ((ops oracle).lookahead (config.withLookahead use') w.mode' t' rest') := by
  rcases w with ⟨p, _, _, _, _, _, _⟩
  cases p with
  | trial => exact related
  | cross => exact ⟨related.1, fun fewer ends => silent_lookahead tried.2 (related.2 fewer ends)⟩
  | main =>
    intro setting
    obtain ⟨rfl, rfl, same⟩ := setting
    exact agree_lookahead tried.1 (pruned rfl same) (related ⟨rfl, rfl, same⟩)

theorem prunes_laws (steady : oracle.Steady) :
    RunLaws G config use use' oracle (Tight use use') (Loose use use') where
  weaken {w} m m' related := by
    rcases w with ⟨p, _, _, _, _, _, _⟩
    cases p with
    | trial => exact related
    | cross => exact related
    | main => exact fun setting => (related setting).alike
  forget := id
  disarm := id
  skip := prunes_skip
  seq := prunes_seq
  after := prunes_seq
  step step _ := prunes_step step
  unlessUnsat := prunes_unlessUnsat steady
  unlessLast := unlessLast_related prunes_skip
  deeper _ := id
  lookahead {w} t t' m m' tried crossed related := by
    refine prunes_lookahead tried related fun here same ends => ?_
    have slow : w.mode' = .slow := by rw [World.mode', here]; rfl
    rw [slow]
    exact (crossed.2 (congrArg actions same ▸ List.Subset.refl _) ends).alike_skip
  lookaheadStep {w} t t' step m m' _ tried crossed related := by
    refine prunes_lookahead tried (prunes_step step related) fun here same ends => ?_
    have slow : w.mode' = .slow := by rw [World.mode', here]; rfl
    rw [slow, inStep_eq]
    have fewer : actions w.chain ⊆ actions (w.chain' ++ [step]) :=
      same ▸ actions_subset_append w.chain step
    exact Silent.agree_skip ((silent_add _).seq (crossed.2 fewer ends))

theorem prunes_records : Records (ops oracle) (ops oracle) id fun _ => Tight use use' := by
  intro w vec vec' m m' _ related
  rcases w with ⟨p, _, _, _, _, _, _⟩
  cases p with
  | trial => exact related
  | cross =>
    exact ⟨related.1, fun fewer ends => Silent.seq (fun s => silent_emit rfl s)
      (related.2 fewer ends)⟩
  | main =>
    have recorded (invocation invocation' : State (BoolExpr V) (Event V) → Invocation V) :
        Agree Event.leaks (Same Event.leaks) (fun s => emit (.invoked (invocation s)) s)
          (fun s => emit (.invoked (invocation' s)) s) :=
      ⟨fun s t same _ _ =>
        ⟨same.1, (silent_emit rfl s).trans (same.2.trans (silent_emit rfl t).symm)⟩⟩
    exact fun setting => (recorded _ _).seq (related setting)

theorem prunes_leaves (steady : oracle.Steady) (sound : SoundOracle oracle) :
    Leaves (ops oracle) (ops oracle) G config use use' fun _ => Tight use use' where
  add {w} facts facts' same := by
    rcases w with ⟨p, _, _, _, _, _, _⟩
    cases p with
    | trial => exact ⟨quiet_skip, quiet_skip⟩
    | cross => exact ⟨quiet_skip, fun _ _ => silent_add _⟩
    | main =>
      rw [same rfl]
      exact fun _ => agree_add _
  scope {w} m m' inner := by
    rcases w with ⟨p, _, _, _, _, _, _⟩
    cases p with
    | trial => exact inner
    | cross => exact ⟨inner.1, fun fewer ends => (inner.2 fewer ends).inScope⟩
    | main => exact fun setting => Agree.inScope (inner setting).alike
  aborted {w} load store _ _ := by
    rcases w with ⟨p, _, _, _, _, _, _⟩
    cases p with
    | trial => exact ⟨quiet_throw _, quiet_throw _⟩
    | cross => exact ⟨quiet_throw _, fun _ _ => silent_throw _⟩
    | main => exact fun _ => agree_throw (by decide)
  checkSolution {w} vec vec' load bypassedStore sourcedStore _ same := by
    rcases w with ⟨p, _, _, _, _, _, _⟩
    cases p with
    | trial => exact ⟨quiet_checkSolution _ _ _ _ _, quiet_checkSolution _ _ _ _ _⟩
    | cross => exact ⟨quiet_checkSolution _ _ _ _ _, silent_checkSolution⟩
    | main =>
      rintro ⟨rfl, rfl, chains⟩
      cases chains
      rw [same rfl]
      exact agree_checkSolution steady _ _ _ _ _
  runBypassedStoreFast {w} vec vec' load _ same := by
    rcases w with ⟨p, _, _, _, _, _, _⟩
    cases p with
    | trial => exact ⟨quiet_runBypassedStoreFast _ _ _, quiet_runBypassedStoreFast _ _ _⟩
    | cross => exact ⟨quiet_runBypassedStoreFast _ _ _, fun _ => silent_runBypassedStoreFast sound⟩
    | main =>
      rintro ⟨rfl, rfl, chains⟩
      cases chains
      rw [same rfl]
      exact agree_runBypassedStoreFast steady _ _ _

theorem prunes_callback (steady : oracle.Steady) (sound : SoundOracle oracle) (detector : Detector) :
    Calls id G (fun _ => Tight use use') (detector.callback G (config.withLookahead use) oracle)
      (detector.callback G (config.withLookahead use') oracle) := by
  refine (prunes_leaves steady sound).callback (prunes_laws steady) detector ?_
  intro w vec vec' _ last last' same
  rcases w with ⟨p, _, _, _, _, _, _⟩
  cases p with
  | trial => exact ⟨quiet_runPostdeps _ _, quiet_runPostdeps _ _⟩
  | cross => exact ⟨quiet_runPostdeps _ _, fun _ => silent_runPostdeps (last.trans last'.symm)⟩
  | main =>
    rintro ⟨rfl, rfl, chains⟩
    cases chains
    rw [same rfl]
    exact agree_runPostdeps steady _ _

end

/-! One transmitter -/

section

variable (G config oracle) (detector : Detector) (transmitter : NodeRef) (known : Bool)
  (window order : List (BoolExpr V))

section

variable (keepsOn : config.fastMode = false)

include keepsOn

theorem exits_runTransmitter (mode : CheckMode) :
    EndsIn (Allowed (CanAbort G config oracle detector) mode)
      (runTransmitter G config oracle detector transmitter mode) := by
  have laws : RunLaws G config _ _ oracle _ (Exits (CanAbort G config oracle detector)) := exits_laws
  have exits := laws.tracebackDepsRec (laws.depsBody exits_records (exits_callback keepsOn detector))
    config.maxTraceback config.deps.reverse
  cases mode with
  | fast =>
    exact exits ⟨.trial, [], [], transmitter, _, _, true⟩ rfl rfl rfl (fun _ => rfl)
      Pairing.noConfusion
  | slow =>
    exact exits ⟨.main, [], [], transmitter, _, _, true⟩ rfl rfl rfl (fun _ => rfl)
      Pairing.noConfusion

theorem runTransmitter_caught :
    (ops oracle).catchNext (runTransmitter G config oracle detector transmitter .slow) =
      runTransmitter G config oracle detector transmitter .slow := by
  apply catchNext_eq
  intro s ended
  have allowed := exits_runTransmitter G config oracle detector transmitter keepsOn .slow s
  rw [ended] at allowed
  exact allowed

/-- Unless the program ends in it, the search for one transmitter runs to its end. -/
theorem exits_forOneTransmitter : EndsIn (Allowed (CanAbort G config oracle detector) .slow)
      (forOneTransmitter G config oracle detector transmitter known window order) := by
  unfold forOneTransmitter Ops.forOneTransmitter
  apply endsIn_lookahead (exits_runTransmitter _ _ _ _ _ keepsOn .fast)
  split
  · exact endsIn_skip (allowed_done _)
  · apply (endsIn_add (allowed_done _) _).seq
    apply endsIn_unlessUnsat
    apply (endsIn_add (allowed_done _) _).seq
    rw [runTransmitter_caught _ _ _ _ _ keepsOn]
    exact exits_runTransmitter _ _ _ _ _ keepsOn .slow

theorem done_of_not_aborted {s : State (BoolExpr V) (Event V)}
    (alive : (forOneTransmitter G config oracle detector transmitter known window order s).1 ≠
      .aborted) :
    (forOneTransmitter G config oracle detector transmitter known window order s).1 = .done := by
  have allowed := exits_forOneTransmitter G config oracle detector transmitter known window order
    keepsOn s
  revert alive allowed
  cases (forOneTransmitter G config oracle detector transmitter known window order s).1 with
  | done => exact fun _ _ => rfl
  | aborted => exact fun alive _ => absurd rfl alive
  | found => exact fun _ allowed => absurd allowed id
  | next => exact fun _ allowed => absurd allowed id

omit keepsOn in
theorem prunes_detector (steady : oracle.Steady) (sound : SoundOracle oracle) (use use' : Bool)
    (tracebacks : Nat) (deps : List (EdgeKind × ExecMode)) :
    Recs (Loose use use') deps.length tracebacks
      (tracebackDepsRec G (config.withLookahead use) oracle
        (detector.callback G (config.withLookahead use) oracle) tracebacks deps)
      (tracebackDepsRec G (config.withLookahead use') oracle
        (detector.callback G (config.withLookahead use') oracle) tracebacks deps) := by
  have laws : RunLaws G config use use' oracle _ _ := prunes_laws steady
  exact laws.tracebackDepsRec (laws.depsBody prunes_records (prunes_callback steady sound detector)) _ _

theorem alike_forOneTransmitter (steady : oracle.Steady) (sound : SoundOracle oracle) :
    Alike Event.leaks
      (forOneTransmitter G (config.withLookahead true) oracle detector transmitter known window order)
      (forOneTransmitter G (config.withLookahead false) oracle detector transmitter known window
        order) := by
  have prunes (p : Pairing) := prunes_detector G config oracle detector steady sound true false
    config.maxTraceback config.deps.reverse ⟨p, [], [], transmitter, _, _, true⟩ rfl rfl rfl
    fun _ => Eq.refl []
  unfold forOneTransmitter Ops.forOneTransmitter
  rw [runTransmitter_caught _ (config.withLookahead true) _ _ _ keepsOn,
    runTransmitter_caught _ (config.withLookahead false) _ _ _ keepsOn]
  apply agree_lookahead (prunes .trial).1
  · intro ends
    apply Silent.alike_skip
    split
    · exact silent_skip
    · apply (silent_add _).seq
      apply silent_unlessUnsat
      exact (silent_add _).seq ((prunes .cross).2 (List.Subset.refl _) ends)
  · split
    · exact agree_skip.alike
    · refine (agree_add window).seq (agree_unlessUnsat steady agree_skip.alike ?_)
      exact (agree_add order).seq (prunes .main ⟨rfl, rfl, rfl⟩)

end

/-- Unless the program ends in one of them, the searches with and without lookahead report the
same leaks; and where the fast search of a subtree finds nothing, the slow one reports nothing. -/
theorem lookahead_loses_nothing (keepsOn : config.fastMode = false) (steady : oracle.Steady)
    (sound : SoundOracle oracle) :
    (∀ s,
      (forOneTransmitter G (config.withLookahead true) oracle detector transmitter known window order
        s).1 ≠ .aborted →
      (forOneTransmitter G (config.withLookahead false) oracle detector transmitter known window order
        s).1 ≠ .aborted →
      (forOneTransmitter G (config.withLookahead true) oracle detector transmitter known window order
        s).2.marked Event.leaks =
      (forOneTransmitter G (config.withLookahead false) oracle detector transmitter known window order
        s).2.marked Event.leaks) ∧
    ∀ use tracebacks deps chain vec ref s t,
      (tracebackDepsRec G (config.withLookahead use) oracle
        (detector.callback G (config.withLookahead use) oracle) tracebacks deps chain vec ref .fast
        s).1 = .done →
      (tracebackDepsRec G (config.withLookahead use) oracle
        (detector.callback G (config.withLookahead use) oracle) tracebacks deps chain vec ref .slow
        t).2.marked Event.leaks = t.marked Event.leaks := by
  constructor
  · intro s alive alive'
    apply (alike_forOneTransmitter G config oracle detector transmitter known window order keepsOn
      steady sound).after s s ⟨rfl, rfl⟩
    · exact done_of_not_aborted G (config.withLookahead true) oracle detector transmitter known window
        order keepsOn alive
    · exact done_of_not_aborted G (config.withLookahead false) oracle detector transmitter known window
        order keepsOn alive'
  · intro use tracebacks deps chain vec ref s t ends
    have prunes := prunes_detector G config oracle detector steady sound use use tracebacks deps
      ⟨.cross, chain, chain, ref, _, _, true⟩ rfl rfl (Eq.refl (vec ++ [ref]).head?) (fun _ => rfl)
    exact prunes.2 (List.Subset.refl _) ⟨s, ends⟩ t

end

/-! Two loads -/

/-- Node 3 is the transmitter, the address of which comes from the load at 1, that the
attacker does not control, or from the one at 2. The first is possible under one of two
valuations only. Node 4 is a branch that the attacker controls. -/
def twoLoads : Graph Bool where
  lookup ref :=
    { arch := boolVal true
      trans := boolVal true
      read := boolVal true
      write := boolVal false
      mayWrite := false
      attackerTaint := decide (ref ≠ 1)
      isBranch := decide (ref = 4)
      memoryOperand := none
      funcId := some [] }
  entry := 0
  nodes := [0, 4, 1, 2, 3]
  preds _ := []
  getNodes kind ref :=
    if kind = .addr ∧ ref = 3 then [(1, boolConst id), (2, boolVal true)] else []
  tfoOut ref := if ref = 4 then [(1, boolVal true)] else []
  rfSources _ := []
  execWindow := [4, 1, 2, 3]
  transWindow := [1, 2, 3]
  blockPath _ _ := []
  isAlloca _ := false
  checkAlias _ _ := .mayAlias
  sameAddr _ _ := boolVal true
  rfxExists _ _ := boolVal true
  postorderIdx ref := ref

def taintedConfig : Config where
  deps := [(.addr, .exec)]
  maxTraceback := 1
  useLookahead := false
  fastMode := false
  useAttackerControlAnalysis := true
  diffNames := false
  concreteSourcedStores := true
  lsqSize := none

/-- A solver that tries one valuation and then says what it says otherwise. -/
def oneValuation (otherwise : CheckResult) : Oracle (BoolExpr Bool) := fun _ _ facts =>
  if facts.all (·.eval false) then .sat else otherwise

theorem oneValuation_sound {otherwise : CheckResult} (unsat : otherwise ≠ .sat) :
    SoundOracle (oneValuation otherwise) := by
  intro limit calls facts sat
  unfold oneValuation at sat
  split at sat
  · rename_i all
    exact ⟨false, List.all_eq_true.mp all⟩
  · exact absurd sat unsat

/-- Without an unknown answer the leak through the second load is reported either way. -/
theorem twoLoads_same_leaks :
    (forOneTransmitter twoLoads (taintedConfig.withLookahead true) (oneValuation .unsat) .spectreV1 3
      false [] [] ⟨[], [], 0⟩).2.marked Event.leaks =
    (forOneTransmitter twoLoads (taintedConfig.withLookahead false) (oneValuation .unsat) .spectreV1 3
      false [] [] ⟨[], [], 0⟩).2.marked Event.leaks ∧
    (forOneTransmitter twoLoads (taintedConfig.withLookahead false) (oneValuation .unsat) .spectreV1 3
      false [] [] ⟨[], [], 0⟩).2.marked Event.leaks = [⟨[2, 3], 3, [⟨2, .addr, 3⟩]⟩] := by
  refine ⟨?_, by decide +kernel⟩
  apply (lookahead_loses_nothing twoLoads taintedConfig (oneValuation .unsat) .spectreV1 3 false [] []
    rfl (fun _ _ _ _ => rfl) (oneValuation_sound (by decide))).1
  · decide +kernel
  · decide +kernel

/-- An unknown answer about the first load, which is asked for before its taint is tested,
ends the program unless the lookahead has left the load out. -/
theorem twoLoads_lost_without :
    (oneValuation .unknown).Steady ∧ SoundOracle (oneValuation .unknown) ∧
    (forOneTransmitter twoLoads (taintedConfig.withLookahead true) (oneValuation .unknown) .spectreV1 3
      false [] [] ⟨[], [], 0⟩).2.marked Event.leaks = [⟨[2, 3], 3, [⟨2, .addr, 3⟩]⟩] ∧
    (forOneTransmitter twoLoads (taintedConfig.withLookahead false) (oneValuation .unknown) .spectreV1 3
      false [] [] ⟨[], [], 0⟩).1 = .aborted ∧
    (forOneTransmitter twoLoads (taintedConfig.withLookahead false) (oneValuation .unknown) .spectreV1 3
      false [] [] ⟨[], [], 0⟩).2.marked Event.leaks = [] := by
  refine ⟨fun _ _ _ _ => rfl, oneValuation_sound (by decide), ?_, ?_, ?_⟩
  · decide +kernel
  · decide +kernel
  · decide +kernel

end Clou.Leakage
