import Clou.SearchLaws

/-! The two modes of the leakage search: fast mode leaves the solver alone, slow mode
closes what it opens. -/

namespace Clou.Leakage

open Z3 Backtrack

variable {V : Type} {G : Graph V} {config : Config} {oracle : Oracle (BoolExpr V)}

/-- Two searches that hand their chains on are compared. -/
abbrev RunComparison (V : Type) := Comparison (List (Step V)) (List (Step V)) (Run V) (Run V)

abbrev RunLaws (G : Graph V) (config : Config) (use use' : Bool) (oracle : Oracle (BoolExpr V))
    (S W : RunComparison V) : Prop :=
  Laws (ops oracle) (ops oracle) id G config use use' (fun _ => S) W

section

theorem unlessUnsat_slow (rest : Run V) : (ops oracle).unlessUnsat .slow rest =
    ask oracle true (fun result => if result = .unsat then skip else rest) := rfl

theorem decideSat_eq (onSat : Run V) : (ops oracle).decideSat onSat =
    ask oracle false (fun
      | .sat => onSat
      | .unsat => skip
      | .unknown => throw .aborted) := rfl

theorem outputExecution_eq (chain : List (Step V)) (vec : List NodeRef) (transmitter : NodeRef) :
    (ops oracle).outputExecution config chain vec transmitter =
      seq (emit (.leak ⟨vec, transmitter, actions chain⟩))
        (if config.fastMode then throw .next else skip) := rfl

@[simp] theorem lookahead_fast (trial rest : Run V) :
    (ops oracle).lookahead config .fast trial rest = rest := by
  simp [Ops.lookahead]

/-- The actions are those of the chain, so nothing is pushed. -/
theorem inStep_eq (mode : CheckMode) (step : Step V) (rest : Run V) :
    (ops oracle).inStep G mode step rest =
    (ops oracle).condScope mode (seq ((ops oracle).whenSlow mode (add (step.constraints G))) rest) := by
  cases step <;> rfl

theorem unlessLast_related {Q : Run V → Run V → Prop} {tracebacks : Nat} {m m' : Run V}
    (last : Q skip skip) (further : tracebacks ≠ 0 → Q m m') :
    Q ((ops oracle).unlessLast tracebacks m) ((ops oracle).unlessLast tracebacks m') := by
  change Q (if tracebacks = 0 then _ else _) (if tracebacks = 0 then _ else _)
  split
  · exact last
  · rename_i more
    exact further more

/-- In slow mode the walk only collects terms, unless it fails. -/
theorem walk_slow (load : NodeRef) (stores : List NodeRef) :
    (ops oracle).forEach stores ((ops oracle).tryStore G config load .slow) =
      if (SpectreV4.bypassedStores G config load stores).isSome then skip else throw .aborted := by
  unfold SpectreV4.bypassedStores
  generalize [boolVal false] = exprs
  induction stores generalizing exprs with
  | nil => rfl
  | cons store rest ih =>
    rw [Ops.forEach, Ops.tryStore, List.foldlM_cons]
    cases SpectreV4.bypassable G config load store with
    | none => rfl
    | some can =>
      cases can with
      | true => exact ih _
      | false => exact ih _

theorem runBypassedStoreFast_slow (chain : List (Step V)) (load : NodeRef) (vec : List NodeRef) :
    (ops oracle).runBypassedStoreFast G config chain load vec .slow =
      match SpectreV4.bypassedStores G config load (SpectreV4.walk G [load] []) with
      | none => throw .aborted
      | some exprs => seq (add [mkOr exprs])
        ((ops oracle).checkSolution G config chain load G.entry G.entry vec .slow) := by
  rw [Ops.runBypassedStoreFast, walk_slow]
  cases SpectreV4.bypassedStores G config load (SpectreV4.walk G [load] []) with
  | none => rfl
  | some exprs => rfl

end

/-! Fast mode -/

def QuietTrial : RunComparison V := fun w m _ => w.pairing = .trial → Quiet m

variable (G config oracle) in
theorem quiet_laws : RunLaws G config config.useLookahead config.useLookahead oracle QuietTrial
    QuietTrial where
  weaken := id
  forget := id
  disarm := id
  skip _ := quiet_skip
  seq first second here := (first here).seq (second here)
  after first second here := (first here).seq (second here)
  step _ _ inner here := by
    rw [inStep_eq, World.mode, here]
    exact quiet_skip.seq (inner here)
  unlessUnsat inner here := by
    rw [World.mode, here]
    exact inner here
  unlessLast := unlessLast_related fun _ => quiet_skip
  deeper _ := id
  lookahead _ _ _ _ rest here := by
    have found := rest here
    rw [World.mode, here] at found ⊢
    rwa [Pairing.left, lookahead_fast]
  lookaheadStep _ _ _ _ _ _ rest here := by
    have found := rest here
    rw [World.mode, here] at found ⊢
    rw [Pairing.left, lookahead_fast, inStep_eq]
    exact quiet_skip.seq found

theorem quiet_records : Records (ops oracle) (ops oracle) id fun _ => QuietTrial := by
  intro w vec vec' m m' _ quiet here
  rw [World.mode, here]
  exact quiet here

theorem quiet_runPostdeps (chain : List (Step V)) (vec : List NodeRef) :
    Quiet ((ops oracle).runPostdeps G config chain vec .fast) := by
  simp only [Ops.runPostdeps, Ops.report, reduceCtorEq, if_false, if_true]
  split
  · exact quiet_skip
  · exact quiet_throw _

theorem quiet_checkSolution (chain : List (Step V)) (load bypassedStore sourcedStore : NodeRef)
    (vec : List NodeRef) :
    Quiet ((ops oracle).checkSolution G config chain load bypassedStore sourcedStore vec .fast) := by
  change Quiet (if _ then _ else _)
  split
  · exact quiet_skip
  · exact quiet_throw _

theorem quiet_walk (load : NodeRef) (stores : List NodeRef) :
    Quiet ((ops oracle).forEach stores ((ops oracle).tryStore G config load .fast)) := by
  induction stores with
  | nil => exact quiet_skip
  | cons store rest ih =>
    refine Quiet.seq ?_ ih
    unfold Ops.tryStore
    cases SpectreV4.bypassable G config load store with
    | none => exact quiet_throw _
    | some can =>
      cases can with
      | true => exact quiet_throw _
      | false => exact quiet_skip

theorem quiet_runBypassedStoreFast (chain : List (Step V)) (load : NodeRef) (vec : List NodeRef) :
    Quiet ((ops oracle).runBypassedStoreFast G config chain load vec .fast) :=
  (quiet_walk load _).seq quiet_skip

variable (G config oracle) in
theorem quiet_leaves :
    Leaves (ops oracle) (ops oracle) G config config.useLookahead config.useLookahead fun _ =>
      QuietTrial where
  add _ here := by
    rw [World.mode, here]
    exact quiet_skip
  scope inner here := by
    rw [World.mode, here]
    exact inner here
  aborted _ _ _ := quiet_throw _
  checkSolution _ _ _ _ _ here := by
    rw [World.mode, here]
    exact quiet_checkSolution _ _ _ _ _
  runBypassedStoreFast _ _ _ here := by
    rw [World.mode, here]
    exact quiet_runBypassedStoreFast _ _ _

theorem quiet_callback (detector : Detector) :
    Calls id G (fun _ => QuietTrial) (detector.callback G config oracle)
      (detector.callback G config oracle) := by
  refine (quiet_leaves G config oracle).callback (quiet_laws G config oracle) detector ?_
  intro w vec vec' _ _ _ _ here
  rw [World.mode, here]
  exact quiet_runPostdeps _ _

variable (G config oracle) in
theorem quiet_bodies (detector : Detector) :
    Bodies (ops oracle) (ops oracle) id G config config.useLookahead config.useLookahead QuietTrial
      (detector.callback G config oracle) (detector.callback G config oracle) :=
  (quiet_laws G config oracle).depsBody quiet_records (quiet_callback detector)

end Clou.Leakage
