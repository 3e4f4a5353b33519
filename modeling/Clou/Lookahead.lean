import Clou.LeakageModes

/-! Where a trial in fast mode finds nothing, the search in slow mode reports nothing. -/

namespace Clou.Leakage

open Z3 Backtrack

variable {V : Type}

def SoundOracle (oracle : Oracle (BoolExpr V)) : Prop :=
  ∀ limit calls facts, oracle limit calls facts = .sat → ∃ v, ∀ term ∈ facts, term.eval v = true

variable {G : Graph V} {config : Config} {oracle : Oracle (BoolExpr V)} {use use' : Bool}
  {chain chain' : List (Step V)} {vec vec' : List NodeRef}

theorem actions_append (chain : List (Step V)) (step : Step V) :
    actions (chain ++ [step]) = actions chain ++ step.action.toList := by
  unfold actions
  rw [List.filterMap_append]
  cases took : step.action with
  | none => simp [took]
  | some action => simp [took]

theorem actions_extend (fewer : actions chain ⊆ actions chain') (step : Step V) :
    actions (chain ++ [step]) ⊆ actions (chain' ++ [step]) := by
  rw [actions_append, actions_append]
  intro action member
  rcases List.mem_append.mp member with old | new
  · exact List.mem_append_left _ (fewer old)
  · exact List.mem_append_right _ new

theorem actions_subset_append (chain : List (Step V)) (step : Step V) :
    actions chain ⊆ actions (chain ++ [step]) := by
  rw [actions_append]
  exact List.subset_append_left _ _

section

variable {rest : Run V}

theorem silent_step (step : Step V) (silent : Silent Event.leaks rest) :
    Silent Event.leaks ((ops oracle).inStep G .slow step rest) := by
  rw [inStep_eq]
  exact ((silent_add _).seq silent).inScope

theorem silent_lookahead {trial : Run V} (quiet : Quiet trial) (silent : Silent Event.leaks rest) :
    Silent Event.leaks ((ops oracle).lookahead config .slow trial rest) := by
  unfold Ops.lookahead
  split
  · exact Silent.ifFound quiet silent
  · exact silent

theorem silent_unlessUnsat (silent : Silent Event.leaks rest) :
    Silent Event.leaks ((ops oracle).unlessUnsat .slow rest) := by
  rw [unlessUnsat_slow]
  apply Silent.ask
  intro result
  split
  · exact silent_skip
  · exact silent

theorem silent_decideSat (silent : Silent Event.leaks rest) :
    Silent Event.leaks ((ops oracle).decideSat rest) := by
  rw [decideSat_eq]
  apply Silent.ask
  intro result
  cases result with
  | sat => exact silent
  | unsat => exact silent_skip
  | unknown => exact silent_throw _

end

/-! The detectors -/

theorem silent_runPostdeps (last : vec.getLastD G.entry = vec'.getLastD G.entry)
    (ends : Ends ((ops oracle).runPostdeps G (config.withLookahead use) chain vec .fast)) :
    Silent Event.leaks ((ops oracle).runPostdeps G (config.withLookahead use') chain' vec' .slow) := by
  simp only [Ops.runPostdeps, Ops.report, reduceCtorEq, if_false, if_true] at ends ⊢
  apply silent_decideSat
  rw [← last]
  split at ends
  · rename_i untainted
    rw [if_pos (by exact untainted)]
    exact silent_skip
  · exact absurd ends (not_ends_throw (by decide))

variable {load : NodeRef}

theorem filter_mono {chain chain' : List Action} (fewer : chain ⊆ chain')
    (filtered : SpectreV4.filter G chain = true) : SpectreV4.filter G chain' = true := by
  rcases List.any_eq_true.mp filtered with ⟨action, member, noAlias⟩
  exact List.any_eq_true.mpr ⟨action, fewer member, noAlias⟩

theorem silent_checkSolution {bypassedStore sourcedStore : NodeRef}
    (fewer : actions chain ⊆ actions chain')
    (ends : Ends ((ops oracle).checkSolution G (config.withLookahead use) chain load bypassedStore
      sourcedStore vec .fast)) :
    Silent Event.leaks ((ops oracle).checkSolution G (config.withLookahead use') chain' load bypassedStore
      sourcedStore vec' .slow) := by
  change Ends (if SpectreV4.filter G (actions chain) then _ else _) at ends
  change Silent _ (if SpectreV4.filter G (actions chain') then _ else _)
  split at ends
  · rename_i filtered
    rw [if_pos (filter_mono fewer filtered)]
    exact silent_skip
  · exact absurd ends (not_ends_throw (by decide))

/-- Where no store on the way can be bypassed, the one term about them is a false one. -/
theorem bypassedStores_of_ends {stores : List NodeRef}
    (ends : Ends ((ops oracle).forEach stores ((ops oracle).tryStore G config load .fast))) :
    SpectreV4.bypassedStores G config load stores = some [boolVal false] := by
  unfold SpectreV4.bypassedStores
  induction stores with
  | nil => rfl
  | cons store rest ih =>
    rw [Ops.forEach, Ops.tryStore] at ends
    cases can : SpectreV4.bypassable G config load store with
    | none =>
      rw [can] at ends
      exact absurd ends (not_ends_throw (by decide))
    | some can' =>
      rw [can] at ends
      cases can' with
      | true => exact absurd ends (not_ends_throw (by decide))
      | false => simpa [List.foldlM_cons, can] using ih ends

theorem silent_runBypassedStoreFast (sound : SoundOracle oracle)
    (ends : Ends ((ops oracle).runBypassedStoreFast G (config.withLookahead use) chain load vec .fast)) :
    Silent Event.leaks
      ((ops oracle).runBypassedStoreFast G (config.withLookahead use') chain' load vec' .slow) := by
  have failed := bypassedStores_of_ends (ends_seq (quiet_walk load _) ends).1
  change SpectreV4.bypassedStores G (config.withLookahead use') load (SpectreV4.walk G [load] []) = _
    at failed
  rw [runBypassedStoreFast_slow, failed]
  intro s
  change ((if SpectreV4.filter G (actions chain') then skip else (ops oracle).decideSat _ : Run V)
    { s with asserted := s.asserted ++ [mkOr [boolVal false]] }).2.marked _ = _
  split
  · rfl
  · simp only [decideSat_eq, ask]
    cases answer : oracle false s.checks (s.asserted ++ [mkOr [boolVal false]]) with
    | sat =>
      rcases sound _ _ _ answer with ⟨v, satisfied⟩
      have refuted := satisfied (mkOr [boolVal false]) (by simp)
      simp at refuted
    | unsat => rfl
    | unknown => rfl

end Clou.Leakage
