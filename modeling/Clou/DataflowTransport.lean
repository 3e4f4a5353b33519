import Clou.DataflowGraph

/-! Passes by instruction over two kinds of values. Where one kind embeds in the other, so do the
runs: what the one pass computes, the other computes as well. -/

namespace Clou.Dataflow

open FiniteMap

variable {V W : Type} {ctx : Context V} {ctx' : Context W} {M : Module} {f : FuncRef} {g : V → W}

structure Embeds (g : V → W) (ctx : Context V) (ctx' : Context W) (M : Module) (f : FuncRef) : Prop where
  injective : Function.Injective g
  top : ctx'.top = g ctx.top
  meet : ∀ a b, ctx'.meet (g a) (g b) = g (ctx.meet a b)
  transfer : ∀ I ∈ M.insts f, ∀ v, ctx'.transfer I (g v) = (ctx.transfer I v).map g

def Mapped (g : V → W) (map : Map V) (map' : Map W) : Prop :=
  ∀ I, map'.lookup I = (map.lookup I).map g

namespace Mapped

variable {map other : Map V} {map' other' : Map W}

theorem empty (g : V → W) : Mapped g ∅ ∅ := fun _ => rfl

theorem insert (mapped : Mapped g map map') (I : InstRef) (v : V) :
    Mapped g (map.insert I v) (map'.insert I (g v)) := by
  intro J
  rw [lookup_insert, lookup_insert, mapped J]
  split
  · rfl
  · rfl

theorem insertAll (mapped : Mapped g map map') (mapped' : Mapped g other other') :
    Mapped g (insertAll map other) (Dataflow.insertAll map' other') := by
  intro I
  rw [Dataflow.insertAll, Dataflow.insertAll, lookup_union, lookup_union, mapped I, mapped' I]
  cases map.lookup I with
  | none => rfl
  | some v => rfl

theorem constantMap (g : V → W) (v : V) (insts : List InstRef) :
    Mapped g (Graph.constantMap v insts) (Graph.constantMap (g v) insts) := by
  intro I
  rw [Graph.constantMap, Graph.constantMap, lookup_foldl_insert, lookup_foldl_insert]
  split
  · rfl
  · rfl

theorem sameMap [DecidableEq V] [DecidableEq W] (injective : Function.Injective g)
    (mapped : Mapped g map map') (mapped' : Mapped g other other') :
    sameMap map' other' = Dataflow.sameMap map other := by
  have same {X : Type} [DecidableEq X] (a b : Map X) :
      Dataflow.sameMap a b = true ↔ ∀ I, a.lookup I = b.lookup I := by
    refine ⟨fun equal I => sameMap_lookup equal I, fun equal => ?_⟩
    simp [Dataflow.sameMap, equal]
  rw [Bool.eq_iff_iff, same, same]
  refine forall_congr' fun I => ?_
  rw [mapped I, mapped' I]
  exact (Option.map_injective injective).eq_iff

end Mapped

/-! One round -/

theorem order_instructions (ctx : Context V) (M : Module) (f : FuncRef) :
    (instructions ctx M f).order M f = (M.insts f).map (instruction ctx) := by
  have found (I : InstRef) (listed : I ∈ M.insts f) :
      ((M.insts f).map (instruction ctx)).find? (fun component => component.entry = I) =
        some (instruction ctx I) := by
    rw [List.find?_map]
    have own : (M.insts f).find? ((fun component : Component V => decide (component.entry = I)) ∘
        instruction ctx) = some I := by
      rw [List.find?_eq_some_iff_append]
      obtain ⟨before, after, split⟩ := List.append_of_mem listed
      refine ⟨by simp [instruction], before, after, split, ?_⟩
      intro J earlier
      have distinct := Module.nodup_insts M f
      rw [split, List.nodup_append] at distinct
      have other := distinct.2.2 J earlier I List.mem_cons_self
      rw [Bool.not_eq_true']
      exact decide_eq_false other
    rw [own]
    rfl
  rw [Graph.order, List.filterMap_congr found]
  simp

theorem checkEdge_instructions (ctx : Context V) (ctx' : Context W) (src dst : InstRef) :
    (instructions ctx' M f).checkEdge src dst = (instructions ctx M f).checkEdge src dst := by
  simp [Graph.checkEdge, Graph.componentExits, List.flatMap_map, instruction, Function.comp_def]

theorem meetAt_mapped (embeds : Embeds g ctx ctx' M f) {ins outs : Map V} {ins' outs' : Map W}
    (mapped : Mapped g ins ins') (mapped' : Mapped g outs outs') {I : InstRef} {v : V}
    (met : (instructions ctx M f).meetAt ctx M f ins outs I = some v) :
    (instructions ctx' M f).meetAt ctx' M f ins' outs' I = some (g v) := by
  obtain ⟨old, found, met⟩ := Option.bind_eq_some_iff.mp met
  rw [Graph.meetAt, mapped I, found]
  simp only [Option.map_some, Option.bind_some]
  split at met
  · rw [if_pos ‹_›]
    have start : (if I ≠ (instructions ctx' M f).entry then ctx'.top else g old) =
        g (if I ≠ (instructions ctx M f).entry then ctx.top else old) := by
      rw [embeds.top]
      exact (apply_ite g _ _ _).symm
    rw [start]
    have follows := foldlM_simulates (motive := fun v w => w = g v)
      (g := (instructions ctx' M f).meetPred ctx' M f outs' I) ?_ rfl met
    · obtain ⟨w, folded, rfl⟩ := follows
      exact folded
    · intro a b _ P _ same step
      subst same
      unfold Graph.meetPred at step ⊢
      rw [checkEdge_instructions ctx]
      split at step
      · rw [if_pos ‹_›, mapped']
        obtain ⟨o, found, rfl⟩ := Option.map_eq_some_iff.mp step
        exact ⟨_, by rw [found]; rfl, embeds.meet a o⟩
      · rw [if_neg ‹_›]
        cases step
        exact ⟨_, rfl, rfl⟩
  · rw [if_neg ‹_›, mapped', met]
    rfl

theorem meetOnce_mapped (embeds : Embeds g ctx ctx' M f) {ins outs next : Map V} {ins' outs' : Map W}
    (mapped : Mapped g ins ins') (mapped' : Mapped g outs outs')
    (met : (instructions ctx M f).meetOnce ctx M f ins outs = some next) :
    ∃ next', (instructions ctx' M f).meetOnce ctx' M f ins' outs' = some next' ∧ Mapped g next next' := by
  unfold Graph.meetOnce at met ⊢
  rw [List.foldlM_map] at met ⊢
  refine foldlM_simulates (motive := Mapped g) ?_ mapped met
  intro s t s' I _ mapped step
  obtain ⟨v, here, rfl⟩ := Option.map_eq_some_iff.mp step
  exact ⟨_, Option.map_eq_some_iff.mpr ⟨g v, meetAt_mapped embeds mapped mapped' here, rfl⟩, mapped.insert I v⟩

structure CacheMapped (g : V → W) (cache : Cache V) (cache' : Cache W) : Prop where
  missing : ∀ {I}, cache.lookup I = none → cache'.lookup I = none
  present : ∀ {I entry}, cache.lookup I = some entry → ∃ entry', cache'.lookup I = some entry' ∧
    entry'.entry = g entry.entry ∧ Mapped g entry.exits entry'.exits

structure PassMapped (g : V → W) (pass : Graph.Pass V) (pass' : Graph.Pass W) : Prop where
  ins : Mapped g pass.ins pass'.ins
  outs : Mapped g pass.outs pass'.outs
  exits : Mapped g pass.exits pass'.exits
  cache : CacheMapped g pass.cache pass'.cache

theorem CacheMapped.insert {cache : Cache V} {cache' : Cache W} (mapped : CacheMapped g cache cache')
    (I : InstRef) (entry : V) {exits : Map V} {exits' : Map W} (mapped' : Mapped g exits exits') :
    CacheMapped g (cache.insert I ⟨entry, exits⟩) (cache'.insert I ⟨g entry, exits'⟩) := by
  constructor
  · intro J absent
    rw [lookup_insert] at absent ⊢
    split at absent
    · cases absent
    · rw [if_neg ‹_›]
      exact mapped.missing absent
  · intro J found held
    rw [lookup_insert] at held ⊢
    split at held
    · cases held
      rw [if_pos ‹_›]
      exact ⟨_, rfl, rfl, mapped'⟩
    · rw [if_neg ‹_›]
      exact mapped.present held

theorem run_mapped (embeds : Embeds g ctx ctx' M f) {I : InstRef} (listed : I ∈ M.insts f)
    {pass next : Graph.Pass V} {pass' : Graph.Pass W} (mapped : PassMapped g pass pass') {v : V}
    (step : Graph.transferComponent.run pass (instruction ctx I) v = some next) :
    ∃ next', Graph.transferComponent.run pass' (instruction ctx' I) (g v) = some next' ∧
      PassMapped g next next' := by
  unfold Graph.transferComponent.run at step ⊢
  simp only [instruction] at step ⊢
  rw [embeds.transfer I listed]
  cases moved : ctx.transfer I v with
  | none =>
    rw [moved] at step
    cases step
  | some out =>
    rw [moved] at step
    simp only [Option.map_some, Option.bind_some] at step ⊢
    have ins := ((Mapped.empty g).insert I v).insertAll mapped.ins
    obtain ⟨entry, found, rfl⟩ := Option.map_eq_some_iff.mp step
    refine ⟨_, Option.map_eq_some_iff.mpr ⟨g entry, by rw [ins I, found]; rfl, rfl⟩, ins, ?_, ?_, ?_⟩
    · exact ((Mapped.empty g).insert I out).insertAll mapped.outs
    · exact mapped.exits.insertAll ((Mapped.empty g).insert I out)
    · exact mapped.cache.insert I entry ((Mapped.empty g).insert I out)

variable {fuel : Nat} {s t : State V} {r : Values V}

section

variable [DecidableEq V] [DecidableEq W]

section

variable (embeds : Embeds g ctx ctx' M f)

include embeds

theorem transferComponent_mapped {I : InstRef} (listed : I ∈ M.insts f) {pass next : Graph.Pass V}
    {pass' : Graph.Pass W} (mapped : PassMapped g pass pass')
    (step : Graph.transferComponent pass (instruction ctx I) = some next) :
    ∃ next', Graph.transferComponent pass' (instruction ctx' I) = some next' ∧ PassMapped g next next' := by
  obtain ⟨v, found, step⟩ := Option.bind_eq_some_iff.mp step
  have found' : pass'.ins.lookup I = some (g v) := by
    rw [mapped.ins I]
    exact congrArg (Option.map g) found
  rw [Graph.transferComponent, show (instruction ctx' I).entry = I from rfl, found', Option.bind_some]
  rw [show (instruction ctx I).entry = I from rfl] at step
  cases held : pass.cache.lookup I with
  | none =>
    rw [held] at step
    rw [mapped.cache.missing held]
    exact run_mapped embeds listed mapped step
  | some cached =>
    obtain ⟨cached', held', entry, exits⟩ := mapped.cache.present held
    rw [held] at step
    rw [held']
    simp only [entry, embeds.injective.eq_iff] at step ⊢
    split at step
    · rw [if_pos ‹_›]
      cases step
      exact ⟨_, rfl, mapped.ins, mapped.outs, mapped.exits.insertAll exits, mapped.cache⟩
    · rw [if_neg ‹_›]
      exact run_mapped embeds listed mapped step

structure StateMapped (g : V → W) (s : State V) (s' : State W) : Prop where
  ins : Mapped g s.ins s'.ins
  outs : Mapped g s.outs s'.outs
  exits : Mapped g s.exits s'.exits
  oldIns : Mapped g s.oldIns s'.oldIns
  oldOuts : Mapped g s.oldOuts s'.oldOuts
  oldExits : Mapped g s.oldExits s'.oldExits
  cache : CacheMapped g s.cache s'.cache

theorem round_mapped {s' : State W} (mapped : StateMapped g s s')
    (step : (instructions ctx M f).round ctx M f s = some t) :
    ∃ t', (instructions ctx' M f).round ctx' M f s' = some t' ∧ StateMapped g t t' := by
  obtain ⟨ins, met, step⟩ := Option.bind_eq_some_iff.mp step
  obtain ⟨pass, passed, rfl⟩ := Option.map_eq_some_iff.mp step
  obtain ⟨ins', met', mappedIns⟩ := meetOnce_mapped embeds mapped.ins mapped.exits met
  rw [Graph.transferOnce, order_instructions, List.foldlM_map] at passed
  obtain ⟨pass', passed', mapped'⟩ := foldlM_simulates (motive := PassMapped g)
    (g := fun pass I => Graph.transferComponent pass (instruction ctx' I)) (b := ⟨ins', s'.outs, ∅, s'.cache⟩)
    (fun I listed mapped step => transferComponent_mapped embeds listed mapped step)
    ⟨mappedIns, mapped.outs, Mapped.empty g, mapped.cache⟩ passed
  rw [← List.foldlM_map, ← order_instructions] at passed'
  refine ⟨⟨pass'.ins, pass'.outs, pass'.exits, s'.ins, s'.outs, s'.exits, pass'.cache⟩, ?_,
    mapped'.ins, mapped'.outs, mapped'.exits, mapped.ins, mapped.outs, mapped.exits, mapped'.cache⟩
  rw [Graph.round, met', Option.bind_some, Graph.transferOnce, passed']
  rfl

theorem iterate_mapped {s' : State W} (mapped : StateMapped g s s')
    (ran : (instructions ctx M f).iterate ctx M f fuel s = some t) :
    ∃ t', (instructions ctx' M f).iterate ctx' M f fuel s' = some t' ∧ StateMapped g t t' := by
  induction fuel generalizing s s' with
  | zero => cases ran
  | succ fuel ih =>
    have stable : Graph.stable s' = Graph.stable s := by
      rw [Graph.stable, Graph.stable, mapped.ins.sameMap embeds.injective mapped.oldIns,
        mapped.outs.sameMap embeds.injective mapped.oldOuts,
        mapped.exits.sameMap embeds.injective mapped.oldExits]
    rw [Graph.iterate] at ran
    rw [Graph.iterate, stable]
    split at ran
    · rw [if_pos ‹_›]
      cases ran
      exact ⟨s', rfl, mapped⟩
    · rw [if_neg ‹_›]
      obtain ⟨r, step, rest⟩ := Option.bind_eq_some_iff.mp ran
      obtain ⟨r', step', mapped'⟩ := round_mapped embeds mapped step
      obtain ⟨t', rest', mappedEnd⟩ := ih mapped' rest
      exact ⟨t', by rw [step', Option.bind_some, rest'], mappedEnd⟩

/-- A pass over the values of one context is one over those of the other. -/
theorem transferInst_mapped {e : V} (ran : transferInst ctx M f fuel e = some r) :
    ∃ r', transferInst ctx' M f fuel (g e) = some r' ∧ Mapped g r.ins r'.ins ∧ Mapped g r.outs r'.outs := by
  obtain ⟨result, transferred, rfl⟩ := Option.map_eq_some_iff.mp ran
  obtain ⟨s, iterated, rfl⟩ := Option.map_eq_some_iff.mp transferred
  have start : StateMapped g ((instructions ctx M f).initial ctx e ∅)
      ((instructions ctx' M f).initial ctx' (g e) ∅) := by
    have insts : (instructions ctx' M f).insts = (instructions ctx M f).insts := by
      simp [Graph.insts, List.flatMap_map, instruction]
    have exits : (instructions ctx' M f).componentExits = (instructions ctx M f).componentExits := by
      simp [Graph.componentExits, List.flatMap_map, instruction]
    rw [Graph.initial, Graph.initial, embeds.top, insts, exits]
    exact ⟨(Mapped.constantMap g _ _).insert _ e, Mapped.constantMap g _ _, Mapped.constantMap g _ _,
      Mapped.empty g, Mapped.empty g, Mapped.empty g, fun _ => rfl, fun held => by cases held⟩
  obtain ⟨s', iterated', mapped⟩ := iterate_mapped embeds start iterated
  refine ⟨_, Option.map_eq_some_iff.mpr ⟨_, Option.map_eq_some_iff.mpr ⟨s', iterated', rfl⟩, rfl⟩, ?_⟩
  exact ⟨mapped.ins, mapped.outs⟩

end

end

/-! Passes that get through -/

section

variable [DecidableEq V]

variable {next pass : Graph.Pass V} {I : InstRef}

/-- What one component of the graph writes: nothing where its entry value is the cached one. -/
theorem transferComponent_cases
    (step : Graph.transferComponent pass (instruction ctx I) = some next) :
    (∃ cached, pass.cache.lookup I = some cached ∧ next.outs = pass.outs ∧ next.cache = pass.cache) ∨
      ∃ v out entry, ctx.transfer I v = some out ∧ next.outs = insertAll (AList.insert I out ∅) pass.outs ∧
        next.cache = pass.cache.insert I entry := by
  have run {v : V} (step : Graph.transferComponent.run pass (instruction ctx I) v = some next) :
      ∃ v out entry, ctx.transfer I v = some out ∧ next.outs = insertAll (AList.insert I out ∅) pass.outs ∧
        next.cache = pass.cache.insert I entry := by
    unfold Graph.transferComponent.run at step
    obtain ⟨r, moves, step⟩ := Option.bind_eq_some_iff.mp step
    obtain ⟨out, moved, rfl⟩ := Option.map_eq_some_iff.mp moves
    obtain ⟨entry, _, rfl⟩ := Option.map_eq_some_iff.mp step
    exact ⟨v, out, _, moved, rfl, rfl⟩
  obtain ⟨v, _, step⟩ := Option.bind_eq_some_iff.mp step
  rw [show (instruction ctx I).entry = I from rfl] at step
  cases held : pass.cache.lookup I with
  | none =>
    rw [held] at step
    exact .inr (run step)
  | some cached =>
    rw [held] at step
    simp only at step
    split at step
    · cases step
      exact .inl ⟨cached, rfl, rfl, rfl⟩
    · exact .inr (run step)

structure Through (ctx : Context V) (done : List InstRef) (cache : Cache V) : Prop where
  done : ∀ {I}, I ∈ done → ∃ v w, ctx.transfer I v = some w
  cached : ∀ {I entry}, cache.lookup I = some entry → ∃ v w, ctx.transfer I v = some w

theorem Through.transferComponent {done : List InstRef} (through : Through ctx done pass.cache)
    (step : Graph.transferComponent pass (instruction ctx I) = some next) :
    Through ctx (done ++ [I]) next.cache := by
  have own : ∃ v w, ctx.transfer I v = some w := by
    rcases transferComponent_cases step with ⟨cached, held, _⟩ | ⟨v, out, _, moved, _⟩
    · exact through.cached held
    · exact ⟨v, out, moved⟩
  constructor
  · intro J which
    rcases List.mem_append.mp which with old | new
    · exact through.done old
    · exact List.mem_singleton.mp new ▸ own
  · intro J held found
    rcases transferComponent_cases step with ⟨cached, _, _, same⟩ | ⟨v, out, entry, _, _, same⟩
    · exact through.cached (same ▸ found)
    · rw [same, lookup_insert] at found
      split at found
      · have here : J = I := ‹_›
        exact here ▸ own
      · exact through.cached found

/-- A pass that returns has transferred every instruction at least once. -/
theorem transferInst_through {e : V} (ran : transferInst ctx M f fuel e = some r) :
    ∀ I ∈ M.insts f, ∃ v w, ctx.transfer I v = some w := by
  obtain ⟨result, transferred, rfl⟩ := Option.map_eq_some_iff.mp ran
  obtain ⟨s, iterated, rfl⟩ := Option.map_eq_some_iff.mp transferred
  cases fuel with
  | zero => cases iterated
  | succ fuel =>
    have unstable : ¬ Graph.stable ((instructions ctx M f).initial ctx e ∅) = true := by
      intro stable
      simp only [Graph.stable, Bool.and_eq_true] at stable
      have same := sameMap_lookup stable.1.1 (instructions ctx M f).entry
      simp [Graph.initial] at same
    rw [Graph.iterate, if_neg unstable] at iterated
    obtain ⟨t, first, _⟩ := Option.bind_eq_some_iff.mp iterated
    obtain ⟨ins, _, passed⟩ := Option.bind_eq_some_iff.mp first
    obtain ⟨pass, passed, _⟩ := Option.map_eq_some_iff.mp passed
    rw [Graph.transferOnce, order_instructions, List.foldlM_map] at passed
    have through : Through ctx (M.insts f) pass.cache := by
      refine foldlM_passed (motive := fun done pass => Through ctx done pass.cache)
        (fun _ through step => through.transferComponent step) ?_ passed
      exact ⟨fun none => absurd none List.not_mem_nil, fun found => by cases found⟩
    intro I listed
    exact through.done listed

/-! What a pass writes -/

def WritesInside (M : Module) (f : FuncRef) (outs : Map V) : Prop := ∀ I v, outs.lookup I = some v → I ∈ M.insts f

theorem WritesInside.transferComponent (inside : WritesInside M f pass.outs)
    (listed : I ∈ M.insts f) (step : Graph.transferComponent pass (instruction ctx I) = some next) :
    WritesInside M f next.outs := by
  intro J w found
  rcases transferComponent_cases step with ⟨_, _, same, _⟩ | ⟨v, out, _, _, same, _⟩
  · exact inside J w (same ▸ found)
  · rw [same, insertAll, lookup_union, lookup_insert, AList.lookup_empty] at found
    split at found
    · have here : J = I := ‹_›
      exact here ▸ listed
    · exact inside J w found

theorem WritesInside.round (inside : WritesInside M f s.outs)
    (step : (instructions ctx M f).round ctx M f s = some t) : WritesInside M f t.outs := by
  obtain ⟨ins, _, step⟩ := Option.bind_eq_some_iff.mp step
  obtain ⟨pass, passed, rfl⟩ := Option.map_eq_some_iff.mp step
  rw [Graph.transferOnce, order_instructions, List.foldlM_map] at passed
  exact foldlM_invariant (motive := fun pass : Graph.Pass V => WritesInside M f pass.outs)
    (fun _ listed inside step => inside.transferComponent listed step) inside passed

theorem transferInst_inside {e : V} (ran : transferInst ctx M f fuel e = some r) :
    WritesInside M f r.outs := by
  obtain ⟨result, transferred, rfl⟩ := Option.map_eq_some_iff.mp ran
  obtain ⟨s, iterated, rfl⟩ := Option.map_eq_some_iff.mp transferred
  refine (iterate_last (motive := fun s => WritesInside M f s.outs)
    (fun inside step => inside.round step) ?_ iterated).2.1
  intro I v found
  rw [Graph.initial, Graph.constantMap, lookup_foldl_insert] at found
  split at found
  · have listed : I ∈ (instructions ctx M f).insts := ‹_›
    simpa [Graph.insts, instruction] using listed
  · cases found

end

end Clou.Dataflow
