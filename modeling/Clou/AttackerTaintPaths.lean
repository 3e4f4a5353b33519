import Clou.AttackerTaintSound
import Clou.FiniteMap
import Clou.PathFold

/-! The values at which the attacker-control pass stops cover every path. -/

namespace Clou.AttackerTaint

open FiniteMap Oracle

variable {oracle : Oracle} {ctx : Context} {f : FuncRef}

/-! Sweeps -/

structure StateOk (ctx : Context) (f : FuncRef) (s : State) : Prop where
  ins_members : ∀ {I a}, s.ins.lookup I = some a → Members ctx f a
  outs_members : ∀ {I a}, s.outs.lookup I = some a → Members ctx f a
  entry_empty : s.ins.lookup (entry f) = some .empty

variable {s t : State} {I : InstRef} {a : TaintValue}

theorem StateOk.newIn (ok : StateOk ctx f s) (computed : newIn oracle ctx f s I = some a) :
    Members ctx f a := by
  unfold Oracle.newIn at computed
  split at computed
  · exact ok.ins_members computed
  · split at computed
    · refine foldlM_invariant ?_ members_top computed
      intro new out P _ members step
      rcases Option.map_eq_some_iff.mp step with ⟨o, found, rfl⟩
      exact members.meet (ok.outs_members found)
    · exact ok.outs_members computed

theorem StateOk.visit (member : I ∈ ctx.M.insts f) (ok : StateOk ctx f s)
    (visited : visit oracle ctx f s I = some t) : StateOk ctx f t := by
  rcases visit_eq_some.mp visited with ⟨oldIn, new, oldOut, newOut, old, computed, -, moved, rfl⟩
  have members := ok.newIn computed
  constructor
  · intro J a found
    rw [lookup_insert] at found
    split at found
    · exact Option.some.inj found ▸ members
    · exact ok.ins_members found
  · intro J a found
    rw [lookup_insert] at found
    split at found
    · exact Option.some.inj found ▸ members.transfer member moved
    · exact ok.outs_members found
  · rw [lookup_insert]
    split
    · rename_i same
      -- The value before the first instruction is never recomputed.
      rw [← computed, Oracle.newIn, if_pos same.symm, ← same, ok.entry_empty]
    · exact ok.entry_empty

theorem StateOk.sweep (ok : StateOk ctx f s) (swept : sweep oracle ctx f s = some t) :
    StateOk ctx f t :=
  sweep_keeps (fun _ member ok visited => StateOk.visit member ok visited)
    ⟨ok.ins_members, ok.outs_members, ok.entry_empty⟩ swept

structure SameState (s t : State) : Prop where
  ins : ∀ {I a}, s.ins.lookup I = some a → ∃ b, t.ins.lookup I = some b ∧ a.same b = true
  outs : ∀ {I a}, s.outs.lookup I = some a → ∃ b, t.outs.lookup I = some b ∧ a.same b = true

theorem SameState.refl (s : State) : SameState s s :=
  ⟨fun found => ⟨_, found, same_refl _⟩, fun found => ⟨_, found, same_refl _⟩⟩

theorem SameState.trans {u : State} (first : SameState s t) (second : SameState t u) :
    SameState s u := by
  constructor
  · intro I a found
    rcases first.ins found with ⟨b, found, same⟩
    rcases second.ins found with ⟨c, found, same'⟩
    exact ⟨c, found, same_trans same same'⟩
  · intro I a found
    rcases first.outs found with ⟨b, found, same⟩
    rcases second.outs found with ⟨c, found, same'⟩
    exact ⟨c, found, same_trans same same'⟩

structure Justified (ctx : Context) (s : State) (I : InstRef) : Prop where
  moved : ∃ a b a' b', s.ins.lookup I = some a ∧ s.outs.lookup I = some b ∧ a'.same a = true ∧
    transfer ctx I a' = some b' ∧ b'.same b = true
  flow : ∀ {J a}, ctx.M.Next J I → s.ins.lookup I = some a →
    ∃ o, s.outs.lookup J = some o ∧ ∀ v, Covers ctx v o → Covers ctx v a

theorem Justified.of_same (justified : Justified ctx s I) (same : SameState s t) :
    Justified ctx t I := by
  rcases justified.moved with ⟨a, b, a', b', foundA, foundB, sameA, moved, sameB⟩
  rcases same.ins foundA with ⟨c, foundC, sameC⟩
  rcases same.outs foundB with ⟨d, foundD, sameD⟩
  constructor
  · exact ⟨c, d, a', b', foundC, foundD, same_trans sameA sameC, moved, same_trans sameB sameD⟩
  · intro J c' edge foundC'
    obtain rfl := Option.some.inj (foundC.symm.trans foundC')
    rcases justified.flow edge foundA with ⟨o, foundO, covers⟩
    rcases same.outs foundO with ⟨o', foundO', sameO⟩
    refine ⟨o', foundO', fun v covered => ?_⟩
    exact (covers v (covered.of_same (same_symm sameO))).of_same sameC

theorem foldMeet_covers {outs : Map} {preds : List Nat} {start : TaintValue}
    (folded : preds.foldlM (fun new P =>
      (outs.lookup (ctx.M.terminator ⟨f, P⟩)).map (meet ctx.AA.query ctx new)) start = some a) :
    (∀ v, Covers ctx v start → Covers ctx v a) ∧
    ∀ P ∈ preds, ∃ o, outs.lookup (ctx.M.terminator ⟨f, P⟩) = some o ∧
      ∀ v, Covers ctx v o → Covers ctx v a := by
  induction preds generalizing start with
  | nil =>
    obtain rfl : start = a := by simpa using folded
    simp
  | cons P preds ih =>
    rcases foldlM_cons_eq_some.mp folded with ⟨next, step, rest⟩
    rcases Option.map_eq_some_iff.mp step with ⟨o, found, rfl⟩
    rcases ih rest with ⟨from_next, later⟩
    constructor
    · exact fun v covers => from_next v (covers.meet_left o)
    · intro Q member
      rcases List.mem_cons.mp member with rfl | member
      · exact ⟨o, found, fun v covers => from_next v (covers.meet_right start)⟩
      · exact later Q member

section

variable (wellFormed : (ctx.M.func f).WellFormed)

include wellFormed

theorem newIn_flow {J : InstRef} (inside : I.func = f) (edge : ctx.M.Next J I)
    (computed : newIn ctx.AA.query ctx f s I = some a) :
    ∃ o, s.outs.lookup J = some o ∧ ∀ v, Covers ctx v o → Covers ctx v a := by
  cases edge with
  | @seq g B i bound =>
    have later : (⟨g, B, i + 1⟩ : InstRef) ≠ entry f := by simp [entry]
    rw [newIn, if_neg later, if_neg (by simp)] at computed
    exact ⟨a, by simpa using computed, fun v covers => covers⟩
  | @jump g B i S last succ =>
    obtain rfl : g = f := inside
    have bound : B < (ctx.M.func g).blocks.length := by
      by_contra far
      have none : (ctx.M.func g).block B = [] := by
        simp [Function.block, List.getElem?_eq_none (Nat.le_of_not_lt far)]
      simp [none] at last
    have pred := wellFormed.mem_preds.mpr ⟨bound, succ⟩
    have notEntry : (⟨g, S, 0⟩ : InstRef) ≠ entry g := by
      intro same
      obtain rfl : S = 0 := by simpa [entry] using same
      simp [wellFormed.entry_preds] at pred
    rw [newIn, if_neg notEntry, if_pos rfl] at computed
    rcases (foldMeet_covers computed).2 B pred with ⟨o, found, covers⟩
    have here : ctx.M.terminator ⟨g, B⟩ = ⟨g, B, i⟩ := by
      simp only [Module.terminator, ← last]
      rfl
    exact ⟨o, here ▸ found, covers⟩

theorem visit_unchanged (inside : I.func = f) (visited : visit ctx.AA.query ctx f s I = some t)
    (unchanged : t.changed = false) : s.changed = false ∧ SameState s t ∧ Justified ctx t I := by
  rcases visit_eq_some.mp visited with
    ⟨oldIn, new, oldOut, newOut, foundIn, computed, foundOut, moved, rfl⟩
  simp only [Bool.or_eq_false_iff, Bool.not_eq_false'] at unchanged
  rcases unchanged with ⟨⟨before, sameIn⟩, sameOut⟩
  have same : SameState s ⟨s.ins.insert I new, s.outs.insert I newOut,
      s.changed || !oldIn.same new || !oldOut.same newOut⟩ := by
    constructor <;> intro J a found <;> simp only [lookup_insert] <;> split
    · rename_i here
      subst here
      obtain rfl := Option.some.inj (foundIn.symm.trans found)
      exact ⟨new, rfl, sameIn⟩
    · exact ⟨a, found, same_refl a⟩
    · rename_i here
      subst here
      obtain rfl := Option.some.inj (foundOut.symm.trans found)
      exact ⟨newOut, rfl, sameOut⟩
    · exact ⟨a, found, same_refl a⟩
  refine ⟨before, same, ?_, ?_⟩
  · exact ⟨new, newOut, new, newOut, by simp, by simp, same_refl new, moved, same_refl newOut⟩
  · intro J a edge found
    obtain rfl : new = a := by simpa using found
    rcases newIn_flow wellFormed inside edge computed with ⟨o, foundO, covers⟩
    rcases same.outs foundO with ⟨o', foundO', sameO⟩
    exact ⟨o', foundO', fun v covered => covers v (covered.of_same (same_symm sameO))⟩

theorem visits_unchanged {insts : List InstRef} (inside : ∀ I ∈ insts, I.func = f)
    (visited : insts.foldlM (visit ctx.AA.query ctx f) s = some t) (unchanged : t.changed = false) :
    s.changed = false ∧ SameState s t ∧ ∀ I ∈ insts, Justified ctx t I := by
  induction insts generalizing s with
  | nil =>
    obtain rfl : s = t := by simpa using visited
    exact ⟨unchanged, SameState.refl s, by simp⟩
  | cons I insts ih =>
    rcases foldlM_cons_eq_some.mp visited with ⟨r, first, rest⟩
    rcases ih (fun J later => inside J (List.mem_cons_of_mem I later)) rest with
      ⟨still, sameRest, justified⟩
    rcases visit_unchanged wellFormed (inside I List.mem_cons_self) first still with
      ⟨before, sameFirst, here⟩
    refine ⟨before, sameFirst.trans sameRest, ?_⟩
    intro J member
    rcases List.mem_cons.mp member with rfl | later
    · exact here.of_same sameRest
    · exact justified J later

/-- Where the sweeps stop, every instruction's values are justified. -/
theorem iterate_stops {fuel : Nat} (ok : StateOk ctx f s)
    (stopped : iterate ctx.AA.query ctx f fuel s = some t) :
    StateOk ctx f t ∧ ∀ I ∈ ctx.M.insts f, Justified ctx t I := by
  rcases iterate_invariant (fun ok swept => StateOk.sweep ok swept) ok stopped with
    ⟨r, ok, swept, unchanged⟩
  have inside : ∀ I ∈ ctx.M.insts f, I.func = f := fun I member =>
    ((Module.mem_insts ctx.M f I).mp member).1
  exact ⟨ok.sweep swept, (visits_unchanged wellFormed inside swept unchanged).2.2⟩

end

theorem initial_ok (ctx : Context) (f : FuncRef) : StateOk ctx f (initial ctx f) := by
  constructor
  · intro I a found
    rcases initial_ins found with rfl | rfl
    · exact ⟨List.nil_subset _, fun _ member => absurd member List.not_mem_nil⟩
    · exact members_top
  · exact fun found => initial_outs found ▸ members_top
  · simp [initial]

/-! Paths -/

theorem Oracle.Members.of_same {b : TaintValue} (members : Members ctx f a) (same : b.same a = true) :
    Members ctx f b :=
  ⟨List.Subset.trans (same_iff.mp same).1.1 members.insts,
    fun Q member => members.stores Q ((same_iff.mp same).2.1 member)⟩

/-- A path of the function whose steps meet a condition, with the value that folding
the transfer function along it gives. -/
abbrev PathValue (ctx : Context) (f : FuncRef) (ok : InstRef → TaintValue → Prop) :
    InstRef → TaintValue → Prop :=
  PathFold.Reach ctx.M.Next (transfer ctx) ok (entry f) .empty

/-- Where the pass stops, it covers the value of every path whose tainted stores erase
must-aliasing pointers alike, and reports what such a path marks as controlled. -/
theorem taint_covers_paths (ctx : Context) (f : FuncRef)
    (wellFormed : (ctx.M.func f).WellFormed) (fuel : Nat) (state : State)
    (stopped : runOnFunction ctx f fuel = some state) (I : InstRef) (v : TaintValue)
    (path : PathValue ctx f (Respected ctx f) I v) :
    (∃ a, state.ins.lookup I = some a ∧ v.insts ⊆ a.insts ∧
      ∀ P ∈ a.stores, ∃ Q ∈ v.stores, ctx.AA.query P Q = .mustAlias) ∧
    ∀ w, transfer ctx I v = some w → I ∈ w.insts → I ∈ results ctx f state := by
  rcases iterate_stops wellFormed (initial_ok ctx f) stopped with ⟨ok, justified⟩
  have covered : I ∈ ctx.M.insts f ∧ ∃ a, state.ins.lookup I = some a ∧ Covers ctx v a := by
    refine path.invariant (motive := fun I v => I ∈ ctx.M.insts f ∧
      ∃ a, state.ins.lookup I = some a ∧ Covers ctx v a) ?_ ?_
    · exact ⟨Module.entry_mem_insts wellFormed, _, ok.entry_empty, ⟨fun _ h => h, MustCovered.refl []⟩⟩
    · intro p q v w holds respected moved edge
      rcases holds with ⟨member, a, found, covers⟩
      rcases (justified p member).moved with ⟨a₁, b, a', b', foundA, foundB, sameA, step, sameB⟩
      obtain rfl := Option.some.inj (found.symm.trans foundA)
      have members : Members ctx f a' := (ok.ins_members found).of_same sameA
      have covers' := covers.of_same (same_symm sameA)
      have after : Covers ctx w b :=
        ((transfer_covers covers' members moved step).2 respected).of_same sameB
      have target := edge.mem_insts wellFormed member
      rcases (justified q target).moved with ⟨c, -, -, -, foundC, -⟩
      rcases (justified q target).flow edge foundC with ⟨o, foundO, flows⟩
      obtain rfl := Option.some.inj (foundB.symm.trans foundO)
      exact ⟨target, c, foundC, flows w after⟩
  rcases covered with ⟨member, a, found, covers⟩
  refine ⟨⟨a, found, covers.insts, covers.stores⟩, ?_⟩
  intro w moved marked
  rcases (justified I member).moved with ⟨a₁, b, a', b', foundA, foundB, sameA, step, sameB⟩
  obtain rfl := Option.some.inj (found.symm.trans foundA)
  have members : Members ctx f a' := (ok.ins_members found).of_same sameA
  have insts := (transfer_covers (covers.of_same (same_symm sameA)) members moved step).1
  have reported : I ∈ b.insts := (same_iff.mp sameB).1.1 (insts marked)
  simp [results, member, foundB, reported]

/-- The two arms of a branch store to the same place, once through an element pointer;
a controlled argument is then stored to an integer on the stack, and the place is read. -/
def storesThroughGep : Function where
  blocks :=
    [[⟨.alloca true, [.constant 1], [], [], false, true, false⟩,
        ⟨.getelementptr, [.argument 0 0, .constant 0], [], [], false, true, false⟩,
        ⟨.br, [.constant 1], [], [1, 2], true, false, false⟩],
      [⟨.store false, [.constant 0, .inst ⟨0, 0, 1⟩], [], [], true, false, false⟩,
        ⟨.br, [], [], [3], true, false, false⟩],
      [⟨.store false, [.constant 0, .argument 0 0], [], [], true, false, false⟩,
        ⟨.br, [], [], [3], true, false, false⟩],
      [⟨.store false, [.argument 0 1, .inst ⟨0, 0, 0⟩], [], [], true, false, false⟩,
        ⟨.load, [.inst ⟨0, 0, 1⟩], [], [], false, false, true⟩,
        ⟨.ret, [], [], [], true, false, false⟩]]
  predecessors := [[], [0], [0], [1, 2]]
  argIsPointer := [true, false]

def gepContext : Context where
  M := ⟨[storesThroughGep]⟩
  AA := aliasByRepresentative fun V => if V = .inst ⟨0, 0, 1⟩ then .argument 0 0 else V
  order := id
  mem_order := by simp
  annotatedUncontrolled := []

/-- A step that erases nothing respects the other pointers. -/
theorem respected_of_keeps {v : TaintValue}
    (keeps : (ctx.M.deref I).isStore = true → ∀ Q ∈ v.stores,
      aliasResult ctx (ctx.M.deref I).pointerOperand Q = some .noAlias) : Respected ctx f I v :=
  fun store _ Q member erased => absurd (keeps store Q member) erased

theorem gepContext_covers_first_arm :
    ∃ state, runOnFunction gepContext 0 3 = some state ∧
      ∃ a, state.ins.lookup ⟨0, 3, 1⟩ = some a ∧ [] ⊆ a.insts ∧
        ∀ P ∈ a.stores, ∃ Q ∈ [Value.inst ⟨0, 0, 1⟩], gepContext.AA.query P Q = .mustAlias := by
  have stops : (runOnFunction gepContext 0 3).isSome := by decide +kernel
  rcases Option.isSome_iff_exists.mp stops with ⟨state, stopped⟩
  let Path := PathValue gepContext 0 (Respected gepContext 0)
  have front : Path ⟨0, 0, 0⟩ .empty := .start
  have alloca : Path ⟨0, 0, 1⟩ .empty :=
    front.step (respected_of_keeps (by decide)) (by decide) (.seq (by decide))
  have gep : Path ⟨0, 0, 2⟩ .empty :=
    alloca.step (respected_of_keeps (by decide)) (by decide) (.seq (by decide))
  have branch : Path ⟨0, 1, 0⟩ .empty :=
    gep.step (respected_of_keeps (by decide)) (by decide) (.jump (by decide) (by decide))
  have store : Path ⟨0, 1, 1⟩ ⟨[], [.inst ⟨0, 0, 1⟩]⟩ :=
    branch.step (respected_of_keeps (by decide)) (by decide) (.seq (by decide))
  have join : Path ⟨0, 3, 0⟩ ⟨[], [.inst ⟨0, 0, 1⟩]⟩ :=
    store.step (respected_of_keeps (by decide)) (by decide) (.jump (by decide) (by decide))
  have tainted : Path ⟨0, 3, 1⟩ ⟨[], [.inst ⟨0, 0, 1⟩]⟩ :=
    join.step (respected_of_keeps (by decide)) (by decide) (.seq (by decide))
  exact ⟨state, stopped, (taint_covers_paths gepContext 0
    (Function.wellFormed_of_test (by decide)) 3 state stopped ⟨0, 3, 1⟩ _ tainted).1⟩

/-- On the path through the second arm the load is controlled and no store is known,
while the pass still relies on the element pointer and does not report the load. -/
theorem gepContext_misses_second_arm :
    ∃ state, runOnFunction gepContext 0 3 = some state ∧
      PathValue gepContext 0 (fun _ _ => True) ⟨0, 3, 1⟩ .empty ∧
      state.ins.lookup ⟨0, 3, 1⟩ = some ⟨[], [.inst ⟨0, 0, 1⟩]⟩ ∧
      transfer gepContext ⟨0, 3, 1⟩ .empty = some ⟨[⟨0, 3, 1⟩], []⟩ ∧
      ⟨0, 3, 1⟩ ∉ results gepContext 0 state := by
  have outcome : (runOnFunction gepContext 0 3).map (fun state =>
      (state.ins.lookup ⟨0, 3, 1⟩, decide (⟨0, 3, 1⟩ ∈ results gepContext 0 state))) =
        some (some ⟨[], [.inst ⟨0, 0, 1⟩]⟩, false) := by decide +kernel
  rcases Option.map_eq_some_iff.mp outcome with ⟨state, stopped, values⟩
  simp only [Prod.mk.injEq, decide_eq_false_iff_not] at values
  let Path := PathValue gepContext 0 (fun _ _ => True)
  have front : Path ⟨0, 0, 0⟩ .empty := .start
  have alloca : Path ⟨0, 0, 1⟩ .empty := front.step trivial (by decide) (.seq (by decide))
  have gep : Path ⟨0, 0, 2⟩ .empty := alloca.step trivial (by decide) (.seq (by decide))
  have branch : Path ⟨0, 2, 0⟩ .empty :=
    gep.step trivial (by decide) (.jump (by decide) (by decide))
  have store : Path ⟨0, 2, 1⟩ ⟨[], [.argument 0 0]⟩ :=
    branch.step trivial (by decide) (.seq (by decide))
  have join : Path ⟨0, 3, 0⟩ ⟨[], [.argument 0 0]⟩ :=
    store.step trivial (by decide) (.jump (by decide) (by decide))
  have tainted : Path ⟨0, 3, 1⟩ .empty := join.step trivial (by decide) (.seq (by decide))
  exact ⟨state, stopped, tainted, values.1, by decide, values.2⟩

end Clou.AttackerTaint
