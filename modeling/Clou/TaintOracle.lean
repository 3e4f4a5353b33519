import Clou.AttackerTaint
import Clou.FiniteMap
import Clou.OptionFold

/-! What the steps, visits and sweeps of the attacker-control pass do, whatever the alias oracle
answers. -/

namespace Clou.AttackerTaint

section

variable {ctx : Context} {a b v : TaintValue}

theorem same_iff : a.same b = true ↔
    (a.insts ⊆ b.insts ∧ b.insts ⊆ a.insts) ∧ (a.stores ⊆ b.stores ∧ b.stores ⊆ a.stores) := by
  simp [TaintValue.same]

theorem same_refl (a : TaintValue) : a.same a = true := by
  simp [same_iff]

theorem same_trans {c : TaintValue} (first : a.same b = true) (second : b.same c = true) :
    a.same c = true := by
  rw [same_iff] at *
  exact ⟨⟨List.Subset.trans first.1.1 second.1.1, List.Subset.trans second.1.2 first.1.2⟩,
    ⟨List.Subset.trans first.2.1 second.2.1, List.Subset.trans second.2.2 first.2.2⟩⟩

theorem same_symm (same : a.same b = true) : b.same a = true := by
  rw [same_iff] at *
  exact ⟨same.1.symm, same.2.symm⟩

theorem inTaint_mono (insts : v.insts ⊆ a.insts) {V : Value} (taint : inTaint ctx V v = some true) :
    inTaint ctx V a = some true := by
  cases V <;> simp_all [inTaint]
  exact insts taint

end

namespace Oracle

open FiniteMap

/-! One step -/

variable {I : InstRef}

section Step

variable {oracle : Oracle} {ctx : Context}

variable {P : Value} {v w b a : TaintValue}

theorem mustAlias_iff {Q : Value} : mustAlias oracle P Q = true ↔ oracle P Q = .mustAlias := by
  simp [mustAlias]

theorem mem_eraseMayAlias {stores kept : List Value}
    (erased : eraseMayAlias oracle ctx P stores = some kept) (Q : Value) :
    Q ∈ kept ↔ Q ∈ stores ∧ aliasResult oracle ctx P Q = some .noAlias := by
  induction stores generalizing kept with
  | nil =>
    cases erased
    simp
  | cons V stores ih =>
    simp only [eraseMayAlias, Option.bind_eq_bind, Option.bind_eq_some_iff] at erased
    obtain ⟨result, answer, rest, tail, value⟩ := erased
    cases value
    by_cases distinct : result = .noAlias
    · rw [distinct] at answer
      simp only [distinct, ne_eq, not_true_eq_false, if_false, List.mem_cons, ih tail, or_and_right]
      apply or_congr_left
      rw [iff_self_and]
      intro same
      rw [same, answer]
    · have gone : ¬ (Q = V ∧ aliasResult oracle ctx P Q = some .noAlias) := by
        intro both
        rw [both.1, answer] at both
        exact distinct (Option.some.inj both.2)
      simp only [ne_eq, distinct, not_false_eq_true, if_true, ih tail, List.mem_cons, or_and_right,
        gone, false_or]

theorem transferLoad_spec (oracle : Oracle) (I : InstRef) (L : Value) (v : TaintValue) :
    (∀ J, J ∈ (transferLoad oracle I L v).insts ↔
      J ∈ v.insts ∨ J = I ∧ ∀ S ∈ v.stores, oracle L S ≠ .mustAlias) ∧
      (transferLoad oracle I L v).stores = v.stores := by
  rw [transferLoad]
  by_cases known : v.stores.any (mustAlias oracle L) = true
  · obtain ⟨S, member, must⟩ := List.any_eq_true.mp known
    have never : ¬ ∀ S ∈ v.stores, oracle L S ≠ .mustAlias :=
      fun always => always S member (mustAlias_iff.mp must)
    rw [if_pos known]
    simp only [never, and_false, or_false, implies_true, and_self]
  · have always : ∀ S ∈ v.stores, oracle L S ≠ .mustAlias :=
      fun S member must => known (List.any_eq_true.mpr ⟨S, member, mustAlias_iff.mpr must⟩)
    rw [if_neg known]
    refine ⟨fun J => ?_, rfl⟩
    rw [List.mem_insert_iff, or_comm, and_iff_left always]

def Taints (oracle : Oracle) (ctx : Context) (I : InstRef) (v : TaintValue) : Prop :=
  let inst := ctx.M.deref I
  if inst.isStore then False
  else if inst.isLoad then ∀ S ∈ v.stores, oracle inst.pointerOperand S ≠ .mustAlias
  else if inst.isDebug then False
  else if inst.isCall then True
  else anyTaint ctx v inst.operands = some true

/-- Whether a store leaves a pointer among the uncontrolled ones. -/
def StoreKeeps (oracle : Oracle) (ctx : Context) (inst : Inst) (v : TaintValue) (Q : Value) : Prop :=
  if inTaint ctx inst.valueOperand v = some true then
    Q ∈ v.stores ∧ aliasResult oracle ctx inst.pointerOperand Q = some .noAlias
  else Q = inst.pointerOperand ∨ Q ∈ v.stores ∧ oracle inst.pointerOperand Q ≠ .mustAlias

def Keeps (oracle : Oracle) (ctx : Context) (I : InstRef) (v : TaintValue) (Q : Value) : Prop :=
  let inst := ctx.M.deref I
  if inst.isStore then StoreKeeps oracle ctx inst v Q
  else Q ∈ v.stores ∧
    (inst.isLoad ∨ inst.isDebug ∨ inst.isCall = false ∨ onlyLocalStores ctx inst)

theorem transferStore_spec {inst : Inst} (moved : transferStore oracle ctx inst v = some w) :
    w.insts = v.insts ∧ ∀ Q, Q ∈ w.stores ↔ StoreKeeps oracle ctx inst v Q := by
  obtain ⟨taint, value, computed⟩ := Option.bind_eq_some_iff.mp moved
  unfold StoreKeeps
  cases taint with
  | true =>
    obtain ⟨stores, erased, rfl⟩ := Option.map_eq_some_iff.mp computed
    refine ⟨rfl, fun Q => ?_⟩
    rw [if_pos value]
    exact mem_eraseMayAlias erased Q
  | false =>
    cases computed
    simp [value, overwrite, mustAlias]

theorem transferInst_spec (moved : transferInst oracle ctx I v = some w) :
    (∀ J, J ∈ w.insts ↔ J ∈ v.insts ∨ J = I ∧ Taints oracle ctx I v) ∧
      ∀ Q, Q ∈ w.stores ↔ Keeps oracle ctx I v Q := by
  unfold Taints Keeps
  simp only [transferInst] at moved
  by_cases store : (ctx.M.deref I).isStore = true
  · rw [if_pos store] at moved
    obtain ⟨insts, stores⟩ := transferStore_spec moved
    simp [store, insts, stores]
  · rw [if_neg store] at moved
    by_cases load : (ctx.M.deref I).isLoad = true
    · rw [if_pos load] at moved
      cases moved
      obtain ⟨insts, stores⟩ := transferLoad_spec oracle I (ctx.M.deref I).pointerOperand v
      simp [store, load, insts, stores]
    · rw [if_neg load] at moved
      by_cases debug : (ctx.M.deref I).isDebug = true
      · rw [if_pos debug] at moved
        cases moved
        simp [store, load, debug]
      · rw [if_neg debug] at moved
        by_cases call : (ctx.M.deref I).isCall = true
        · rw [if_pos call] at moved
          cases moved
          by_cases keeps : onlyLocalStores ctx (ctx.M.deref I) = true
          · simp [store, load, debug, call, transferCall, keeps, or_comm]
          · simp [store, load, debug, call, transferCall, keeps, or_comm]
        · rw [if_neg call] at moved
          obtain ⟨taint, value, rfl⟩ := Option.map_eq_some_iff.mp moved
          cases taint with
          | true => simp [store, load, debug, call, value, or_comm]
          | false => simp [store, load, debug, call, value]

theorem transfer_spec (moved : transfer oracle ctx I v = some w) :
    (∀ J, J ∈ w.insts ↔ J ∈ v.insts ∨ J = I ∧ Taints oracle ctx I v) ∧
      ∀ Q, Q ∈ w.stores ↔ Keeps oracle ctx I v Q ∨ Q ∈ ctx.annotatedUncontrolled := by
  obtain ⟨out, computed, rfl⟩ := Option.map_eq_some_iff.mp moved
  obtain ⟨insts, stores⟩ := transferInst_spec computed
  refine ⟨insts, fun Q => ?_⟩
  rw [← stores]
  exact List.mem_union_iff

/-- The meet keeps the pointers of the left side that have a partner on the right, and the
partners. -/
theorem mem_meet_iff {R : Value} : R ∈ (meet oracle ctx a b).stores ↔
    ∃ P ∈ a.stores, ∃ S, (ctx.order b.stores).find? (mustAlias oracle P) = some S ∧ (R = P ∨ R = S) := by
  have step (kept : List Value) (P : Value) : R ∈ keepPair oracle ctx b kept P ↔
      R ∈ kept ∨ ∃ S, (ctx.order b.stores).find? (mustAlias oracle P) = some S ∧ (R = P ∨ R = S) := by
    unfold keepPair
    cases (ctx.order b.stores).find? (mustAlias oracle P) with
    | none => simp
    | some S => simp [or_comm, or_left_comm, or_assoc]
  have folded (rest kept : List Value) : R ∈ rest.foldl (keepPair oracle ctx b) kept ↔ R ∈ kept ∨
      ∃ P ∈ rest, ∃ S, (ctx.order b.stores).find? (mustAlias oracle P) = some S ∧ (R = P ∨ R = S) := by
    induction rest generalizing kept with
    | nil => simp
    | cons P rest ih => rw [List.foldl_cons, ih, step, List.exists_mem_cons_iff, or_assoc]
  have kept := folded a.stores []
  simpa only [meet, List.not_mem_nil, false_or] using kept

theorem mem_meet {S : Value} (left : P ∈ a.stores) (right : S ∈ b.stores)
    (must : oracle P S = .mustAlias) : P ∈ (meet oracle ctx a b).stores := by
  have found : ((ctx.order b.stores).find? (mustAlias oracle P)).isSome = true := by
    rw [List.find?_isSome]
    exact ⟨S, (ctx.mem_order S b.stores).mpr right, mustAlias_iff.mpr must⟩
  obtain ⟨VB, found⟩ := Option.isSome_iff_exists.mp found
  exact mem_meet_iff.mpr ⟨P, left, VB, found, .inl rfl⟩

theorem of_mem_meet {R : Value} (member : R ∈ (meet oracle ctx a b).stores) :
    ∃ P ∈ a.stores, ∃ S ∈ b.stores, oracle P S = .mustAlias ∧ (R = P ∨ R = S) := by
  obtain ⟨P, left, S, found, which⟩ := mem_meet_iff.mp member
  have must : mustAlias oracle P S = true := List.find?_some found
  have right := (ctx.mem_order S b.stores).mp (List.mem_of_find?_eq_some found)
  exact ⟨P, left, S, right, mustAlias_iff.mp must, which⟩

theorem anyTaint_below (insts : w.insts ⊆ v.insts) {operands : List Value}
    (taint : anyTaint ctx w operands = some true) : anyTaint ctx v operands = some true := by
  induction operands with
  | nil => cases taint
  | cons V operands ih =>
    rw [anyTaint, Option.bind_eq_some_iff] at taint ⊢
    obtain ⟨here, value, rest⟩ := taint
    cases here with
    | true => exact ⟨true, inTaint_mono insts value, rfl⟩
    | false =>
      have known : ∃ here, inTaint ctx V v = some here := by
        cases V <;> simp [inTaint] at value ⊢
      obtain ⟨here, value⟩ := known
      refine ⟨here, value, ?_⟩
      cases here with
      | true => rfl
      | false => exact ih rest

/-- With more controlled instructions, and pointers that stand for no more, an instruction is
controlled if it was. -/
theorem taints_of (insts : w.insts ⊆ v.insts)
    (stores : ∀ P, ∀ S ∈ v.stores, oracle P S = .mustAlias → ∃ Q ∈ w.stores, oracle P Q = .mustAlias)
    (taints : Taints oracle ctx I w) : Taints oracle ctx I v := by
  unfold Taints at taints ⊢
  simp only at taints ⊢
  split
  · rwa [if_pos ‹_›] at taints
  · rw [if_neg ‹_›] at taints
    split
    · rw [if_pos ‹_›] at taints
      intro S member must
      obtain ⟨Q, present, alike⟩ := stores _ S member must
      exact taints Q present alike
    · rw [if_neg ‹_›] at taints
      split
      · rwa [if_pos ‹_›] at taints
      · rw [if_neg ‹_›] at taints
        split
        · trivial
        · rw [if_neg ‹_›] at taints
          exact anyTaint_below insts taints

theorem must_of_aliasResult {P : Value} (answer : aliasResult oracle ctx P Q = some .noAlias) :
    oracle P Q ≠ .mustAlias := by
  intro must
  simp [aliasResult, must] at answer

structure Members (ctx : Context) (f : FuncRef) (v : TaintValue) : Prop where
  insts : v.insts ⊆ ctx.M.insts f
  stores : ∀ Q ∈ v.stores, Q ∈ (top ctx f).stores ∨ Q ∈ ctx.annotatedUncontrolled

theorem members_top : Members ctx f (top ctx f) := ⟨List.nil_subset _, fun _ => .inl⟩

theorem Members.meet (left : Members ctx f a) (right : Members ctx f b) :
    Members ctx f (meet oracle ctx a b) := by
  constructor
  · intro J member
    exact (List.mem_union_iff.mp member).elim (fun old => left.insts old) fun new => right.insts new
  · intro R member
    obtain ⟨P, present, S, present', _, same | same⟩ := of_mem_meet member
    · exact same ▸ left.stores P present
    · exact same ▸ right.stores S present'

theorem Members.transfer (listed : I ∈ ctx.M.insts f) (members : Members ctx f v)
    (moved : transfer oracle ctx I v = some w) : Members ctx f w := by
  constructor
  · intro J member
    rcases ((transfer_spec moved).1 J).mp member with old | new
    · exact members.insts old
    · exact new.1 ▸ listed
  · intro Q member
    rcases ((transfer_spec moved).2 Q).mp member with keeps | annotated
    · unfold Keeps at keeps
      simp only at keeps
      split at keeps
      · unfold StoreKeeps at keeps
        split at keeps
        · exact members.stores Q keeps.1
        · rcases keeps with own | old
          · have store : (ctx.M.deref I).isStore = true := ‹_›
            left
            simp only [top, List.mem_dedup, List.mem_map, List.mem_filter]
            exact ⟨I, ⟨listed, store⟩, own.symm⟩
          · exact members.stores Q old.1
      · exact members.stores Q keeps.1
    · exact .inr annotated

end Step

/-! One visit -/

section

variable {oracle : Oracle} {ctx : Context} {f : FuncRef}

variable {s t : State}

theorem visit_eq_some : visit oracle ctx f s I = some t ↔
    ∃ oldIn new oldOut newOut, s.ins.lookup I = some oldIn ∧ newIn oracle ctx f s I = some new ∧
      s.outs.lookup I = some oldOut ∧ transfer oracle ctx I new = some newOut ∧
      ⟨s.ins.insert I new, s.outs.insert I newOut,
        s.changed || !oldIn.same new || !oldOut.same newOut⟩ = t := by
  simp [visit, Option.bind_eq_some_iff]

/-- The instructions of a function are listed block by block, each block from its front. -/
theorem insts_ordered (M : Module) (f : FuncRef) :
    (M.insts f).Pairwise fun I J => I.block < J.block ∨ I.block = J.block ∧ I.index < J.index := by
  rw [Module.insts, List.pairwise_flatMap]
  constructor
  · intro B _
    rw [List.pairwise_map]
    exact List.pairwise_lt_range.imp fun less => .inr ⟨rfl, less⟩
  · refine List.pairwise_lt_range.imp fun {B C} less I left J right => ?_
    obtain ⟨i, _, rfl⟩ := List.mem_map.mp left
    obtain ⟨j, _, rfl⟩ := List.mem_map.mp right
    exact .inl less

/-- When an instruction that is not the front of its block comes up, the one before it has. -/
theorem previous_mem {M : Module} {done rest : List InstRef} (split : M.insts f = done ++ I :: rest)
    (inner : I.index ≠ 0) : ⟨I.func, I.block, I.index - 1⟩ ∈ done := by
  have listed : I ∈ M.insts f := by simp [split]
  rw [Module.mem_insts] at listed
  have before : (⟨I.func, I.block, I.index - 1⟩ : InstRef) ∈ M.insts f :=
    (Module.mem_insts ..).mpr ⟨listed.1, listed.2.1, Nat.lt_of_le_of_lt (Nat.sub_le ..) listed.2.2⟩
  have ordered := insts_ordered M f
  rw [split, List.pairwise_append, List.pairwise_cons] at ordered
  rw [split, List.mem_append, List.mem_cons] at before
  rcases before with done | same | later
  · exact done
  · have index := congrArg InstRef.index same
    simp only at index
    omega
  · have after := ordered.2.1.1 _ later
    simp only at after
    omega

theorem sweep_invariant {motive : List InstRef → State → Prop}
    (step : ∀ {done I rest s t}, ctx.M.insts f = done ++ I :: rest → motive done s →
      visit oracle ctx f s I = some t → motive (done ++ [I]) t)
    (start : motive [] { s with changed := false }) (swept : sweep oracle ctx f s = some t) :
    motive (ctx.M.insts f) t :=
  foldlM_passed step start swept

theorem sweep_keeps {motive : State → Prop}
    (step : ∀ {s t} J, J ∈ ctx.M.insts f → motive s → visit oracle ctx f s J = some t → motive t)
    (start : motive { s with changed := false }) (swept : sweep oracle ctx f s = some t) :
    motive t :=
  foldlM_invariant step start swept

theorem iterate_invariant {fuel : Nat} {motive : State → Prop}
    (step : ∀ {s t}, motive s → sweep oracle ctx f s = some t → motive t) (start : motive s)
    (ran : iterate oracle ctx f fuel s = some t) :
    ∃ r, motive r ∧ sweep oracle ctx f r = some t ∧ t.changed = false := by
  induction fuel generalizing s with
  | zero => cases ran
  | succ fuel ih =>
    obtain ⟨next, swept, rest⟩ := Option.bind_eq_some_iff.mp ran
    split at rest
    · exact ih (step start swept) rest
    · cases rest
      exact ⟨s, start, swept, Bool.eq_false_iff.mpr ‹_›⟩

theorem initial_outs {v : TaintValue} (found : (initial ctx f).outs.lookup I = some v) :
    v = top ctx f := by
  rw [initial, lookup_foldl_insert] at found
  split at found
  · exact (Option.some.inj found).symm
  · cases found

theorem initial_ins {v : TaintValue} (found : (initial ctx f).ins.lookup I = some v) :
    v = .empty ∨ v = top ctx f := by
  rw [initial, lookup_insert] at found
  split at found
  · exact .inl (Option.some.inj found).symm
  · rw [lookup_foldl_insert] at found
    split at found
    · exact .inr (Option.some.inj found).symm
    · cases found

end

end Oracle

end Clou.AttackerTaint
