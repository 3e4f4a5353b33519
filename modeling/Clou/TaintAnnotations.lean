import Clou.TaintOracle

/-! Loads from pointers that are annotated as uncontrolled. The annotated pointers are among the
uncontrolled stores after every instruction, but not at the front of a block. -/

namespace Clou.AttackerTaint

namespace Oracle

open FiniteMap

variable {oracle : Oracle} {ctx : Context} {f : FuncRef} {fuel : Nat} {motive : State → Prop}

section Load

variable {I : InstRef} {P : Value}

theorem taints_load (load : (ctx.M.deref I).isLoad = true) (v : TaintValue) :
    Taints oracle ctx I v ↔ ∀ S ∈ v.stores, oracle (ctx.M.deref I).pointerOperand S ≠ .mustAlias := by
  have store : (ctx.M.deref I).isStore = false := by
    unfold Inst.isLoad at load
    unfold Inst.isStore
    split at load
    · rename_i kind
      rw [kind]
    · cases load
  simp only [Taints, store, load, Bool.false_eq_true, if_false, if_true]

structure Clean (I : InstRef) (s : State) : Prop where
  ins : ∀ {J v}, s.ins.lookup J = some v → I ∉ v.insts
  outs : ∀ {J v}, s.outs.lookup J = some v → I ∉ v.insts

theorem Clean.initial (ctx : Context) (f : FuncRef) (I : InstRef) : Clean I (initial ctx f) := by
  constructor
  · intro J v found
    rcases initial_ins found with rfl | rfl
    · exact List.not_mem_nil
    · exact List.not_mem_nil
  · intro J v found
    rw [initial_outs found]
    exact List.not_mem_nil

variable {s t : State} {new : TaintValue} {J : InstRef}

theorem Clean.newIn (clean : Clean I s) (computed : newIn oracle ctx f s J = some new) :
    I ∉ new.insts := by
  unfold Oracle.newIn at computed
  split at computed
  · exact clean.ins computed
  · split at computed
    · refine foldlM_invariant (motive := fun new => I ∉ new.insts) ?_ List.not_mem_nil computed
      intro a b B _ absent met
      obtain ⟨out, found, rfl⟩ := Option.map_eq_some_iff.mp met
      intro member
      rcases List.mem_union_iff.mp member with left | right
      · exact absent left
      · exact clean.outs found right
    · exact clean.outs computed

/-- A visit keeps the instruction uncontrolled if, at the instruction itself, an uncontrolled
store must alias what it loads. -/
theorem Clean.visit (clean : Clean I s) (visited : visit oracle ctx f s J = some t)
    (shield : J = I → ∀ new, Oracle.newIn oracle ctx f s I = some new → ¬ Taints oracle ctx I new) :
    Clean I t := by
  obtain ⟨oldIn, new, oldOut, newOut, _, computed, _, moved, rfl⟩ := visit_eq_some.mp visited
  have absent := clean.newIn computed
  have absent' : I ∉ newOut.insts := by
    rw [(transfer_spec moved).1]
    intro member
    rcases member with old | ⟨same, taints⟩
    · exact absent old
    · subst same
      exact shield rfl new computed taints
  constructor
  · intro K v found
    rw [lookup_insert] at found
    split at found
    · exact Option.some.inj found ▸ absent
    · exact clean.ins found
  · intro K v found
    rw [lookup_insert] at found
    split at found
    · exact Option.some.inj found ▸ absent'
    · exact clean.outs found

theorem Clean.not_mem_results (clean : Clean I s) : I ∉ results ctx f s := by
  intro member
  obtain ⟨_, reported⟩ := List.mem_filter.mp member
  cases found : s.outs.lookup I with
  | none => simp [found] at reported
  | some v =>
    simp only [found, decide_eq_true_eq] at reported
    exact clean.outs found reported

/-- After an instruction the annotated pointers are among the uncontrolled stores. -/
def Marked (ctx : Context) (done : List InstRef) (s : State) : Prop :=
  ∀ J ∈ done, ∀ v, s.outs.lookup J = some v → ctx.annotatedUncontrolled ⊆ v.stores

theorem Marked.visit {done : List InstRef} (marked : Marked ctx done s)
    (visited : visit oracle ctx f s J = some t) : Marked ctx (done ++ [J]) t := by
  obtain ⟨oldIn, new, oldOut, newOut, _, _, _, moved, rfl⟩ := visit_eq_some.mp visited
  intro K member v found
  rw [lookup_insert] at found
  split at found
  · intro Q annotated
    rw [← Option.some.inj found]
    exact ((transfer_spec moved).2 Q).mpr (.inr annotated)
  · rename_i other
    rcases List.mem_append.mp member with old | new
    · exact marked K old v found
    · exact absurd (List.mem_singleton.mp new) other

/-- A load that does not stand at the front of its block sees the annotated pointers. -/
theorem clean_inner (refl : ∀ P, oracle P P = .mustAlias) (load : (ctx.M.deref I).isLoad = true)
    (annotated : (ctx.M.deref I).pointerOperand ∈ ctx.annotatedUncontrolled) (inner : I.index ≠ 0)
    (start : I ≠ entry f) (clean : Clean I s) (swept : sweep oracle ctx f s = some t) :
    Clean I t := by
  have both : Clean I t ∧ Marked ctx (ctx.M.insts f) t := by
    refine sweep_invariant (motive := fun done s => Clean I s ∧ Marked ctx done s) ?_
      ⟨⟨clean.ins, clean.outs⟩, fun J member => absurd member List.not_mem_nil⟩ swept
    intro done J rest s t split holds visited
    refine ⟨holds.1.visit visited fun same new computed => ?_, holds.2.visit visited⟩
    subst same
    rw [newIn, if_neg start, if_neg inner] at computed
    rw [taints_load load]
    intro always
    have marked := holds.2 _ (previous_mem split inner) new computed
    exact always _ (marked annotated) (refl _)
  exact both.1

def Met (oracle : Oracle) (Q : Value) (s : State) : Prop :=
  ∀ J v, s.outs.lookup J = some v → ∃ S ∈ v.stores, oracle Q S = .mustAlias

theorem Met.newIn {Q : Value} (stored : Q ∈ (top ctx f).stores) (met : Met oracle Q s)
    (front : I.index = 0) (start : I ≠ entry f) (computed : newIn oracle ctx f s I = some new) :
    Q ∈ new.stores := by
  rw [Oracle.newIn, if_neg start, if_pos front] at computed
  refine foldlM_invariant (motive := fun new => Q ∈ new.stores) ?_ stored computed
  intro a b B _ member meets
  obtain ⟨out, found, rfl⟩ := Option.map_eq_some_iff.mp meets
  obtain ⟨S, present, must⟩ := met _ out found
  exact mem_meet member present must

/-- A load at the front of a block sees a pointer that is stored to in the function, if it must
alias what is loaded and the annotated pointer must alias it. -/
theorem clean_front {Q : Value} (refl : ∀ P, oracle P P = .mustAlias)
    (load : (ctx.M.deref I).isLoad = true)
    (annotated : (ctx.M.deref I).pointerOperand ∈ ctx.annotatedUncontrolled)
    (stored : Q ∈ (top ctx f).stores) (reads : oracle (ctx.M.deref I).pointerOperand Q = .mustAlias)
    (read : oracle Q (ctx.M.deref I).pointerOperand = .mustAlias) (front : I.index = 0)
    (start : I ≠ entry f) (ran : runOnFunction oracle ctx f fuel = some t) : Clean I t := by
  have step {s t : State} (holds : Clean I s ∧ Met oracle Q s) (swept : sweep oracle ctx f s = some t) :
      Clean I t ∧ Met oracle Q t := by
    refine sweep_keeps (motive := fun s => Clean I s ∧ Met oracle Q s) ?_
      ⟨⟨holds.1.ins, holds.1.outs⟩, holds.2⟩ swept
    intro s t J _ holds visited
    refine ⟨holds.1.visit visited fun same new computed => ?_, ?_⟩
    · rw [taints_load load]
      intro always
      exact always Q (holds.2.newIn stored front start computed) reads
    · obtain ⟨oldIn, new, oldOut, newOut, _, _, _, moved, rfl⟩ := visit_eq_some.mp visited
      intro K v found
      rw [lookup_insert] at found
      split at found
      · rw [← Option.some.inj found]
        exact ⟨_, ((transfer_spec moved).2 _).mpr (.inr annotated), read⟩
      · exact holds.2 K v found
  have start : Clean I (initial ctx f) ∧ Met oracle Q (initial ctx f) :=
    ⟨.initial ctx f I, fun J v found => ⟨Q, initial_outs found ▸ stored, refl Q⟩⟩
  obtain ⟨r, holds, swept, -⟩ := iterate_invariant step start ran
  exact (step holds swept).1

/-- A load that no store shields in a whole sweep is reported. -/
theorem mem_results_of_unshielded (member : I ∈ ctx.M.insts f)
    (keeps : ∀ {s t J}, motive s → visit oracle ctx f s J = some t → motive t)
    (unshielded : ∀ {s new}, motive s → newIn oracle ctx f s I = some new → Taints oracle ctx I new)
    (start : motive { s with changed := false }) (swept : sweep oracle ctx f s = some t) :
    I ∈ results ctx f t := by
  have done : motive t ∧ (I ∈ ctx.M.insts f → ∃ v, t.outs.lookup I = some v ∧ I ∈ v.insts) := by
    refine sweep_invariant (motive := fun done s => motive s ∧
      (I ∈ done → ∃ v, s.outs.lookup I = some v ∧ I ∈ v.insts)) ?_
      ⟨start, fun member => absurd member List.not_mem_nil⟩ swept
    intro done J rest s t _ holds visited
    refine ⟨keeps holds.1 visited, fun member => ?_⟩
    obtain ⟨oldIn, new, oldOut, newOut, _, computed, _, moved, rfl⟩ := visit_eq_some.mp visited
    by_cases same : I = J
    · subst same
      have taints := unshielded holds.1 computed
      exact ⟨newOut, by rw [lookup_insert, if_pos rfl],
        ((transfer_spec moved).1 I).mpr (.inr ⟨rfl, taints⟩)⟩
    · rw [List.mem_append, List.mem_singleton] at member
      obtain ⟨v, found, inside⟩ := holds.2 (member.resolve_right same)
      exact ⟨v, by rw [lookup_insert, if_neg same, found], inside⟩
  obtain ⟨v, found, inside⟩ := done.2 member
  exact List.mem_filter.mpr ⟨member, by simp [found, inside]⟩

theorem mem_results_entry (load : (ctx.M.deref (entry f)).isLoad = true)
    (member : entry f ∈ ctx.M.insts f) (ran : runOnFunction oracle ctx f fuel = some t) :
    entry f ∈ results ctx f t := by
  let motive : State → Prop := fun s => s.ins.lookup (entry f) = some .empty
  have keeps {s t : State} {J : InstRef} (holds : motive s) (visited : visit oracle ctx f s J = some t) :
      motive t := by
    obtain ⟨oldIn, new, oldOut, newOut, _, computed, _, _, rfl⟩ := visit_eq_some.mp visited
    change (s.ins.insert J new).lookup (entry f) = some .empty
    rw [lookup_insert]
    split
    · rename_i same
      rw [newIn, if_pos same.symm, ← same] at computed
      exact computed.symm.trans holds
    · exact holds
  have start : motive (initial ctx f) := AList.lookup_insert _
  have step {s t : State} (holds : motive s) (swept : sweep oracle ctx f s = some t) : motive t :=
    sweep_keeps (motive := motive) (fun _ _ => keeps) holds swept
  obtain ⟨r, holds, swept, -⟩ := iterate_invariant step start ran
  refine mem_results_of_unshielded member keeps (fun holds computed => ?_) holds swept
  rw [newIn, if_pos rfl] at computed
  rw [taints_load load, ← Option.some.inj (Eq.trans holds.symm computed)]
  intro S stored
  exact absurd stored List.not_mem_nil

/-- At the front of a block every store must alias a pointer that is stored to in the function. -/
theorem front_stores (refl : ∀ P, oracle P P = .mustAlias)
    (trans : ∀ {P Q R}, oracle P Q = .mustAlias → oracle Q R = .mustAlias → oracle P R = .mustAlias)
    (front : I.index = 0) (start : I ≠ entry f) (computed : newIn oracle ctx f s I = some new) :
    ∀ S ∈ new.stores, ∃ Q ∈ (top ctx f).stores, oracle Q S = .mustAlias := by
  rw [newIn, if_neg start, if_pos front] at computed
  refine foldlM_invariant (motive := fun new => ∀ S ∈ new.stores,
    ∃ Q ∈ (top ctx f).stores, oracle Q S = .mustAlias) ?_ (fun S stored => ⟨S, stored, refl S⟩) computed
  intro a b B _ each meets R member
  obtain ⟨out, found, rfl⟩ := Option.map_eq_some_iff.mp meets
  obtain ⟨P, left, S, right, must, which⟩ := of_mem_meet member
  obtain ⟨Q, stored, reads⟩ := each P left
  rcases which with same | same
  · exact ⟨Q, stored, same ▸ reads⟩
  · exact ⟨Q, stored, same ▸ trans reads must⟩

/-- A load from an annotated pointer is not reported if it does not stand at the front of its
block, or the block is not the first and the pointer is stored to in the function. Where
must-aliasing is an equivalence, it is reported in all other cases, up to must-aliasing. -/
theorem annotated_load_iff (refl : ∀ P, oracle P P = .mustAlias) {fuel : Nat} {t : State}
    (ran : runOnFunction oracle ctx f fuel = some t) (member : I ∈ ctx.M.insts f)
    (load : (ctx.M.deref I).isLoad = true)
    (annotated : (ctx.M.deref I).pointerOperand ∈ ctx.annotatedUncontrolled) :
    (I.index ≠ 0 ∨ I ≠ entry f ∧ (ctx.M.deref I).pointerOperand ∈ (top ctx f).stores →
      I ∉ results ctx f t) ∧
    ((∀ {P Q}, oracle P Q = .mustAlias → oracle Q P = .mustAlias) →
      (∀ {P Q R}, oracle P Q = .mustAlias → oracle Q R = .mustAlias → oracle P R = .mustAlias) →
      (I ∉ results ctx f t ↔ I.index ≠ 0 ∨ I ≠ entry f ∧
        ∃ Q ∈ (top ctx f).stores, oracle (ctx.M.deref I).pointerOperand Q = .mustAlias)) := by
  have inner (index : I.index ≠ 0) : I ∉ results ctx f t := by
    have start : I ≠ entry f := fun same => index (by rw [same]; rfl)
    obtain ⟨r, clean, swept, -⟩ := iterate_invariant
      (fun clean swept => clean_inner refl load annotated index start clean swept)
      (Clean.initial ctx f I) ran
    exact (clean_inner refl load annotated index start clean swept).not_mem_results
  have shielded {Q : Value} (start : I ≠ entry f) (stored : Q ∈ (top ctx f).stores)
      (reads : oracle (ctx.M.deref I).pointerOperand Q = .mustAlias)
      (read : oracle Q (ctx.M.deref I).pointerOperand = .mustAlias) : I ∉ results ctx f t := by
    by_cases front : I.index = 0
    · exact (clean_front refl load annotated stored reads read front start ran).not_mem_results
    · exact inner front
  constructor
  · intro position
    rcases position with index | ⟨start, stored⟩
    · exact inner index
    · exact shielded start stored (refl _) (refl _)
  · intro symm trans
    constructor
    · intro unreported
      by_contra exposed
      rw [not_or, not_not, not_and] at exposed
      by_cases start : I = entry f
      · subst start
        exact unreported (mem_results_entry load member ran)
      · obtain ⟨r, -, swept, -⟩ := iterate_invariant (motive := fun _ => True) (fun _ _ => trivial) trivial ran
        refine unreported (mem_results_of_unshielded (motive := fun _ => True) member (fun _ _ => trivial)
          (fun _ computed => ?_) trivial swept)
        rw [taints_load load]
        intro S stored must
        obtain ⟨Q, top, reads⟩ := front_stores refl trans exposed.1 start computed S stored
        exact exposed.2 start ⟨Q, top, trans must (symm reads)⟩
    · intro position
      rcases position with index | ⟨start, Q, stored, reads⟩
      · exact inner index
      · exact shielded start stored reads (symm reads)

end Load

/-- A function that begins with a load from an annotated global. -/
def loadsGlobal : Context where
  M := ⟨[⟨[[⟨.load, [.constant 0], [], [], false, false, true⟩,
    ⟨.load, [.constant 0], [], [], false, false, true⟩,
    ⟨.ret, [], [], [], true, false, false⟩]], [[]], []⟩]⟩
  AA := aliasByRepresentative id
  order := id
  mem_order := fun _ _ => Iff.rfl
  annotatedUncontrolled := [.constant 0]

def distinct : Oracle := fun P Q => if P = Q then .mustAlias else .mayAlias

theorem first_load_reported :
    (loadsGlobal.M.deref ⟨0, 0, 0⟩).isLoad = true ∧
      (loadsGlobal.M.deref ⟨0, 0, 0⟩).pointerOperand ∈ loadsGlobal.annotatedUncontrolled ∧
      (runOnFunction distinct loadsGlobal 0 3).map (results loadsGlobal 0) = some [⟨0, 0, 0⟩] := by
  decide

theorem second_load_not_reported :
    ∃ t, runOnFunction distinct loadsGlobal 0 3 = some t ∧ ⟨0, 0, 1⟩ ∉ results loadsGlobal 0 t := by
  have runs : (runOnFunction distinct loadsGlobal 0 3).isSome = true := by decide
  obtain ⟨t, ran⟩ := Option.isSome_iff_exists.mp runs
  have refl (P : Value) : distinct P P = .mustAlias := if_pos rfl
  exact ⟨t, ran, (annotated_load_iff refl ran (by decide) rfl (by decide)).1 (.inl (by decide))⟩

end Oracle

end Clou.AttackerTaint
