import Clou.Descent
import Clou.TaintDescent

/-! The sweeps of the attacker-control pass come to an end: the values go down through a finite
order, and a sweep that moves none of them is followed by one that changes nothing. -/

namespace Clou.AttackerTaint

namespace Oracle

open FiniteMap

variable {oracle : Oracle} {ctx : Context} {f : FuncRef}

/-! Equal sets -/

/-- The order in which a set of pointers is iterated depends on its contents only. -/
def ContentOrder (ctx : Context) : Prop :=
  ∀ pointers others : List Value, (∀ P, P ∈ pointers ↔ P ∈ others) → ctx.order pointers = ctx.order others

variable {v' v w : TaintValue} {I : InstRef} {s t : State} {w' : TaintValue}

theorem transfer_subset (same : v.same w = true) (moved : transfer oracle ctx I v = some v')
    (moved' : transfer oracle ctx I w = some w') : v'.insts ⊆ w'.insts ∧ v'.stores ⊆ w'.stores := by
  obtain ⟨insts, stores⟩ := same_iff.mp same
  constructor
  · intro J member
    rw [(transfer_spec moved).1] at member
    rw [(transfer_spec moved').1]
    exact member.imp (fun old => insts.1 old)
      fun new => ⟨new.1, taints_of insts.1 (fun _ S present must => ⟨S, stores.2 present, must⟩) new.2⟩
  · intro Q member
    rw [(transfer_spec moved).2] at member
    rw [(transfer_spec moved').2]
    exact member.imp_left (keeps_of insts.2 fun present => stores.1 present)

theorem transfer_same (same : v.same w = true) (moved : transfer oracle ctx I v = some v')
    (moved' : transfer oracle ctx I w = some w') : v'.same w' = true := by
  obtain ⟨insts, stores⟩ := transfer_subset same moved moved'
  obtain ⟨insts', stores'⟩ := transfer_subset (same_symm same) moved' moved
  exact same_iff.mpr ⟨⟨insts, insts'⟩, stores, stores'⟩

theorem meet_subset (oracle : Oracle) (content : ContentOrder ctx) {a b a' b' : TaintValue} (left : a.same a' = true)
    (right : b.same b' = true) : (meet oracle ctx a b).insts ⊆ (meet oracle ctx a' b').insts ∧
      (meet oracle ctx a b).stores ⊆ (meet oracle ctx a' b').stores := by
  obtain ⟨insts, stores⟩ := same_iff.mp left
  obtain ⟨insts', stores'⟩ := same_iff.mp right
  have order := content b.stores b'.stores fun P =>
    ⟨fun member => stores'.1 member, fun member => stores'.2 member⟩
  constructor
  · intro J member
    rcases List.mem_union_iff.mp member with old | new
    · exact List.mem_union_iff.mpr (.inl (insts.1 old))
    · exact List.mem_union_iff.mpr (.inr (insts'.1 new))
  · intro R member
    obtain ⟨P, present, S, found, which⟩ := mem_meet_iff.mp member
    exact mem_meet_iff.mpr ⟨P, stores.1 present, S, order ▸ found, which⟩

theorem meet_same (content : ContentOrder ctx) {a b a' b' : TaintValue} (left : a.same a' = true)
    (right : b.same b' = true) : (meet oracle ctx a b).same (meet oracle ctx a' b') = true := by
  obtain ⟨insts, stores⟩ := meet_subset oracle content left right
  obtain ⟨insts', stores'⟩ := meet_subset oracle content (same_symm left) (same_symm right)
  exact same_iff.mpr ⟨⟨insts, insts'⟩, stores, stores'⟩

def SameMap (map map' : Map) (keys : InstRef → Prop) : Prop :=
  ∀ J v, keys J → map.lookup J = some v → ∃ v', map'.lookup J = some v' ∧ v.same v' = true

theorem SameMap.insert {map map' : Map} {keys : InstRef → Prop} (same : SameMap map map' keys)
    (equal : v.same v' = true) (I : InstRef) :
    SameMap (map.insert I v) (map'.insert I v') fun J => keys J ∨ J = I := by
  intro J w known found
  rw [lookup_insert] at found ⊢
  split at found
  · cases found
    rw [if_pos ‹_›]
    exact ⟨v', rfl, equal⟩
  · rw [if_neg ‹_›]
    exact same J w (known.resolve_right ‹_›) found

/-- Two states from which a sweep goes on alike, once it has visited some instructions. -/
structure Alike (f : FuncRef) (done : List InstRef) (s t : State) : Prop where
  start : s.ins.lookup (entry f) = t.ins.lookup (entry f)
  outs : SameMap s.outs t.outs fun _ => True
  ins : SameMap s.ins t.ins fun J => J ∈ done

theorem Alike.visit (content : ContentOrder ctx) {done : List InstRef} {s' t' : State}
    (alike : Alike f done s t) (step : visit oracle ctx f s I = some s')
    (step' : visit oracle ctx f t I = some t') : Alike f (done ++ [I]) s' t' := by
  obtain ⟨_, new, _, newOut, _, computed, _, moved, rfl⟩ := visit_eq_some.mp step
  obtain ⟨_, new', _, newOut', _, computed', _, moved', rfl⟩ := visit_eq_some.mp step'
  obtain ⟨other, again, same⟩ := newIn_simulates (U := fun o o' => o.same o' = true)
    (F := fun a a' => a.same a' = true) (R := fun v v' => v.same v' = true) alike.start same_refl
    (fun found => alike.outs _ _ trivial found) id id (same_refl _) (meet_same content) computed
  rw [computed'] at again
  cases again
  refine ⟨?_, ?_, ?_⟩
  · rw [lookup_insert, lookup_insert]
    split
    · have first : entry f = I := ‹_›
      rw [← computed, ← computed', ← first, newIn, newIn, if_pos rfl, if_pos rfl]
      exact alike.start
    · exact alike.start
  · intro J v _ found
    exact alike.outs.insert (transfer_same same moved moved') I J v (.inl trivial) found
  · intro J v known found
    exact alike.ins.insert same I J v (by simpa using known) found

/-- Sweeps from states with the same values after all instructions end in the same values. -/
theorem Alike.sweep (content : ContentOrder ctx) {s' t' : State} (alike : Alike f [] s t)
    (swept : sweep oracle ctx f s = some s') (swept' : sweep oracle ctx f t = some t') :
    Alike f (ctx.M.insts f) s' t' := by
  have restarted : Alike f [] { s with changed := false } { t with changed := false } :=
    ⟨alike.start, alike.outs, alike.ins⟩
  exact foldlM_related (motive := Alike f) (fun _ alike step step' => alike.visit content step step')
    restarted swept swept'

/-! Sweeps that change something -/

def Differs (s t : State) (J : InstRef) : Prop :=
  (∃ v w, s.ins.lookup J = some v ∧ t.ins.lookup J = some w ∧ v.same w = false) ∨
    ∃ v w, s.outs.lookup J = some v ∧ t.outs.lookup J = some w ∧ v.same w = false

/-- Every instruction comes up once in a sweep, so what was changed at it stays changed. -/
theorem exists_differs (swept : sweep oracle ctx f s = some t) (changed : t.changed = true) :
    ∃ J ∈ ctx.M.insts f, Differs s t J := by
  have run : (∀ J, J ∉ ctx.M.insts f → t.ins.lookup J = s.ins.lookup J ∧ t.outs.lookup J = s.outs.lookup J) ∧
      (t.changed = true → ∃ J ∈ ctx.M.insts f, Differs s t J) := by
    refine sweep_invariant (motive := fun done r =>
      (∀ J, J ∉ done → r.ins.lookup J = s.ins.lookup J ∧ r.outs.lookup J = s.outs.lookup J) ∧
        (r.changed = true → ∃ J ∈ done, Differs s r J)) ?_ ?_ swept
    · intro done I rest r r' split holds step
      obtain ⟨frame, differs⟩ := holds
      obtain ⟨oldIn, new, oldOut, newOut, foundIn, _, foundOut, _, rfl⟩ := visit_eq_some.mp step
      have nodup := Module.nodup_insts ctx.M f
      rw [split, List.nodup_append] at nodup
      have once : I ∉ done := fun member => nodup.2.2 I member I List.mem_cons_self rfl
      constructor
      · intro J absent
        rw [List.mem_append, List.mem_singleton, not_or] at absent
        rw [lookup_insert, lookup_insert, if_neg absent.2, if_neg absent.2]
        exact frame J absent.1
      · intro changed
        by_cases before : r.changed = true
        · obtain ⟨J, member, differs⟩ := differs before
          have other : J ≠ I := fun same => once (same ▸ member)
          refine ⟨J, List.mem_append_left _ member, ?_⟩
          simpa only [Differs, lookup_insert, if_neg other] using differs
        · refine ⟨I, by simp, ?_⟩
          rw [(frame I once).1] at foundIn
          rw [(frame I once).2] at foundOut
          simp only [before, Bool.false_or, Bool.or_eq_true, Bool.not_eq_true'] at changed
          rcases changed with differs | differs
          · exact .inl ⟨oldIn, new, foundIn, by simp, differs⟩
          · exact .inr ⟨oldOut, newOut, foundOut, by simp, differs⟩
    · exact ⟨fun _ _ => ⟨rfl, rfl⟩, fun changed => absurd changed Bool.false_ne_true⟩
  exact run.2 changed

/-! The end of the sweeps -/

/-- The loop stops, with an abort or with a sweep that changes nothing. -/
inductive Halts (oracle : Oracle) (ctx : Context) (f : FuncRef) : State → Prop where
  | aborts {s : State} (aborted : sweep oracle ctx f s = none) : Halts oracle ctx f s
  | stable {s t : State} (swept : sweep oracle ctx f s = some t) (unchanged : t.changed = false) :
      Halts oracle ctx f s
  | again {s t : State} (swept : sweep oracle ctx f s = some t) (changed : t.changed = true)
      (rest : Halts oracle ctx f t) : Halts oracle ctx f s

/-- Which instructions are controlled, and which stored-to pointers are not. -/
abbrev Level (ctx : Context) (f : FuncRef) :=
  (Set {I // I ∈ ctx.M.insts f})ᵒᵈ × Set {Q // Q ∈ (top ctx f).stores}

def level (ctx : Context) (f : FuncRef) (v : TaintValue) : Level ctx f :=
  (OrderDual.toDual {I | I.1 ∈ v.insts}, {Q | Q.1 ∈ v.stores})

theorem level_le (below : Below ctx f v w) : level ctx f v ≤ level ctx f w :=
  ⟨fun _ member => below.insts member, fun Q member => below.stores Q.1 Q.2 member⟩

/-- Values with the annotated pointers are told apart by their levels. -/
theorem same_of_level (members : Members ctx f v) (members' : Members ctx f w)
    (annotated : ctx.annotatedUncontrolled ⊆ v.stores)
    (annotated' : ctx.annotatedUncontrolled ⊆ w.stores) (equal : level ctx f v = level ctx f w) :
    v.same w = true := by
  have insts (I : InstRef) (listed : I ∈ ctx.M.insts f) : I ∈ v.insts ↔ I ∈ w.insts :=
    Set.ext_iff.mp (congrArg (fun l => OrderDual.ofDual l.1) equal) ⟨I, listed⟩
  have stores (Q : Value) (stored : Q ∈ (top ctx f).stores) : Q ∈ v.stores ↔ Q ∈ w.stores :=
    Set.ext_iff.mp (congrArg Prod.snd equal) ⟨Q, stored⟩
  refine same_iff.mpr ⟨⟨?_, ?_⟩, ?_, ?_⟩
  · exact fun I member => (insts I (members.insts member)).mp member
  · exact fun I member => (insts I (members'.insts member)).mpr member
  · exact fun Q member => (members.stores Q member).elim (fun stored => (stores Q stored).mp member)
      fun known => annotated' known
  · exact fun Q member => (members'.stores Q member).elim (fun stored => (stores Q stored).mpr member)
      fun known => annotated known

def levelAt (ctx : Context) (f : FuncRef) (s : State) (I : InstRef) : Level ctx f :=
  (s.outs.lookup I).elim ⊥ (level ctx f)

theorem levelAt_le
    (below : ∀ {J o'}, t.outs.lookup J = some o' → ∃ o, s.outs.lookup J = some o ∧ Below ctx f o' o)
    (I : InstRef) : levelAt ctx f t I ≤ levelAt ctx f s I := by
  unfold levelAt
  cases found' : t.outs.lookup I with
  | none => exact bot_le
  | some o' =>
    obtain ⟨o, found, lower⟩ := below found'
    rw [found]
    exact level_le lower

/-- A sweep that moves no level has no effect on the values after instructions. -/
theorem sameMap_of_levels (before : Descending oracle ctx f (fun _ => True) s)
    (after : Descending oracle ctx f (fun _ => True) t)
    (below : ∀ {J o'}, t.outs.lookup J = some o' → ∃ o, s.outs.lookup J = some o ∧ Below ctx f o' o)
    (level : ∀ I ∈ ctx.M.insts f, levelAt ctx f t I = levelAt ctx f s I) :
    SameMap t.outs s.outs fun _ => True := by
  intro J o' _ found'
  obtain ⟨o, found, _⟩ := below found'
  obtain ⟨_, settled⟩ := before.settled trivial found
  obtain ⟨_, settled'⟩ := after.settled trivial found'
  have equal := level J (before.inside found)
  rw [levelAt, levelAt, found, found'] at equal
  exact ⟨o, found, same_of_level (after.members found') (before.members found)
    (annotated_after settled'.moved) (annotated_after settled.moved) equal⟩

theorem halts_of_stalled (content : ContentOrder ctx) (swept : sweep oracle ctx f s = some t)
    (alike : Alike f [] t s) : Halts oracle ctx f t := by
  cases again : sweep oracle ctx f t with
  | none => exact .aborts again
  | some u =>
    have same := alike.sweep content again swept
    refine .stable again (Bool.eq_false_iff.mpr fun changed => ?_)
    obtain ⟨J, listed, differs⟩ := exists_differs again changed
    rcases differs with ⟨v, w, old, new, differ⟩ | ⟨v, w, old, new, differ⟩
    · obtain ⟨x, found, equal⟩ := same.ins J w listed new
      rw [old] at found
      cases found
      exact absurd (same_symm equal) (Bool.eq_false_iff.mp differ)
    · obtain ⟨x, found, equal⟩ := same.outs J w trivial new
      rw [old] at found
      cases found
      exact absurd (same_symm equal) (Bool.eq_false_iff.mp differ)

theorem halts_of_descending (equivalence : MustEquivalence oracle) (content : ContentOrder ctx)
    (descending : Descending oracle ctx f (fun _ => True) s) : Halts oracle ctx f s := by
  -- By induction on how far the levels can still go down.
  induction measured : Descent.potential (ctx.M.insts f) (levelAt ctx f s) using Nat.strong_induction_on
    generalizing s with
  | _ n ih =>
    subst measured
    cases swept : sweep oracle ctx f s with
    | none => exact .aborts swept
    | some t =>
      cases changed : t.changed with
      | false => exact .stable swept changed
      | true =>
        obtain ⟨after, below⟩ := descending.sweep equivalence swept
        refine .again swept changed ?_
        by_cases moves : ∃ I ∈ ctx.M.insts f, levelAt ctx f t I ≠ levelAt ctx f s I
        · obtain ⟨I, listed, moved⟩ := moves
          exact ih _ (Descent.potential_lt (fun I _ => levelAt_le below I) listed moved) after rfl
        · have still : ∀ I ∈ ctx.M.insts f, levelAt ctx f t I = levelAt ctx f s I := by
            intro I listed
            by_contra moved
            exact moves ⟨I, listed, moved⟩
          exact halts_of_stalled content swept ⟨after.start.trans descending.start.symm,
            sameMap_of_levels descending after below still, fun _ _ known => absurd known List.not_mem_nil⟩

theorem halts_initial (equivalence : MustEquivalence oracle) (content : ContentOrder ctx) (f : FuncRef) :
    Halts oracle ctx f (initial ctx f) := by
  cases swept : sweep oracle ctx f (initial ctx f) with
  | none => exact .aborts swept
  | some t =>
    obtain ⟨after, _⟩ := (descending_initial oracle ctx f).sweep equivalence swept
    cases changed : t.changed with
    | false => exact .stable swept changed
    | true => exact .again swept changed (halts_of_descending equivalence content after)

/-! Functions on which the pass does not abort -/

/-- The pass knows what every operand is and what to do with every answer of the oracle. -/
structure Supported (oracle : Oracle) (ctx : Context) (f : FuncRef) : Prop where
  wellFormed : (ctx.M.func f).WellFormed
  operands : ∀ I ∈ ctx.M.insts f, ∀ V ∈ (ctx.M.deref I).operands, ∀ kind, V ≠ .unknown kind
  stored : ∀ I ∈ ctx.M.insts f, (ctx.M.deref I).isStore = true → (ctx.M.deref I).operands ≠ []
  answers : ∀ P Q, oracle P Q ≠ .partialAlias

theorem exists_inTaint (ctx : Context) {V : Value} (known : ∀ kind, V ≠ .unknown kind) (v : TaintValue) :
    ∃ taint, inTaint ctx V v = some taint := by
  cases V with
  | unknown kind => exact absurd rfl (known kind)
  | _ => simp [inTaint]

theorem exists_anyTaint (ctx : Context) {operands : List Value} (known : ∀ V ∈ operands, ∀ kind, V ≠ .unknown kind)
    (v : TaintValue) : ∃ taint, anyTaint ctx v operands = some taint := by
  induction operands with
  | nil => exact ⟨false, rfl⟩
  | cons V operands ih =>
    obtain ⟨here, value⟩ := exists_inTaint ctx (known V List.mem_cons_self) v
    rw [anyTaint, value]
    cases here with
    | true => exact ⟨true, rfl⟩
    | false => exact ih fun V later => known V (List.mem_cons_of_mem _ later)

theorem exists_eraseMayAlias (ctx : Context) (answers : ∀ P Q, oracle P Q ≠ .partialAlias) (P : Value)
    (stores : List Value) : ∃ kept, eraseMayAlias oracle ctx P stores = some kept := by
  induction stores with
  | nil => exact ⟨[], rfl⟩
  | cons V stores ih =>
    obtain ⟨kept, erased⟩ := ih
    have answered : ∃ result, aliasResult oracle ctx P V = some result := by
      unfold aliasResult
      cases answer : oracle P V with
      | noAlias => exact ⟨_, rfl⟩
      | mustAlias => exact ⟨_, rfl⟩
      | partialAlias => exact absurd answer (answers P V)
      | mayAlias =>
        simp only
        split
        · exact ⟨_, rfl⟩
        · exact ⟨_, rfl⟩
    obtain ⟨result, answer⟩ := answered
    rw [eraseMayAlias, answer, erased]
    exact ⟨_, rfl⟩

theorem Supported.transfer (supported : Supported oracle ctx f) (listed : I ∈ ctx.M.insts f)
    (v : TaintValue) : ∃ w, transfer oracle ctx I v = some w := by
  have moves : ∃ w, transferInst oracle ctx I v = some w := by
    simp only [transferInst]
    split
    · rename_i store
      have value : (ctx.M.deref I).valueOperand ∈ (ctx.M.deref I).operands := by
        cases operands : (ctx.M.deref I).operands with
        | nil => exact absurd operands (supported.stored I listed store)
        | cons V rest => simp [Inst.valueOperand, operands]
      obtain ⟨taint, value⟩ := exists_inTaint ctx (supported.operands I listed _ value) v
      rw [transferStore, value]
      cases taint with
      | true =>
        obtain ⟨kept, erased⟩ := exists_eraseMayAlias ctx supported.answers
          (ctx.M.deref I).pointerOperand v.stores
        exact ⟨_, by rw [Option.bind_some, if_pos rfl, erased]; rfl⟩
      | false => exact ⟨_, rfl⟩
    · split
      · exact ⟨_, rfl⟩
      · split
        · exact ⟨_, rfl⟩
        · split
          · exact ⟨_, rfl⟩
          · obtain ⟨taint, value⟩ := exists_anyTaint ctx (supported.operands I listed) v
            rw [transferOther, value]
            exact ⟨_, rfl⟩
  obtain ⟨w, moved⟩ := moves
  exact ⟨_, by rw [Oracle.transfer, moved]; rfl⟩

def Defined (ctx : Context) (f : FuncRef) (s : State) : Prop :=
  ∀ I ∈ ctx.M.insts f, (∃ i, s.ins.lookup I = some i) ∧ ∃ o, s.outs.lookup I = some o

theorem Supported.newIn (supported : Supported oracle ctx f) (defined : Defined ctx f s)
    (listed : I ∈ ctx.M.insts f) : ∃ new, newIn oracle ctx f s I = some new := by
  unfold Oracle.newIn
  split
  · exact (defined I listed).1
  · split
    · refine exists_foldlM (fun new P pred => ?_) _
      have valid := (supported.wellFormed.mem_preds.mp pred).1
      have last : ctx.M.terminator ⟨f, P⟩ ∈ ctx.M.insts f :=
        (Module.mem_insts ..).mpr ⟨rfl, valid, Nat.sub_lt (supported.wellFormed.nonempty valid) Nat.one_pos⟩
      obtain ⟨o, found⟩ := (defined _ last).2
      exact ⟨_, by rw [found]; rfl⟩
    · rw [Module.mem_insts] at listed
      have before : (⟨I.func, I.block, I.index - 1⟩ : InstRef) ∈ ctx.M.insts f :=
        (Module.mem_insts ..).mpr ⟨listed.1, listed.2.1, Nat.lt_of_le_of_lt (Nat.sub_le ..) listed.2.2⟩
      exact (defined _ before).2

theorem Supported.sweep (supported : Supported oracle ctx f) (defined : Defined ctx f s) :
    ∃ t, sweep oracle ctx f s = some t ∧ Defined ctx f t := by
  refine exists_foldlM_keeping (fun s defined I listed => ?_) (show Defined ctx f { s with changed := false } from defined)
  obtain ⟨new, computed⟩ := supported.newIn defined listed
  obtain ⟨newOut, moved⟩ := supported.transfer listed new
  obtain ⟨⟨oldIn, foundIn⟩, oldOut, foundOut⟩ := defined I listed
  refine ⟨_, visit_eq_some.mpr ⟨oldIn, new, oldOut, newOut, foundIn, computed, foundOut, moved, rfl⟩, ?_⟩
  intro J member
  rw [lookup_insert, lookup_insert]
  split
  · exact ⟨⟨new, rfl⟩, newOut, rfl⟩
  · exact defined J member

theorem defined_initial (ctx : Context) (f : FuncRef) : Defined ctx f (initial ctx f) := by
  intro I listed
  rw [initial, lookup_insert, lookup_foldl_insert, if_pos listed]
  split
  · exact ⟨⟨_, rfl⟩, _, rfl⟩
  · exact ⟨⟨_, rfl⟩, _, rfl⟩

theorem Halts.returns (supported : Supported oracle ctx f) (halts : Halts oracle ctx f s)
    (defined : Defined ctx f s) : ∃ fuel t, iterate oracle ctx f fuel s = some t := by
  induction halts with
  | aborts aborted =>
    obtain ⟨t, swept, _⟩ := supported.sweep defined
    rw [aborted] at swept
    cases swept
  | @stable s t swept unchanged =>
    refine ⟨1, t, ?_⟩
    rw [iterate, swept, Option.bind_some, if_neg (by rw [unchanged]; exact Bool.false_ne_true)]
  | @again s t swept changed rest ih =>
    obtain ⟨u, swept', after⟩ := supported.sweep defined
    rw [swept] at swept'
    cases swept'
    obtain ⟨fuel, r, ran⟩ := ih after
    refine ⟨fuel + 1, r, ?_⟩
    rw [iterate, swept, Option.bind_some, if_pos changed, ran]

/-- The loop of the pass halts; unless it aborts, it reaches a sweep that changes nothing. -/
theorem fixpoint_reached (equivalence : MustEquivalence oracle) (content : ContentOrder ctx) (f : FuncRef) :
    Halts oracle ctx f (initial ctx f) ∧
      (Supported oracle ctx f → ∃ fuel t, runOnFunction oracle ctx f fuel = some t) := by
  have halts := halts_initial equivalence content f
  exact ⟨halts, fun supported => halts.returns supported (defined_initial ctx f)⟩

/-- A set of pointers in an order of its own. -/
noncomputable def setOrder (pointers : List Value) : List Value := pointers.toFinset.toList

/-- Two stores, the second one of an argument that the attacker controls, before a loop. -/
noncomputable def storesThenLoops : Context where
  M := ⟨[⟨[[⟨.store false, [.constant 0, .constant 1], [], [], true, false, false⟩,
      ⟨.store false, [.argument 0 0, .constant 2], [], [], true, false, false⟩,
      ⟨.br, [], [], [1], true, false, false⟩],
    [⟨.br, [.argument 0 0], [], [1, 2], true, false, false⟩],
    [⟨.ret, [], [], [], true, false, false⟩]], [[], [0, 1], [1]], [false]⟩]⟩
  AA := aliasByRepresentative id
  order := setOrder
  mem_order P pointers := by simp [setOrder]
  annotatedUncontrolled := [.constant 3]

theorem storesThenLoops_content : ContentOrder storesThenLoops := by
  intro pointers others same
  have equal : pointers.toFinset = others.toFinset := by
    ext P
    rw [List.mem_toFinset, List.mem_toFinset, same]
  exact congrArg Finset.toList equal

theorem equality_equivalence {other : AliasResult} (weaker : other ≠ .mustAlias) :
    MustEquivalence fun P Q => if P = Q then .mustAlias else other := by
  have equal (P Q : Value) : (if P = Q then AliasResult.mustAlias else other) = .mustAlias ↔ P = Q := by
    simp [weaker]
  refine ⟨fun P => if_pos rfl, ?_, ?_⟩
  · intro P Q must
    rw [equal] at must ⊢
    exact must.symm
  · intro P Q R first second
    rw [equal] at first second ⊢
    exact first.trans second

theorem storesThenLoops_reaches_fixpoint :
    Supported distinct storesThenLoops 0 ∧ ∃ fuel t, runOnFunction distinct storesThenLoops 0 fuel = some t := by
  have supported : Supported distinct storesThenLoops 0 := by
    refine ⟨Function.wellFormed_of_test (by decide), ?_, by decide, ?_⟩
    · have known : ∀ I ∈ storesThenLoops.M.insts 0, ∀ V ∈ (storesThenLoops.M.deref I).operands,
          inTaint storesThenLoops V .empty ≠ none := by decide
      intro I listed V member kind same
      subst same
      exact known I listed _ member rfl
    · intro P Q
      unfold distinct
      split
      · decide
      · decide
  exact ⟨supported, (fixpoint_reached (equality_equivalence (by decide)) storesThenLoops_content 0).2 supported⟩

def overlapping : Oracle := fun P Q => if P = Q then .mustAlias else .partialAlias

/-- The pass aborts at the second store if its target is said to overlap the first one's in part. -/
theorem partialAlias_aborts :
    MustEquivalence overlapping ∧ ContentOrder storesThenLoops ∧
      ∀ fuel, runOnFunction overlapping storesThenLoops 0 fuel = none := by
  refine ⟨equality_equivalence (by decide), storesThenLoops_content, ?_⟩
  have aborted : sweep overlapping storesThenLoops 0 (initial storesThenLoops 0) = none :=
    Option.isNone_iff_eq_none.mp (by decide)
  intro fuel
  cases fuel with
  | zero => rfl
  | succ fuel => rw [runOnFunction, iterate, aborted, Option.bind_none]

end Oracle

end Clou.AttackerTaint
