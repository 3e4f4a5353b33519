import Clou.Aeg
import Clou.FiniteMap
import Clou.Offsets
import Clou.Prune

/-! Addresses: the pass over the event graph that gives every pointer an integer term of the
solver. -/

namespace Clou

open Z3

/-- The part of a solver model that addresses read: the execution variables, and the integers that
the pass makes, by their numbers. -/
structure AddrValuation extends Valuation where
  ints : Nat → Int

namespace Addresses

abbrev Address := Term AddrValuation Int

def intVal (n : Int) : Address := fun _ => n
def intVar (k : Nat) : Address := fun v => v.ints k

/-- The constants that the pass tells apart. A global has no size when its type has none. -/
inductive Constant where
  | int (value : Int)
  | null
  | data
  | global (bits : Option Nat)
  | expr
  | other

structure Values where
  type : Value → Ty
  constant : Nat → Constant
  allocationSizeInBits : InstRef → Option Nat
  size : Ty → Nat
  pointee : Nat → Ty

namespace Values

def isPointerTy (values : Values) (V : Value) : Bool :=
  match values.type V with
  | .pointer _ => true
  | _ => false

def index (values : Values) (V : Value) : Index :=
  match V with
  | .constant C =>
    match values.constant C with
    | .int value => .const value
    | _ => .nonconst
  | _ => .nonconst

def gep (values : Values) (I : Inst) : Gep :=
  ⟨values.type I.pointerOperand, (I.operands.drop 1).map values.index⟩

end Values

/-- The counters of the pass, the addresses that it remembers, and those of the nodes. `next` is
the number of the next integer. -/
structure State where
  stackCounter : Nat
  globalCounter : Int
  next : Nat
  mainArgs : AList (fun _ : Value => Address)
  globals : AList (fun _ : Nat => Address)
  addrRefs : NodeRef → AList (fun _ : Value => Address)
  addrDef : NodeRef → Option Address

namespace State

def initial : State := ⟨1, -1, 0, ∅, ∅, fun _ => ∅, fun _ => none⟩

def makeInt (s : State) : State := { s with next := s.next + 1 }

def addMainArg (s : State) (V : Value) (a : Address) : State :=
  { s with mainArgs := s.mainArgs.insert V a }

def addGlobal (s : State) (C : Nat) (a : Address) : State :=
  { s with globals := FiniteMap.emplace s.globals C a }

def refer (s : State) (ref : NodeRef) (V : Value) (a : Address) : State :=
  { s with addrRefs := Function.update s.addrRefs ref (FiniteMap.emplace (s.addrRefs ref) V a) }

def define (s : State) (ref : NodeRef) (a : Address) : State :=
  { s with addrDef := Function.update s.addrDef ref (some a) }

variable (s : State) (ref : NodeRef) (a : Address)

theorem refer_self (V : Value) : (s.refer ref V a).addrRefs ref = FiniteMap.emplace (s.addrRefs ref) V a :=
  Function.update_self ..

theorem refer_of_ne (V : Value) {other : NodeRef} (different : other ≠ ref) :
    (s.refer ref V a).addrRefs other = s.addrRefs other :=
  Function.update_of_ne different ..

theorem define_self : (s.define ref a).addrDef ref = some a := Function.update_self ..

theorem define_of_ne {other : NodeRef} (different : other ≠ ref) :
    (s.define ref a).addrDef other = s.addrDef other :=
  Function.update_of_ne different ..

end State

section

variable (order : Cfg.HashOrder) (values : Values) (aeg : Aeg)

def arch (ref : NodeRef) : BoolExpr AddrValuation := (aeg.arch ref).comap (·.toValuation)

def exec (ref : NodeRef) : BoolExpr AddrValuation := (aeg.exec ref).comap (·.toValuation)

/-- The address of a constant. One that is neither null nor an object ends the program. -/
def constantAddress (C : Nat) (s : State) : Option (Address × State) :=
  match values.constant C with
  | .int value => if value = 0 then some (intVal 0, s) else none
  | .null => some (intVal 0, s)
  | .data => none
  | .global bits =>
    match s.globals.lookup C with
    | some a => some (a, s)
    | none =>
      match bits.filter (· ≠ 0) with
      | some bits =>
        let globalCounter := (s.globalCounter - (bits / 8 : Nat)).bmod (2 ^ 32)
        some (intVal globalCounter,
          { s with globalCounter := globalCounter }.addGlobal C (intVal globalCounter))
      | none => some (intVar s.next, s.makeInt.addGlobal C (intVar s.next))
  | .expr =>
    -- the lookup is for a null key, and what is remembered already stays
    let s' := s.makeInt.addGlobal C (intVar s.next)
    (s'.globals.lookup C).map (·, s')
  | .other => some (intVar s.next, s.makeInt)

def freeAddress (V : Value) (s : State) : Option (Address × State) :=
  match V with
  | .constant C => constantAddress values C s
  | .argument .. =>
    match s.mainArgs.lookup V with
    | some a => some (a, s)
    | none => some (intVar s.next, s.makeInt.addMainArg V (intVar s.next))
  | _ => some (intVar s.next, s.makeInt)

/-- The address that one of several nodes defines: of those executed, the last one. -/
def chooseAddress (s : State) (defs : List NodeRef) (acc : Address) : Option Address :=
  defs.foldlM (fun acc ref => (s.addrDef ref).map fun addr => ite (exec aeg ref) addr acc) acc

def definedAddress (defs : List NodeRef) (s : State) : Option (Address × State) :=
  match defs with
  | [ref] => (s.addrDef ref).map (·, s)
  | [] => some (intVar s.next, s.makeInt)
  | ref :: _ => do
    let first ← s.addrDef ref
    (chooseAddress aeg s defs first).map (·, s.makeInt)

def refAddress (node : Cfg.Node) (ref : NodeRef) (V : Value) (s : State) : Option (Address × State) :=
  match node.refs.lookup V with
  | none => freeAddress values V s
  | some defs => definedAddress aeg (order.elements ref defs) s

def bindRef (node : Cfg.Node) (ref : NodeRef) (s : State) (V : Value) : Option State :=
  (refAddress order values aeg node ref V s).map fun result => result.2.refer ref V result.1

def pointers : Cfg.Variant → Option (InstRef × List Value)
  | .inst I => some (I, (aeg.deref I).operands.filter values.isPointerTy)
  | .call C arg => some (C, [arg])
  | _ => none

def clamp (offset : Address) (lo hi : Int) : Address := fun v => max (min (offset v) hi) lo

def bindGep (I : Inst) (ref : NodeRef) (s : State) : Option State := do
  let base ← (s.addrRefs ref).lookup I.pointerOperand
  match ← Offsets.getelementptrConstOffset values.size values.pointee (values.gep I) with
  | some offset => some (s.define ref fun v => base v + offset)
  | none =>
    let minOffset ← Offsets.getelementptrMinOffset values.size values.pointee (values.gep I)
    let maxOffset ← Offsets.getelementptrMaxOffset values.size values.pointee (values.gep I)
    match minOffset, maxOffset with
    | some lo, some hi =>
      let offset := intVar s.next
      some (s.makeInt.define ref (ite (arch aeg ref) (clamp offset lo hi) offset))
    | _, _ => some (s.makeInt.define ref (intVar s.next))

def bindDef (I : InstRef) (ref : NodeRef) (s : State) : Option State :=
  if values.isPointerTy (.inst I) then
    match (aeg.deref I).kind with
    | .alloca _ =>
      (values.allocationSizeInBits I).map fun bits =>
        { s.define ref (intVal s.stackCounter) with stackCounter := (s.stackCounter + bits) % 2 ^ 32 }
    | .getelementptr => bindGep values aeg (aeg.deref I) ref s
    | _ => some (s.makeInt.define ref (intVar s.next))
  else some s

def bindNode (s : State) (ref : NodeRef) : Option State := do
  let node ← aeg.po.nodes[ref]?
  match pointers values aeg node.v with
  | none => some s
  | some (I, Vs) => do
    let s ← Vs.foldlM (bindRef order values aeg node ref) s
    bindDef values aeg I ref s

def constructAddrs : Option State :=
  aeg.po.reversePostorder.foldlM (bindNode order values aeg) State.initial

end

/-! What an address reads -/

def Below (bound : Nat) (a : Address) : Prop :=
  ∀ v v' : AddrValuation, v.toValuation = v'.toValuation → (∀ k < bound, v.ints k = v'.ints k) → a v = a v'

variable {a : Address} {bound : Nat}

theorem Below.mono {m n : Nat} (below : Below m a) (le : m ≤ n) : Below n a := by
  intro v v' same ints
  exact below v v' same fun k lt => ints k (Nat.lt_of_lt_of_le lt le)

theorem below_intVal (n : Int) (bound : Nat) : Below bound (intVal n) := fun _ _ _ _ => rfl

theorem below_intVar {k : Nat} (lt : k < bound) : Below bound (intVar k) :=
  fun _ _ _ ints => ints k lt

theorem Below.ite {b : Address} (c : BoolExpr Valuation) (left : Below bound a)
    (right : Below bound b) : Below bound (ite (c.comap (·.toValuation)) a b) := by
  intro v v' same ints
  change (if c.eval v.toValuation then a v else b v) = if c.eval v'.toValuation then a v' else b v'
  rw [same, left v v' same ints, right v v' same ints]

theorem Below.comp (f : Int → Int) (below : Below bound a) : Below bound fun v => f (a v) :=
  fun v v' same ints => congrArg f (below v v' same ints)

structure Bounded (s : State) : Prop where
  mainArgs : ∀ {V a}, s.mainArgs.lookup V = some a → Below s.next a
  globals : ∀ {C a}, s.globals.lookup C = some a → Below s.next a
  addrRefs : ∀ {ref V a}, (s.addrRefs ref).lookup V = some a → Below s.next a
  addrDef : ∀ {ref a}, s.addrDef ref = some a → Below s.next a

namespace Bounded

variable {s : State} {a : Address}

theorem initial : Bounded State.initial := by
  constructor <;> intros <;> contradiction

section

variable (bounded : Bounded s)

include bounded

theorem count (stackCounter : Nat) (globalCounter : Int) :
    Bounded { s with stackCounter := stackCounter, globalCounter := globalCounter } :=
  ⟨bounded.mainArgs, bounded.globals, bounded.addrRefs, bounded.addrDef⟩

theorem makeInt : Bounded s.makeInt :=
  have next : s.next ≤ s.makeInt.next := Nat.le_succ s.next
  ⟨fun found => (bounded.mainArgs found).mono next, fun found => (bounded.globals found).mono next,
    fun found => (bounded.addrRefs found).mono next, fun found => (bounded.addrDef found).mono next⟩

theorem addMainArg (V : Value) (below : Below s.next a) : Bounded (s.addMainArg V a) := by
  refine ⟨fun {W b} found => ?_, bounded.globals, bounded.addrRefs, bounded.addrDef⟩
  rw [State.addMainArg, FiniteMap.lookup_insert] at found
  split at found
  · cases found
    exact below
  · exact bounded.mainArgs found

omit bounded in
theorem of_emplace {K : Type} [DecidableEq K] {map : AList (fun _ : K => Address)} {bound : Nat}
    (every : ∀ {key b}, map.lookup key = some b → Below bound b) (below : Below bound a) {key other : K}
    {b : Address} (found : (FiniteMap.emplace map key a).lookup other = some b) : Below bound b := by
  rw [FiniteMap.lookup_emplace, Option.or_eq_some_iff] at found
  rcases found with old | ⟨-, new⟩
  · exact every old
  · split at new
    · cases new
      exact below
    · cases new

theorem addGlobal (C : Nat) (below : Below s.next a) : Bounded (s.addGlobal C a) :=
  ⟨bounded.mainArgs, of_emplace bounded.globals below, bounded.addrRefs, bounded.addrDef⟩

theorem refer (ref : NodeRef) (V : Value) (below : Below s.next a) : Bounded (s.refer ref V a) := by
  refine ⟨bounded.mainArgs, bounded.globals, fun {other W b} found => ?_, bounded.addrDef⟩
  by_cases same : other = ref
  · subst same
    rw [State.refer_self] at found
    exact of_emplace bounded.addrRefs below found
  · rw [State.refer_of_ne _ _ _ _ same] at found
    exact bounded.addrRefs found

theorem define (ref : NodeRef) (below : Below s.next a) : Bounded (s.define ref a) := by
  refine ⟨bounded.mainArgs, bounded.globals, bounded.addrRefs, fun {other b} found => ?_⟩
  by_cases same : other = ref
  · subst same
    rw [State.define_self] at found
    cases found
    exact below
  · rw [State.define_of_ne _ _ _ same] at found
    exact bounded.addrDef found

end

end Bounded

/-! One step -/

section Step

variable {order : Cfg.HashOrder} {values : Values} {aeg : Aeg} {s t : State} {a : Address}

def SameNodes (s t : State) : Prop := t.addrRefs = s.addrRefs ∧ t.addrDef = s.addrDef

section Bounded

variable (bounded : Bounded s)

include bounded

theorem fresh_spec : Bounded s.makeInt ∧ Below s.makeInt.next (intVar s.next) :=
  ⟨bounded.makeInt, below_intVar (Nat.lt_succ_self s.next)⟩

theorem constantAddress_spec {C : Nat} (found : constantAddress values C s = some (a, t)) :
    Bounded t ∧ Below t.next a ∧ SameNodes s t := by
  unfold constantAddress at found
  split at found
  · split at found
    · cases found
      exact ⟨bounded, below_intVal 0 _, rfl, rfl⟩
    · cases found
  · cases found
    exact ⟨bounded, below_intVal 0 _, rfl, rfl⟩
  · cases found
  · split at found
    · rename_i known
      cases found
      exact ⟨bounded, bounded.globals known, rfl, rfl⟩
    · split at found
      · cases found
        exact ⟨(bounded.count _ _).addGlobal C (below_intVal _ _), below_intVal _ _, rfl, rfl⟩
      · cases found
        rcases fresh_spec bounded with ⟨bounded', below⟩
        exact ⟨bounded'.addGlobal C below, below, rfl, rfl⟩
  · rcases Option.map_eq_some_iff.mp found with ⟨b, known, same⟩
    cases same
    rcases fresh_spec bounded with ⟨bounded', below⟩
    have bounded'' := bounded'.addGlobal C below
    exact ⟨bounded'', bounded''.globals known, rfl, rfl⟩
  · cases found
    rcases fresh_spec bounded with ⟨bounded', below⟩
    exact ⟨bounded', below, rfl, rfl⟩

theorem freeAddress_spec {V : Value} (found : freeAddress values V s = some (a, t)) :
    Bounded t ∧ Below t.next a ∧ SameNodes s t := by
  rcases fresh_spec bounded with ⟨bounded', below⟩
  unfold freeAddress at found
  split at found
  · exact constantAddress_spec bounded found
  · split at found
    · rename_i known
      cases found
      exact ⟨bounded, bounded.mainArgs known, rfl, rfl⟩
    · cases found
      exact ⟨bounded'.addMainArg _ below, below, rfl, rfl⟩
  · cases found
    exact ⟨bounded', below, rfl, rfl⟩

theorem chooseAddress_below {defs : List NodeRef} {acc : Address} (below : Below s.next acc)
    (found : chooseAddress aeg s defs acc = some a) : Below s.next a := by
  refine foldlM_invariant (fun ref _ below stepped => ?_) below found
  rcases Option.map_eq_some_iff.mp stepped with ⟨addr, known, rfl⟩
  exact (bounded.addrDef known).ite _ below

theorem definedAddress_spec {defs : List NodeRef} (found : definedAddress aeg defs s = some (a, t)) :
    Bounded t ∧ Below t.next a ∧ SameNodes s t := by
  unfold definedAddress at found
  split at found
  · rcases Option.map_eq_some_iff.mp found with ⟨addr, known, same⟩
    cases same
    exact ⟨bounded, bounded.addrDef known, rfl, rfl⟩
  · cases found
    rcases fresh_spec bounded with ⟨bounded', below⟩
    exact ⟨bounded', below, rfl, rfl⟩
  · rcases Option.bind_eq_some_iff.mp found with ⟨first, known, chosen⟩
    rcases Option.map_eq_some_iff.mp chosen with ⟨addr, folded, same⟩
    cases same
    have below := chooseAddress_below bounded (bounded.addrDef known) folded
    exact ⟨bounded.makeInt, below.mono (Nat.le_succ _), rfl, rfl⟩

def Elsewhere (ref : NodeRef) (s t : State) : Prop :=
  ∀ other ≠ ref, t.addrRefs other = s.addrRefs other ∧ t.addrDef other = s.addrDef other

variable {ref : NodeRef}

theorem bindRef_spec {node : Cfg.Node} {V : Value}
    (found : bindRef order values aeg node ref s V = some t) : Bounded t ∧ Elsewhere ref s t := by
  rcases Option.map_eq_some_iff.mp found with ⟨⟨e, r⟩, address, rfl⟩
  have spec : Bounded r ∧ Below r.next e ∧ SameNodes s r := by
    unfold refAddress at address
    split at address
    · exact freeAddress_spec bounded address
    · exact definedAddress_spec bounded address
  rcases spec with ⟨bounded', below, refs, defs⟩
  refine ⟨bounded'.refer ref V below, fun other different => ⟨?_, congrFun defs other⟩⟩
  rw [State.refer_of_ne _ _ _ _ different, refs]

/-- The address that an address computation defines, in terms of its base: the base and the constant
offset, or an integer of its own that is kept between the bounds, without the base. -/
inductive GepAddress (values : Values) (aeg : Aeg) (ref : NodeRef) (GEP : Gep) (base : Address) :
    Address → Prop
  | const {offset} : Offsets.getelementptrConstOffset values.size values.pointee GEP = some (some offset) →
      GepAddress values aeg ref GEP base fun v => base v + offset
  | clamped {lo hi k} : Offsets.getelementptrConstOffset values.size values.pointee GEP = some none →
      Offsets.getelementptrMinOffset values.size values.pointee GEP = some (some lo) →
      Offsets.getelementptrMaxOffset values.size values.pointee GEP = some (some hi) → Below k base →
      GepAddress values aeg ref GEP base (ite (arch aeg ref) (clamp (intVar k) lo hi) (intVar k))
  | free {k} : Offsets.getelementptrConstOffset values.size values.pointee GEP = some none →
      (Offsets.getelementptrMinOffset values.size values.pointee GEP = some none ∨
        Offsets.getelementptrMaxOffset values.size values.pointee GEP = some none) →
      GepAddress values aeg ref GEP base (intVar k)

def Placed (values : Values) (aeg : Aeg) (ref : NodeRef) (I : Inst) (s : State) : Prop :=
  ∃ base addr, (s.addrRefs ref).lookup I.pointerOperand = some base ∧ s.addrDef ref = some addr ∧
    GepAddress values aeg ref (values.gep I) base addr

theorem define_spec (ref : NodeRef) (below : Below s.next a) :
    Bounded (s.define ref a) ∧ Elsewhere ref s (s.define ref a) :=
  ⟨bounded.define ref below, fun _ different => ⟨rfl, State.define_of_ne _ _ _ different⟩⟩

theorem bindGep_spec {I : Inst} (found : bindGep values aeg I ref s = some t) :
    (Bounded t ∧ Elsewhere ref s t) ∧ Placed values aeg ref I t := by
  rcases fresh_spec bounded with ⟨bounded', below⟩
  rcases Option.bind_eq_some_iff.mp found with ⟨base, based, found⟩
  rcases Option.bind_eq_some_iff.mp found with ⟨offset, const, found⟩
  have placed {r : State} {a : Address} (same : r.addrRefs = s.addrRefs)
      (address : GepAddress values aeg ref (values.gep I) base a) :
      Placed values aeg ref I (r.define ref a) := by
    refine ⟨base, a, ?_, State.define_self .., address⟩
    change (r.addrRefs ref).lookup _ = _
    rw [same, based]
  cases offset with
  | some offset =>
    cases found
    have below := (bounded.addrRefs based).comp (· + offset)
    exact ⟨define_spec bounded ref below, placed rfl (.const const)⟩
  | none =>
    rcases Option.bind_eq_some_iff.mp found with ⟨minOffset, min, found⟩
    rcases Option.bind_eq_some_iff.mp found with ⟨maxOffset, max, found⟩
    cases minOffset with
    | none =>
      cases found
      exact ⟨define_spec bounded' ref below, placed rfl (.free const (.inl min))⟩
    | some lo =>
      cases maxOffset with
      | none =>
        cases found
        exact ⟨define_spec bounded' ref below, placed rfl (.free const (.inr max))⟩
      | some hi =>
        cases found
        have clamped := below.comp fun offset => Max.max (Min.min offset hi) lo
        exact ⟨define_spec bounded' ref (clamped.ite _ below),
          placed rfl (.clamped const min max (bounded.addrRefs based))⟩

theorem bindDef_spec {I : InstRef} (found : bindDef values aeg I ref s = some t) :
    (Bounded t ∧ Elsewhere ref s t) ∧ (values.isPointerTy (.inst I) = true →
      (aeg.deref I).kind = .getelementptr → Placed values aeg ref (aeg.deref I) t) := by
  unfold bindDef at found
  split at found
  · split at found
    · rename_i _ _ kind
      rcases Option.map_eq_some_iff.mp found with ⟨bits, _, rfl⟩
      rcases define_spec bounded ref (below_intVal s.stackCounter _) with ⟨bounded', elsewhere⟩
      refine ⟨⟨bounded'.count _ _, elsewhere⟩, fun _ gep => ?_⟩
      rw [kind] at gep
      cases gep
    · rcases bindGep_spec bounded found with ⟨spec, placed⟩
      exact ⟨spec, fun _ _ => placed⟩
    · rename_i other
      cases found
      rcases fresh_spec bounded with ⟨bounded', below⟩
      exact ⟨define_spec bounded' ref below, fun _ gep => absurd gep other⟩
  · rename_i plain
    cases found
    exact ⟨⟨bounded, fun _ _ => ⟨rfl, rfl⟩⟩, fun pointer => absurd pointer plain⟩

omit bounded in
theorem Elsewhere.trans {r : State} (first : Elsewhere ref s r) (second : Elsewhere ref r t) :
    Elsewhere ref s t := by
  intro other different
  rw [(second other different).1, (second other different).2]
  exact first other different

theorem bindNode_spec (found : bindNode order values aeg s ref = some t) :
    (Bounded t ∧ Elsewhere ref s t) ∧ ∀ I, aeg.po.variant ref = some (.inst I) →
      values.isPointerTy (.inst I) = true → (aeg.deref I).kind = .getelementptr →
      Placed values aeg ref (aeg.deref I) t := by
  rcases Option.bind_eq_some_iff.mp found with ⟨node, listed, found⟩
  have here : aeg.po.variant ref = some node.v := congrArg (Option.map Cfg.Node.v) listed
  rw [here]
  split at found
  · rename_i special
    cases found
    refine ⟨⟨bounded, fun _ _ => ⟨rfl, rfl⟩⟩, fun I same => ?_⟩
    rw [Option.some.inj same] at special
    cases special
  · rename_i J Vs regular
    rcases Option.bind_eq_some_iff.mp found with ⟨r, referred, defined⟩
    have refs : Bounded r ∧ Elsewhere ref s r := by
      refine foldlM_invariant (motive := fun r => Bounded r ∧ Elsewhere ref s r)
        (fun V _ spec stepped => ?_) ⟨bounded, fun _ _ => ⟨rfl, rfl⟩⟩ referred
      rcases bindRef_spec spec.1 stepped with ⟨bounded', elsewhere⟩
      exact ⟨bounded', spec.2.trans elsewhere⟩
    rcases bindDef_spec refs.1 defined with ⟨⟨bounded', elsewhere⟩, placed⟩
    refine ⟨⟨bounded', refs.2.trans elsewhere⟩, fun I same => ?_⟩
    rw [Option.some.inj same] at regular
    cases regular
    exact placed

end Bounded

end Step

/-! The whole pass -/

section

variable {order : Cfg.HashOrder} {values : Values} {aeg : Aeg} {s t : State}

theorem run_spec {refs : List NodeRef} (nodup : refs.Nodup) (bounded : Bounded s)
    (run : refs.foldlM (bindNode order values aeg) s = some t) :
    (∀ other ∉ refs, t.addrRefs other = s.addrRefs other ∧ t.addrDef other = s.addrDef other) ∧
    ∀ ref ∈ refs, ∀ I, aeg.po.variant ref = some (.inst I) → values.isPointerTy (.inst I) = true →
      (aeg.deref I).kind = .getelementptr → Placed values aeg ref (aeg.deref I) t := by
  induction refs generalizing s with
  | nil =>
    cases run
    exact ⟨fun _ _ => ⟨rfl, rfl⟩, fun _ member => absurd member List.not_mem_nil⟩
  | cons ref refs ih =>
    rcases foldlM_cons_eq_some.mp run with ⟨r, first, rest⟩
    rcases List.nodup_cons.mp nodup with ⟨fresh, nodup'⟩
    rcases bindNode_spec bounded first with ⟨⟨bounded', elsewhere⟩, placed⟩
    rcases ih nodup' bounded' rest with ⟨same, later⟩
    constructor
    · intro other absent
      have notLater := List.not_mem_of_not_mem_cons absent
      rw [(same other notLater).1, (same other notLater).2]
      exact elsewhere other (List.ne_of_not_mem_cons absent)
    · intro node member I variant pointer gep
      rcases List.mem_cons.mp member with rfl | member
      · rcases placed I variant pointer gep with ⟨base, addr, based, defined, address⟩
        exact ⟨base, addr, by rw [(same _ fresh).1, based], by rw [(same _ fresh).2, defined], address⟩
      · exact later node member I variant pointer gep

theorem constructAddrs_placed (run : constructAddrs order values aeg = some t) {ref : NodeRef} {I : InstRef}
    (variant : aeg.po.variant ref = some (.inst I)) (pointer : values.isPointerTy (.inst I) = true)
    (gep : (aeg.deref I).kind = .getelementptr) : Placed values aeg ref (aeg.deref I) t := by
  have bound : ref ∈ aeg.po.reversePostorder := by
    rcases Option.map_eq_some_iff.mp variant with ⟨node, listed, -⟩
    exact List.mem_range.mpr (List.getElem?_eq_some_iff.mp listed).1
  exact (run_spec List.nodup_range .initial run).2 ref bound I variant pointer gep

/-- A fresh integer between the bounds stays between the bounds around a base only where the base is
zero. -/
theorem clamped_iff {ref : NodeRef} {base : Address} {k : Nat} (below : Below k base) (lo hi : Int) :
    (∀ v, (arch aeg ref).eval v = true →
      base v + lo ≤ ite (arch aeg ref) (clamp (intVar k) lo hi) (intVar k) v ∧
      ite (arch aeg ref) (clamp (intVar k) lo hi) (intVar k) v ≤ base v + hi) ↔
    lo ≤ hi ∧ ∀ v, (arch aeg ref).eval v = true → base v = 0 := by
  have value (v : AddrValuation) (executed : (arch aeg ref).eval v = true) :
      ite (arch aeg ref) (clamp (intVar k) lo hi) (intVar k) v = max (min (v.ints k) hi) lo :=
    if_pos executed
  constructor
  · intro within
    have bounds (v : AddrValuation) (executed : (arch aeg ref).eval v = true) (n : Int) :
        base v + lo ≤ max (min n hi) lo ∧ max (min n hi) lo ≤ base v + hi := by
      let w : AddrValuation := { v with ints := Function.update v.ints k n }
      have chosen : w.ints k = n := Function.update_self ..
      have same : base w = base v :=
        below w v rfl fun j lt => Function.update_of_ne (Nat.ne_of_lt lt) ..
      have here := within w executed
      rwa [value w executed, chosen, same] at here
    let everywhere : AddrValuation :=
      ⟨⟨fun _ => true, fun _ => true, fun _ => true, fun _ => true, fun _ _ => true⟩, fun _ => 0⟩
    have executed : (arch aeg ref).eval everywhere = true := by
      unfold arch Aeg.arch
      split <;> rfl
    have ordered : lo ≤ hi := by
      have least := bounds everywhere executed lo
      omega
    refine ⟨ordered, fun v executed => ?_⟩
    have least := bounds v executed lo
    have most := bounds v executed hi
    omega
  · rintro ⟨ordered, null⟩ v executed
    rw [value v executed, null v executed]
    omega

/-- The address of a computation with a constant offset is the offset from its base. Otherwise it
stays between the offsets from its base if and only if the base is the null address. -/
theorem gepAddress_within_iff (run : constructAddrs order values aeg = some t) {ref : NodeRef} {I : InstRef}
    (variant : aeg.po.variant ref = some (.inst I)) (pointer : values.isPointerTy (.inst I) = true)
    (gep : (aeg.deref I).kind = .getelementptr) :
    ∃ base addr, (t.addrRefs ref).lookup (aeg.deref I).pointerOperand = some base ∧
      t.addrDef ref = some addr ∧
      (∀ offset, Offsets.getelementptrConstOffset values.size values.pointee (values.gep (aeg.deref I)) =
        some (some offset) → ∀ v, addr v = base v + offset) ∧
      (∀ lo hi, Offsets.getelementptrConstOffset values.size values.pointee (values.gep (aeg.deref I)) =
          some none →
        Offsets.getelementptrMinOffset values.size values.pointee (values.gep (aeg.deref I)) =
          some (some lo) →
        Offsets.getelementptrMaxOffset values.size values.pointee (values.gep (aeg.deref I)) =
          some (some hi) →
        ((∀ v, (arch aeg ref).eval v = true → base v + lo ≤ addr v ∧ addr v ≤ base v + hi) ↔
          lo ≤ hi ∧ ∀ v, (arch aeg ref).eval v = true → base v = 0)) := by
  rcases constructAddrs_placed run variant pointer gep with ⟨base, addr, based, defined, address⟩
  refine ⟨base, addr, based, defined, ?_⟩
  cases address with
  | const const =>
    constructor
    · intro offset found
      cases const.symm.trans found
      exact fun _ => rfl
    · intro lo hi found
      cases const.symm.trans found
  | clamped const min max below =>
    constructor
    · intro offset found
      cases const.symm.trans found
    · intro lo hi _ min' max'
      cases min.symm.trans min'
      cases max.symm.trans max'
      exact clamped_iff below _ _
  | free const unknown =>
    constructor
    · intro offset found
      cases const.symm.trans found
    · intro lo hi _ min max
      rcases unknown with none | none
      · cases none.symm.trans min
      · cases none.symm.trans max

end

def element : Aeg where
  po := .ofEdges [.makeEntry, ⟨.inst ⟨0, 0, 0⟩, some ⟨[0], []⟩, ∅⟩,
    ⟨.inst ⟨0, 0, 1⟩, some ⟨[0], []⟩, SetMap.add ∅ (.inst ⟨0, 0, 0⟩) {1}⟩, .makeExit]
    [(0, 1), (1, 2), (2, 3)] 0 [3]
  deref I :=
    if I.index = 0 then ⟨.alloca false, [], [], [], false, true, false⟩
    else ⟨.getelementptr, [.inst ⟨0, 0, 0⟩, .constant 0, .argument 0 0], [], [], false, true, false⟩
  leakageClass := .spectreV1
  specDepth := 0
  lsqSize := none

def elementValues : Values where
  type V := match V with
    | .inst I => .pointer I.index
    | _ => .int 32
  constant _ := .int 0
  allocationSizeInBits _ := some 128
  size := Offsets.lp64.sizeInBits
  pointee k := if k = 0 then .array 4 (.int 32) else .int 32

def elementModel : AddrValuation :=
  ⟨⟨fun _ => true, fun _ => false, fun _ => false, fun _ => false, fun _ _ => true⟩, fun _ => 0⟩

/-- The array is at address 1 and its elements take 16 bytes, but one of them is at address 0. -/
theorem element_before_array :
    Offsets.getelementptrConstOffset elementValues.size elementValues.pointee
      (elementValues.gep (element.deref ⟨0, 0, 1⟩)) = some none ∧
    Offsets.getelementptrMinOffset elementValues.size elementValues.pointee
      (elementValues.gep (element.deref ⟨0, 0, 1⟩)) = some (some 0) ∧
    Offsets.getelementptrMaxOffset elementValues.size elementValues.pointee
      (elementValues.gep (element.deref ⟨0, 0, 1⟩)) = some (some 16) ∧
    (arch element 2).eval elementModel = true ∧
    ((constructAddrs .listed elementValues element).bind fun t =>
      ((t.addrRefs 2).lookup (.inst ⟨0, 0, 0⟩)).map fun base => base elementModel) = some 1 ∧
    ((constructAddrs .listed elementValues element).bind fun t =>
      (t.addrDef 2).map fun addr => addr elementModel) = some 0 := by
  decide

theorem element_within_iff :
    ∃ t, constructAddrs .listed elementValues element = some t ∧
    ∃ base addr, (t.addrRefs 2).lookup (element.deref ⟨0, 0, 1⟩).pointerOperand = some base ∧
      t.addrDef 2 = some addr ∧
      (∀ offset, Offsets.getelementptrConstOffset elementValues.size elementValues.pointee
        (elementValues.gep (element.deref ⟨0, 0, 1⟩)) = some (some offset) →
        ∀ v, addr v = base v + offset) ∧
      (∀ lo hi, Offsets.getelementptrConstOffset elementValues.size elementValues.pointee
          (elementValues.gep (element.deref ⟨0, 0, 1⟩)) = some none →
        Offsets.getelementptrMinOffset elementValues.size elementValues.pointee
          (elementValues.gep (element.deref ⟨0, 0, 1⟩)) = some (some lo) →
        Offsets.getelementptrMaxOffset elementValues.size elementValues.pointee
          (elementValues.gep (element.deref ⟨0, 0, 1⟩)) = some (some hi) →
        ((∀ v, (arch element 2).eval v = true → base v + lo ≤ addr v ∧ addr v ≤ base v + hi) ↔
          lo ≤ hi ∧ ∀ v, (arch element 2).eval v = true → base v = 0)) := by
  have runs : (constructAddrs .listed elementValues element).isSome = true := by decide
  rcases Option.isSome_iff_exists.mp runs with ⟨t, run⟩
  exact ⟨t, run, gepAddress_within_iff run rfl rfl rfl⟩

end Addresses

end Clou
