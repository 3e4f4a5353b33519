import Clou.Addresses
import Clou.History

/-! Where the pass over the event graph places objects: allocations upwards from address one
in a counter that advances by bits, globals downwards from minus one by whole bytes. -/

namespace Clou

namespace Addresses

open History

/-! What the pass meets -/

section

variable (values : Values) (aeg : Aeg)

def globalBits (C : Nat) : Option Nat :=
  match values.constant C with
  | .global bits => bits.filter (· ≠ 0)
  | _ => none

/-- The global of known size that a pointer of a node names, if no node defines the pointer. -/
def sizedGlobal (node : Cfg.Node) (V : Value) : Option Nat :=
  match node.refs.lookup V, V with
  | none, .constant C => if (globalBits values C).isSome then some C else none
  | _, _ => none

def globalRefs (ref : NodeRef) : List Nat :=
  match aeg.po.nodes[ref]? with
  | none => []
  | some node =>
    match pointers values aeg node.v with
    | none => []
    | some (_, Vs) => Vs.filterMap (sizedGlobal values node)

def addNew (done : List Nat) (C : Nat) : List Nat := if C ∈ done then done else done ++ [C]

def placedGlobals : List Nat :=
  (aeg.po.reversePostorder.flatMap (globalRefs values aeg)).foldl addNew []

def allocaBits (ref : NodeRef) : Option Nat := do
  let node ← aeg.po.nodes[ref]?
  let (I, _) ← pointers values aeg node.v
  match (aeg.deref I).kind with
  | .alloca _ => if values.isPointerTy (.inst I) then values.allocationSizeInBits I else none
  | _ => none

def allocas : List (NodeRef × Nat) :=
  aeg.po.reversePostorder.filterMap fun ref => (allocaBits values aeg ref).map (ref, ·)

def stackBits (stack : List (NodeRef × Nat)) : Nat := (stack.map (·.2)).sum

/-- The bytes by which the globals move their counter, each size rounded down. -/
def globalBytes (placed : List Nat) : Nat :=
  (placed.map fun C => (globalBits values C).getD 0 / 8).sum

end

section

variable {values : Values}

@[simp] theorem stackBits_nil : stackBits [] = 0 := rfl

@[simp] theorem stackBits_append (stack rest : List (NodeRef × Nat)) :
    stackBits (stack ++ rest) = stackBits stack + stackBits rest := by
  simp [stackBits]

@[simp] theorem stackBits_cons (ref : NodeRef) (bits : Nat) (rest : List (NodeRef × Nat)) :
    stackBits ((ref, bits) :: rest) = bits + stackBits rest := by
  simp [stackBits]

@[simp] theorem globalBytes_append (placed rest : List Nat) :
    globalBytes values (placed ++ rest) = globalBytes values placed + globalBytes values rest := by
  simp [globalBytes]

@[simp] theorem globalBytes_cons (C : Nat) (rest : List Nat) :
    globalBytes values (C :: rest) = (globalBits values C).getD 0 / 8 + globalBytes values rest := by
  simp [globalBytes]

end

theorem addNew_of_mem {done : List Nat} {C : Nat} (old : C ∈ done) : addNew done C = done := if_pos old

theorem addNew_of_not_mem {done : List Nat} {C : Nat} (new : C ∉ done) : addNew done C = done ++ [C] :=
  if_neg new

/-! What has been placed -/

structure Laid (values : Values) (stack : List (NodeRef × Nat)) (placed : List Nat) (s : State) :
    Prop where
  stackCounter : s.stackCounter = (1 + stackBits stack) % 2 ^ 32
  alloca : ∀ before ref bits after, stack = before ++ (ref, bits) :: after →
    s.addrDef ref = some (intVal ((1 + stackBits before) % 2 ^ 32 : Nat))
  globalCounter : s.globalCounter = (-1 - globalBytes values placed : Int).bmod (2 ^ 32)
  global : ∀ before C after, placed = before ++ C :: after → s.globals.lookup C =
    some (intVal ((-1 - globalBytes values (before ++ [C]) : Int).bmod (2 ^ 32)))
  known : ∀ C, (globalBits values C).isSome → C ∈ s.globals → C ∈ placed
  sized : ∀ C ∈ placed, (globalBits values C).isSome
  nodup : placed.Nodup

namespace Laid

variable {values : Values} {aeg : Aeg} {order : Cfg.HashOrder} {stack : List (NodeRef × Nat)}
  {placed : List Nat} {s t : State} {a : Address}

theorem initial (values : Values) : Laid values [] [] State.initial where
  stackCounter := rfl
  alloca before ref bits after split := by simp at split
  globalCounter := rfl
  global before C after split := by simp at split
  known C _ present := absurd present (AList.notMem_empty C)
  sized C member := by simp at member
  nodup := List.nodup_nil

section Laid

variable (laid : Laid values stack placed s)

include laid

theorem congr (counter : t.stackCounter = s.stackCounter)
    (global : t.globalCounter = s.globalCounter) (globals : t.globals = s.globals)
    (defs : t.addrDef = s.addrDef) : Laid values stack placed t :=
  ⟨counter ▸ laid.stackCounter, defs ▸ laid.alloca, global ▸ laid.globalCounter,
    globals ▸ laid.global, globals ▸ laid.known, laid.sized, laid.nodup⟩

variable {C : Nat} {node : Cfg.Node} {ref : NodeRef}

theorem mem_globals (member : C ∈ placed) : C ∈ s.globals := by
  obtain ⟨before, after, split⟩ := List.append_of_mem member
  exact FiniteMap.mem_of_lookup (laid.global before C after split)

theorem addGlobal (free : globalBits values C = none) (a : Address) :
    Laid values stack placed (s.addGlobal C a) := by
  have other {D : Nat} (sized : (globalBits values D).isSome) : D ≠ C := by
    intro same
    rw [same, free] at sized
    simp at sized
  refine ⟨laid.stackCounter, laid.alloca, laid.globalCounter, ?_, ?_, laid.sized, laid.nodup⟩
  · intro before D after split
    have found := laid.global before D after split
    rw [State.addGlobal, FiniteMap.lookup_emplace, found, Option.some_or]
  · intro D sized present
    obtain ⟨b, found⟩ := FiniteMap.exists_of_mem present
    rw [State.addGlobal, FiniteMap.lookup_emplace, if_neg (other sized), Option.or_none] at found
    exact laid.known D sized (FiniteMap.mem_of_lookup found)

theorem place {bits : Nat} (size : globalBits values C = some bits) (new : C ∉ s.globals) :
    Laid values stack (placed ++ [C])
      ({ s with globalCounter := (s.globalCounter - (bits / 8 : Nat)).bmod (2 ^ 32) }.addGlobal C
        (intVal ((s.globalCounter - (bits / 8 : Nat)).bmod (2 ^ 32)))) := by
  have counter : (s.globalCounter - (bits / 8 : Nat)).bmod (2 ^ 32) =
      (-1 - globalBytes values (placed ++ [C]) : Int).bmod (2 ^ 32) := by
    have sum : globalBytes values (placed ++ [C]) = globalBytes values placed + bits / 8 := by
      simp [size, globalBytes]
    rw [laid.globalCounter, Int.bmod_sub_bmod, sum]
    congr 1
    omega
  refine ⟨laid.stackCounter, laid.alloca, counter, ?_, ?_, ?_, ?_⟩
  · intro before D after split
    rw [State.addGlobal, FiniteMap.lookup_emplace]
    rcases snoc_eq_append_cons.mp split with ⟨whole, same, _⟩ | ⟨middle, _, earlier⟩
    · have absent : s.globals.lookup C = none := AList.lookup_eq_none.mpr new
      rw [same, whole, absent, Option.none_or, if_pos rfl, counter]
    · rw [laid.global before D middle earlier, Option.some_or]
  · intro D sized present
    obtain ⟨b, found⟩ := FiniteMap.exists_of_mem present
    rw [State.addGlobal, FiniteMap.lookup_emplace] at found
    by_cases same : D = C
    · simp [same]
    · rw [if_neg same, Option.or_none] at found
      exact List.mem_append_left _ (laid.known D sized (FiniteMap.mem_of_lookup found))
  · intro D member
    rcases List.mem_append.mp member with old | last
    · exact laid.sized D old
    · rw [List.mem_singleton.mp last, size]
      rfl
  · refine List.nodup_append.mpr ⟨laid.nodup, List.nodup_singleton C, ?_⟩
    intro D old E last same
    rw [same, List.mem_singleton.mp last] at old
    exact new (laid.mem_globals old)

theorem makeInt : Laid values stack placed s.makeInt :=
  laid.congr rfl rfl rfl rfl

theorem constantAddress (found : constantAddress values C s = some (a, t)) :
    Laid values stack ((if (globalBits values C).isSome then some C else none).toList.foldl addNew placed) t := by
  unfold Addresses.constantAddress at found
  cases kind : values.constant C with
  | global bits =>
    simp only [kind] at found
    have size : globalBits values C = bits.filter (· ≠ 0) := by simp only [globalBits, kind]
    cases known : s.globals.lookup C with
    | some b =>
      simp only [known, Option.some.injEq, Prod.mk.injEq] at found
      rw [← found.2]
      by_cases sized : (globalBits values C).isSome
      · have old := laid.known C sized (FiniteMap.mem_of_lookup known)
        simpa [sized, addNew_of_mem old] using laid
      · simpa [sized] using laid
    | none =>
      have new : C ∉ s.globals := AList.lookup_eq_none.mp known
      cases filtered : bits.filter (· ≠ 0) with
      | some bits =>
        simp only [known, filtered, Option.some.injEq, Prod.mk.injEq] at found
        rw [filtered] at size
        have fresh : C ∉ placed := fun old => new (laid.mem_globals old)
        rw [← found.2]
        simpa [size, addNew_of_not_mem fresh] using laid.place size new
      | none =>
        simp only [known, filtered, Option.some.injEq, Prod.mk.injEq] at found
        rw [filtered] at size
        rw [← found.2]
        simpa [size] using laid.makeInt.addGlobal size _
  | expr =>
    have size : globalBits values C = none := by simp only [globalBits, kind]
    simp only [kind, Option.map_eq_some_iff, Prod.mk.injEq] at found
    obtain ⟨b, _, _, rfl⟩ := found
    simpa [size] using laid.makeInt.addGlobal size _
  | int value =>
    have size : globalBits values C = none := by simp only [globalBits, kind]
    simp only [kind] at found
    split at found
    · cases found
      simpa [size] using laid
    · cases found
  | null =>
    have size : globalBits values C = none := by simp only [globalBits, kind]
    simp only [kind, Option.some.injEq, Prod.mk.injEq] at found
    simpa [size, ← found.2] using laid
  | data =>
    simp [kind] at found
  | other =>
    have size : globalBits values C = none := by simp only [globalBits, kind]
    simp only [kind, Option.some.injEq, Prod.mk.injEq] at found
    simpa [size, ← found.2] using laid.makeInt

theorem refAddress {V : Value} (found : refAddress order values aeg node ref V s = some (a, t)) :
    Laid values stack ((sizedGlobal values node V).toList.foldl addNew placed) t := by
  unfold Addresses.refAddress at found
  cases defs : node.refs.lookup V with
  | some defs =>
    have free : sizedGlobal values node V = none := by simp only [sizedGlobal, defs]
    simp only [defs] at found
    rw [free]
    unfold Addresses.definedAddress at found
    split at found
    · obtain ⟨addr, _, same⟩ := Option.map_eq_some_iff.mp found
      cases same
      exact laid
    · cases found
      exact laid.makeInt
    · obtain ⟨first, _, chosen⟩ := Option.bind_eq_some_iff.mp found
      obtain ⟨addr, _, same⟩ := Option.map_eq_some_iff.mp chosen
      cases same
      exact laid.makeInt
  | none =>
    simp only [defs] at found
    cases V with
    | constant C =>
      have here : sizedGlobal values node (.constant C) =
          if (globalBits values C).isSome then some C else none := by simp only [sizedGlobal, defs]
      rw [here]
      exact laid.constantAddress found
    | argument func index =>
      have free : sizedGlobal values node (.argument func index) = none := by
        simp only [sizedGlobal, defs]
      rw [free]
      simp only [Addresses.freeAddress] at found
      split at found
      · cases found
        exact laid
      · cases found
        exact laid.congr rfl rfl rfl rfl
    | _ =>
      simp only [sizedGlobal, defs]
      cases found
      exact laid.makeInt

theorem bindRef {V : Value} (found : bindRef order values aeg node ref s V = some t) :
    Laid values stack ((sizedGlobal values node V).toList.foldl addNew placed) t := by
  obtain ⟨⟨e, r⟩, address, rfl⟩ := Option.map_eq_some_iff.mp found
  exact (laid.refAddress address).congr rfl rfl rfl rfl

theorem bindRefs {Vs : List Value}
    (found : Vs.foldlM (Addresses.bindRef order values aeg node ref) s = some t) :
    Laid values stack ((Vs.filterMap (sizedGlobal values node)).foldl addNew placed) t := by
  induction Vs generalizing s placed with
  | nil =>
    cases found
    exact laid
  | cons V Vs ih =>
    obtain ⟨r, first, rest⟩ := foldlM_cons_eq_some.mp found
    have later := ih (laid.bindRef first) rest
    cases here : sizedGlobal values node V with
    | none =>
      rw [List.filterMap_cons_none here]
      simpa [here] using later
    | some C =>
      rw [List.filterMap_cons_some here]
      simpa [here] using later

section

variable (fresh : ref ∉ stack.map (·.1))

include fresh

theorem define (a : Address) : Laid values stack placed (s.define ref a) := by
  refine ⟨laid.stackCounter, ?_, laid.globalCounter, laid.global, laid.known, laid.sized, laid.nodup⟩
  intro before other bits after split
  have different : other ≠ ref := by
    intro same
    apply fresh
    rw [split, ← same]
    simp
  rw [State.define_of_ne _ _ _ different]
  exact laid.alloca before other bits after split

theorem allocate (bits : Nat) : Laid values (stack ++ [(ref, bits)]) placed
      { s.define ref (intVal s.stackCounter) with stackCounter := (s.stackCounter + bits) % 2 ^ 32 } := by
  have kept := laid.define fresh (intVal s.stackCounter)
  refine ⟨?_, ?_, laid.globalCounter, laid.global, laid.known, laid.sized, laid.nodup⟩
  · change (s.stackCounter + bits) % 2 ^ 32 = _
    rw [laid.stackCounter, stackBits_append, stackBits_cons, stackBits_nil, Nat.mod_add_mod,
      Nat.add_assoc, Nat.add_zero]
  · intro before other bits' after split
    rcases snoc_eq_append_cons.mp split with ⟨whole, same, _⟩ | ⟨middle, _, earlier⟩
    · cases same
      rw [whole, ← laid.stackCounter]
      exact State.define_self ..
    · exact kept.alloca before other bits' middle earlier

theorem bindDef {I : InstRef} (found : bindDef values aeg I ref s = some t) :
    Laid values (stack ++ ((match (aeg.deref I).kind with
      | .alloca _ => if values.isPointerTy (.inst I) then values.allocationSizeInBits I else none
      | _ => none).map (ref, ·)).toList) placed t := by
  unfold Addresses.bindDef at found
  by_cases pointer : values.isPointerTy (.inst I) = true
  · rw [if_pos pointer] at found
    cases kind : (aeg.deref I).kind with
    | alloca integer =>
      simp only [kind] at found
      obtain ⟨bits, size, rfl⟩ := Option.map_eq_some_iff.mp found
      simpa [pointer, size] using laid.allocate fresh bits
    | getelementptr =>
      simp only [kind] at found
      obtain ⟨base, _, found⟩ := Option.bind_eq_some_iff.mp found
      obtain ⟨offset, _, found⟩ := Option.bind_eq_some_iff.mp found
      rw [Option.map_none, Option.toList_none, List.append_nil]
      cases offset with
      | some offset =>
        cases found
        exact laid.define fresh _
      | none =>
        obtain ⟨lo, _, found⟩ := Option.bind_eq_some_iff.mp found
        obtain ⟨hi, _, found⟩ := Option.bind_eq_some_iff.mp found
        split at found
        · cases found
          exact laid.makeInt.define fresh _
        · cases found
          exact laid.makeInt.define fresh _
    | _ =>
      simp only [kind, Option.some.injEq] at found
      rw [← found]
      simpa using laid.makeInt.define fresh _
  · rw [if_neg pointer] at found
    cases found
    split
    · simpa [pointer] using laid
    · simpa using laid

theorem bindNode (found : bindNode order values aeg s ref = some t) :
    Laid values (stack ++ ((allocaBits values aeg ref).map (ref, ·)).toList)
      ((globalRefs values aeg ref).foldl addNew placed) t := by
  obtain ⟨node, listed, found⟩ := Option.bind_eq_some_iff.mp found
  rw [allocaBits, globalRefs, listed]
  cases variant : pointers values aeg node.v with
  | none =>
    simp only [variant, Option.some.injEq] at found
    simpa [variant, ← found] using laid
  | some pair =>
    simp only [variant] at found
    obtain ⟨r, referred, defined⟩ := Option.bind_eq_some_iff.mp found
    simpa [variant] using (laid.bindRefs referred).bindDef fresh defined

end

theorem run {refs : List NodeRef} (nodup : refs.Nodup) (fresh : ∀ ref ∈ refs, ref ∉ stack.map (·.1))
    (found : refs.foldlM (Addresses.bindNode order values aeg) s = some t) :
    Laid values (stack ++ refs.filterMap fun ref => (allocaBits values aeg ref).map (ref, ·))
      ((refs.flatMap (globalRefs values aeg)).foldl addNew placed) t := by
  induction refs generalizing s stack placed with
  | nil =>
    cases found
    simpa using laid
  | cons ref refs ih =>
    obtain ⟨r, first, rest⟩ := foldlM_cons_eq_some.mp found
    have later := laid.bindNode (fresh ref List.mem_cons_self) first
    have fresh' : ∀ other ∈ refs,
        other ∉ (stack ++ ((allocaBits values aeg ref).map (ref, ·)).toList).map (·.1) := by
      intro other member
      have old := fresh other (List.mem_cons_of_mem ref member)
      have different : other ≠ ref := fun same => (List.nodup_cons.mp nodup).1 (same ▸ member)
      cases allocaBits values aeg ref <;> simp_all
    have done := ih later (List.nodup_cons.mp nodup).2 fresh' rest
    rw [List.flatMap_cons, List.foldl_append]
    cases here : allocaBits values aeg ref <;> simpa [here] using done

end Laid

end Laid

theorem constructAddrs_laid {order : Cfg.HashOrder} {values : Values} {aeg : Aeg} {t : State}
    (run : constructAddrs order values aeg = some t) :
    Laid values (allocas values aeg) (placedGlobals values aeg) t := by
  have laid := (Laid.initial values).run List.nodup_range (by simp) run
  rwa [List.nil_append] at laid

/-! The places -/

inductive Object where
  | alloca (ref : NodeRef)
  | global (C : Nat)
  deriving DecidableEq

def objectBits (values : Values) (aeg : Aeg) : Object → Option Nat
  | .alloca ref => allocaBits values aeg ref
  | .global C => if C ∈ placedGlobals values aeg then globalBits values C else none

def State.start (t : State) : Object → Option Address
  | .alloca ref => t.addrDef ref
  | .global C => t.globals.lookup C

def bytes (bits : Nat) : Nat := (bits + 7) / 8

def Covers (n : Int) (bits : Nat) (x : Int) : Prop := n ≤ x ∧ x < n + bytes bits

/-- Every object has a concrete address. No two of them share a byte, and none takes the byte
at the null address. -/
def NonOverlapping (values : Values) (aeg : Aeg) (t : State) : Prop :=
  ∀ o bits, objectBits values aeg o = some bits → ∃ n, t.start o = some (intVal n) ∧
    ¬ Covers n bits 0 ∧ ∀ o' bits' n', objectBits values aeg o' = some bits' →
      t.start o' = some (intVal n') → o ≠ o' → ∀ x, ¬ (Covers n bits x ∧ Covers n' bits' x)

/-- Neither counter leaves its type before the last object has its address. -/
structure NoWrap (values : Values) (aeg : Aeg) : Prop where
  stack : 1 + stackBits (allocas values aeg).dropLast < 2 ^ 32
  globals : 1 + globalBytes values (placedGlobals values aeg) ≤ 2 ^ 31

theorem intVal_injective {m n : Int} (same : intVal m = intVal n) : m = n :=
  congrFun same ⟨⟨fun _ => true, fun _ => true, fun _ => true, fun _ => true, fun _ _ => true⟩, fun _ => 0⟩

theorem split_two {A : Type} {l : List A} {a b : A} (left : a ∈ l) (right : b ∈ l) (different : a ≠ b) :
    (∃ x y z, l = (x ++ a :: y) ++ b :: z) ∨ ∃ x y z, l = (x ++ b :: y) ++ a :: z := by
  obtain ⟨x, z, split⟩ := List.append_of_mem left
  rw [split, List.mem_append, List.mem_cons] at right
  rcases right with before | same | after
  · obtain ⟨y, w, split'⟩ := List.append_of_mem before
    exact .inr ⟨y, w, z, by rw [split, split']⟩
  · exact absurd same.symm different
  · obtain ⟨y, w, split'⟩ := List.append_of_mem after
    exact .inl ⟨x, y, w, by rw [split, split', List.append_assoc, List.cons_append]⟩

section Geometry

variable {order : Cfg.HashOrder} {values : Values} {aeg : Aeg} {t : State}

variable {bits C bits' D : Nat} {ref : NodeRef} {p n' n : Int}

theorem globalBits_pos (size : globalBits values C = some bits) : 0 < bits := by
  unfold globalBits at size
  split at size
  · have positive := (Option.filter_eq_some_iff.mp size).2
    simp only [ne_eq, decide_not, Bool.not_eq_eq_eq_not, Bool.not_true, decide_eq_false_iff_not] at positive
    omega
  · cases size

theorem mem_allocas (size : allocaBits values aeg ref = some bits) :
    (ref, bits) ∈ allocas values aeg := by
  have listed : ref ∈ aeg.po.reversePostorder := by
    obtain ⟨node, found, _⟩ := Option.bind_eq_some_iff.mp size
    exact List.mem_range.mpr (List.getElem?_eq_some_iff.mp found).1
  exact List.mem_filterMap.mpr ⟨ref, listed, by rw [size, Option.map_some]⟩

section NoWrap

variable (laid : Laid values (allocas values aeg) (placedGlobals values aeg) t)
  (fits : NoWrap values aeg)

include laid fits

theorem alloca_start {before after : List (NodeRef × Nat)}
    (split : allocas values aeg = before ++ (ref, bits) :: after) :
    t.start (.alloca ref) = some (intVal (1 + stackBits before : Nat)) := by
  have bound := fits.stack
  rw [split, List.dropLast_append_of_ne_nil (by simp), stackBits_append] at bound
  have found := laid.alloca before ref bits after split
  rwa [Nat.mod_eq_of_lt (by omega)] at found

theorem global_start {before after : List Nat}
    (split : placedGlobals values aeg = before ++ C :: after) :
    t.start (.global C) = some (intVal (-1 - globalBytes values (before ++ [C]))) := by
  have bound := fits.globals
  have part : globalBytes values (placedGlobals values aeg) =
      globalBytes values (before ++ [C]) + globalBytes values after := by
    rw [← globalBytes_append, split, List.append_assoc, List.singleton_append]
  have found := laid.global before C after split
  rwa [Int.bmod_eq_of_le (by omega) (by omega)] at found

theorem allocas_apart {x y z : List (NodeRef × Nat)} {ref' : NodeRef}
    (split : allocas values aeg = (x ++ (ref, bits) :: y) ++ (ref', bits') :: z)
    (first : t.start (.alloca ref) = some (intVal n))
    (second : t.start (.alloca ref') = some (intVal n')) :
    ¬ (Covers n bits p ∧ Covers n' bits' p) := by
  have earlier : allocas values aeg = x ++ (ref, bits) :: (y ++ (ref', bits') :: z) := by
    rw [split, List.append_assoc, List.cons_append]
  rw [alloca_start laid fits earlier, Option.some.injEq] at first
  rw [alloca_start laid fits split, Option.some.injEq, stackBits_append, stackBits_cons] at second
  have low := intVal_injective first
  have high := intVal_injective second
  unfold Covers bytes
  omega

/-- Of two globals the one placed later ends where the earlier one starts, or before, if its
size is a number of bytes. -/
theorem globals_apart {x y z : List Nat}
    (split : placedGlobals values aeg = (x ++ C :: y) ++ D :: z)
    (size : globalBits values C = some bits) (size' : globalBits values D = some bits')
    (aligned : 8 ∣ bits') (first : t.start (.global C) = some (intVal n))
    (second : t.start (.global D) = some (intVal n')) :
    ¬ (Covers n bits p ∧ Covers n' bits' p) := by
  have earlier : placedGlobals values aeg = x ++ C :: (y ++ D :: z) := by
    rw [split, List.append_assoc, List.cons_append]
  rw [global_start laid fits earlier, Option.some.injEq, globalBytes_append, globalBytes_cons, size] at first
  rw [global_start laid fits split, Option.some.injEq, globalBytes_append, globalBytes_append,
    globalBytes_cons, globalBytes_cons, size, size'] at second
  have high := intVal_injective first
  have low := intVal_injective second
  simp only [Option.getD_some] at low high
  obtain ⟨k, rfl⟩ := aligned
  unfold Covers bytes
  omega

omit fits laid in
theorem mem_of_objectBits (size : objectBits values aeg (.global C) = some bits) :
    C ∈ placedGlobals values aeg ∧ globalBits values C = some bits := by
  rw [objectBits] at size
  split at size
  · rename_i member
    exact ⟨member, size⟩
  · cases size

/-- An object starts above the null address or ends below it. -/
theorem start_spec {o : Object} (size : objectBits values aeg o = some bits) :
    ∃ n, t.start o = some (intVal n) ∧
      match o with
      | .alloca _ => 1 ≤ n
      | .global _ => n + bytes bits ≤ 0 := by
  cases o with
  | alloca ref =>
    obtain ⟨before, after, split⟩ := List.append_of_mem (mem_allocas size)
    exact ⟨_, alloca_start laid fits split, by omega⟩
  | global C =>
    obtain ⟨member, size⟩ := mem_of_objectBits size
    obtain ⟨before, after, split⟩ := List.append_of_mem member
    refine ⟨_, global_start laid fits split, ?_⟩
    change _ + (bytes bits : Int) ≤ 0
    rw [globalBytes_append, globalBytes_cons, size, Option.getD_some, bytes]
    omega

omit fits laid in
theorem head_ne_of_split (nodup : (placedGlobals values aeg).Nodup) {x y z : List Nat}
    (split : placedGlobals values aeg = (x ++ C :: y) ++ D :: z) :
    (placedGlobals values aeg).head? ≠ some D := by
  intro head
  rw [split, List.nodup_append] at nodup
  have different := nodup.2.2
  cases x with
  | nil =>
    rw [split] at head
    exact different C (by simp) D (by simp) (by simpa using head)
  | cons first x =>
    rw [split] at head
    exact different first (by simp) D (by simp) (by simpa using head)

/-- A global that is not the first and has no size in whole bytes takes the byte where the
global placed before it starts. -/
theorem overlap_of_ragged (member : D ∈ placedGlobals values aeg)
    (notFirst : (placedGlobals values aeg).head? ≠ some D) (size : globalBits values D = some bits)
    (ragged : ¬ 8 ∣ bits) : ¬ NonOverlapping values aeg t := by
  intro apart
  obtain ⟨before, after, split⟩ := List.append_of_mem member
  rcases List.eq_nil_or_concat' before with none | ⟨x, C, last⟩
  · rw [split, none] at notFirst
    simp at notFirst
  · subst last
    have split' : placedGlobals values aeg = x ++ C :: D :: after := by
      rw [split, List.append_assoc, List.singleton_append]
    have here : C ∈ placedGlobals values aeg := by simp [split']
    obtain ⟨bits', size'⟩ := Option.isSome_iff_exists.mp (laid.sized C here)
    have different : Object.global D ≠ .global C := by
      intro same
      have nodup := laid.nodup
      rw [split', Object.global.inj same, List.nodup_append] at nodup
      simp at nodup
    obtain ⟨n, start, _, disjoint⟩ := apart (.global D) bits (by rw [objectBits, if_pos member, size])
    have start' := global_start laid fits split'
    apply disjoint (.global C) bits' _ (by rw [objectBits, if_pos here, size']) start' different
      (-1 - globalBytes values (x ++ [C]))
    rw [global_start laid fits split, Option.some.injEq, globalBytes_append, globalBytes_cons, size] at start
    have place := intVal_injective start
    have positive := globalBits_pos size'
    have none : globalBytes values [] = 0 := rfl
    simp only [Option.getD_some] at place
    unfold Covers bytes
    omega

/-- Two objects do not share a byte: allocations lie above the null address and globals below
it, and within each kind one is placed after the other. -/
theorem apart_of_aligned
    (aligned : ∀ C ∈ placedGlobals values aeg, (placedGlobals values aeg).head? ≠ some C → ∀ bits,
      globalBits values C = some bits → 8 ∣ bits) {o o' : Object}
    (size : objectBits values aeg o = some bits) (size' : objectBits values aeg o' = some bits')
    (start : t.start o = some (intVal n)) (start' : t.start o' = some (intVal n'))
    (different : o ≠ o') : ¬ (Covers n bits p ∧ Covers n' bits' p) := by
  intro shared
  obtain ⟨m, known, side⟩ := start_spec laid fits size
  obtain ⟨m', known', side'⟩ := start_spec laid fits size'
  obtain rfl : n = m := intVal_injective (Option.some.inj (start.symm.trans known))
  obtain rfl : n' = m' := intVal_injective (Option.some.inj (start'.symm.trans known'))
  cases o with
  | alloca ref =>
    cases o' with
    | alloca ref' =>
      have pairs : (ref, bits) ≠ (ref', bits') :=
        fun same => different (by rw [(Prod.mk.inj same).1])
      rcases split_two (mem_allocas size) (mem_allocas size') pairs with ⟨x, y, z, split⟩ | ⟨x, y, z, split⟩
      · exact allocas_apart laid fits split start start' shared
      · exact allocas_apart laid fits split start' start shared.symm
    | global C =>
      unfold Covers at shared
      simp only at side side'
      omega
  | global C =>
    cases o' with
    | alloca ref =>
      unfold Covers at shared
      simp only at side side'
      omega
    | global D =>
      obtain ⟨member, size⟩ := mem_of_objectBits size
      obtain ⟨member', size'⟩ := mem_of_objectBits size'
      have pair : C ≠ D := fun same => different (by rw [same])
      rcases split_two member member' pair with ⟨x, y, z, split⟩ | ⟨x, y, z, split⟩
      · exact globals_apart laid fits split size size'
          (aligned D member' (head_ne_of_split laid.nodup split) bits' size') start start' shared
      · exact globals_apart laid fits split size' size
          (aligned C member (head_ne_of_split laid.nodup split) bits size) start' start shared.symm

end NoWrap

/-- Unless a counter wraps around, the objects lie apart exactly when every placed global but
the first has a size in whole bytes: its counter moves by the size rounded down. -/
theorem nonOverlapping_iff (run : constructAddrs order values aeg = some t) (fits : NoWrap values aeg) :
    NonOverlapping values aeg t ↔ ∀ C ∈ placedGlobals values aeg,
      (placedGlobals values aeg).head? ≠ some C → ∀ bits, globalBits values C = some bits → 8 ∣ bits := by
  have laid := constructAddrs_laid run
  constructor
  · intro apart C member notFirst bits size
    by_contra ragged
    exact overlap_of_ragged laid fits member notFirst size ragged apart
  · intro aligned o bits size
    obtain ⟨n, start, side⟩ := start_spec laid fits size
    refine ⟨n, start, ?_, ?_⟩
    · cases o <;> simp only at side <;> unfold Covers <;> omega
    · intro o' bits' n' size' start' different p
      exact apart_of_aligned laid fits aligned size size' start start' different

end Geometry

/-- A store of the address of one global to another one, and a function with two arrays on its
stack. -/
def twoGlobals : Aeg where
  po := .ofEdges [.makeEntry, ⟨.inst ⟨0, 0, 0⟩, some ⟨[0], []⟩, ∅⟩, .makeExit] [(0, 1), (1, 2)] 0 [2]
  deref _ := ⟨.store false, [.constant 0, .constant 1], [], [], true, false, false⟩
  leakageClass := .spectreV1
  specDepth := 0
  lsqSize := none

def twoArrays : Aeg where
  po := .ofEdges [.makeEntry, ⟨.inst ⟨0, 0, 0⟩, some ⟨[0], []⟩, ∅⟩,
    ⟨.inst ⟨0, 0, 1⟩, some ⟨[0], []⟩, ∅⟩, .makeExit] [(0, 1), (1, 2), (2, 3)] 0 [3]
  deref _ := ⟨.alloca false, [], [], [], false, true, false⟩
  leakageClass := .spectreV1
  specDepth := 0
  lsqSize := none

/-- Two globals of the given sizes; arrays of one bit less than the stack counter can count. -/
def sizedValues (bits bits' : Nat) : Values where
  type V := match V with
    | .constant _ => .pointer 0
    | .inst I => if I.index ≤ 1 then .pointer 0 else .int 1
    | _ => .int 1
  constant C := if C = 0 then .global (some bits) else .global (some bits')
  allocationSizeInBits _ := some (2 ^ 32 - 1)
  size := Offsets.lp64.sizeInBits
  pointee _ := .int 1

/-- Two flags of one bit share the byte below the null address; an array after one that fills
the stack counter starts at the null address. -/
theorem flags_overlap :
    (∃ t, constructAddrs .listed (sizedValues 1 1) twoGlobals = some t ∧
      (t.globals.lookup 0).map (fun addr => addr elementModel) = some (-1) ∧
      (t.globals.lookup 1).map (fun addr => addr elementModel) = some (-1) ∧
      ¬ NonOverlapping (sizedValues 1 1) twoGlobals t) ∧
    ((constructAddrs .listed (sizedValues 1 1) twoArrays).bind fun t =>
      (t.addrDef 2).map fun addr => addr elementModel) = some 0 := by
  have runs : (constructAddrs .listed (sizedValues 1 1) twoGlobals).isSome = true := by decide
  obtain ⟨t, run⟩ := Option.isSome_iff_exists.mp runs
  have places (C : Nat) (flag : C < 2) : ((constructAddrs .listed (sizedValues 1 1) twoGlobals).bind
      fun t => (t.globals.lookup C).map fun addr => addr elementModel) = some (-1) := by
    rcases (show C = 0 ∨ C = 1 by omega) with rfl | rfl <;> decide
  rw [run] at places
  refine ⟨⟨t, run, places 0 (by decide), places 1 (by decide), ?_⟩, by decide⟩
  have fits : NoWrap (sizedValues 1 1) twoGlobals := ⟨by decide, by decide⟩
  exact overlap_of_ragged (D := 1) (constructAddrs_laid run) fits (by decide) (by decide) rfl (by decide)

theorem nonOverlapping_flag_and_word :
    ∃ t, constructAddrs .listed (sizedValues 1 32) twoGlobals = some t ∧
      NoWrap (sizedValues 1 32) twoGlobals ∧ NonOverlapping (sizedValues 1 32) twoGlobals t := by
  have runs : (constructAddrs .listed (sizedValues 1 32) twoGlobals).isSome = true := by decide
  obtain ⟨t, run⟩ := Option.isSome_iff_exists.mp runs
  have fits : NoWrap (sizedValues 1 32) twoGlobals := ⟨by decide, by decide⟩
  refine ⟨t, run, fits, (nonOverlapping_iff run fits).mpr ?_⟩
  intro C member notFirst bits size
  have placed : placedGlobals (sizedValues 1 32) twoGlobals = [0, 1] := by decide
  rw [placed] at member notFirst
  have second : C = 1 := by
    simp at member notFirst
    omega
  rw [second] at size
  cases size
  decide

end Addresses

end Clou
