import Clou.Addresses
import Clou.History

/-! Pointers with several definitions. Their address is a chain of conditionals over the defining
nodes, in the order in which a hash set lists them. -/

namespace Clou

namespace Addresses

open Z3 History

section

variable {aeg : Aeg} {s : State} {acc a : Address} {defs : List NodeRef}

/-- Where a definition executes, the chain has the address of the last one that does, in the
order of the list. -/
theorem chooseAddress_last (chosen : chooseAddress aeg s defs acc = some a) :
    (∀ d ∈ defs, ∃ addr, s.addrDef d = some addr) ∧
      ∀ v before d after addr, defs = before ++ d :: after → (exec aeg d).eval v = true →
        (∀ f ∈ after, ¬ (exec aeg f).eval v = true) → s.addrDef d = some addr → a v = addr v := by
  induction defs using List.reverseRecOn generalizing a with
  | nil => exact ⟨by simp, by simp⟩
  | append_singleton defs last ih =>
    obtain ⟨earlier, folded, stepped⟩ := foldlM_snoc_eq_some.mp chosen
    obtain ⟨lastAddr, defined, rfl⟩ := Option.map_eq_some_iff.mp stepped
    obtain ⟨all, value⟩ := ih folded
    constructor
    · intro d member
      rcases List.mem_append.mp member with old | new
      · exact all d old
      · exact ⟨lastAddr, by rw [List.mem_singleton.mp new, defined]⟩
    · intro v before d after addr split executed rest known
      rcases snoc_eq_append_cons.mp split with ⟨_, same, _⟩ | ⟨middle, tail, inside⟩
      · rw [same, defined, Option.some.injEq] at known
        rw [← known]
        exact if_pos (same ▸ executed)
      · have idle : ¬ (exec aeg last).eval v = true := rest last (by rw [tail]; simp)
        calc
          ite (exec aeg last) lastAddr earlier v = earlier v := if_neg idle
          _ = addr v := value v before d middle addr inside executed
            (fun f member => rest f (by rw [tail]; exact List.mem_append_left _ member)) known

theorem definedAddress_chain {t : State} (several : 2 ≤ defs.length)
    (found : definedAddress aeg defs s = some (a, t)) :
    ∃ acc, chooseAddress aeg s defs acc = some a := by
  unfold definedAddress at found
  split at found
  · simp at several
  · simp at several
  · obtain ⟨first, _, chosen⟩ := Option.bind_eq_some_iff.mp found
    obtain ⟨addr, folded, same⟩ := Option.map_eq_some_iff.mp chosen
    cases same
    exact ⟨first, folded⟩

end

section

variable {order : Cfg.HashOrder} {values : Values} {aeg : Aeg} {node : Cfg.Node} {ref : NodeRef}
  {V : Value} {s t : State} {a : Address}

theorem bindRef_keeps {W : Value} (found : bindRef order values aeg node ref s W = some t)
    (bounded : Bounded s) : t.addrDef = s.addrDef ∧
      (t.addrRefs ref).lookup V = ((s.addrRefs ref).lookup V).or
        (if V = W then (refAddress order values aeg node ref W s).map (·.1) else none) := by
  obtain ⟨⟨e, r⟩, address, rfl⟩ := Option.map_eq_some_iff.mp found
  have same : SameNodes s r := by
    unfold refAddress at address
    split at address
    · exact (freeAddress_spec bounded address).2.2
    · exact (definedAddress_spec bounded address).2.2
  refine ⟨same.2, ?_⟩
  rw [State.refer_self, FiniteMap.lookup_emplace, same.1, address, Option.map_some]

variable {Vs : List Value}

theorem bindRefs_keeps (found : Vs.foldlM (bindRef order values aeg node ref) s = some t)
    (bounded : Bounded s) : t.addrDef = s.addrDef ∧
      ∀ a, (s.addrRefs ref).lookup V = some a → (t.addrRefs ref).lookup V = some a := by
  induction Vs generalizing s with
  | nil =>
    cases found
    exact ⟨rfl, fun _ => id⟩
  | cons W Vs ih =>
    obtain ⟨r, first, rest⟩ := foldlM_cons_eq_some.mp found
    obtain ⟨defs, bound⟩ := bindRef_keeps (V := V) first bounded
    obtain ⟨defs', kept⟩ := ih rest (bindRef_spec bounded first).1
    refine ⟨defs'.trans defs, fun a known => kept a ?_⟩
    rw [bound, known, Option.some_or]

/-- A pointer of a node is bound to the address that is computed at the first of its uses. -/
theorem bindRefs_lookup (member : V ∈ Vs)
    (found : Vs.foldlM (bindRef order values aeg node ref) s = some t) (bounded : Bounded s)
    (unbound : (s.addrRefs ref).lookup V = none) :
    ∃ r r' a, r.addrDef = s.addrDef ∧ refAddress order values aeg node ref V r = some (a, r') ∧
      (t.addrRefs ref).lookup V = some a := by
  induction Vs generalizing s with
  | nil => simp at member
  | cons W Vs ih =>
    obtain ⟨r, first, rest⟩ := foldlM_cons_eq_some.mp found
    have bounded' := (bindRef_spec bounded first).1
    obtain ⟨defs, bound⟩ := bindRef_keeps (V := V) first bounded
    rw [unbound, Option.none_or] at bound
    by_cases here : V = W
    · subst here
      obtain ⟨⟨a, r'⟩, address, _⟩ := Option.map_eq_some_iff.mp first
      rw [if_pos rfl, address, Option.map_some] at bound
      exact ⟨s, r', a, rfl, address, (bindRefs_keeps rest bounded').2 a bound⟩
    · rw [if_neg here] at bound
      obtain ⟨q, q', a, same, address, known⟩ :=
        ih ((List.mem_cons.mp member).resolve_left here) rest bounded' bound
      exact ⟨q, q', a, same.trans defs, address, known⟩

theorem bindDef_refs {I : InstRef} (found : bindDef values aeg I ref s = some t) :
    t.addrRefs = s.addrRefs := by
  unfold bindDef at found
  split at found
  · split at found
    · obtain ⟨bits, _, rfl⟩ := Option.map_eq_some_iff.mp found
      rfl
    · obtain ⟨base, _, found⟩ := Option.bind_eq_some_iff.mp found
      obtain ⟨offset, _, found⟩ := Option.bind_eq_some_iff.mp found
      cases offset with
      | some offset =>
        cases found
        rfl
      | none =>
        obtain ⟨lo, _, found⟩ := Option.bind_eq_some_iff.mp found
        obtain ⟨hi, _, found⟩ := Option.bind_eq_some_iff.mp found
        split at found <;> cases found <;> rfl
    · cases found
      rfl
  · cases found
    rfl

theorem run_bounded {refs : List NodeRef} (bounded : Bounded s)
    (run : refs.foldlM (bindNode order values aeg) s = some t) : Bounded t :=
  foldlM_invariant (fun _ _ bounded stepped => (bindNode_spec bounded stepped).1.1) bounded run

/-- What the pass leaves for a pointer of a node: an address computed from those of the nodes
before it, which stay as they are. -/
theorem constructAddrs_ref (run : constructAddrs order values aeg = some t)
    (listed : aeg.po.nodes[ref]? = some node) {I : InstRef}
    (regular : pointers values aeg node.v = some (I, Vs)) (member : V ∈ Vs) :
    ∃ r r' a, refAddress order values aeg node ref V r = some (a, r') ∧
      (t.addrRefs ref).lookup V = some a ∧ ∀ d addr, r.addrDef d = some addr → t.addrDef d = some addr := by
  have valid : ref ∈ aeg.po.reversePostorder :=
    List.mem_range.mpr (List.getElem?_eq_some_iff.mp listed).1
  obtain ⟨before, after, split⟩ := List.append_of_mem valid
  have nodup : (before ++ ref :: after).Nodup := split ▸ List.nodup_range
  rw [constructAddrs, split, foldlM_append_eq_some] at run
  obtain ⟨s, first, run⟩ := run
  obtain ⟨q, here, rest⟩ := foldlM_cons_eq_some.mp run
  have nodup_before := (List.nodup_append.mp nodup).1
  have nodup_after := (List.nodup_cons.mp (List.nodup_append.mp nodup).2.1)
  have apart {d : NodeRef} (earlier : d ∈ before) : d ≠ ref ∧ d ∉ after := by
    have different := (List.nodup_append.mp nodup).2.2 d earlier
    exact ⟨different ref List.mem_cons_self, fun later => different d (List.mem_cons_of_mem ref later) rfl⟩
  have fresh : ref ∉ before := fun earlier => (apart earlier).1 rfl
  have bounded := run_bounded .initial first
  have untouched := (run_spec nodup_before .initial first).1
  obtain ⟨⟨bounded', elsewhere⟩, _⟩ := bindNode_spec bounded here
  have later := (run_spec nodup_after.2 bounded' rest).1
  -- the pointers of the node itself
  simp only [bindNode, listed, regular, Option.bind_eq_bind, Option.bind_some] at here
  obtain ⟨p, referred, defined⟩ := Option.bind_eq_some_iff.mp here
  have unbound : (s.addrRefs ref).lookup V = none := by
    rw [(untouched ref fresh).1]
    rfl
  obtain ⟨r, r', a, same, address, known⟩ := bindRefs_lookup member referred bounded unbound
  refine ⟨r, r', a, address, ?_, ?_⟩
  · rw [(later ref nodup_after.1).1, bindDef_refs defined, known]
  · intro d addr defined
    rw [same] at defined
    have earlier : d ∈ before := by
      by_contra absent
      rw [(untouched d absent).2] at defined
      cases defined
    rw [(later d (apart earlier).2).2, (elsewhere d (apart earlier).1).2, defined]

end

theorem length_elements (order : Cfg.HashOrder) (round : Nat) (defs : Finset NodeRef) :
    (order.elements round defs).length = defs.card := by
  have nodup : (order.elements round defs).Nodup :=
    (order.perm ..).nodup_iff.mpr (List.nodup_range.filter _)
  have same : (order.elements round defs).toFinset = defs := by
    ext n
    rw [List.mem_toFinset, order.mem_elements]
  rw [← List.toFinset_card_of_nodup nodup, same]

def LatestWins (aeg : Aeg) (t : State) (defs : Finset NodeRef) (a : Address) : Prop :=
  ∀ v, ∀ d ∈ defs, (exec aeg d).eval v = true → (∀ f ∈ defs, (exec aeg f).eval v = true → f ≤ d) →
    ∀ addr, t.addrDef d = some addr → a v = addr v

/-- Where the last definition executed in the listing is not the latest one, which the listing
has before it, the two have the same address. -/
def InversionsAgree (aeg : Aeg) (t : State) (defs : Finset NodeRef) (listing : List NodeRef) : Prop :=
  ∀ before d after, listing = before ++ d :: after → ∀ e ∈ before, d < e →
    ∀ v, (exec aeg d).eval v = true → (exec aeg e).eval v = true →
      (∀ f ∈ after, ¬ (exec aeg f).eval v = true) →
      (∀ f ∈ defs, (exec aeg f).eval v = true → f ≤ e) →
      ∀ addr addr', t.addrDef d = some addr → t.addrDef e = some addr' → addr v = addr' v

theorem inversionsAgree_of_sorted {aeg : Aeg} {t : State} {defs : Finset NodeRef} {listing : List NodeRef}
    (sorted : listing.Pairwise (· < ·)) : InversionsAgree aeg t defs listing := by
  intro before d after split e earlier inverted
  rw [split, List.pairwise_append] at sorted
  exact absurd (sorted.2.2 e earlier d List.mem_cons_self) (Nat.lt_asymm inverted)

section

variable {order : Cfg.HashOrder} {values : Values} {aeg : Aeg} {node : Cfg.Node} {ref : NodeRef}
  {V : Value} {t : State}

/-- The address of a pointer with several definitions is that of the latest one executed, in
every model, exactly when the inversions of the listing do not matter. -/
theorem latest_wins_iff (run : constructAddrs order values aeg = some t)
    (listed : aeg.po.nodes[ref]? = some node) {I : InstRef} {Vs : List Value}
    (regular : pointers values aeg node.v = some (I, Vs)) (member : V ∈ Vs) {defs : Finset NodeRef}
    (defined : node.refs.lookup V = some defs) (several : 2 ≤ defs.card) :
    ∃ a, (t.addrRefs ref).lookup V = some a ∧ (∀ d ∈ defs, ∃ addr, t.addrDef d = some addr) ∧
      (LatestWins aeg t defs a ↔ InversionsAgree aeg t defs (order.elements ref defs)) := by
  obtain ⟨r, r', a, address, known, kept⟩ := constructAddrs_ref run listed regular member
  simp only [refAddress, defined] at address
  obtain ⟨acc, chosen⟩ := definedAddress_chain (by rw [length_elements]; exact several) address
  obtain ⟨all, last⟩ := chooseAddress_last chosen
  have addresses : ∀ d ∈ defs, ∃ addr, r.addrDef d = some addr ∧ t.addrDef d = some addr := by
    intro d inside
    obtain ⟨addr, here⟩ := all d ((order.mem_elements ref defs d).mpr inside)
    exact ⟨addr, here, kept d addr here⟩
  -- the chain in terms of the addresses that the pass leaves
  have value {v : AddrValuation} {before after : List NodeRef} {d : NodeRef} {addr : Address}
      (split : order.elements ref defs = before ++ d :: after) (executed : (exec aeg d).eval v = true)
      (rest : ∀ f ∈ after, ¬ (exec aeg f).eval v = true) (here : t.addrDef d = some addr) :
      a v = addr v := by
    have inside : d ∈ defs := (order.mem_elements ref defs d).mp (by rw [split]; simp)
    obtain ⟨addr', before', after'⟩ := addresses d inside
    obtain rfl : addr = addr' := Option.some.inj (here.symm.trans after')
    exact last v before d after addr split executed rest before'
  refine ⟨a, known, fun d inside => ?_, ?_, ?_⟩
  · obtain ⟨addr, _, here⟩ := addresses d inside
    exact ⟨addr, here⟩
  · intro latest before d after split e earlier inverted v executed executed' rest greatest addr addr' here there
    have inside : e ∈ defs := (order.mem_elements ref defs e).mp (by rw [split]; simp [earlier])
    calc
      addr v = a v := (value split executed rest here).symm
      _ = addr' v := latest v e inside executed' greatest addr' there
  · intro agree v e inside executed greatest addr' there
    have listed : e ∈ order.elements ref defs := (order.mem_elements ref defs e).mpr inside
    have occurs : ∃ d ∈ order.elements ref defs, (exec aeg d).eval v = true := ⟨e, listed, executed⟩
    obtain ⟨before, d, after, split, executed', rest⟩ := since_self occurs
    have inside' : d ∈ defs := (order.mem_elements ref defs d).mp (by rw [split]; simp)
    obtain ⟨addr, _, here⟩ := addresses d inside'
    have chain := value split executed' rest here
    rw [split, List.mem_append, List.mem_cons] at listed
    rcases listed with earlier | same | later
    · by_cases equal : d = e
      · subst equal
        rwa [Option.some.inj (there.symm.trans here)]
      · have inverted : d < e := Nat.lt_of_le_of_ne (greatest d inside' executed') equal
        rw [chain]
        exact agree before d after split e earlier inverted v executed' executed rest greatest addr addr'
          here there
    · rw [same, here, Option.some.injEq] at there
      rw [chain, there]
    · exact absurd executed (rest e later)

end

/-- Two iterations of a loop with an array in its body, and a load from the array after the
loop, which either iteration may leave. -/
def leftLoop : Aeg where
  po := .ofEdges [.makeEntry, ⟨.inst ⟨0, 0, 0⟩, some ⟨[0], []⟩, ∅⟩, ⟨.inst ⟨0, 0, 0⟩, some ⟨[0], []⟩, ∅⟩,
    ⟨.inst ⟨0, 1, 0⟩, some ⟨[0], []⟩, SetMap.add ∅ (.inst ⟨0, 0, 0⟩) {1, 2}⟩, .makeExit]
    [(0, 1), (1, 2), (1, 3), (2, 3), (3, 4)] 0 [4]
  deref I :=
    if I.block = 0 then ⟨.alloca false, [], [], [], false, true, false⟩
    else ⟨.load, [.inst ⟨0, 0, 0⟩], [], [], false, false, true⟩
  leakageClass := .spectreV1
  specDepth := 0
  lsqSize := none

def leftLoopValues : Values where
  type V := match V with
    | .inst I => if I.block = 0 then .pointer 0 else .int 32
    | _ => .int 32
  constant _ := .int 0
  allocationSizeInBits _ := some 32
  size := Offsets.lp64.sizeInBits
  pointee _ := .int 32

def reversed : Cfg.HashOrder := ⟨fun _ set => set.reverse, fun _ set => set.reverse_perm⟩

/-- Both iterations execute, and the load reads the array of the first. -/
theorem leftLoop_reads_first :
    (exec leftLoop 1).eval elementModel = true ∧ (exec leftLoop 2).eval elementModel = true ∧
    ((constructAddrs reversed leftLoopValues leftLoop).bind fun t =>
      (t.addrDef 1).map fun addr => addr elementModel) = some 1 ∧
    ((constructAddrs reversed leftLoopValues leftLoop).bind fun t =>
      (t.addrDef 2).map fun addr => addr elementModel) = some 33 ∧
    ((constructAddrs reversed leftLoopValues leftLoop).bind fun t =>
      ((t.addrRefs 3).lookup (.inst ⟨0, 0, 0⟩)).map fun addr => addr elementModel) = some 1 := by
  decide

/-- Listed in their order, the definitions give the latest one. -/
theorem leftLoop_latest_wins :
    ∃ t a, constructAddrs .listed leftLoopValues leftLoop = some t ∧
      (t.addrRefs 3).lookup (.inst ⟨0, 0, 0⟩) = some a ∧ LatestWins leftLoop t {1, 2} a := by
  have runs : (constructAddrs .listed leftLoopValues leftLoop).isSome = true := by decide
  obtain ⟨t, run⟩ := Option.isSome_iff_exists.mp runs
  have listed : leftLoop.po.nodes[3]? = some ⟨.inst ⟨0, 1, 0⟩, some ⟨[0], []⟩,
    SetMap.add ∅ (.inst ⟨0, 0, 0⟩) {1, 2}⟩ := rfl
  obtain ⟨a, known, _, latest⟩ := latest_wins_iff (V := .inst ⟨0, 0, 0⟩) run listed rfl
    (List.mem_singleton.mpr rfl) rfl (by decide)
  exact ⟨t, a, run, known, latest.mpr (inversionsAgree_of_sorted (by decide))⟩

end Addresses

end Clou
