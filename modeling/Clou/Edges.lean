import Clou.Com
import Clou.Dependencies
import Clou.Leakage

/-! The edges of the event graph for syntactic dependencies through addresses and data. -/

namespace Clou

open Z3 Com Dependencies

structure Edge where
  kind : Leakage.EdgeKind
  existsCond : BoolExpr ComValuation
  constraints : BoolExpr ComValuation

structure Insertion where
  src : NodeRef
  dst : NodeRef
  edge : Edge

namespace Edges

section

variable (order : Cfg.HashOrder) (aeg : Aeg) (dependencies : NodeRefMap)

def mayAccess (ref : NodeRef) : Bool := mayRead aeg ref || mayWrite aeg ref

def reads (ref : NodeRef) : BoolExpr ComValuation := and (exec aeg ref) (read aeg ref)

def accesses (ref : NodeRef) : BoolExpr ComValuation :=
  and (exec aeg ref) (or (read aeg ref) (write aeg ref))

/-- The address operand of an instruction that accesses memory. -/
def memoryOperand (ref : NodeRef) : Option Value :=
  match aeg.po.variant ref with
  | some (.inst I) => if (kind aeg ref).isMemory then some (aeg.deref I).pointerOperand else none
  | some (.call _ arg) => some arg
  | _ => none

def getElementPtr (ref : NodeRef) : Option Inst :=
  match aeg.po.variant ref with
  | some (.inst I) => if (aeg.deref I).kind = .getelementptr then some (aeg.deref I) else none
  | _ => none

def storedValue (ref : NodeRef) : Option Value :=
  match aeg.po.variant ref with
  | some (.inst I) => if kind aeg ref = .store then some (aeg.deref I).valueOperand else none
  | _ => none

/-- The nodes that a value at a node depends on, as often as they are come upon. -/
def forEachDependency (ref : NodeRef) (V : Value) : Option (List NodeRef) :=
  match (aeg.po.nodes[ref]?).bind (·.refs.lookup V) with
  | none => some []
  | some refs =>
    collect (fun refRef => (dependencies.lookup refRef).map fun deps =>
      order.elements refRef (insert refRef deps)) (order.elements ref refs)

def forOperand (ref : NodeRef) : Option Value → Option (List NodeRef)
  | none => some []
  | some V => forEachDependency order aeg dependencies ref V

def dstAddr (dst : NodeRef) : Option Value := if mayAccess aeg dst then memoryOperand aeg dst else none

def addrEdge (src dst : NodeRef) : Edge :=
  ⟨.addr, and (reads aeg src) (accesses aeg dst), boolVal true⟩

def constructAddr : Option (List Insertion) :=
  collect (fun dst => (forOperand order aeg dependencies dst (dstAddr aeg dst)).map fun srcs =>
    (srcs.filter (mayRead aeg)).map fun src => ⟨src, dst, addrEdge aeg src dst⟩) aeg.nodeRange

/-- A load whose result is an index of an address computation, and an access to the address. -/
structure GepPath where
  src : NodeRef
  gep : NodeRef
  dst : NodeRef

def gepCond (path : GepPath) : BoolExpr ComValuation :=
  and (and (reads aeg path.src) (exec aeg path.gep)) (accesses aeg path.dst)

def gepIndices (gep : NodeRef) : List Value :=
  match getElementPtr aeg gep with
  | none => []
  | some gepI => gepI.operands.drop 1

def indexPaths (dst gep : NodeRef) : Option (List GepPath) :=
  collect (fun gepIdx => (forEachDependency order aeg dependencies gep gepIdx).map fun srcs =>
    (srcs.filter (mayRead aeg)).map fun src => ⟨src, gep, dst⟩) (gepIndices aeg gep)

def gepPaths : Option (List GepPath) :=
  collect (fun dst => (forOperand order aeg dependencies dst (dstAddr aeg dst)).bind
    (collect (indexPaths order aeg dependencies dst))) aeg.nodeRange

abbrev GepEdges := AList (fun _ : NodeRef × NodeRef => BoolExpr ComValuation)

def addGepPath (edges : GepEdges) (path : GepPath) : GepEdges :=
  edges.insert (path.src, path.dst)
    (or ((edges.lookup (path.src, path.dst)).getD (boolVal false)) (gepCond aeg path))

/-- One edge for each pair, whose condition is that of any path. -/
def gepEdges (paths : List GepPath) : List Insertion :=
  (paths.foldl (addGepPath aeg) ∅).entries.map fun entry =>
    ⟨entry.1.1, entry.1.2, .addrGep, entry.2, boolVal true⟩

def constructAddrGep : Option (List Insertion) :=
  (gepPaths order aeg dependencies).map (gepEdges aeg)

def storeValue (store : NodeRef) : Option Value :=
  if store ≠ aeg.entry ∧ mayWrite aeg store then storedValue aeg store else none

def dataEdge (src store : NodeRef) : Edge :=
  ⟨.data, and (and (exec aeg store) (write aeg store)) (reads aeg src), boolVal true⟩

def constructData : Option (List Insertion) :=
  collect (fun store => (forOperand order aeg dependencies store (storeValue aeg store)).map fun srcs =>
    (srcs.filter (mayRead aeg)).map fun src => ⟨src, store, dataEdge aeg src store⟩) aeg.nodeRange

end

/-! Dependencies of a value -/

section

variable (order : Cfg.HashOrder) {aeg : Aeg} {dependencies : NodeRefMap}

def RefersAt (aeg : Aeg) (ref : NodeRef) (V : Value) (m : NodeRef) : Prop :=
  ∃ node, aeg.po.nodes[ref]? = some node ∧ m ∈ SetMap.get node.refs V

def DependsAt (aeg : Aeg) (ref : NodeRef) (V : Value) (m : NodeRef) : Prop :=
  ∃ r, RefersAt aeg ref V r ∧ Relation.ReflTransGen (Refers aeg.po) r m

theorem RefersAt.refers {ref m : NodeRef} {V : Value} (refers : RefersAt aeg ref V m) :
    Refers aeg.po ref m := by
  rcases refers with ⟨node, found, member⟩
  exact ⟨node, found, V, member⟩

theorem forEachDependency_spec (topological : aeg.po.Topological) (back : RefersBack aeg.po)
    (known : Exact aeg.po (· < aeg.po.size) dependencies) (ref : NodeRef) (V : Value) :
    ∃ deps, forEachDependency order aeg dependencies ref V = some deps ∧
      ∀ m, m ∈ deps ↔ DependsAt aeg ref V m := by
  unfold forEachDependency
  split
  · rename_i absent
    refine ⟨[], rfl, fun m => iff_of_false List.not_mem_nil ?_⟩
    rintro ⟨r, ⟨node, found, member⟩, -⟩
    rw [found, Option.bind_some] at absent
    rw [SetMap.get, absent] at member
    exact Finset.notMem_empty r member
  · rename_i refs present
    rcases Option.bind_eq_some_iff.mp present with ⟨node, found, listed⟩
    have refers (r : NodeRef) : r ∈ order.elements ref refs ↔ RefersAt aeg ref V r := by
      rw [Cfg.HashOrder.mem_elements, RefersAt, found]
      simp [SetMap.get, listed]
    have bound (r : NodeRef) (refers : RefersAt aeg ref V r) : r < aeg.po.size := by
      rcases Relation.TransGen.tail'_iff.mp (back refers.refers) with ⟨s, path, edge⟩
      exact Nat.lt_of_le_of_lt (le_of_reaches topological path)
        (Nat.lt_trans (topological.increasing edge) (topological.valid edge))
    have entry (r : NodeRef) (member : r ∈ order.elements ref refs) :
        ∃ deps, dependencies.lookup r = some deps ∧
          ∀ m, m ∈ deps ↔ Relation.TransGen (Refers aeg.po) r m := by
      have valid := bound r ((refers r).mp member)
      rcases FiniteMap.exists_of_mem ((known.mem r).mpr valid) with ⟨deps, lookup⟩
      refine ⟨deps, lookup, fun m => ?_⟩
      rw [← known.closure valid, SetMap.get, lookup, Option.getD_some]
    have every : ∀ r ∈ order.elements ref refs, ∃ part, (dependencies.lookup r).map (fun deps =>
        order.elements r (insert r deps)) = some part := by
      intro r member
      rcases entry r member with ⟨deps, lookup, -⟩
      exact ⟨_, by rw [lookup, Option.map_some]⟩
    rcases exists_collect every with ⟨result, collected⟩
    refine ⟨result, collected, fun m => ?_⟩
    rw [mem_collect collected, DependsAt]
    apply exists_congr
    intro r
    rw [refers]
    apply and_congr_right
    intro here
    rcases entry r ((refers r).mpr here) with ⟨deps, lookup, closure⟩
    rw [lookup, Option.map_some, Relation.reflTransGen_iff_eq_or_transGen, ← closure]
    simp [Cfg.HashOrder.mem_elements]

variable (topological : aeg.po.Topological) (back : RefersBack aeg.po)
  (known : Exact aeg.po (· < aeg.po.size) dependencies)

include topological back known

theorem forOperand_spec (ref : NodeRef) (operand : Option Value) :
    ∃ deps, forOperand order aeg dependencies ref operand = some deps ∧
      ∀ m, m ∈ deps ↔ ∃ V, operand = some V ∧ DependsAt aeg ref V m := by
  cases operand with
  | none => exact ⟨[], rfl, fun m => by simp⟩
  | some V =>
    rcases forEachDependency_spec order topological back known ref V with ⟨deps, found, member⟩
    exact ⟨deps, found, fun m => by simp [member]⟩

/-- There is an edge wherever the address of an access depends on a load. -/
theorem constructAddr_spec : ∃ edges, constructAddr order aeg dependencies = some edges ∧
    ∀ src dst V, dst < aeg.size → dstAddr aeg dst = some V → DependsAt aeg dst V src →
      mayRead aeg src = true → ⟨src, dst, addrEdge aeg src dst⟩ ∈ edges := by
  have deps := forOperand_spec order topological back known
  have every : ∀ dst ∈ aeg.nodeRange, ∃ part,
      (forOperand order aeg dependencies dst (dstAddr aeg dst)).map (fun srcs =>
        (srcs.filter (mayRead aeg)).map fun src => Insertion.mk src dst (addrEdge aeg src dst)) =
        some part := by
    intro dst _
    rcases deps dst (dstAddr aeg dst) with ⟨srcs, found, -⟩
    exact ⟨_, by rw [found, Option.map_some]⟩
  rcases exists_collect every with ⟨edges, collected⟩
  refine ⟨edges, collected, fun src dst V bound operand depends load => ?_⟩
  rcases deps dst (dstAddr aeg dst) with ⟨srcs, found, member⟩
  have listed : src ∈ srcs.filter (mayRead aeg) :=
    List.mem_filter.mpr ⟨(member src).mpr ⟨V, operand, depends⟩, load⟩
  exact (mem_collect collected).mpr ⟨dst, List.mem_range.mpr bound, _, by rw [found, Option.map_some],
    List.mem_map.mpr ⟨src, listed, rfl⟩⟩

/-- On a path, the address of the access depends on the address computation, and one of its indices on
the load. -/
theorem gepPaths_spec : ∃ paths, gepPaths order aeg dependencies = some paths ∧
    ∀ path ∈ paths, path.dst < aeg.size ∧ mayRead aeg path.src = true ∧
      (∃ V, dstAddr aeg path.dst = some V ∧ DependsAt aeg path.dst V path.gep) ∧
      ∃ idx, DependsAt aeg path.gep idx path.src := by
  have deps := forOperand_spec order topological back known
  have indices (dst gep : NodeRef) : ∃ paths, indexPaths order aeg dependencies dst gep = some paths := by
    apply exists_collect
    intro idx _
    rcases forEachDependency_spec order topological back known gep idx with ⟨srcs, found, -⟩
    exact ⟨_, by rw [found, Option.map_some]⟩
  have every : ∀ dst ∈ aeg.nodeRange, ∃ part,
      (forOperand order aeg dependencies dst (dstAddr aeg dst)).bind
        (collect (indexPaths order aeg dependencies dst)) = some part := by
    intro dst _
    rcases deps dst (dstAddr aeg dst) with ⟨geps, found, -⟩
    rw [found, Option.bind_some]
    exact exists_collect fun gep _ => indices dst gep
  rcases exists_collect every with ⟨paths, collected⟩
  refine ⟨paths, collected, fun path listed => ?_⟩
  rcases (mem_collect collected).mp listed with ⟨dst, bound, _, ofDst, listed⟩
  rcases Option.bind_eq_some_iff.mp ofDst with ⟨geps, found, ofGeps⟩
  rcases (mem_collect ofGeps).mp listed with ⟨gep, member, _, ofGep, listed⟩
  rcases (mem_collect ofGep).mp listed with ⟨idx, -, _, ofIdx, listed⟩
  rcases Option.map_eq_some_iff.mp ofIdx with ⟨srcs, found', rfl⟩
  rcases List.mem_map.mp listed with ⟨src, filtered, rfl⟩
  rcases List.mem_filter.mp filtered with ⟨source, load⟩
  refine ⟨List.mem_range.mp bound, load, ?_, idx, ?_⟩
  · rcases deps dst (dstAddr aeg dst) with ⟨geps', same, depends⟩
    cases found.symm.trans same
    exact (depends gep).mp member
  · rcases forEachDependency_spec order topological back known gep idx with ⟨srcs', same, depends⟩
    cases found'.symm.trans same
    exact (depends src).mp source

end

section

variable {order : Cfg.HashOrder} {aeg : Aeg} {dependencies : NodeRefMap}

theorem DependsAt.trans {ref gep src : NodeRef} {V idx : Value} (address : DependsAt aeg ref V gep)
    (index : DependsAt aeg gep idx src) : DependsAt aeg ref V src := by
  rcases address with ⟨r, refers, path⟩
  rcases index with ⟨s, refers', path'⟩
  exact ⟨r, refers, (path.tail refers'.refers).trans path'⟩

variable {paths : List GepPath} {pair : NodeRef × NodeRef}

theorem mem_foldl_addGepPath {edges : GepEdges} : pair ∈ paths.foldl (addGepPath aeg) edges ↔
      pair ∈ edges ∨ ∃ path ∈ paths, pair = (path.src, path.dst) := by
  induction paths generalizing edges with
  | nil => simp
  | cons path paths ih =>
    rw [List.foldl_cons, ih, addGepPath, AList.mem_insert, List.exists_mem_cons_iff, or_comm (b := _ ∈ _),
      or_assoc]

theorem eval_foldl_addGepPath {edges : GepEdges} {v : ComValuation} :
    (((paths.foldl (addGepPath aeg) edges).lookup pair).getD (boolVal false)).eval v = true ↔
      ((edges.lookup pair).getD (boolVal false)).eval v = true ∨
        ∃ path ∈ paths, pair = (path.src, path.dst) ∧ (gepCond aeg path).eval v = true := by
  induction paths generalizing edges with
  | nil => simp
  | cons path paths ih =>
    rw [List.foldl_cons, ih, addGepPath, FiniteMap.lookup_insert, List.exists_mem_cons_iff, ← or_assoc]
    apply or_congr_left
    split
    · rename_i same
      rw [Option.getD_some, eval_or, Bool.or_eq_true, same, and_iff_right rfl]
    · rename_i different
      rw [or_iff_left fun both => different both.1]

theorem mem_gepEdges {e : Insertion} (member : e ∈ gepEdges aeg paths) :
    e.edge.kind = .addrGep ∧ (∃ path ∈ paths, e.src = path.src ∧ e.dst = path.dst) ∧
      ∀ v, e.edge.existsCond.eval v = true →
        ∃ path ∈ paths, e.src = path.src ∧ e.dst = path.dst ∧ (gepCond aeg path).eval v = true := by
  rcases List.mem_map.mp member with ⟨⟨pair, cond⟩, entry, rfl⟩
  have lookup : (paths.foldl (addGepPath aeg) ∅).lookup pair = some cond := AList.mem_lookup_iff.mpr entry
  refine ⟨rfl, ?_, fun v holds => ?_⟩
  · rcases mem_foldl_addGepPath.mp (FiniteMap.mem_of_lookup lookup) with absent | ⟨path, listed, same⟩
    · exact absurd absent (AList.notMem_empty pair)
    · exact ⟨path, listed, congrArg Prod.fst same, congrArg Prod.snd same⟩
  · have some' : (((paths.foldl (addGepPath aeg) ∅).lookup pair).getD (boolVal false)).eval v = true := by
      rw [lookup]
      exact holds
    rcases eval_foldl_addGepPath.mp some' with never | ⟨path, listed, same, holds'⟩
    · cases never
    · exact ⟨path, listed, congrArg Prod.fst same, congrArg Prod.snd same, holds'⟩

theorem gepCond_implies {path : GepPath} {v : ComValuation} (holds : (gepCond aeg path).eval v = true) :
    (addrEdge aeg path.src path.dst).existsCond.eval v = true := by
  change (((reads aeg path.src).eval v && (exec aeg path.gep).eval v) &&
    (accesses aeg path.dst).eval v) = true at holds
  change ((reads aeg path.src).eval v && (accesses aeg path.dst).eval v) = true
  rw [Bool.and_eq_true, Bool.and_eq_true] at holds
  rw [Bool.and_eq_true]
  exact ⟨holds.1.1, holds.2⟩

def Linked (edges : List Insertion) (v : ComValuation) (src dst : NodeRef) : Prop :=
  ∃ e ∈ edges, e.src = src ∧ e.dst = dst ∧ e.edge.existsCond.eval v = true

/-- Each dependency through an index is one through an address, and so are their chains. -/
theorem addrGep_subset_addr (order : Cfg.HashOrder) (topological : aeg.po.Topological)
    (back : RefersBack aeg.po) :
    ∃ dependencies addr addrGep, constructDependencies2 order aeg.po = some dependencies ∧
      constructAddr order aeg dependencies = some addr ∧
      constructAddrGep order aeg dependencies = some addrGep ∧
      (∀ e ∈ addrGep, e.edge.kind = .addrGep ∧ ∃ e' ∈ addr, e'.edge.kind = .addr ∧ e'.src = e.src ∧
        e'.dst = e.dst ∧ ∀ v, e.edge.existsCond.eval v = true → e'.edge.existsCond.eval v = true) ∧
      ∀ v src dst, Relation.TransGen (Linked addrGep v) src dst →
        Relation.TransGen (Linked addr v) src dst := by
  rcases constructDependencies2_exact topological back with ⟨dependencies, computed, known⟩
  rcases constructAddr_spec order topological back known with ⟨addr, built, listed⟩
  rcases gepPaths_spec order topological back known with ⟨paths, found, every⟩
  have covered : ∀ e ∈ gepEdges aeg paths, e.edge.kind = .addrGep ∧ ∃ e' ∈ addr, e'.edge.kind = .addr ∧
      e'.src = e.src ∧ e'.dst = e.dst ∧
      ∀ v, e.edge.existsCond.eval v = true → e'.edge.existsCond.eval v = true := by
    intro e member
    rcases mem_gepEdges member with ⟨kind, ⟨path, through, source, target⟩, holding⟩
    rcases every path through with ⟨bound, load, ⟨V, operand, address⟩, idx, index⟩
    refine ⟨kind, _, listed path.src path.dst V bound operand (address.trans index) load, rfl,
      source.symm, target.symm, fun v holds => ?_⟩
    rcases holding v holds with ⟨other, -, source', target', holds'⟩
    change (addrEdge aeg path.src path.dst).existsCond.eval v = true
    rw [← source, ← target, source', target']
    exact gepCond_implies holds'
  refine ⟨dependencies, addr, gepEdges aeg paths, computed, built,
    by rw [constructAddrGep, found, Option.map_some], covered, fun v src dst chain => ?_⟩
  refine Relation.TransGen.mono (fun a b link => ?_) src dst chain
  rcases link with ⟨e, member, source, target, holds⟩
  rcases (covered e member).2 with ⟨e', member', -, source', target', implied⟩
  exact ⟨e', member', source'.trans source, target'.trans target, implied v holds⟩

end

def indexed : Aeg where
  po := chained
  deref I :=
    if I.index = 1 then
      ⟨.getelementptr, [.argument 0 0, .inst ⟨0, 0, 0⟩], [], [], false, true, false⟩
    else ⟨.load, [if I.index = 0 then .argument 0 1 else .inst ⟨0, 0, 1⟩], [], [], false, false, true⟩
  leakageClass := .spectreV1
  specDepth := 2
  lsqSize := none

theorem indexed_addrGep : ∃ dependencies addr addrGep,
    constructDependencies2 .listed indexed.po = some dependencies ∧
    constructAddr .listed indexed dependencies = some addr ∧
    constructAddrGep .listed indexed dependencies = some addrGep ∧
    (∀ e ∈ addrGep, e.edge.kind = .addrGep ∧ ∃ e' ∈ addr, e'.edge.kind = .addr ∧ e'.src = e.src ∧
      e'.dst = e.dst ∧ ∀ v, e.edge.existsCond.eval v = true → e'.edge.existsCond.eval v = true) ∧
    ∀ v src dst, Relation.TransGen (Linked addrGep v) src dst → Relation.TransGen (Linked addr v) src dst :=
  addrGep_subset_addr .listed (Cfg.topological_ofEdges (by decide) (by decide)) chained_refersBack

example : ((constructDependencies2 .listed indexed.po).bind (constructAddrGep .listed indexed)).map
    (·.map fun e => (e.src, e.dst)) = some [(1, 3)] := by decide

end Edges

end Clou
