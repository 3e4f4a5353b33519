import Mathlib.Algebra.GroupWithZero.Nat
import Clou.Acyclic
import Clou.Binrel
import Clou.Ir
import Clou.SetMap

/-! Control-flow graphs during pre-processing: numbered nodes, program order, and the
translations of values across inlined calls. -/

namespace Clou

abbrev NodeRef := Nat

/-- The leakage classes a detector exists for. -/
inductive LeakageClass where
  | spectreV1
  | spectreV4
  deriving DecidableEq, Repr

namespace Cfg

abbrev FuncID := Nat
abbrev LoopID := Nat

/-- The function instance and the unrolled loop iteration a node belongs to. -/
structure ID where
  func : List FuncID
  loop : List LoopID
  deriving DecidableEq, Repr

inductive Variant where
  | entry
  | exit
  | inst (I : InstRef)
  | call (C : InstRef) (arg : Value)
  deriving DecidableEq, Repr

structure Node where
  v : Variant
  id : Option ID
  refs : SetMap Value NodeRef

def Node.makeEntry : Node := ⟨.entry, none, ∅⟩
def Node.makeExit : Node := ⟨.exit, none, ∅⟩

namespace Translations

structure Key where
  id : List FuncID
  V : Value
  deriving DecidableEq, Repr

structure Target where
  id : List FuncID
  Vs : List Value
  deriving DecidableEq, Repr

abbrev Map := AList (fun _ : Key => Target)

/-- The work stack of `lookup`: a key is expanded once, and one without an entry is
an answer. Every push but the first belongs to one value of one entry, which bounds
the number of pops. -/
def lookupLoop (map : Map) : Nat → List Key → List Key → List Key → List Key
  | 0, _, _, done => done
  | _ + 1, [], _, done => done
  | fuel + 1, key :: todo, seen, done =>
    if key ∈ seen then lookupLoop map fuel todo seen done
    else match map.lookup key with
      | none => lookupLoop map fuel todo (key :: seen) (done.insert key)
      | some value =>
        lookupLoop map fuel ((value.Vs.map (Key.mk value.id)).reverse ++ todo) (key :: seen) done

def pops (map : Map) : Nat := 1 + (map.entries.map (fun entry => entry.2.Vs.length)).sum

def lookup (map : Map) (key : Key) : List Key := lookupLoop map (pops map) [key] [] []

end Translations

end Cfg

structure Cfg where
  nodes : List Cfg.Node
  po : Binrel NodeRef
  entry : NodeRef
  exits : List NodeRef
  translations : Cfg.Translations.Map

namespace Cfg

def size (cfg : Cfg) : Nat := cfg.nodes.length

theorem length_le_size {cfg : Cfg} {refs : List NodeRef} (nodup : refs.Nodup)
    (valid : ∀ n ∈ refs, n < cfg.size) : refs.length ≤ cfg.size := by
  have within : refs ⊆ List.range cfg.size := fun n member => List.mem_range.mpr (valid n member)
  simpa using (nodup.subperm within).length_le

/-- Node numbers are handed out in a reverse postorder. -/
def reversePostorder (cfg : Cfg) : List NodeRef := List.range cfg.size

def variant (cfg : Cfg) (ref : NodeRef) : Option Variant := cfg.nodes[ref]?.map (·.v)

/-- Node numbers grow along program order, which therefore has no cycle, and both
sides of an edge are nodes. -/
structure Topological (cfg : Cfg) : Prop where
  increasing : ∀ {src dst}, cfg.po.Edge src dst → src < dst
  valid : ∀ {src dst}, cfg.po.Edge src dst → dst < cfg.size

/-- Program order is between nodes, and every node has its entries. -/
structure WellFormed (cfg : Cfg) : Prop where
  proper : cfg.po.Proper
  keys : ∀ n < cfg.size, n ∈ cfg.po.fwd ∧ n ∈ cfg.po.rev
  valid : ∀ {n m}, cfg.po.Edge n m → n < cfg.size ∧ m < cfg.size

namespace WellFormed

variable {cfg : Cfg} {n : NodeRef}

theorem lookup_fwd (wellFormed : cfg.WellFormed) (bound : n < cfg.size) :
    cfg.po.fwd.lookup n = some (cfg.po.succs n) :=
  Binrel.lookup_of_mem (wellFormed.keys n bound).1

theorem lookup_rev (wellFormed : cfg.WellFormed) (bound : n < cfg.size) :
    cfg.po.rev.lookup n = some (cfg.po.preds n) :=
  Binrel.lookup_of_mem (wellFormed.keys n bound).2

end WellFormed

def ofEdges (nodes : List Node) (edges : List (NodeRef × NodeRef)) (entry : NodeRef)
    (exits : List NodeRef) : Cfg :=
  ⟨nodes, (Binrel.empty.addNodes (List.range nodes.length)).insertAll edges, entry, exits, ∅⟩

variable {entry : NodeRef} {edges : List (NodeRef × NodeRef)} {nodes : List Node}
variable {exits : List NodeRef}

theorem edge_ofEdges {n m : NodeRef} :
    (ofEdges nodes edges entry exits).po.Edge n m ↔ (n, m) ∈ edges := by
  have start := Binrel.proper_empty.addNodes (List.range nodes.length)
  rw [ofEdges, (start.1.insertAll edges).2.1, start.2.1]
  exact or_iff_right (Binrel.not_edge_empty n m)

theorem wellFormed_ofEdges (valid : ∀ edge ∈ edges, edge.1 < nodes.length ∧ edge.2 < nodes.length) :
    (ofEdges nodes edges entry exits).WellFormed := by
  have start := Binrel.proper_empty.addNodes (List.range nodes.length)
  have whole := start.1.insertAll edges
  refine ⟨whole.1, fun n bound => ?_, fun edge => valid _ (edge_ofEdges.mp edge)⟩
  have listed := List.mem_range.mpr bound
  exact ⟨(whole.2.2 n).1 ((start.2.2 n).1.mpr (.inl listed)),
    (whole.2.2 n).2 ((start.2.2 n).2.mpr (.inl listed))⟩

theorem acyclic_ofEdges (increasing : ∀ edge ∈ edges, edge.1 < edge.2) :
    Acyclic (ofEdges nodes edges entry exits).po.Edge :=
  Acyclic.of_rank (fun n => n) fun edge => increasing _ (edge_ofEdges.mp edge)

theorem topological_ofEdges (increasing : ∀ edge ∈ edges, edge.1 < edge.2)
    (valid : ∀ edge ∈ edges, edge.2 < nodes.length) :
    (ofEdges nodes edges entry exits).Topological :=
  ⟨fun edge => increasing _ (edge_ofEdges.mp edge), fun edge => valid _ (edge_ofEdges.mp edge)⟩

def Reaches (cfg : Cfg) (src dst : NodeRef) : Prop := Relation.ReflTransGen cfg.po.Edge src dst

def prefixeqBi (a b : List Nat) : Bool :=
  let size := min a.length b.length
  decide (a.take size = b.take size)

/-- Whether alias results of the compiler, which hold in one function instance and one loop
iteration, may be used for two nodes. -/
def ID.llvmAliasValid (a b : ID) : Bool :=
  if a.func ≠ b.func then false
  else if ¬ prefixeqBi a.loop b.loop then false
  else true

def Node.llvmAliasValid (a b : Node) : Bool :=
  match a.id, b.id with
  | some a, some b => a.llvmAliasValid b
  | _, _ => false

/-- Whether the node an edge leads to lets its source start speculation: it must read
memory, volatile stores and fences excepted. -/
def readsSpeculatively (deref : InstRef → Inst) : Option Variant → Bool
  | some (.inst I) =>
    let inst := deref I
    if inst.isDebug then inst.mayReadFromMemory
    else if inst.isCall || inst.isLoad then inst.mayReadFromMemory
    else if inst.isStore then if inst.isVolatile then false else inst.mayReadFromMemory
    else if inst.isFence then false
    else inst.mayReadFromMemory
  | _ => false

def mayIntroduceSpeculation (deref : InstRef → Inst) (leakageClass : LeakageClass)
    (cfg : Cfg) (ref : NodeRef) : Bool :=
  match leakageClass with
  | .spectreV1 =>
    match cfg.variant ref with
    | some (.inst I) => (deref I).isBranch && decide (1 < (cfg.po.succs ref).length)
    | _ => false
  | .spectreV4 => (cfg.po.succs ref).any (fun succ => readsSpeculatively deref (cfg.variant succ))

end Cfg

end Clou
