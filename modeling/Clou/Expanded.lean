import Clou.Cfg

/-! Resolution of references: the nodes that may have produced each operand of a node. -/

namespace Clou.Expanded

open Cfg Translations

abbrev RefMap := SetMap Key NodeRef
abbrev Maps := List (Option RefMap)

def isConstant : Value → Bool
  | .constant _ => true
  | _ => false

def isBindable : Value → Bool
  | .inst _ => true
  | .argument .. => true
  | _ => false

def keyOf (node : Node) : Option Key :=
  match node.v, node.id with
  | .inst I, some id => some ⟨id.func, .inst I⟩
  | .call C _, some id => some ⟨id.func, .inst C⟩
  | _, _ => none

section

variable (po : Binrel NodeRef) (ref : NodeRef)

/-- The incoming map of one predecessor. When all successors of the predecessor are
done its map is taken over, otherwise it is copied. Reading a map that was taken over
before is undefined. -/
def joinPred (state : Maps × RefMap) (pred : NodeRef) : Option (Maps × RefMap) := do
  let a ← (state.1[pred]?).join
  let predDone := (po.succs pred).all (· ∈ List.range (ref + 1))
  if predDone then
    some (state.1.set pred none, if state.2.entries.isEmpty then a else state.2.merge a)
  else
    some (state.1, if state.2.entries.isEmpty then a else state.2.unite a)

end

def define (node : Node) (ref : NodeRef) (map : RefMap) : Option RefMap :=
  match node.v with
  | .inst I => node.id.map (fun id => map.add ⟨id.func, .inst I⟩ {ref})
  | .call C _ => node.id.map (fun id => map.add ⟨id.func, .inst C⟩ {ref})
  | _ => some map

section

variable (assertions : Bool) (deref : InstRef → Inst) (translations : Map)

/-- Whether a source without any definition is let through: an instruction's operand
fails an assertion, an inlined argument aborts unless it stands for a constant. -/
def mayMiss (I : Inst) (V : Value) (func : List FuncID) (source : Key) : Bool :=
  match V with
  | .inst _ => I.isPhi || !assertions
  | .argument .. => func.isEmpty || isConstant source.V
  | _ => true

def resolveSource (I : Inst) (V : Value) (func : List FuncID) (map : RefMap)
    (refs : SetMap Value NodeRef) (source : Key) : Option (SetMap Value NodeRef) :=
  match AList.lookup source map with
  | some set => some (refs.add V set)
  | none => if mayMiss assertions I V func source then some refs else none

def resolveSingleRef (I : Inst) (func : List FuncID) (map : RefMap)
    (refs : SetMap Value NodeRef) (V : Value) : Option (SetMap Value NodeRef) :=
  match V with
  | .inst _ | .argument .. =>
    (lookup translations ⟨func, V⟩).foldlM (resolveSource assertions I V func map) refs
  | .constant _ | .basicBlock _ | .metadata _ => some refs
  | .unknown _ => none

def operandsOf : Variant → Option (Inst × List Value)
  | .inst I => some (deref I, (deref I).operands)
  | .call C arg => some (deref C, [arg])
  | _ => none

def resolveNode (node : Node) (map : RefMap) : Option (SetMap Value NodeRef) :=
  match operandsOf deref node.v with
  | some (I, operands) => node.id.bind (fun id =>
    operands.foldlM (resolveSingleRef assertions translations I id.func map) ∅)
  | none => some ∅

structure State where
  maps : Maps
  nodes : List Node

def resolveStep (cfg : Cfg) (ref : NodeRef) (state : State) : Option State := do
  let (maps, map) ← (cfg.po.preds ref).foldlM (joinPred cfg.po ref) (state.maps, ∅)
  let node ← cfg.nodes[ref]?
  let map ← define node ref map
  let refs ← resolveNode assertions deref translations node map
  some ⟨maps.set ref (some map), state.nodes.set ref { node with refs := refs }⟩

/-- The nodes are visited in reverse postorder, which is the order of their numbers. -/
def resolveUpTo (cfg : Cfg) : Nat → Option State
  | 0 => some ⟨List.replicate cfg.size none, cfg.nodes⟩
  | ref + 1 => (resolveUpTo cfg ref).bind (resolveStep assertions deref translations cfg ref)

def resolveRefs (cfg : Cfg) : Option (List Node) :=
  (resolveUpTo assertions deref translations cfg cfg.size).map State.nodes

end

end Clou.Expanded
