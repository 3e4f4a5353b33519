import Clou.Cfg
import Clou.FiniteMap
import Clou.LoopInfo

/-! The unrolled control-flow graph of a function: loops are unrolled and calls inlined while
blocks, loops and functions are built from the inside out and connected at their ports. -/

namespace Clou.Unrolled

open Cfg

/-- What is unrolled, and how far. -/
structure Program where
  M : Module
  loopInfo : FuncRef → LoopInfo
  numUnrolls : Nat
  recursiveCallLimit : Nat

/-- The entry is undefined for a block that is left out. -/
structure Port where
  entry : Option NodeRef
  exits : List (BlockRef × NodeRef)

/-- A call that has been inlined: the instances of the caller and of the callee, and the
instructions and arguments that the callee returns. -/
structure Inlined where
  caller : List FuncID
  C : InstRef
  callee : List FuncID
  Vs : List Value
  deriving DecidableEq, Repr

/-- The graph that is being built, the counters for new instances, and a record of the
calls that have been inlined. -/
structure State where
  nodes : List Node
  po : Binrel NodeRef
  translations : Translations.Map
  nextFunc : FuncID
  nextLoop : LoopID
  inlined : List Inlined

namespace State

def empty : State := ⟨[], .empty, ∅, 0, 0, []⟩

def addNode (node : Node) (s : State) : NodeRef × State :=
  (s.nodes.length, { s with nodes := s.nodes ++ [node], po := s.po.addNode s.nodes.length })

def addEdge (src dst : NodeRef) (s : State) : State := { s with po := s.po.insert src dst }

def eraseEdge (src dst : NodeRef) (s : State) : State := { s with po := s.po.eraseEdge src dst }

end State

/-- A change of the graph. A result `none`: the program has ended, by an exception, an abort or
undefined behaviour. -/
abbrev Edit := StateT State Option

namespace Edit

variable {A B : Type}

def effect (op : State → Option State) : Edit Unit := fun s => (op s).map fun s' => ((), s')

def require (a : Option A) : Edit A := fun s => a.map fun a => (a, s)

@[simp] theorem pure_apply (a : A) (s : State) : (pure a : Edit A) s = some (a, s) := rfl

theorem bind_apply (x : Edit A) (next : A → Edit B) (s : State) :
    (x >>= next) s = (x s).bind fun r => next r.1 r.2 := rfl

theorem effect_eq_some {op : State → Option State} {s : State} {r : Unit × State} :
    effect op s = some r ↔ op s = some r.2 := by
  simp [effect, Option.map_eq_some_iff, Prod.ext_iff]

theorem require_eq_some {a : Option A} {s : State} {r : A × State} :
    require a s = some r ↔ a = some r.1 ∧ s = r.2 := by
  simp [require, Option.map_eq_some_iff, Prod.ext_iff]

end Edit

open Edit

/-- An undefined destination is not read unless there is something to connect. -/
def connect (srcs : List NodeRef) (dst : Option NodeRef) (s : State) : Option State :=
  srcs.foldlM (fun s src => dst.map fun dst => s.addEdge src dst) s

section Construct

variable (P : Program)

def callee (callstack : List FuncRef) (I : Inst) : Option FuncRef :=
  match I.kind with
  | .call (some g) _ _ =>
    if (P.M.func g).isDeclaration then none
    else if P.recursiveCallLimit < callstack.count g then none
    else some g
  | _ => none

def translateArguments (g : FuncRef) (args : List Value) (callerId calleeId : List FuncID)
    (map : Translations.Map) : Translations.Map :=
  ((List.range (P.M.func g).argIsPointer.length).zip args).foldl (fun map pair =>
    FiniteMap.emplace map ⟨calleeId, .argument g pair.1⟩ ⟨callerId, [pair.2]⟩) map

/-- The value that a return instruction returns, if it is an instruction or an argument. -/
def returnValue (I : Inst) : Option Value :=
  if I.isRet then
    match I.operands.head? with
    | some (.inst J) => some (.inst J)
    | some (.argument g i) => some (.argument g i)
    | _ => none
  else none

def returned (C : Inst) (exits : List (BlockRef × NodeRef)) : List Value :=
  if C.isVoid then []
  else exits.foldl (fun Vs exit =>
    match returnValue ((P.M.func exit.1.func).terminator exit.1.index) with
    | some V => Vs.insert V
    | none => Vs) []

def beginCall (C : InstRef) (g : FuncRef) (id : ID) : Edit (List FuncID) := fun s =>
  let calleeId := id.func ++ [s.nextFunc]
  some (calleeId, { s with
    nextFunc := s.nextFunc + 1
    translations := translateArguments P g (P.M.deref C).args id.func calleeId s.translations })

def endCall (C : InstRef) (id : ID) (calleeId : List FuncID) (port : Port) : Edit Port := fun s =>
  let Vs := returned P (P.M.deref C) port.exits
  some (port, { s with
    translations := FiniteMap.emplace s.translations ⟨id.func, .inst C⟩ ⟨calleeId, Vs⟩
    inlined := s.inlined ++ [⟨id.func, C, calleeId, Vs⟩] })

def addInstruction (I : InstRef) (id : ID) : Edit Port := fun s =>
  let (ref, s) := s.addNode ⟨.inst I, some id, ∅⟩
  some (⟨some ref, [(I.parent, ref)]⟩, s)

/-! The parts of a function. They are written for any way to run an `Edit`: what else is kept
while the graph is built shows only in how an instruction is constructed. -/

variable {m : Type → Type} [Monad m] [MonadLiftT Edit m]

def constructCall (construct : FuncRef → ID → m Port) (C : InstRef) (g : FuncRef) (id : ID) :
    m Port := do
  let calleeId ← beginCall P C g id
  let port ← construct g ⟨calleeId, id.loop⟩
  endCall P C id calleeId port

def constructInstruction (construct : FuncRef → ID → m Port) (callstack : List FuncRef)
    (I : InstRef) (id : ID) : m Port :=
  match callee P callstack (P.M.deref I) with
  | some g => constructCall P construct I g id
  | none => addInstruction I id

section Parts

variable (instruction : InstRef → ID → m Port)

/-- The instructions after the first are connected one after the other. -/
def constructRest (id : ID) :
    List InstRef → List (BlockRef × NodeRef) → m (List (BlockRef × NodeRef))
  | [], exits => pure exits
  | I :: rest, exits => do
    let port ← instruction I id
    effect (connect (exits.map Prod.snd) port.entry)
    constructRest id rest port.exits

def blockInsts (f : FuncRef) (B : Nat) : List InstRef :=
  (List.range ((P.M.func f).block B).length).map (fun i => ⟨f, B, i⟩)

/-- A block that nothing leads to is left out, unless it is the entry block. -/
def constructBlock (f : FuncRef) (B : Nat) (id : ID) : m Port :=
  if ((P.M.func f).preds B).isEmpty ∧ B ≠ 0 then pure ⟨none, []⟩
  else
    match blockInsts P f B with
    | [] => require none
    | I :: rest => do
      let port ← instruction I id
      let exits ← constructRest instruction id rest port.exits
      pure ⟨port.entry, exits⟩

/-- A loop or a block outside of the loops, with the blocks that may be left for others. -/
structure Part where
  loop : Bool
  blocks : List Nat
  exiting : List Nat
  port : Port

/-- The part that a block belongs to. The loops come first. -/
def getBlockPort (parts : List Part) (B : Nat) : Option Nat :=
  parts.findIdx? (fun part => decide (B ∈ part.blocks))

/-- A loop is not connected to itself. -/
def doConnect (f : FuncRef) (parts : List Part) (i : Nat) (part : Part) (srcB : Nat) (s : State) :
    Option State :=
  ((P.M.func f).terminator srcB).successors.foldlM (fun s dst =>
    match getBlockPort parts dst with
    | none => some s
    | some j =>
      if part.loop ∧ i = j then some s
      else connect ((part.port.exits.filter (fun exit => exit.1 = ⟨f, srcB⟩)).map Prod.snd)
        ((parts[j]?).bind (·.port.entry)) s) s

def connectParts (f : FuncRef) (parts : List Part) (s : State) : Option State :=
  parts.zipIdx.foldlM (fun s part =>
    part.1.exiting.foldlM (fun s srcB => doConnect P f parts part.2 part.1 srcB s) s) s

/-- Merging moves the exits of a part out of it. -/
def mergeExits : List Nat → List Part → Option (List (BlockRef × NodeRef))
  | [], _ => some []
  | B :: rest, parts => do
    let i ← getBlockPort parts B
    let part ← parts[i]?
    let more ← mergeExits rest (parts.set i { part with port := { part.port with exits := [] } })
    some (part.port.exits ++ more)

def constructBlocks (f : FuncRef) (id : ID) : List Nat → m (List Part)
  | [] => pure []
  | B :: rest => do
    let port ← constructBlock P instruction f B id
    let parts ← constructBlocks f id rest
    pure (⟨false, [B], [B], port⟩ :: parts)

def finishForest (f : FuncRef) (entry : Nat) (exits blocks : List Nat) (loops : List Part)
    (id : ID) : m Port := do
  let others ← constructBlocks P instruction f id
    (blocks.filter (fun B => loops.all (fun part => B ∉ part.blocks)))
  let parts := loops ++ others
  effect (connectParts P f parts)
  let i ← require (getBlockPort parts entry)
  let part ← require parts[i]?
  let exits ← require (mergeExits exits parts)
  pure ⟨part.port.entry, exits⟩

def nextLoop : Edit LoopID := fun s => some (s.nextLoop, { s with nextLoop := s.nextLoop + 1 })

def cutContinuations (header : NodeRef) : Edit (List NodeRef) := fun s =>
  (s.po.rev.lookup header).map fun continuations =>
    (continuations, continuations.foldl (fun s continuation => s.eraseEdge continuation header) s)

/-- The iterations of a loop, each with the nodes that led back to its header. -/
def iterate (iteration : ID → m Port) (id : ID) : Nat → m (List (Port × List NodeRef))
  | 0 => pure []
  | n + 1 => do
    let loop ← nextLoop
    let port ← iteration { id with loop := id.loop ++ [loop] }
    let header ← require port.entry
    let continuations ← cutContinuations header
    let rest ← iterate iteration id n
    pure ((port, continuations) :: rest)

/-- Every iteration but the last continues in the next. -/
def glue : List (Port × List NodeRef) → State → Option State
  | first :: second :: rest, s => do
    let s ← connect first.2 second.1.entry s
    glue (second :: rest) s
  | _, s => some s

def exitingBlocks (f : FuncRef) (L : Loop) : List Nat :=
  L.blocks.filter (fun B => ((P.M.func f).terminator B).successors.any (· ∉ L.blocks))

def joinIterations (iterations : List (Port × List NodeRef)) : Edit Port := do
  effect (glue iterations)
  let first ← require iterations.head?
  pure ⟨first.1.entry, iterations.flatMap (·.1.exits)⟩

variable (numIterations : Nat) (f : FuncRef)

mutual

def constructLoop : Loop → ID → m Port
  | .mk header blocks subloops => fun id => do
    let iteration := fun id => do
      let loops ← constructLoops subloops id
      finishForest P instruction f header (exitingBlocks P f (.mk header blocks subloops)) blocks
        loops id
    let iterations ← iterate iteration id numIterations
    joinIterations iterations

def constructLoops : List Loop → ID → m (List Part)
  | [], _ => pure []
  | L :: rest, id => do
    let port ← constructLoop L id
    let parts ← constructLoops rest id
    pure (⟨true, L.blocks, exitingBlocks P f L, port⟩ :: parts)

end

/-- A nest of loops with the blocks around them: a function, or one iteration of a loop. -/
def constructForest (loops : List Loop) (entry : Nat) (exits blocks : List Nat) (id : ID) :
    m Port := do
  let parts ← constructLoops P instruction numIterations f loops id
  finishForest P instruction f entry exits blocks parts id

abbrev iteration (L : Loop) : ID → m Port :=
  constructForest P instruction numIterations f L.subloops L.header (exitingBlocks P f L) L.blocks

theorem constructLoop_eq (L : Loop) (id : ID) :
    constructLoop P instruction numIterations f L id =
      iterate (iteration P instruction numIterations f L) id numIterations >>= fun iterations =>
        liftM (joinIterations iterations) := by
  cases L
  rfl

/-- The blocks that a function ends in; any other terminator without successors ends the
program. -/
def functionExits (f : FuncRef) : Option (List Nat) :=
  let ends := (List.range (P.M.func f).blocks.length).filter
    (fun B => ((P.M.func f).terminator B).successors.isEmpty)
  if ends.all (fun B => ((P.M.func f).terminator B).isRet ||
      ((P.M.func f).terminator B).isUnreachable) then some ends
  else none

def constructBody (id : ID) : m Port := do
  let exits ← require (functionExits P f)
  constructForest P instruction numIterations f (P.loopInfo f).top 0 exits
    (List.range (P.M.func f).blocks.length) id

end Parts

section

variable {P} {instruction : InstRef → ID → Edit Port} {numIterations : Nat} {f : FuncRef} {id : ID}
  {s : State}

theorem constructBody_none (ends : functionExits P f = none) :
    constructBody P instruction numIterations f id s = none := by
  rw [constructBody, ends]
  rfl

theorem constructBody_some {exits : List Nat} (ends : functionExits P f = some exits) :
    constructBody P instruction numIterations f id s =
      constructForest P instruction numIterations f (P.loopInfo f).top 0 exits
        (List.range (P.M.func f).blocks.length) id s := by
  rw [constructBody, ends]
  rfl

end

def newNode (node : Node) : Edit NodeRef := fun s => some (s.addNode node)

/-- Node 0 is the entry and node 1 the exit. -/
def constructGraph (function : ID → m Port) : m Unit := do
  let entry ← newNode Node.makeEntry
  let exit ← newNode Node.makeExit
  let port ← function ⟨[], []⟩
  let first ← require port.entry
  effect fun s => connect (port.exits.map Prod.snd) (some exit) (s.addEdge entry first)

/-! Nothing is kept besides the graph: the functions on the stack are passed down. -/

/-- Constructing a part of the graph, for the instance and iteration of an `ID`. -/
abbrev Construct := ID → Edit Port

/-- How functions are constructed, given the functions on the stack. -/
abbrev ConstructFunction := FuncRef → List FuncRef → Construct

abbrev onStack (construct : ConstructFunction) (callstack : List FuncRef) : InstRef → Construct :=
  constructInstruction P (construct · callstack) callstack

def constructFunction : Nat → ConstructFunction
  | 0, _, _, _ => require none
  | depth + 1, f, callstack, id =>
    constructBody P (onStack P (constructFunction depth) (f :: callstack)) (P.numUnrolls + 1) f id

/-- A depth that no chain of inlined calls exceeds: no function is on the stack more than
one time above the limit. -/
def maxDepth : Nat := (P.recursiveCallLimit + 1) * P.M.funcs.length + 1

/-- The graph before it is pruned. -/
def construct (F : FuncRef) : Option State :=
  (constructGraph (constructFunction P (maxDepth P) F []) State.empty).map Prod.snd

end Construct

end Clou.Unrolled
