import Clou.Backtrack
import Clou.Cfg
import Clou.Alias
import Clou.Z3

/-! The search for leaks: dependencies are committed or traced back from a candidate
transmitter, and a detector examines every complete chain. The search is written once, over what
its steps do, so that one can follow the chain that it hands on, another the fields of the job. -/

namespace Clou.Leakage

open Z3 Backtrack

inductive EdgeKind where
  | po | tfo | rf | co | fr | rfx | cox | frx | addr | addrGep | ctrl | data
  deriving DecidableEq, Repr

inductive ExecMode where
  | arch | trans | exec
  deriving DecidableEq, Repr

inductive CheckMode where
  | fast | slow
  deriving DecidableEq, Repr

structure Node (V : Type) where
  arch : BoolExpr V
  trans : BoolExpr V
  read : BoolExpr V
  write : BoolExpr V
  mayWrite : Bool
  attackerTaint : Bool
  isBranch : Bool
  /-- The address operand, if the instruction accesses memory. -/
  memoryOperand : Option Value
  funcId : Option (List Nat)

namespace Node

variable {V : Type}

def exec (node : Node V) : BoolExpr V := or node.arch node.trans

def execMode (node : Node V) : ExecMode → BoolExpr V
  | .arch => node.arch
  | .trans => node.trans
  | .exec => node.exec

def access (node : Node V) : BoolExpr V := or node.read node.write

end Node

/-- The event graph and the windows around a candidate transmitter, with the lists in the
order in which the sets are iterated. -/
structure Graph (V : Type) where
  lookup : NodeRef → Node V
  entry : NodeRef
  nodes : List NodeRef
  preds : NodeRef → List NodeRef
  /-- Incoming edges of a kind, with the terms that say whether they exist. -/
  getNodes : EdgeKind → NodeRef → List (NodeRef × BoolExpr V)
  tfoOut : NodeRef → List (NodeRef × BoolExpr V)
  rfSources : NodeRef → List (NodeRef × BoolExpr V)
  execWindow : List NodeRef
  transWindow : List NodeRef
  /-- The nodes from the first up to the second, if both are of one basic block. -/
  blockPath : NodeRef → NodeRef → List NodeRef
  isAlloca : Value → Bool
  checkAlias : NodeRef → NodeRef → AliasResult
  sameAddr : NodeRef → NodeRef → BoolExpr V
  rfxExists : NodeRef → NodeRef → BoolExpr V
  postorderIdx : NodeRef → Nat

structure Config where
  deps : List (EdgeKind × ExecMode)
  maxTraceback : Nat
  useLookahead : Bool
  fastMode : Bool
  useAttackerControlAnalysis : Bool
  diffNames : Bool
  concreteSourcedStores : Bool
  lsqSize : Option Nat

/-- The steps of a chain, with the terms that the step is taken under. -/
inductive Step (V : Type) where
  | commit (src dst : NodeRef) (kind : EdgeKind) (term : BoolExpr V) (mode : ExecMode)
  | read (load : NodeRef)
  | source (store load : NodeRef) (cond : BoolExpr V) (mode : ExecMode)
  | edge (src dst : NodeRef) (kind : EdgeKind) (term : BoolExpr V)

structure Action where
  src : NodeRef
  edge : EdgeKind
  dst : NodeRef
  deriving DecidableEq, Repr

structure Leak where
  vec : List NodeRef
  transmitter : NodeRef
  actions : List Action
  deriving DecidableEq, Repr

structure Invocation (V : Type) where
  chain : List (Step V)
  vec : List NodeRef
  tracebacks : Nat
  asserted : List (BoolExpr V)

inductive Event (V : Type) where
  | leak (found : Leak)
  | invoked (invocation : Invocation V)

def Event.leaks {V : Type} : Event V → Option Leak
  | .leak found => some found
  | .invoked _ => none

def Event.invocation {V : Type} : Event V → Option (Invocation V)
  | .leak _ => none
  | .invoked invocation => some invocation

def Step.action {V : Type} : Step V → Option Action
  | .commit src dst kind _ _ => some ⟨src, kind, dst⟩
  | .read _ => none
  | .source store load _ _ => some ⟨store, .rf, load⟩
  | .edge src dst kind _ => some ⟨src, kind, dst⟩

def actions {V : Type} (chain : List (Step V)) : List Action := chain.filterMap Step.action

section

variable {V : Type} (G : Graph V)

def assertEdge (src dst : NodeRef) (edge : BoolExpr V) : List (BoolExpr V) :=
  [edge, implies (G.lookup src).trans (G.lookup dst).trans,
    implies (G.lookup dst).arch (G.lookup src).arch] ++
  (G.blockPath src dst).map (fun ref => (G.lookup ref).exec)

def Step.constraints : Step V → List (BoolExpr V)
  | .commit src dst _ term mode => assertEdge G src dst term ++ [(G.lookup src).execMode mode]
  | .read load => [and (G.lookup load).exec (G.lookup load).read]
  | .source store _ cond mode => [cond, (G.lookup store).execMode mode]
  | .edge src dst _ term => assertEdge G src dst term

def checkEdge (src dst : NodeRef) : Bool := decide (src ∈ G.execWindow ∧ dst ∈ G.execWindow)

def inWindow (mode : ExecMode) (store : NodeRef) : Bool :=
  match mode with
  | .arch | .exec => decide (store ∈ G.execWindow)
  | .trans => decide (store ∈ G.transWindow)

end

namespace SpectreV1

variable {V : Type} (G : Graph V)

/-- Some tainted branch in the window is mispredicted. -/
def branchTainted : BoolExpr V :=
  mkOr ((G.execWindow.filter (fun ref => (G.lookup ref).isBranch)).map fun ref =>
    and (and (G.lookup ref).arch (boolVal (G.lookup ref).attackerTaint))
      (mkOr (((G.tfoOut ref).filter (fun tfo => tfo.1 ∈ G.execWindow)).map fun tfo =>
        and tfo.2 (G.lookup tfo.1).trans)))

end SpectreV1

namespace SpectreV4

variable {V : Type} (G : Graph V) (config : Config)

/-- A store that the load's address does not depend on is left to the alias analysis. -/
def filter (actions : List Action) : Bool :=
  actions.any fun action =>
    decide (action.edge = .rf) && (G.getNodes .addr action.src).isEmpty &&
      decide (G.checkAlias action.src action.dst = .noAlias)

/-- The cast of a node without an address operand fails. -/
def differentNames (load store : NodeRef) : Option Bool :=
  (G.lookup load).memoryOperand.bind fun loadAddr =>
    (G.lookup store).memoryOperand.map fun storeAddr =>
      if G.isAlloca loadAddr && G.isAlloca storeAddr then
        match (G.lookup load).funcId, (G.lookup store).funcId with
        | some loadId, some storeId =>
          if loadId = storeId then decide (loadAddr ≠ storeAddr) else true
        | _, _ => true
      else true

def constrainLsq (bypassedStore load : NodeRef) : List (BoolExpr V) :=
  match config.lsqSize with
  | none => []
  | some size =>
    [atmost ((G.execWindow.filter (fun ref => decide (bypassedStore ≤ ref ∧ ref ≤ load))).map
      (fun ref => (G.lookup ref).access)) size]

theorem unseen_lt {nodes seen : List NodeRef} {ref : NodeRef} (member : ref ∈ nodes)
    (fresh : ref ∉ seen) :
    (nodes.filter (· ∉ ref :: seen)).length < (nodes.filter (· ∉ seen)).length := by
  have split : nodes.filter (· ∉ ref :: seen) = (nodes.filter (· ∉ seen)).filter (· ≠ ref) := by
    rw [List.filter_filter]
    simp
  rw [split]
  apply List.length_filter_lt_length_iff_exists.mpr
  exact ⟨ref, List.mem_filter.mpr ⟨member, by simpa using fresh⟩, by simp⟩

def walk (todo seen : List NodeRef) : List NodeRef :=
  match todo with
  | [] => []
  | ref :: rest =>
    if ref ∈ seen then walk rest seen
    else if ref ∈ G.nodes then ref :: walk ((G.preds ref).reverse ++ rest) (ref :: seen)
    else []
  termination_by ((G.nodes.filter (· ∉ seen)).length, todo.length)
  decreasing_by
    · exact Prod.Lex.right _ (Nat.lt_succ_self _)
    · rename_i fresh member
      exact Prod.Lex.left _ _ (unseen_lt member fresh)

def bypassable (load store : NodeRef) : Option Bool :=
  if (G.lookup store).mayWrite then
    if config.diffNames then differentNames G load store else some true
  else some false

def bypassedStores (load : NodeRef) (stores : List NodeRef) : Option (List (BoolExpr V)) :=
  stores.foldlM (fun exprs store =>
    (bypassable G config load store).map fun can =>
      if can then exprs ++ [and (and (G.lookup store).arch (G.lookup store).write)
        (G.sameAddr store load)]
      else exprs) [boolVal false]

end SpectreV4

inductive Detector where
  | spectreV1
  | spectreV4
  deriving DecidableEq, Repr

/-! The search -/

/-- What the search is made of. `C` is what is handed on of the chain so far, `D` of how often the
search may still trace back, and `R` are the runs. -/
structure Ops (V C D R : Type) where
  start : C
  extend : C → Step V → C
  skip : R
  throw : Outcome → R
  seq : R → R → R
  add : List (BoolExpr V) → R
  check : Bool → (CheckResult → R) → R
  /-- The assertions made inside are taken back. -/
  scope : R → R
  /-- The rest is run only if the trial ends by the exception that says so. -/
  ifFound : R → R → R
  catchNext : R → R
  /-- The action is on the stack meanwhile. -/
  push : Action → R → R
  withActions : C → (List Action → R) → R
  /-- The detector is called. -/
  call : D → C → List NodeRef → R → R
  output : C → List NodeRef → NodeRef → R
  /-- Nothing is done where the search may not trace back any more. -/
  unlessLast : D → R → R
  deeper : R → R

abbrev Visit (C R : Type) := C → NodeRef → CheckMode → R

abbrev Callback (C D R : Type) := D → C → List NodeRef → CheckMode → R

abbrev Rec (C R : Type) := C → List NodeRef → NodeRef → CheckMode → R

namespace Ops

variable {V C D R : Type} (o : Ops V C D R) (G : Graph V) (config : Config)

def forEach {B : Type} : List B → (B → R) → R
  | [], _ => o.skip
  | b :: rest, body => o.seq (body b) (forEach rest body)

/-- Scopes are opened and constraints added in slow mode only. -/
def condScope (mode : CheckMode) (inner : R) : R := if mode = .slow then o.scope inner else inner

def whenSlow (mode : CheckMode) (body : R) : R := if mode = .slow then body else o.skip

/-- In slow mode nothing more is done if the solver refutes what is asserted. -/
def unlessUnsat (mode : CheckMode) (rest : R) : R :=
  if mode = .slow then o.check true fun result => if result = .unsat then o.skip else rest
  else rest

/-- In slow mode the rest is tried in fast mode first. -/
def lookahead (mode : CheckMode) (trial rest : R) : R :=
  if mode = .slow ∧ config.useLookahead = true then o.ifFound trial rest else rest

def take (step : Step V) (rest : R) : R :=
  match step.action with
  | none => rest
  | some action => o.push action rest

/-- A step's constraints are asserted in a scope of their own. -/
def inStep (mode : CheckMode) (step : Step V) (rest : R) : R :=
  o.condScope mode (o.seq (o.whenSlow mode (o.add (step.constraints G))) (o.take step rest))

/-- The trial does not see the step that it is for. -/
def tracebackRf (chain : C) (load : NodeRef) (execMode : ExecMode) (func : Visit C R)
    (mode : CheckMode) : R :=
  o.forEach (G.rfSources load) fun source =>
    if inWindow G execMode source.1 then
      let step := Step.source source.1 load source.2 execMode
      o.lookahead config mode (func chain source.1 .fast) <|
        o.inStep G mode step (func (o.extend chain step) source.1 mode)
    else o.skip

def tracebackEdge (chain : C) (kind : EdgeKind) (ref : NodeRef) (func : Visit C R)
    (mode : CheckMode) : R :=
  o.forEach (G.getNodes kind ref) fun edge =>
    if checkEdge G edge.1 ref then
      let step := Step.edge edge.1 ref kind edge.2
      o.inStep G mode step <|
        o.lookahead config mode (func (o.extend chain step) edge.1 .fast)
          (func (o.extend chain step) edge.1 mode)
    else o.skip

/-- Tracing back from a load, over the stores it may read from or its address. -/
def traceback (tracebacks : D) (chain : C) (load : NodeRef) (execMode : ExecMode) (func : Visit C R)
    (mode : CheckMode) : R :=
  let step := Step.read load
  o.unlessLast tracebacks <| o.inStep G mode step <| o.unlessUnsat mode <| o.deeper <|
    o.seq (o.tracebackRf G config (o.extend chain step) load execMode
        (fun chain store mode => o.tracebackEdge G config chain .data store func mode) mode)
      (o.tracebackEdge G config (o.extend chain step) .addr load func mode)

/-- The transmitter itself is not traced back from. -/
def tracebackFrom (tracebacks : D) (again : Rec C R) (chain : C) (vec : List NodeRef) (ref : NodeRef)
    (mode : CheckMode) : R :=
  if some ref = vec.head? then o.skip
  else o.traceback G config tracebacks chain ref .exec
    (fun chain target mode => again chain vec target mode) mode

def commit (rest : Rec C R) (kind : EdgeKind) (srcMode : ExecMode) (chain : C) (vec : List NodeRef)
    (ref : NodeRef) (mode : CheckMode) (dep : NodeRef × BoolExpr V) : R :=
  if checkEdge G dep.1 ref then
    let step := Step.commit dep.1 ref kind dep.2 srcMode
    o.inStep G mode step (rest (o.extend chain step) vec dep.1 mode)
  else o.skip

/-- The detector is called, which is put on record in slow mode. -/
def invoke (callback : Callback C D R) (tracebacks : D) (chain : C) (vec : List NodeRef)
    (mode : CheckMode) : R :=
  if mode = .slow then o.call tracebacks chain vec (callback tracebacks chain vec mode)
  else callback tracebacks chain vec mode

/-- A node on the way, without the lookahead: `rest` searches for the dependencies after
the first, `again` for the same ones from a node that is traced back to. -/
def depsBody (callback : Callback C D R) (tracebacks : D) (deps : List (EdgeKind × ExecMode))
    (rest again : Rec C R) (chain : C) (vec : List NodeRef) (ref : NodeRef) (mode : CheckMode) : R :=
  let onward := o.tracebackFrom G config tracebacks again chain vec ref mode
  match deps with
  | [] => o.unlessUnsat mode (o.seq (o.invoke callback tracebacks chain vec mode) onward)
  | (kind, srcMode) :: _ =>
    if (G.getNodes kind ref).isEmpty then onward
    else o.unlessUnsat mode <|
      o.seq (o.forEach (G.getNodes kind ref) (o.commit G rest kind srcMode chain vec ref mode)) onward

/-- A leak is put on record; in fast mode the transmitter is then done with. -/
def outputExecution (chain : C) (vec : List NodeRef) (transmitter : NodeRef) : R :=
  o.seq (o.output chain vec transmitter) (if config.fastMode then o.throw .next else o.skip)

/-- An answer without a time limit decides; an unknown one ends the program. -/
def decideSat (onSat : R) : R :=
  o.check false fun
    | .sat => onSat
    | .unsat => o.skip
    | .unknown => o.throw .aborted

/-! Spectre v1 -/

def report (chain : C) (vec : List NodeRef) (mode : CheckMode) : R :=
  if mode = .fast then o.throw .found
  else
    o.seq (if config.useAttackerControlAnalysis then o.add [SpectreV1.branchTainted G] else o.skip) <|
      o.decideSat (o.outputExecution config chain vec.reverse (vec.headD G.entry))

def runPostdeps (chain : C) (vec : List NodeRef) (mode : CheckMode) : R :=
  let tested :=
    if config.useAttackerControlAnalysis && !(G.lookup (vec.getLastD G.entry)).attackerTaint then o.skip
    else o.report G config chain vec mode
  if mode = .slow then o.decideSat tested else tested

/-! Spectre v4 -/

def checkSolution (chain : C) (load bypassedStore sourcedStore : NodeRef) (vec : List NodeRef)
    (mode : CheckMode) : R :=
  o.withActions chain fun actions =>
    if SpectreV4.filter G actions then o.skip
    else if mode = .slow then
      o.decideSat <| o.outputExecution config chain
        [sourcedStore, bypassedStore, load, vec.headD G.entry] (vec.headD G.entry)
    else o.throw .found

def runSourcedStore (chain : C) (load bypassedStore : NodeRef) (vec : List NodeRef)
    (mode : CheckMode) : R :=
  o.forEach G.execWindow fun sourcedStore =>
    if G.postorderIdx bypassedStore < G.postorderIdx sourcedStore ∧
        (G.lookup sourcedStore).mayWrite = true then
      o.condScope mode <|
        o.seq (o.whenSlow mode
            (o.add [G.sameAddr sourcedStore load, G.rfxExists sourcedStore load]))
          (o.checkSolution G config chain load bypassedStore sourcedStore vec mode)
    else o.skip

def bypass (load : NodeRef) (vec : List NodeRef) : Visit C R := fun chain bypassedStore mode =>
  let sourced :=
    o.seq (o.whenSlow mode (o.add [(G.lookup bypassedStore).arch])) <|
      o.unlessUnsat mode (o.runSourcedStore G config chain load bypassedStore vec mode)
  if bypassedStore = G.entry then o.skip
  else o.seq (o.whenSlow mode (o.add (SpectreV4.constrainLsq G config bypassedStore load))) <|
    if config.diffNames then
      match SpectreV4.differentNames G load bypassedStore with
      | none => o.throw .aborted
      | some false => o.skip
      | some true => sourced
    else sourced

/-- One store of the walk. The first that can be bypassed ends a trial. -/
def tryStore (load : NodeRef) (mode : CheckMode) (store : NodeRef) : R :=
  o.push ⟨store, .rf, load⟩ <|
    match SpectreV4.bypassable G config load store with
    | none => o.throw .aborted
    | some true => if mode = .fast then o.throw .found else o.skip
    | some false => o.skip

/-- Without concrete sourced stores, one term says that some store is bypassed. -/
def runBypassedStoreFast (chain : C) (load : NodeRef) (vec : List NodeRef) (mode : CheckMode) : R :=
  o.seq (o.forEach (SpectreV4.walk G [load] []) (o.tryStore G config load mode)) <|
    if mode = .slow then
      match SpectreV4.bypassedStores G config load (SpectreV4.walk G [load] []) with
      | none => o.throw .aborted
      | some exprs =>
        o.seq (o.add [mkOr exprs]) (o.checkSolution G config chain load G.entry G.entry vec mode)
    else o.skip

/-- One load, with what is done at the loads that it is traced back to. -/
def bypassedStoreBody (tracebacks : D) (again : List NodeRef → Visit C R) (chain : C) (load : NodeRef)
    (vec : List NodeRef) (mode : CheckMode) : R :=
  if config.concreteSourcedStores then
    o.unlessUnsat mode <|
      o.seq (o.tracebackRf G config chain load .arch (o.bypass G config load vec) mode) <|
        o.traceback G config tracebacks chain load .arch (fun chain load mode =>
          o.seq (o.whenSlow mode (o.add [(G.lookup load).trans]))
            (again (vec ++ [load]) chain load mode))
          mode
  else o.runBypassedStoreFast G config chain load vec mode

/-- What is done with a chain: all of it is transient, and its last load reads stale data. -/
def examine (runBypassedStore : List NodeRef → Visit C R) (chain : C) (vec : List NodeRef)
    (mode : CheckMode) : R :=
  let load := vec.getLastD G.entry
  o.seq (o.whenSlow mode (o.add [mkAnd (vec.map fun ref => (G.lookup ref).trans)])) <|
    o.seq (if config.concreteSourcedStores then o.skip
        else o.whenSlow mode (o.add [G.rfxExists G.entry load]))
      (runBypassedStore vec chain load mode)

end Ops

/-! The recursion, where `tracebacks` is how often the search may still trace back -/

namespace Ops

variable {V C R : Type} (o : Ops V C Nat R) (G : Graph V) (config : Config)

/-- The lookahead is the same search in fast mode, with the node on the way once more. -/
def depsStep (callback : Callback C Nat R) (tracebacks : Nat) (deps : List (EdgeKind × ExecMode))
    (rest again : Rec C R) : Rec C R := fun chain vec ref mode =>
  let body := o.depsBody G config callback tracebacks deps rest again chain
  o.lookahead config mode (body (vec ++ [ref] ++ [ref]) ref .fast) (body (vec ++ [ref]) ref mode)

def depsLevel (callback : Callback C Nat R) (tracebacks : Nat)
    (again : List (EdgeKind × ExecMode) → Rec C R) : List (EdgeKind × ExecMode) → Rec C R
  | [] => o.depsStep G config callback tracebacks [] (fun _ _ _ _ => o.skip) (again [])
  | dep :: deps =>
    o.depsStep G config callback tracebacks (dep :: deps) (depsLevel callback tracebacks again deps)
      (again (dep :: deps))

def tracebackDepsRec (callback : Callback C Nat R) : Nat → List (EdgeKind × ExecMode) → Rec C R
  | 0 => o.depsLevel G config callback 0 (fun _ _ _ _ _ => o.skip)
  | tracebacks + 1 =>
    o.depsLevel G config callback (tracebacks + 1) (tracebackDepsRec callback tracebacks)

def tracebackDeps (callback : Callback C Nat R) (ref : NodeRef) (mode : CheckMode) : R :=
  o.tracebackDepsRec G config callback config.maxTraceback config.deps.reverse o.start [] ref mode

def runBypassedStore : Nat → List NodeRef → Visit C R
  | 0 => fun vec chain load => o.bypassedStoreBody G config 0 (fun _ _ _ _ => o.skip) chain load vec
  | tracebacks + 1 => fun vec chain load =>
    o.bypassedStoreBody G config (tracebacks + 1) (runBypassedStore tracebacks) chain load vec

def callback : Detector → Callback C Nat R
  | .spectreV1 => fun _ => o.runPostdeps G config
  | .spectreV4 => fun tracebacks => o.examine G config (o.runBypassedStore G config tracebacks)

def runTransmitter (detector : Detector) (ref : NodeRef) (mode : CheckMode) : R :=
  o.tracebackDeps G config (o.callback G config detector) ref mode

/-- One candidate transmitter: `known` says that it is an exit or has been reported, `window`
are the constraints of its window and `order` those on its accesses. -/
def forOneTransmitter (detector : Detector) (transmitter : NodeRef) (known : Bool)
    (window order : List (BoolExpr V)) : R :=
  o.lookahead config .slow (o.runTransmitter G config detector transmitter .fast) <|
    if known then o.skip
    else o.seq (o.add window) <| o.unlessUnsat .slow <| o.seq (o.add order) <|
      o.catchNext (o.runTransmitter G config detector transmitter .slow)

end Ops

/-! The search that hands its chain on, and puts leaks and calls of the detector on record -/

abbrev Run (V : Type) := Search (BoolExpr V) (Event V)

def ops {V : Type} (oracle : Oracle (BoolExpr V)) : Ops V (List (Step V)) Nat (Run V) where
  start := []
  extend chain step := chain ++ [step]
  skip := skip
  throw := throw
  seq := seq
  add := add
  check := ask oracle
  scope := inScope
  ifFound := ifFound
  catchNext := catchNext
  push _ rest := rest
  withActions chain body := body (actions chain)
  call tracebacks chain vec rest :=
    seq (fun s => emit (.invoked ⟨chain, vec, tracebacks, s.asserted⟩) s) rest
  output chain vec transmitter := emit (.leak ⟨vec, transmitter, actions chain⟩)
  unlessLast tracebacks rest := if tracebacks = 0 then skip else rest
  deeper rest := rest

section

variable {V : Type} (G : Graph V) (config : Config) (oracle : Oracle (BoolExpr V))

abbrev tracebackDepsRec := (ops oracle).tracebackDepsRec G config

abbrev Detector.callback (detector : Detector) := (ops oracle).callback G config detector

abbrev runTransmitter := (ops oracle).runTransmitter G config

abbrev forOneTransmitter := (ops oracle).forOneTransmitter G config

end

end Clou.Leakage
