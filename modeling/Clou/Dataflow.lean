import Clou.LoopInfo
import Clou.OptionFold
import Mathlib.Data.List.AList

/-! The dataflow framework: components that transfer a value from their entry to their
exits, and graphs of components that are iterated until nothing changes. -/

namespace Clou.Dataflow

abbrev Map (V : Type) := AList (fun _ : InstRef => V)

structure Context (V : Type) where
  top : V
  transfer : InstRef → V → Option V
  meet : V → V → V

structure Values (V : Type) where
  ins : Map V
  outs : Map V
  exits : Map V

structure Component (V : Type) where
  entry : InstRef
  exits : List InstRef
  insts : List InstRef
  transfer : V → Option (Values V)

structure Graph (V : Type) where
  components : List (Component V)
  entry : InstRef
  exits : List InstRef
  ignore : List (InstRef × InstRef)

structure CacheEntry (V : Type) where
  entry : V
  exits : Map V

abbrev Cache (V : Type) := AList (fun _ : InstRef => CacheEntry V)

structure State (V : Type) where
  ins : Map V
  outs : Map V
  exits : Map V
  oldIns : Map V
  oldOuts : Map V
  oldExits : Map V
  cache : Cache V

variable {V : Type} (ctx : Context V) (M : Module) (f : FuncRef)

/-- Inserting never replaces what is there. -/
def insertAll (map other : Map V) : Map V := map ∪ other

namespace Graph

def insts (G : Graph V) : List InstRef := G.components.flatMap (·.insts)

def componentExits (G : Graph V) : List InstRef := G.components.flatMap (·.exits)

def checkEdge (G : Graph V) (src dst : InstRef) : Bool :=
  decide (dst ∈ G.components.map (·.entry) ∧ src ∈ G.componentExits ∧ (src, dst) ∉ G.ignore)

def meetPred (G : Graph V) (outs : Map V) (I : InstRef) (new : V) (P : Nat) : Option V :=
  if G.checkEdge (M.terminator ⟨f, P⟩) I then
    (outs.lookup (M.terminator ⟨f, P⟩)).map (ctx.meet new)
  else some new

/-- The new value before a component: from `top`, except at the graph's entry. -/
def meetAt (G : Graph V) (ins outs : Map V) (I : InstRef) : Option V :=
  (ins.lookup I).bind fun old =>
    if I.index = 0 then
      ((M.func f).preds I.block).foldlM (G.meetPred ctx M f outs I)
        (if I ≠ G.entry then ctx.top else old)
    else outs.lookup ⟨f, I.block, I.index - 1⟩

def meetOnce (G : Graph V) (ins outs : Map V) : Option (Map V) :=
  G.components.foldlM (fun ins component =>
    (G.meetAt ctx M f ins outs component.entry).map (AList.insert component.entry · ins)) ins

def order (G : Graph V) : List (Component V) :=
  (M.insts f).filterMap (fun I => G.components.find? (fun component => component.entry = I))

structure Pass (V : Type) where
  ins : Map V
  outs : Map V
  exits : Map V
  cache : Cache V

end Graph

def transferInsts : List InstRef → V → Map V → Map V → Option (V × Map V × Map V)
  | [], value, ins, outs => some (value, ins, outs)
  | I :: rest, value, ins, outs =>
    (ctx.transfer I value).bind fun out =>
      transferInsts rest out (ins.insert I value) (outs.insert I out)

def blockInsts (B : Nat) : List InstRef :=
  (List.range ((M.func f).block B).length).map (fun i => ⟨f, B, i⟩)

def block (B : Nat) : Component V where
  entry := ⟨f, B, 0⟩
  exits := [M.terminator ⟨f, B⟩]
  insts := blockInsts M f B
  transfer := fun entryValue =>
    (transferInsts ctx (blockInsts M f B) entryValue ∅ ∅).map fun result =>
      ⟨result.2.1, result.2.2, AList.insert (M.terminator ⟨f, B⟩) result.1 ∅⟩

def exitingBlocks (L : Loop) : List Nat :=
  L.blocks.filter (fun B => ((M.func f).terminator B).successors.any (· ∉ L.blocks))

def backblocks (L : Loop) : List Nat :=
  L.blocks.filter (fun B => L.header ∈ ((M.func f).terminator B).successors)

def loopExits (L : Loop) : List InstRef := (exitingBlocks M f L).map (fun B => M.terminator ⟨f, B⟩)

def ownBlocks (blocks : List Nat) (loops : List Loop) : List Nat :=
  blocks.filter (fun B => loops.all (fun L => B ∉ L.blocks))

variable [DecidableEq V]

def sameMap (a b : Map V) : Bool :=
  a.keys.all (fun I => decide (a.lookup I = b.lookup I)) &&
    b.keys.all (fun I => decide (a.lookup I = b.lookup I))

namespace Graph

/-- A component whose entry value is the cached one is not transferred again. -/
def transferComponent (pass : Pass V) (component : Component V) : Option (Pass V) :=
  (pass.ins.lookup component.entry).bind fun entryValue =>
    match pass.cache.lookup component.entry with
    | some cached =>
      if cached.entry = entryValue then
        some { pass with exits := insertAll pass.exits cached.exits }
      else run entryValue
    | none => run entryValue
where
  run (entryValue : V) : Option (Pass V) :=
    (component.transfer entryValue).bind fun result =>
      -- The cache takes the entry value from the map that the transfer has written to.
      ((insertAll result.ins pass.ins).lookup component.entry).map fun entry =>
        { ins := insertAll result.ins pass.ins
          outs := insertAll result.outs pass.outs
          exits := insertAll pass.exits result.exits
          cache := pass.cache.insert component.entry ⟨entry, result.exits⟩ }

def transferOnce (G : Graph V) (ins outs : Map V) (cache : Cache V) : Option (Pass V) :=
  (G.order M f).foldlM transferComponent ⟨ins, outs, ∅, cache⟩

def stable (s : State V) : Bool :=
  sameMap s.ins s.oldIns && sameMap s.outs s.oldOuts && sameMap s.exits s.oldExits

def round (G : Graph V) (s : State V) : Option (State V) :=
  (G.meetOnce ctx M f s.ins s.exits).bind fun ins =>
    (G.transferOnce M f ins s.outs s.cache).map fun pass =>
      ⟨pass.ins, pass.outs, pass.exits, s.ins, s.outs, s.exits, pass.cache⟩

/-- Rounds are repeated until one changes nothing; `fuel` bounds their number. -/
def iterate (G : Graph V) : Nat → State V → Option (State V)
  | 0, _ => none
  | fuel + 1, s => if stable s then some s else (G.round ctx M f s).bind (G.iterate fuel)

def constantMap (value : V) (insts : List InstRef) : Map V :=
  insts.foldl (fun map I => map.insert I value) ∅

def initial (G : Graph V) (entryValue : V) (cache : Cache V) : State V :=
  ⟨(constantMap ctx.top G.insts).insert G.entry entryValue, constantMap ctx.top G.insts,
    constantMap ctx.top G.componentExits, ∅, ∅, ∅, cache⟩

/-- The writes of a graph's transfer, with the cache it leaves behind. -/
def transfer (G : Graph V) (fuel : Nat) (entryValue : V) (cache : Cache V) :
    Option (Values V × Cache V) :=
  (G.iterate ctx M f fuel (G.initial ctx entryValue cache)).map fun s =>
    (⟨s.ins, s.outs, G.exits.foldl (fun map I =>
      match s.exits.lookup I with
      | some value => map.insert I value
      | none => map) ∅⟩, s.cache)

end Graph

/-- The iterations a loop is annotated to make at least: each transfers the graph without
its back edges and meets what reaches them. -/
def minimumIterations (G : Graph V) (fuel : Nat) (backinsts : List InstRef) :
    Nat → V → Option V → Cache V → Option (V × Cache V)
  | 0, value, _, cache => some (value, cache)
  | count + 1, value, old, cache =>
    if old = some value then some (value, cache)
    else (G.transfer ctx M f fuel value cache).bind fun result =>
      (backinsts.foldlM (fun new I => (result.1.exits.lookup I).map (ctx.meet new)) ctx.top).bind
        fun next => minimumIterations G fuel backinsts count next (some value) result.2

/-- The loop as a component, from the graph of its own blocks and its subloops. The
writes inside come from the first transfer, the exit values from the last. -/
def loopComponent (fuel : Nat) (minIterations : Nat) (L : Loop) (components : List (Component V)) :
    Component V where
  entry := ⟨f, L.header, 0⟩
  exits := loopExits M f L
  insts := L.blocks.flatMap (blockInsts M f)
  transfer := fun entryValue =>
    let G : Graph V := ⟨components, ⟨f, L.header, 0⟩, [], []⟩
    let backinsts := (backblocks M f L).map (fun B => M.terminator ⟨f, B⟩)
    (G.transfer ctx M f fuel entryValue ∅).bind fun inside =>
      let constrained := { G with
        exits := backinsts, ignore := backinsts.map (·, ⟨f, L.header, 0⟩) }
      let final := { G with exits := loopExits M f L }
      (minimumIterations ctx M f constrained fuel backinsts minIterations entryValue none
          inside.2).bind fun last =>
        (final.transfer ctx M f fuel last.1 last.2).map fun outside =>
          ⟨inside.1.ins, inside.1.outs, outside.1.exits⟩

mutual

def loop (fuel : Nat) (minIterations : Loop → Nat) : Loop → Component V
  | .mk header blocks subloops =>
    loopComponent ctx M f fuel (minIterations (.mk header blocks subloops))
      (.mk header blocks subloops)
      (loops fuel minIterations subloops ++ (ownBlocks blocks subloops).map (block ctx M f))

def loops (fuel : Nat) (minIterations : Loop → Nat) : List Loop → List (Component V)
  | [] => []
  | L :: rest => loop fuel minIterations L :: loops fuel minIterations rest

end

/-- The loops of a nest, and its blocks that are in none of them. -/
def nestComponents (fuel : Nat) (minIterations : Loop → Nat) (blocks : List Nat) (Ls : List Loop) :
    List (Component V) :=
  loops ctx M f fuel minIterations Ls ++ (ownBlocks blocks Ls).map (block ctx M f)

def nestGraph (fuel : Nat) (minIterations : Loop → Nat) (blocks : List Nat) (Ls : List Loop)
    (header : Nat) (exits : List InstRef) (ignore : List (InstRef × InstRef)) : Graph V :=
  ⟨nestComponents ctx M f fuel minIterations blocks Ls, ⟨f, header, 0⟩, exits, ignore⟩

def transferLoop (LI : LoopInfo) (fuel : Nat) (minIterations : Loop → Nat) (entryValue : V) :
    Option (Values V) :=
  let G := nestGraph ctx M f fuel minIterations (List.range (M.func f).blocks.length) LI.top 0 [] []
  (G.transfer ctx M f fuel entryValue ∅).map (·.1)

def instruction (I : InstRef) : Component V where
  entry := I
  exits := [I]
  insts := [I]
  transfer := fun entryValue => (ctx.transfer I entryValue).map fun out =>
    ⟨AList.insert I entryValue ∅, AList.insert I out ∅, AList.insert I out ∅⟩

/-- The graph of a function in which every instruction is one component. -/
abbrev instructions : Graph V := ⟨(M.insts f).map (instruction ctx), ⟨f, 0, 0⟩, [], []⟩

def transferInst (fuel : Nat) (entryValue : V) : Option (Values V) :=
  ((instructions ctx M f).transfer ctx M f fuel entryValue ∅).map (·.1)

end Clou.Dataflow
