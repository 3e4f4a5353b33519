import Clou.Alias
import Mathlib.Data.List.AList
import Mathlib.Data.List.Dedup

/-! The attacker-control pass: which instructions an attacker may control, computed from
which stores are known to hold uncontrolled values. -/

namespace Clou.AttackerTaint

/-- Attacker-controlled instructions and non-attacker-controlled stores. -/
structure TaintValue where
  insts : List InstRef
  stores : List Value
  deriving DecidableEq, Repr

def TaintValue.empty : TaintValue := ⟨[], []⟩

def TaintValue.same (a b : TaintValue) : Bool :=
  decide (a.insts ⊆ b.insts ∧ b.insts ⊆ a.insts) &&
    decide (a.stores ⊆ b.stores ∧ b.stores ⊆ a.stores)

/-- What the pass runs in. `order` is the order in which a set of pointers is iterated. -/
structure Context where
  M : Module
  AA : AliasAnalysis
  order : List Value → List Value
  mem_order : ∀ P pointers, P ∈ order pointers ↔ P ∈ pointers
  annotatedUncontrolled : List Value

section

variable (ctx : Context)

/-- A value of a kind the pass does not know aborts it. -/
def inTaint (V : Value) (v : TaintValue) : Option Bool :=
  match V with
  | .inst I => some (decide (I ∈ v.insts))
  | .argument f index => some (!((ctx.M.func f).argIsPointer.getD index false))
  | .constant _ | .basicBlock _ | .metadata _ => some false
  | .unknown _ => none

def isIntegral (V : Value) : Bool :=
  match V with
  | .inst I => match (ctx.M.deref I).kind with | .alloca integer => integer | _ => false
  | _ => false

def isGep (V : Value) : Bool :=
  match V with
  | .inst I => match (ctx.M.deref I).kind with | .getelementptr => true | _ => false
  | _ => false

def isAlloca (V : Value) : Bool :=
  match V with
  | .inst I => match (ctx.M.deref I).kind with | .alloca _ => true | _ => false
  | _ => false

def onlyLocalStores (I : Inst) : Bool :=
  match I.kind with
  | .call _ _ true => true
  | .call (some callee) _ false =>
    !(ctx.M.func callee).isDeclaration &&
      (ctx.M.func callee).blocks.all (fun B => B.all (fun calleeI =>
        !calleeI.isStore || isAlloca ctx calleeI.pointerOperand))
  | _ => false

/-- The taint of an instruction is that of its operands, up to the first tainted one. -/
def anyTaint (v : TaintValue) : List Value → Option Bool
  | [] => some false
  | V :: operands => (inTaint ctx V v).bind fun taint =>
    if taint then some true else anyTaint v operands

def transferCall (I : InstRef) (inst : Inst) (v : TaintValue) : TaintValue :=
  ⟨v.insts.insert I, if onlyLocalStores ctx inst then v.stores else []⟩

def transferOther (I : InstRef) (inst : Inst) (v : TaintValue) : Option TaintValue :=
  (anyTaint ctx v inst.operands).map fun taint =>
    if taint then ⟨v.insts.insert I, v.stores⟩ else v

abbrev Map := AList (fun _ : InstRef => TaintValue)

structure State where
  ins : Map
  outs : Map
  changed : Bool

def top (f : FuncRef) : TaintValue :=
  ⟨[], (((ctx.M.insts f).filter (fun I => (ctx.M.deref I).isStore)).map
    (fun I => (ctx.M.deref I).pointerOperand)).dedup⟩

def entry (f : FuncRef) : InstRef := ⟨f, 0, 0⟩

def initial (f : FuncRef) : State :=
  let all := (ctx.M.insts f).foldl (fun map I => map.insert I (top ctx f)) (∅ : Map)
  ⟨all.insert (entry f) .empty, all, true⟩

def results (f : FuncRef) (state : State) : List InstRef :=
  (ctx.M.insts f).filter (fun I => match state.outs.lookup I with
    | some out => decide (I ∈ out.insts)
    | none => false)

def getResult (insts : List InstRef) (V : Value) : Option Bool :=
  match V with
  | .inst I => some (decide (I ∈ insts))
  | .argument .. => some true
  | .constant _ | .basicBlock _ => some false
  | .metadata _ | .unknown _ => none

end

abbrev Oracle := Value → Value → AliasResult

namespace Oracle

/-! The pass with the answers of an alias oracle, of which nothing is assumed. -/

section

variable (oracle : Oracle) (ctx : Context)

def mustAlias (P Q : Value) : Bool := decide (oracle P Q = .mustAlias)

/-- A pointer is kept together with the first pointer of the other side it must alias. -/
def keepPair (b : TaintValue) (stores : List Value) (VA : Value) : List Value :=
  match (ctx.order b.stores).find? (mustAlias oracle VA) with
  | some VB => (stores.insert VA).insert VB
  | none => stores

def meet (a b : TaintValue) : TaintValue :=
  ⟨a.insts ∪ b.insts, a.stores.foldl (keepPair oracle ctx b) []⟩

/-- The answer of the alias analysis, except that an integer on the stack and a computed
element pointer are taken not to alias. -/
def aliasResult (P V : Value) : Option AliasResult :=
  match oracle P V with
  | .noAlias => some .noAlias
  | .mustAlias => some .mustAlias
  | .mayAlias =>
    if (isIntegral ctx V && isGep ctx P) || (isIntegral ctx P && isGep ctx V) then some .noAlias
    else some .mayAlias
  | .partialAlias => none

def eraseMayAlias (P : Value) : List Value → Option (List Value)
  | [] => some []
  | V :: stores => do
    let result ← aliasResult oracle ctx P V
    let rest ← eraseMayAlias P stores
    some (if result ≠ .noAlias then rest else V :: rest)

/-- A store of an uncontrolled value replaces the stores it must alias. -/
def overwrite (P : Value) (stores : List Value) : List Value :=
  (stores.filter (fun V => !mustAlias oracle P V)).insert P

def transferStore (inst : Inst) (v : TaintValue) : Option TaintValue :=
  (inTaint ctx inst.valueOperand v).bind fun taint =>
    if taint then
      (eraseMayAlias oracle ctx inst.pointerOperand v.stores).map fun stores => ⟨v.insts, stores⟩
    else
      some ⟨v.insts, overwrite oracle inst.pointerOperand v.stores⟩

/-- A load is controlled unless it must read one of the uncontrolled stores. -/
def transferLoad (I : InstRef) (L : Value) (v : TaintValue) : TaintValue :=
  if v.stores.any (mustAlias oracle L) then v else ⟨v.insts.insert I, v.stores⟩

def transferInst (I : InstRef) (v : TaintValue) : Option TaintValue :=
  let inst := ctx.M.deref I
  if inst.isStore then transferStore oracle ctx inst v
  else if inst.isLoad then some (transferLoad oracle I inst.pointerOperand v)
  else if inst.isDebug then some v
  else if inst.isCall then some (transferCall ctx I inst v)
  else transferOther ctx I inst v

def transfer (I : InstRef) (v : TaintValue) : Option TaintValue :=
  (transferInst oracle ctx I v).map fun out => ⟨out.insts, out.stores ∪ ctx.annotatedUncontrolled⟩

def newIn (f : FuncRef) (state : State) (I : InstRef) : Option TaintValue :=
  if I = entry f then state.ins.lookup I
  else if I.index = 0 then
    ((ctx.M.func f).preds I.block).foldlM (fun new P =>
      (state.outs.lookup (ctx.M.terminator ⟨f, P⟩)).map (meet oracle ctx new)) (top ctx f)
  else state.outs.lookup ⟨I.func, I.block, I.index - 1⟩

def visit (f : FuncRef) (state : State) (I : InstRef) : Option State := do
  let oldIn ← state.ins.lookup I
  let new ← newIn oracle ctx f state I
  let oldOut ← state.outs.lookup I
  let newOut ← transfer oracle ctx I new
  some ⟨state.ins.insert I new, state.outs.insert I newOut,
    state.changed || !oldIn.same new || !oldOut.same newOut⟩

def sweep (f : FuncRef) (state : State) : Option State :=
  (ctx.M.insts f).foldlM (visit oracle ctx f) { state with changed := false }

/-- Sweeps are repeated until one changes nothing; `fuel` bounds their number. -/
def iterate (f : FuncRef) : Nat → State → Option State
  | 0, _ => none
  | fuel + 1, state => (sweep oracle ctx f state).bind fun next =>
    if next.changed then iterate f fuel next else some next

def runOnFunction (f : FuncRef) (fuel : Nat) : Option State := iterate oracle ctx f fuel (initial ctx f)

end

end Oracle

/-! The pass with the answers of the context's own analysis. -/

section

variable (ctx : Context)

abbrev aliasResult := Oracle.aliasResult ctx.AA.query ctx

abbrev transfer := Oracle.transfer ctx.AA.query ctx

abbrev runOnFunction := Oracle.runOnFunction ctx.AA.query ctx

end

end Clou.AttackerTaint
