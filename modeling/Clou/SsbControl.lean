import Clou.AttackerTaint
import Clou.Dataflow
import Mathlib.Data.Finset.Prod

/-! The store-bypass control pass: which memory holds uncontrolled data even if the
youngest stores are still in the store buffer. -/

namespace Clou.SsbControl

open AttackerTaint Dataflow

def stbSize : Nat := 1

structure STBEntry where
  pointer : Value
  staleness : Nat
  deriving DecidableEq, Repr

@[ext]
structure SsbValue where
  stb : Finset STBEntry
  mem : Finset Value

instance : DecidableEq SsbValue := fun a b =>
  decidable_of_iff (a.stb = b.stb ∧ a.mem = b.mem) SsbValue.ext_iff.symm

def SsbValue.empty : SsbValue := ⟨∅, ∅⟩

variable (M : Module) (AA : AliasAnalysis) (attackerTaint : List InstRef)

def aged (stb : Finset STBEntry) : Finset STBEntry :=
  stb.image (fun entry => ⟨entry.pointer, entry.staleness + 1⟩)

/-- Memory after the entries that a further store makes stale are committed. -/
def commit (v : SsbValue) : Finset Value :=
  v.mem ∪ ((aged v.stb).filter (fun entry => stbSize ≤ entry.staleness)).image (·.pointer)

def remaining (v : SsbValue) : Finset STBEntry :=
  (aged v.stb).filter (fun entry => entry.staleness < stbSize)

def invalidate (pointer V : Value) : Bool := decide (AA.query V pointer ≠ .noAlias)

def transferStore (pointer : Value) (v : SsbValue) : Option SsbValue :=
  (getResult attackerTaint pointer).map fun taint =>
    if taint then
      ⟨(remaining v).filter (fun entry => !invalidate AA pointer entry.pointer),
        (commit v).filter (fun V => !invalidate AA pointer V)⟩
    else ⟨insert ⟨pointer, 0⟩ (remaining v), commit v⟩

def transfer (I : InstRef) (v : SsbValue) : Option SsbValue :=
  if (M.deref I).isStore then transferStore AA attackerTaint (M.deref I).pointerOperand v
  else if (M.deref I).isDebug then some v
  else if (M.deref I).isCall then some .empty
  else some v

def mustPairs (a b : Finset Value) : Finset (Value × Value) :=
  (a ×ˢ b).filter (fun pair => AA.query pair.1 pair.2 = .mustAlias)

def stbPairs (a b : Finset STBEntry) : Finset (STBEntry × STBEntry) :=
  (a ×ˢ b).filter (fun pair => AA.query pair.1.pointer pair.2.pointer = .mustAlias)

def meet (a b : SsbValue) : SsbValue :=
  ⟨a.stb ∪ b.stb ∪
    (stbPairs AA a.stb b.stb).image (fun pair =>
      ⟨pair.1.pointer, min pair.1.staleness pair.2.staleness⟩) ∪
    (stbPairs AA a.stb b.stb).image (fun pair =>
      ⟨pair.2.pointer, min pair.1.staleness pair.2.staleness⟩),
    (mustPairs AA a.mem b.mem).image (·.1) ∪ (mustPairs AA a.mem b.mem).image (·.2)⟩

def stores (f : FuncRef) : Finset Value :=
  (((M.insts f).filter (fun I => (M.deref I).isStore)).map
    (fun I => (M.deref I).pointerOperand)).toFinset

def top (f : FuncRef) : SsbValue :=
  ⟨(stores M f ×ˢ Finset.range stbSize).image (fun entry => ⟨entry.1, entry.2⟩), stores M f⟩

def context (f : FuncRef) : Context SsbValue :=
  ⟨top M f, transfer M AA attackerTaint, meet AA⟩

/-- The values before and after every instruction; no loop is annotated with a least
number of iterations. -/
def runOnFunction (f : FuncRef) (LI : LoopInfo) (fuel : Nat) : Option (Values SsbValue) :=
  transferLoop (context M AA attackerTaint f) M f LI fuel (fun _ => 0) .empty

def controlled (pointer : Value) (v : SsbValue) : Bool :=
  decide (∀ V ∈ v.mem, AA.query pointer V ≠ .mustAlias)

end Clou.SsbControl
