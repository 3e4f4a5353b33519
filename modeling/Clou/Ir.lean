import Mathlib.Data.List.Nodup

/-! The part of the compiler's intermediate representation that the analyses read.
Positions in a module stand for the pointers the source compares. -/

namespace Clou

abbrev FuncRef := Nat

structure BlockRef where
  func : FuncRef
  index : Nat
  deriving DecidableEq, Repr

structure InstRef where
  func : FuncRef
  block : Nat
  index : Nat
  deriving DecidableEq, Repr

def InstRef.parent (I : InstRef) : BlockRef := ⟨I.func, I.block⟩

inductive Value where
  | inst (I : InstRef)
  | argument (func : FuncRef) (index : Nat)
  | constant (id : Nat)
  | basicBlock (B : BlockRef)
  | metadata (id : Nat)
  | unknown (id : Nat)
  deriving DecidableEq, Repr

/-- Debug intrinsics are calls too; `debug` marks them. -/
inductive InstKind where
  | alloca (integer : Bool)
  | getelementptr
  | bitcast
  | load
  | store (volatile : Bool)
  | fence
  | phi
  | call (callee : Option FuncRef) (debug onlyReads : Bool)
  | br
  | switch
  | indirectbr
  | ret
  | unreachable
  | other
  deriving DecidableEq, Repr

/-- Operands stand in the compiler's order: a store has its value before its
pointer, a call its arguments before its callee. -/
structure Inst where
  kind : InstKind
  operands : List Value
  args : List Value
  successors : List Nat
  isVoid : Bool
  isPointer : Bool
  mayReadFromMemory : Bool
  deriving DecidableEq, Repr

namespace Inst

def isCall (I : Inst) : Bool := match I.kind with | .call .. => true | _ => false
def isDebug (I : Inst) : Bool := match I.kind with | .call _ debug _ => debug | _ => false
def isBranch (I : Inst) : Bool := match I.kind with | .br => true | _ => false
def isLoad (I : Inst) : Bool := match I.kind with | .load => true | _ => false
def isStore (I : Inst) : Bool := match I.kind with | .store _ => true | _ => false
def isVolatile (I : Inst) : Bool := match I.kind with | .store volatile => volatile | _ => false
def isFence (I : Inst) : Bool := match I.kind with | .fence => true | _ => false
def isPhi (I : Inst) : Bool := match I.kind with | .phi => true | _ => false
def isRet (I : Inst) : Bool := match I.kind with | .ret => true | _ => false
def isUnreachable (I : Inst) : Bool := match I.kind with | .unreachable => true | _ => false

def isTerminator (I : Inst) : Bool :=
  match I.kind with
  | .br | .switch | .indirectbr | .ret | .unreachable => true
  | _ => false

def valueOperand (I : Inst) : Value := I.operands.getD 0 (.unknown 0)

def pointerOperand (I : Inst) : Value :=
  match I.kind with
  | .store _ => I.operands.getD 1 (.unknown 0)
  | _ => I.operands.getD 0 (.unknown 0)

def missing : Inst := ⟨.unreachable, [], [], [], true, false, false⟩

end Inst

/-- A function without blocks is a declaration. Predecessors are listed in the order in
which the compiler iterates over them. -/
structure Function where
  blocks : List (List Inst)
  predecessors : List (List Nat)
  argIsPointer : List Bool
  deriving DecidableEq, Repr

namespace Function

def isDeclaration (F : Function) : Bool := F.blocks.isEmpty

def block (F : Function) (B : Nat) : List Inst := F.blocks.getD B []

def preds (F : Function) (B : Nat) : List Nat := F.predecessors.getD B []

def terminator (F : Function) (B : Nat) : Inst := (F.block B).getLastD Inst.missing

/-- What the compiler guarantees of a function definition. -/
structure WellFormed (F : Function) : Prop where
  defined : F.blocks ≠ []
  block_ne : ∀ B ∈ F.blocks, B ≠ []
  mem_preds : ∀ {P B}, P ∈ F.preds B ↔ P < F.blocks.length ∧ B ∈ (F.terminator P).successors
  succ_lt : ∀ {P B}, P < F.blocks.length → B ∈ (F.terminator P).successors → B < F.blocks.length
  entry_preds : F.preds 0 = []

theorem WellFormed.nonempty {F : Function} (wellFormed : F.WellFormed) {B : Nat}
    (valid : B < F.blocks.length) : 0 < (F.block B).length := by
  have present : F.block B ∈ F.blocks := by simp [block, valid]
  exact List.length_pos_iff.mpr (wellFormed.block_ne _ present)

def isWellFormed (F : Function) : Bool :=
  decide (F.blocks ≠ []) && F.blocks.all (fun B => !B.isEmpty) && decide (F.preds 0 = []) &&
    decide (F.predecessors.length ≤ F.blocks.length) &&
    (List.range F.blocks.length).all (fun B =>
      (F.preds B).all (fun P => decide (P < F.blocks.length ∧ B ∈ (F.terminator P).successors)) &&
      (F.terminator B).successors.all (fun S => decide (S < F.blocks.length ∧ B ∈ F.preds S)))

theorem wellFormed_of_test {F : Function} (test : F.isWellFormed = true) : F.WellFormed := by
  simp only [isWellFormed, Bool.and_eq_true, decide_eq_true_eq, List.all_eq_true, List.mem_range,
    Bool.not_eq_true', List.isEmpty_eq_false_iff] at test
  rcases test with ⟨⟨⟨⟨defined, nonempty⟩, entry⟩, short⟩, edges⟩
  refine ⟨defined, nonempty, ?_, fun bound succ => ((edges _ bound).2 _ succ).1, entry⟩
  intro P B
  constructor
  · intro pred
    have bound : B < F.blocks.length := by
      by_contra far
      have none : F.preds B = [] := by
        simp [preds, List.getElem?_eq_none (Nat.le_trans short (Nat.le_of_not_lt far))]
      simp [none] at pred
    exact (edges B bound).1 P pred
  · rintro ⟨bound, succ⟩
    exact ((edges P bound).2 B succ).2

end Function

structure Module where
  funcs : List Function
  deriving DecidableEq, Repr

namespace Module

def func (M : Module) (f : FuncRef) : Function := M.funcs.getD f ⟨[], [], []⟩

def deref (M : Module) (I : InstRef) : Inst :=
  ((M.func I.func).block I.block).getD I.index Inst.missing

def insts (M : Module) (f : FuncRef) : List InstRef :=
  (List.range (M.func f).blocks.length).flatMap (fun B =>
    (List.range ((M.func f).block B).length).map (fun i => ⟨f, B, i⟩))

def terminator (M : Module) (B : BlockRef) : InstRef :=
  ⟨B.func, B.index, ((M.func B.func).block B.index).length - 1⟩

/-- Control passes from an instruction to the next one of its block, or from a
terminator to the front of a successor block. -/
inductive Next (M : Module) : InstRef → InstRef → Prop
  | seq {f B i} : i + 1 < ((M.func f).block B).length → Next M ⟨f, B, i⟩ ⟨f, B, i + 1⟩
  | jump {f B i S} : i + 1 = ((M.func f).block B).length →
      S ∈ ((M.func f).terminator B).successors → Next M ⟨f, B, i⟩ ⟨f, S, 0⟩

theorem mem_insts (M : Module) (f : FuncRef) (I : InstRef) :
    I ∈ M.insts f ↔ I.func = f ∧ I.block < (M.func f).blocks.length ∧
      I.index < ((M.func f).block I.block).length := by
  simp only [insts, List.mem_flatMap, List.mem_range, List.mem_map]
  constructor
  · rintro ⟨B, bound, i, inside, rfl⟩
    exact ⟨rfl, bound, inside⟩
  · rcases I with ⟨_, B, i⟩
    rintro ⟨rfl, bound, inside⟩
    exact ⟨B, bound, i, inside, rfl⟩

theorem entry_mem_insts {M : Module} {f : FuncRef} (wellFormed : (M.func f).WellFormed) :
    ⟨f, 0, 0⟩ ∈ M.insts f := by
  have defined := List.length_pos_iff.mpr wellFormed.defined
  exact (mem_insts ..).mpr ⟨rfl, defined, wellFormed.nonempty defined⟩

theorem Next.mem_insts {M : Module} {f : FuncRef} (wellFormed : (M.func f).WellFormed)
    {I J : InstRef} (member : I ∈ M.insts f) (edge : M.Next I J) : J ∈ M.insts f := by
  rw [Module.mem_insts] at member ⊢
  cases edge with
  | seq bound => exact ⟨member.1, member.2.1, member.1 ▸ bound⟩
  | @jump g B i S last succ =>
    obtain rfl : g = f := member.1
    have valid := wellFormed.succ_lt member.2.1 succ
    exact ⟨rfl, valid, wellFormed.nonempty valid⟩

theorem nodup_insts (M : Module) (f : FuncRef) : (M.insts f).Nodup := by
  apply List.nodup_flatMap.mpr
  constructor
  · intro B _
    exact List.nodup_range.map fun i j same => by simpa using same
  · apply List.nodup_range.imp
    intro B C different I left right
    rcases List.mem_map.mp left with ⟨i, -, rfl⟩
    rcases List.mem_map.mp right with ⟨j, -, same⟩
    simp only [InstRef.mk.injEq] at same
    exact different same.2.1.symm

end Module

end Clou
