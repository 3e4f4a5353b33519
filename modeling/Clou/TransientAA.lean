import Clou.DataflowModes
import Clou.DataflowTransport
import Clou.Dominance
import Mathlib.Data.Finset.Interval

/-! The analysis of which pointers keep their architectural aliasing under transient execution:
a pass by instruction that starts from all pointers and takes away those that may come from
memory. -/

namespace Clou.TransientAA

open Dataflow

def isAlloca (I : Inst) : Bool := match I.kind with | .alloca _ => true | _ => false

def isGetElementPtr (I : Inst) : Bool := match I.kind with | .getelementptr => true | _ => false

def isBitCast (I : Inst) : Bool := match I.kind with | .bitcast => true | _ => false

/-- The instructions of a module, with the values of pointer type. An alloca is a pointer, and a
bit cast is one if its operand is. -/
structure Context where
  M : Module
  isPointerTy : Value → Bool
  inst : ∀ I, isPointerTy (.inst I) = (M.deref I).isPointer
  alloca : ∀ I, isAlloca (M.deref I) = true → (M.deref I).isPointer = true
  bitCast : ∀ I, isBitCast (M.deref I) = true → isPointerTy (M.deref I).valueOperand = (M.deref I).isPointer

abbrev Pointers := Finset InstRef

def contains (pointers : Pointers) : Value → Bool
  | .inst I => decide (I ∈ pointers)
  | _ => false

def isConstant : Value → Bool
  | .constant _ => true
  | _ => false

section

variable (ctx : Context)

/-- The last branch asserts that the instruction is no pointer. -/
def transfer (I : InstRef) (pointers : Pointers) : Option Pointers :=
  let inst := ctx.M.deref I
  if inst.isLoad || inst.isCall then some (pointers.erase I)
  else if isAlloca inst then some (insert I pointers)
  else if isGetElementPtr inst then
    if contains pointers inst.pointerOperand && inst.operands.all isConstant then some (insert I pointers)
    else some (pointers.erase I)
  else if isBitCast inst then
    if inst.isPointer && ctx.isPointerTy inst.valueOperand then
      if contains pointers inst.valueOperand then some (insert I pointers) else some (pointers.erase I)
    else some pointers
  else if inst.isPointer then none
  else some pointers

def meet (a b : Pointers) : Pointers := a.filter (· ∈ b)

def top (f : FuncRef) : Pointers :=
  ((ctx.M.insts f).filter fun I => (ctx.M.deref I).isPointer).toFinset

def dataflow (f : FuncRef) : Dataflow.Context Pointers := ⟨top ctx f, transfer ctx, meet⟩

def valid (f : FuncRef) (fuel : Nat) : Option Pointers :=
  (transferInst (dataflow ctx f) ctx.M f fuel (top ctx f)).map fun r =>
    r.outs.entries.foldl (fun valid entry => valid.filter (· ∈ entry.2)) (top ctx f)

end

/-! What the pass is for -/

section

variable (ctx : Context) (f : FuncRef)

structure PointerCast (I : InstRef) : Prop where
  listed : I ∈ ctx.M.insts f
  bitCast : isBitCast (ctx.M.deref I) = true
  pointer : (ctx.M.deref I).isPointer = true
  operand : ctx.isPointerTy (ctx.M.deref I).valueOperand = true

/-- An element at constant indices. The first operand is the pointer. -/
structure ConstantElement (I : InstRef) : Prop where
  listed : I ∈ ctx.M.insts f
  element : isGetElementPtr (ctx.M.deref I) = true
  indices : (ctx.M.deref I).operands.tail.all isConstant = true

/-- The pointers that are made from allocas by constant elements and casts. -/
inductive Derived : InstRef → Prop where
  | alloca {I : InstRef} (listed : I ∈ ctx.M.insts f) (alloca : isAlloca (ctx.M.deref I) = true) : Derived I
  | element {I J : InstRef} (element : ConstantElement ctx f I)
      (operand : (ctx.M.deref I).pointerOperand = .inst J) (derived : Derived J) : Derived I
  | cast {I J : InstRef} (cast : PointerCast ctx f I) (operand : (ctx.M.deref I).valueOperand = .inst J)
      (derived : Derived J) : Derived I

/-- The pass ends without a failing assertion, and finds the pointers made from allocas. -/
def Exact : Prop :=
  ∃ bound, ∀ fuel ≥ bound, ∃ found, valid ctx f fuel = some found ∧ ∀ I, I ∈ found ↔ Derived ctx f I

/-- Pointers come from the instructions that the transfer has a branch for. -/
def Handled : Prop :=
  ∀ I ∈ ctx.M.insts f, (ctx.M.deref I).isPointer = true → (ctx.M.deref I).isLoad = true ∨
    (ctx.M.deref I).isCall = true ∨ isAlloca (ctx.M.deref I) = true ∨
    isGetElementPtr (ctx.M.deref I) = true ∨ isBitCast (ctx.M.deref I) = true

/-- What is loaded, returned or computed, and what is cast from such a pointer where that one
comes before. -/
inductive Spoiled : InstRef → Prop where
  | made {I : InstRef} (listed : I ∈ ctx.M.insts f) (kind : (ctx.M.deref I).isLoad = true ∨
      (ctx.M.deref I).isCall = true ∨ isGetElementPtr (ctx.M.deref I) = true) : Spoiled I
  | cast {I : InstRef} (cast : PointerCast ctx f I)
      (operand : contains (top ctx f) (ctx.M.deref I).valueOperand = false) : Spoiled I
  | again {I J : InstRef} (cast : PointerCast ctx f I) (operand : (ctx.M.deref I).valueOperand = .inst J)
      (spoiled : Spoiled J) (before : Relation.TransGen ctx.M.Next J I) : Spoiled I

end

/-! One step -/

section Step

variable {ctx : Context} {f : FuncRef} {I : InstRef}

theorem mem_top : I ∈ top ctx f ↔ I ∈ ctx.M.insts f ∧ (ctx.M.deref I).isPointer = true := by
  simp [top]

/-- Whether an instruction is among the pointers after itself. -/
def Keeps (ctx : Context) (I : InstRef) (pointers : Pointers) : Prop :=
  let inst := ctx.M.deref I
  if inst.isLoad || inst.isCall then False
  else if isAlloca inst then True
  else if isGetElementPtr inst then False
  else if isBitCast inst && (inst.isPointer && ctx.isPointerTy inst.valueOperand) then
    contains pointers inst.valueOperand = true
  else I ∈ pointers

/-- The operands of an element include its pointer, which is no constant if it is an
instruction. -/
theorem element_never (pointers : Pointers) {inst : Inst} (element : isGetElementPtr inst = true) :
    (contains pointers inst.pointerOperand && inst.operands.all isConstant) = false := by
  have operand : inst.pointerOperand = inst.operands.getD 0 (.unknown 0) := by
    unfold isGetElementPtr at element
    unfold Inst.pointerOperand
    cases kind : inst.kind with
    | store volatile => simp [kind] at element
    | _ => rfl
  rw [operand]
  cases inst.operands with
  | nil => rfl
  | cons V rest =>
    cases V with
    | constant id => rfl
    | _ => simp [isConstant]

variable {pointers : Pointers}

theorem mem_transfer {out : Pointers} (moved : transfer ctx I pointers = some out) (J : InstRef) :
    J ∈ out ↔ J = I ∧ Keeps ctx I pointers ∨ J ≠ I ∧ J ∈ pointers := by
  have erased : J ∈ pointers.erase I ↔ J = I ∧ False ∨ J ≠ I ∧ J ∈ pointers := by simp
  have inserted : J ∈ insert I pointers ↔ J = I ∧ True ∨ J ≠ I ∧ J ∈ pointers := by
    by_cases same : J = I
    · simp [same]
    · simp [same]
  have same : J ∈ pointers ↔ J = I ∧ I ∈ pointers ∨ J ≠ I ∧ J ∈ pointers := by
    by_cases same : J = I
    · simp [same]
    · simp [same]
  unfold Keeps
  simp only [transfer] at moved
  simp only
  split at moved
  · cases moved
    rw [if_pos ‹_›]
    exact erased
  · rw [if_neg ‹_›]
    split at moved
    · cases moved
      rw [if_pos ‹_›]
      exact inserted
    · rw [if_neg ‹_›]
      split at moved
      · have element : isGetElementPtr (ctx.M.deref I) = true := ‹_›
        rw [element_never pointers element, if_neg Bool.false_ne_true] at moved
        cases moved
        rw [if_pos element]
        exact erased
      · rw [if_neg ‹_›]
        split at moved
        · have cast : isBitCast (ctx.M.deref I) = true := ‹_›
          rw [cast, Bool.true_and]
          split at moved
          · rw [if_pos ‹_›]
            split at moved
            · rename_i held
              cases moved
              simpa only [held] using inserted
            · rename_i absent
              cases moved
              simpa only [absent, Bool.false_eq_true] using erased
          · cases moved
            rw [if_neg ‹_›]
            exact same
        · rename_i cast
          rw [Bool.eq_false_iff.mpr cast, Bool.false_and, if_neg Bool.false_ne_true]
          split at moved
          · cases moved
          · cases moved
            exact same

theorem contains_mono {more : Pointers} (subset : pointers ⊆ more) {V : Value}
    (held : contains pointers V = true) : contains more V = true := by
  cases V with
  | inst J =>
    simp only [contains, decide_eq_true_eq] at held ⊢
    exact subset held
  | _ => cases held

theorem Keeps.mono {more : Pointers} (subset : pointers ⊆ more) (keeps : Keeps ctx I pointers) :
    Keeps ctx I more := by
  unfold Keeps at keeps ⊢
  simp only at keeps ⊢
  split
  · rwa [if_pos ‹_›] at keeps
  · rw [if_neg ‹_›] at keeps
    split
    · trivial
    · rw [if_neg ‹_›] at keeps
      split
      · rwa [if_pos ‹_›] at keeps
      · rw [if_neg ‹_›] at keeps
        split
        · rw [if_pos ‹_›] at keeps
          exact contains_mono subset keeps
        · rw [if_neg ‹_›] at keeps
          exact subset keeps

theorem transfer_eq_none : transfer ctx I pointers = none ↔
    (ctx.M.deref I).isPointer = true ∧ ¬ ((ctx.M.deref I).isLoad = true ∨ (ctx.M.deref I).isCall = true ∨
      isAlloca (ctx.M.deref I) = true ∨ isGetElementPtr (ctx.M.deref I) = true ∨ isBitCast (ctx.M.deref I) = true) := by
  unfold transfer
  simp only
  split
  · rename_i kind
    rw [Bool.or_eq_true] at kind
    simp only [reduceCtorEq, false_iff, not_and, not_not]
    exact fun _ => kind.imp_right .inl
  · split
    · simp_all
    · split
      · split <;> simp_all
      · split
        · split
          · split <;> simp_all
          · simp_all
        · split <;> simp_all

theorem keeps_top (listed : I ∈ ctx.M.insts f) (inside : pointers ⊆ top ctx f)
    (keeps : Keeps ctx I pointers) : I ∈ top ctx f := by
  unfold Keeps at keeps
  simp only at keeps
  split at keeps
  · exact keeps.elim
  · split at keeps
    · exact mem_top.mpr ⟨listed, ctx.alloca I ‹_›⟩
    · split at keeps
      · exact keeps.elim
      · split at keeps
        · rename_i cast
          simp only [Bool.and_eq_true] at cast
          exact mem_top.mpr ⟨listed, cast.2.1⟩
        · exact inside keeps

theorem made_not_alloca {inst : Inst}
    (kind : inst.isLoad = true ∨ inst.isCall = true ∨ isGetElementPtr inst = true) : isAlloca inst = false := by
  unfold isAlloca
  cases isKind : inst.kind with
  | alloca integer => simp [Inst.isLoad, Inst.isCall, isGetElementPtr, isKind] at kind
  | _ => rfl

theorem not_keeps_of_made
    (kind : (ctx.M.deref I).isLoad = true ∨
    (ctx.M.deref I).isCall = true ∨ isGetElementPtr (ctx.M.deref I) = true) :
    ¬ Keeps ctx I pointers := by
  unfold Keeps
  simp only
  split
  · exact id
  · split
    · rename_i alloca
      rw [made_not_alloca kind] at alloca
      cases alloca
    · rename_i other _
      rw [Bool.or_eq_true, not_or] at other
      rw [if_pos ((kind.resolve_left other.1).resolve_left other.2)]
      exact id

theorem PointerCast.other (cast : PointerCast ctx f I) :
    (ctx.M.deref I).isLoad = false ∧ (ctx.M.deref I).isCall = false ∧
      isAlloca (ctx.M.deref I) = false ∧ isGetElementPtr (ctx.M.deref I) = false := by
  have bitCast := cast.bitCast
  unfold isBitCast at bitCast
  split at bitCast
  · rename_i kind
    simp [Inst.isLoad, Inst.isCall, isAlloca, isGetElementPtr, kind]
  · cases bitCast

theorem PointerCast.keeps_iff (cast : PointerCast ctx f I) :
    Keeps ctx I pointers ↔ contains pointers (ctx.M.deref I).valueOperand = true := by
  obtain ⟨load, call, alloca, element⟩ := cast.other
  simp [Keeps, load, call, alloca, element, cast.bitCast, cast.pointer, cast.operand]

end Step

/-! The result of the pass -/

section Result

variable (ctx : Context) (f : FuncRef)

/-- The values that occur: sets of pointers of the function. -/
abbrev Level := Set.Iic (top ctx f)

def step (I : InstRef) (v : Level ctx f) : Level ctx f :=
  ⟨(transfer ctx I v.1).getD v.1 ∩ top ctx f, Set.mem_Iic.mpr Finset.inter_subset_right⟩

variable {ctx f}

theorem step_val (I : InstRef) (v : Level ctx f) :
    (step ctx f I v).1 = (transfer ctx I v.1).getD v.1 ∩ top ctx f := rfl

variable {I : InstRef}

theorem transfer_step (listed : I ∈ ctx.M.insts f) {v : Level ctx f} {out : Pointers}
    (moved : transfer ctx I v.1 = some out) : out = (step ctx f I v).1 := by
  have inside : out ⊆ top ctx f := by
    intro J member
    rcases (mem_transfer moved J).mp member with ⟨same, keeps⟩ | ⟨_, old⟩
    · exact same ▸ keeps_top listed v.2 keeps
    · exact v.2 old
  rw [step_val, moved, Option.getD_some, Finset.inter_eq_left.mpr inside]

theorem step_mono (I : InstRef) : Monotone (step ctx f I) := by
  intro v w below J member
  rw [step_val, Finset.mem_inter] at member ⊢
  refine ⟨?_, member.2⟩
  cases moved : transfer ctx I w.1 with
  | none =>
    rw [transfer_eq_none.mpr (transfer_eq_none.mp moved)] at member
    exact below member.1
  | some out =>
    cases moved' : transfer ctx I v.1 with
    | none =>
      rw [transfer_eq_none.mpr (transfer_eq_none.mp moved')] at moved
      cases moved
    | some out' =>
      rw [moved'] at member
      refine (mem_transfer moved J).mpr (((mem_transfer moved' J).mp member.1).imp ?_ ?_)
      · exact fun own => ⟨own.1, own.2.mono below⟩
      · exact fun other => ⟨other.1, below other.2⟩

theorem exists_transfer (handled : Handled ctx f) (listed : I ∈ ctx.M.insts f)
    (pointers : Pointers) : ∃ out, transfer ctx I pointers = some out := by
  cases moved : transfer ctx I pointers with
  | some out => exact ⟨out, rfl⟩
  | none =>
    obtain ⟨pointer, unhandled⟩ := transfer_eq_none.mp moved
    exact absurd (handled I listed pointer) unhandled

theorem mem_step (handled : Handled ctx f) (listed : I ∈ ctx.M.insts f) {v : Level ctx f}
    {J : InstRef} : J ∈ (step ctx f I v).1 ↔ J = I ∧ Keeps ctx I v.1 ∨ J ≠ I ∧ J ∈ v.1 := by
  obtain ⟨out, moved⟩ := exists_transfer handled listed v.1
  rw [← transfer_step listed moved]
  exact mem_transfer moved J

/-- The pass over these sets is the one over all sets of instructions. -/
theorem level_embeds (handled : Handled ctx f) :
    Embeds (Subtype.val : Level ctx f → Pointers) (latticeContext (step ctx f)) (dataflow ctx f) ctx.M f := by
  refine ⟨Subtype.val_injective, rfl, fun a b => ?_, fun I listed v => ?_⟩
  · exact Finset.filter_mem_eq_inter ..
  · obtain ⟨out, moved⟩ := exists_transfer handled listed v.1
    exact moved.trans (congrArg some (transfer_step listed moved))

section

variable {φ : InstRef → Level ctx f} (handled : Handled ctx f)

include handled

variable {I J : InstRef}

/-- What an instruction takes away is missing wherever control goes on from it. -/
theorem missing_after (allowed : Allowed (step ctx f) ctx.M f ⊤ φ)
    (wellFormed : (ctx.M.func f).WellFormed) (listed : I ∈ ctx.M.insts f)
    (gone : I ∉ (step ctx f I (φ I)).1) (path : Relation.TransGen ctx.M.Next I J) :
    J ∈ ctx.M.insts f ∧ I ∉ (φ J).1 := by
  induction path with
  | single next =>
    exact ⟨next.mem_insts wellFormed listed, fun member => gone (allowed.edge I listed _ next member)⟩
  | @tail K L _ next ih =>
    refine ⟨next.mem_insts wellFormed ih.1, fun member => ?_⟩
    rcases (mem_step handled ih.1).mp (allowed.edge K ih.1 L next member) with ⟨same, keeps⟩ | ⟨_, old⟩
    · subst same
      exact gone ((mem_step handled listed).mpr (.inl ⟨rfl, keeps⟩))
    · exact ih.2 old

theorem spoiled_gone (allowed : Allowed (step ctx f) ctx.M f ⊤ φ)
    (wellFormed : (ctx.M.func f).WellFormed) (spoiled : Spoiled ctx f I) :
    I ∈ ctx.M.insts f ∧ I ∉ (step ctx f I (φ I)).1 := by
  have gone {I : InstRef} (listed : I ∈ ctx.M.insts f) (keeps : ¬ Keeps ctx I (φ I).1) :
      I ∉ (step ctx f I (φ I)).1 := by
    intro member
    rcases (mem_step handled listed).mp member with ⟨_, kept⟩ | ⟨other, _⟩
    · exact keeps kept
    · exact other rfl
  induction spoiled with
  | @made I listed kind =>
    exact ⟨listed, gone listed (not_keeps_of_made kind)⟩
  | @cast I cast operand =>
    refine ⟨cast.listed, gone cast.listed ?_⟩
    rw [cast.keeps_iff]
    intro held
    rw [contains_mono (φ I).2 held] at operand
    cases operand
  | @again I J cast operand _ before ih =>
    refine ⟨cast.listed, gone cast.listed ?_⟩
    rw [cast.keeps_iff, operand]
    have absent := (missing_after handled allowed wellFormed ih.1 ih.2 before).2
    simpa [contains] using absent

open Classical in
noncomputable def clean (ctx : Context) (f : FuncRef) (J : InstRef) : Level ctx f :=
  ⟨(top ctx f).filter fun I => ¬ (Spoiled ctx f I ∧ Relation.TransGen ctx.M.Next I J),
    Set.mem_Iic.mpr (Finset.filter_subset ..)⟩

omit handled in
theorem mem_clean : I ∈ (clean ctx f J).1 ↔
    I ∈ top ctx f ∧ ¬ (Spoiled ctx f I ∧ Relation.TransGen ctx.M.Next I J) := by
  simp [clean]

omit handled in
/-- A pointer that is not spoiled is kept where nothing before it was spoiled. -/
theorem keeps_clean (pointer : I ∈ top ctx f) (sound : ¬ Spoiled ctx f I) :
    Keeps ctx I (clean ctx f I).1 := by
  obtain ⟨listed, isPointer⟩ := mem_top.mp pointer
  unfold Keeps
  simp only
  split
  · rename_i kind
    rw [Bool.or_eq_true] at kind
    exact sound (.made listed (kind.imp_right .inl))
  · split
    · trivial
    · split
      · rename_i element
        exact sound (.made listed (.inr (.inr element)))
      · split
        · rename_i bitCast
          simp only [Bool.and_eq_true] at bitCast
          have cast : PointerCast ctx f I := ⟨listed, bitCast.1, isPointer, bitCast.2.2⟩
          cases operand : (ctx.M.deref I).valueOperand with
          | inst J =>
            rw [contains, decide_eq_true_eq, mem_clean]
            constructor
            · by_contra absent
              exact sound (.cast cast (by simpa [operand, contains] using absent))
            · exact fun both => sound (.again cast operand both.1 both.2)
          | _ => exact (sound (.cast cast (by simp [operand, contains]))).elim
        · exact mem_clean.mpr ⟨pointer, fun both => sound both.1⟩

theorem clean_after (listed : J ∈ ctx.M.insts f) (pointer : I ∈ top ctx f)
    (unspoiled : ¬ (Spoiled ctx f I ∧ Relation.ReflTransGen ctx.M.Next I J)) :
    I ∈ (step ctx f J (clean ctx f J)).1 := by
  by_cases same : I = J
  · subst same
    have sound : ¬ Spoiled ctx f I := fun spoiled => unspoiled ⟨spoiled, .refl⟩
    exact (mem_step handled listed).mpr (.inl ⟨rfl, keeps_clean pointer sound⟩)
  · refine (mem_step handled listed).mpr (.inr ⟨same, mem_clean.mpr ⟨pointer, fun both => ?_⟩⟩)
    exact unspoiled ⟨both.1, both.2.to_reflTransGen⟩

theorem clean_allowed : Allowed (step ctx f) ctx.M f ⊤ (clean ctx f) := by
  refine ⟨le_top, fun J listed K next I member => ?_⟩
  obtain ⟨pointer, unspoiled⟩ := mem_clean.mp member
  exact clean_after handled listed pointer fun both => unspoiled ⟨both.1, .tail' both.2 next⟩

/-- A pointer is in all results of the pass if it is not spoiled. -/
theorem mem_all_iff (highest : Highest (step ctx f) ctx.M f ⊤ φ)
    (wellFormed : (ctx.M.func f).WellFormed) (pointer : I ∈ top ctx f) :
    (∀ J ∈ ctx.M.insts f, I ∈ (step ctx f J (φ J)).1) ↔ ¬ Spoiled ctx f I := by
  constructor
  · intro everywhere spoiled
    obtain ⟨listed, gone⟩ := spoiled_gone handled highest.allowed wellFormed spoiled
    exact gone (everywhere I listed)
  · intro sound J listed
    exact step_mono J (highest.greatest _ (clean_allowed handled) J listed)
      (clean_after handled listed pointer fun both => sound both.1)

end

theorem mem_foldl_filter {A : Type} (sets : A → Pointers) (entries : List A) (start : Pointers) (I : InstRef) :
    I ∈ entries.foldl (fun valid entry => valid.filter (· ∈ sets entry)) start ↔
      I ∈ start ∧ ∀ entry ∈ entries, I ∈ sets entry := by
  induction entries generalizing start with
  | nil => simp
  | cons entry entries ih =>
    rw [List.foldl_cons, ih, Finset.mem_filter, List.forall_mem_cons, and_assoc]

/-- Where every pointer has a branch of the transfer, the result is what is not spoiled. -/
theorem valid_unspoiled (handled : Handled ctx f) (wellFormed : (ctx.M.func f).WellFormed) :
    ∃ bound, ∀ fuel ≥ bound, ∃ found, valid ctx f fuel = some found ∧
      ∀ I, I ∈ found ↔ I ∈ top ctx f ∧ ¬ Spoiled ctx f I := by
  obtain ⟨bound, enough⟩ := exists_enough (Level ctx f) ctx.M f ⟨[]⟩
  refine ⟨bound, fun fuel large => ?_⟩
  have finite : Finite (Level ctx f) := (Set.finite_Iic (top ctx f)).to_subtype
  obtain ⟨r, ran, φ, highest, computes⟩ :=
    transferInst_computes wellFormed (fun I => step_mono (f := f) I) (enough fuel large) ⊤
  obtain ⟨r', ran', _, mapped⟩ := transferInst_mapped (level_embeds handled) ran
  refine ⟨_, Option.map_eq_some_iff.mpr ⟨r', ran', rfl⟩, fun I => ?_⟩
  rw [mem_foldl_filter (fun entry : Sigma fun _ : InstRef => Pointers => entry.2)]
  refine and_congr_right fun pointer => ?_
  rw [← mem_all_iff handled highest wellFormed pointer]
  have written (J : InstRef) (listed : J ∈ ctx.M.insts f) :
      r'.outs.lookup J = some (step ctx f J (φ J)).1 := by
    rw [mapped J, (computes J listed).2]
    rfl
  constructor
  · intro every J listed
    exact every ⟨J, _⟩ (AList.mem_lookup_iff.mp (written J listed))
  · intro every entry member
    obtain ⟨J, w⟩ := entry
    have found : r'.outs.lookup J = some w := AList.mem_lookup_iff.mpr member
    have listed := transferInst_inside ran' J w found
    rw [written J listed] at found
    cases found
    exact every J listed

end Result

/-! When the result is what the pass is for -/

section Exact

variable {ctx : Context} {f : FuncRef}

def NoElement (ctx : Context) (f : FuncRef) : Prop :=
  ∀ I J, ConstantElement ctx f I → (ctx.M.deref I).pointerOperand = .inst J → ¬ Derived ctx f J

/-- Casts of other pointers lead back to where these come from. -/
def CastsSpoiled (ctx : Context) (f : FuncRef) : Prop :=
  ∀ I, PointerCast ctx f I → ¬ Derived ctx f I → Spoiled ctx f I

variable {I : InstRef}

theorem PointerCast.not_made (cast : PointerCast ctx f I) :
    ¬ ((ctx.M.deref I).isLoad = true ∨ (ctx.M.deref I).isCall = true ∨
      isGetElementPtr (ctx.M.deref I) = true) := by
  obtain ⟨load, call, _, element⟩ := cast.other
  simp [load, call, element]

theorem unspoiled_of_derived (elements : NoElement ctx f) (derived : Derived ctx f I) :
    I ∈ top ctx f ∧ ¬ Spoiled ctx f I := by
  induction derived with
  | @alloca I listed alloca =>
    refine ⟨mem_top.mpr ⟨listed, ctx.alloca I alloca⟩, fun spoiled => ?_⟩
    have other : isAlloca (ctx.M.deref I) = false := by
      cases spoiled with
      | made _ kind => exact made_not_alloca kind
      | cast cast _ => exact cast.other.2.2.1
      | again cast _ _ _ => exact cast.other.2.2.1
    rw [alloca] at other
    cases other
  | element element operand derived _ => exact absurd derived (elements _ _ element operand)
  | @cast I J cast operand _ ih =>
    refine ⟨mem_top.mpr ⟨cast.listed, cast.pointer⟩, fun spoiled => ?_⟩
    cases spoiled with
    | made _ kind => exact cast.not_made kind
    | cast _ outside => simp [operand, contains, ih.1] at outside
    | again _ operand' spoiled _ =>
      rw [operand] at operand'
      cases operand'
      exact ih.2 spoiled

/-- A pointer is made from an alloca, made otherwise, or cast. -/
theorem pointer_cases (handled : Handled ctx f) (pointer : I ∈ top ctx f) :
    Derived ctx f I ∨ Spoiled ctx f I ∨ PointerCast ctx f I := by
  obtain ⟨listed, isPointer⟩ := mem_top.mp pointer
  by_cases made : (ctx.M.deref I).isLoad = true ∨ (ctx.M.deref I).isCall = true ∨
      isGetElementPtr (ctx.M.deref I) = true
  · exact .inr (.inl (.made listed made))
  · by_cases alloca : isAlloca (ctx.M.deref I) = true
    · exact .inl (.alloca listed alloca)
    · have bitCast : isBitCast (ctx.M.deref I) = true := by
        have kinds := handled I listed isPointer
        grind
      refine .inr (.inr ⟨listed, bitCast, isPointer, ?_⟩)
      rw [ctx.bitCast I bitCast, isPointer]

theorem derived_of_unspoiled (handled : Handled ctx f) (casts : CastsSpoiled ctx f)
    (pointer : I ∈ top ctx f) (sound : ¬ Spoiled ctx f I) : Derived ctx f I := by
  rcases pointer_cases handled pointer with derived | spoiled | cast
  · exact derived
  · exact absurd spoiled sound
  · by_contra other
    exact sound (casts I cast other)

theorem handled_of_valid {fuel : Nat} {found : Pointers} (ran : valid ctx f fuel = some found) :
    Handled ctx f := by
  obtain ⟨r, ran, _⟩ := Option.map_eq_some_iff.mp ran
  intro I listed pointer
  obtain ⟨v, w, moved⟩ := transferInst_through ran I listed
  by_contra unhandled
  rw [show (dataflow ctx f).transfer I v = transfer ctx I v from rfl,
    transfer_eq_none.mpr ⟨pointer, unhandled⟩] at moved
  cases moved

theorem Exact.spec (exact : Exact ctx f) (wellFormed : (ctx.M.func f).WellFormed) :
    Handled ctx f ∧ ∀ I, Derived ctx f I ↔ I ∈ top ctx f ∧ ¬ Spoiled ctx f I := by
  obtain ⟨bound, results⟩ := exact
  obtain ⟨_, ran, _⟩ := results bound le_rfl
  have handled := handled_of_valid ran
  obtain ⟨bound', unspoiled⟩ := valid_unspoiled handled wellFormed
  obtain ⟨found, ran, derived⟩ := results (max bound bound') (le_max_left ..)
  obtain ⟨found', ran', members⟩ := unspoiled (max bound bound') (le_max_right ..)
  rw [ran] at ran'
  cases ran'
  exact ⟨handled, fun I => (derived I).symm.trans (members I)⟩

def Reached (ctx : Context) (f : FuncRef) : Prop :=
  ∀ I ∈ ctx.M.insts f, Evades ctx.M.Next (fun _ => False) I

/-- What an instruction casts comes before it on every path. -/
def DefinedBefore (ctx : Context) (f : FuncRef) : Prop :=
  ∀ I J, PointerCast ctx f I → (ctx.M.deref I).valueOperand = .inst J →
    J ∈ ctx.M.insts f ∧ J ≠ I ∧ ¬ Evades ctx.M.Next (· = J) I

theorem castsSpoiled_of_reached (handled : Handled ctx f) (reached : Reached ctx f)
    (defined : DefinedBefore ctx f) : CastsSpoiled ctx f := by
  -- By induction on the length of a path to the pointer: what is cast lies on it, before.
  have along (n : Nat) : ∀ {path : List InstRef} {I : InstRef}, path.length = n → path.IsChain ctx.M.Next →
      (∃ r, path.head? = some r ∧ Root ctx.M.Next r) → path.getLast? = some I → I ∈ top ctx f →
      Derived ctx f I ∨ Spoiled ctx f I := by
    induction n using Nat.strong_induction_on with
    | _ n ih =>
      intro path I length chain start last pointer
      rcases pointer_cases handled pointer with derived | spoiled | cast
      · exact .inl derived
      · exact .inr spoiled
      · by_cases outside : contains (top ctx f) (ctx.M.deref I).valueOperand = false
        · exact .inr (.cast cast outside)
        · obtain ⟨J, operand, pointer'⟩ : ∃ J, (ctx.M.deref I).valueOperand = .inst J ∧ J ∈ top ctx f := by
            cases operand : (ctx.M.deref I).valueOperand with
            | inst J => exact ⟨J, rfl, by simpa [operand, contains] using outside⟩
            | _ => simp [operand, contains] at outside
          obtain ⟨_, different, always⟩ := defined I J cast operand
          have crossed : J ∈ path := by
            by_contra avoided
            exact always (evades_iff_path.mpr ⟨path, chain, start, last, fun K member same =>
              avoided (same ▸ member)⟩)
          obtain ⟨before, after, rfl⟩ := List.append_of_mem crossed
          obtain ⟨shorter, path', more⟩ := chain_through chain last different
          have below : (before ++ [J]).length < n := by
            rw [← length]
            simpa [List.length_pos_iff] using more
          have start' : ∃ r, (before ++ [J]).head? = some r ∧ Root ctx.M.Next r := by
            cases before with
            | nil => exact start
            | cons r rest => exact start
          rcases ih _ below rfl shorter start' List.getLast?_concat pointer' with derived | spoiled
          · exact .inl (.cast cast operand derived)
          · exact .inr (.again cast operand spoiled path')
  intro I cast other
  obtain ⟨path, chain, start, last, _⟩ := evades_iff_path.mp (reached I cast.listed)
  exact (along path.length rfl chain start last (mem_top.mpr ⟨cast.listed, cast.pointer⟩)).resolve_left other

/-- The analysis finds the pointers made from allocas exactly when all pointers come from
instructions that it knows, there is no constant element of such a pointer, and casts lead back
to where their pointers come from. The last is so in code that is reached, as every pointer is
defined before it is cast. -/
theorem exact_iff (wellFormed : (ctx.M.func f).WellFormed) :
    (Exact ctx f ↔ Handled ctx f ∧ NoElement ctx f ∧ CastsSpoiled ctx f) ∧
      (Reached ctx f → DefinedBefore ctx f → (Exact ctx f ↔ Handled ctx f ∧ NoElement ctx f)) := by
  have general : Exact ctx f ↔ Handled ctx f ∧ NoElement ctx f ∧ CastsSpoiled ctx f := by
    constructor
    · intro exact
      obtain ⟨handled, unspoiled⟩ := exact.spec wellFormed
      refine ⟨handled, ?_, ?_⟩
      · intro I J element operand inner
        have sound := ((unspoiled I).mp (.element element operand inner)).2
        exact sound (.made element.listed (.inr (.inr element.element)))
      · intro I cast other
        by_contra sound
        exact other ((unspoiled I).mpr ⟨mem_top.mpr ⟨cast.listed, cast.pointer⟩, sound⟩)
    · intro conditions
      obtain ⟨handled, elements, casts⟩ := conditions
      obtain ⟨bound, results⟩ := valid_unspoiled handled wellFormed
      refine ⟨bound, fun fuel large => ?_⟩
      obtain ⟨found, ran, members⟩ := results fuel large
      refine ⟨found, ran, fun I => ?_⟩
      rw [members]
      exact ⟨fun both => derived_of_unspoiled handled casts both.1 both.2, unspoiled_of_derived elements⟩
  refine ⟨general, fun reached defined => ?_⟩
  rw [general]
  exact ⟨fun conditions => ⟨conditions.1, conditions.2.1⟩,
    fun conditions => ⟨conditions.1, conditions.2, castsSpoiled_of_reached conditions.1 reached defined⟩⟩

end Exact

/-! Functions -/

theorem getD_of_all {A : Type} {P : A → Prop} {l : List A} {a : A} (default : P a) (all : ∀ x ∈ l, P x)
    (i : Nat) : P (l.getD i a) := by
  rw [List.getD_eq_getElem?_getD]
  cases found : l[i]? with
  | none => exact default
  | some x => exact all x (List.mem_of_getElem? found)

def pointerTy (M : Module) : Value → Bool
  | .inst I => (M.deref I).isPointer
  | _ => false

/-- What the compiler guarantees of the types of allocas and bit casts. -/
def Typed (M : Module) (inst : Inst) : Prop :=
  (isAlloca inst = true → inst.isPointer = true) ∧
    (isBitCast inst = true → pointerTy M inst.valueOperand = inst.isPointer)

instance (M : Module) (inst : Inst) : Decidable (Typed M inst) :=
  inferInstanceAs (Decidable (_ ∧ _))

theorem typed_deref (F : Function) (typed : ∀ B ∈ F.blocks, ∀ inst ∈ B, Typed ⟨[F]⟩ inst) (I : InstRef) :
    Typed ⟨[F]⟩ (Module.deref ⟨[F]⟩ I) := by
  have none : Typed ⟨[F]⟩ Inst.missing := ⟨nofun, nofun⟩
  have funcs : ∀ F' ∈ [F], ∀ B ∈ F'.blocks, ∀ inst ∈ B, Typed ⟨[F]⟩ inst := by simpa using typed
  refine getD_of_all none ?_ I.index
  refine getD_of_all (P := fun B => ∀ inst ∈ B, Typed ⟨[F]⟩ inst) (by simp) ?_ I.block
  exact getD_of_all (P := fun F' : Function => ∀ B ∈ F'.blocks, ∀ inst ∈ B, Typed ⟨[F]⟩ inst) (by simp)
    funcs I.func

def single (F : Function) (typed : ∀ B ∈ F.blocks, ∀ inst ∈ B, Typed ⟨[F]⟩ inst) : Context where
  M := ⟨[F]⟩
  isPointerTy := pointerTy ⟨[F]⟩
  inst _ := rfl
  alloca I := (typed_deref F typed I).1
  bitCast I := (typed_deref F typed I).2

def localElement : Context :=
  single ⟨[[⟨.alloca false, [], [], [], false, true, false⟩,
    ⟨.getelementptr, [.inst ⟨0, 0, 0⟩, .constant 0, .constant 1], [], [], false, true, false⟩,
    ⟨.ret, [], [], [], true, false, false⟩]], [[]], []⟩ (by decide)

def localChoice : Context :=
  single ⟨[[⟨.alloca false, [], [], [], false, true, false⟩, ⟨.alloca false, [], [], [], false, true, false⟩,
      ⟨.br, [.constant 0], [], [1, 2], true, false, false⟩],
    [⟨.br, [], [], [2], true, false, false⟩],
    [⟨.phi, [.inst ⟨0, 0, 0⟩, .inst ⟨0, 0, 1⟩], [], [], false, true, false⟩,
      ⟨.ret, [], [], [], true, false, false⟩]], [[], [0], [0, 1]], []⟩ (by decide)

/-- The element is made from the alloca by constant indices, but not found; the choice aborts the
analysis. -/
theorem element_missed :
    (Derived localElement 0 ⟨0, 0, 1⟩ ∧ valid localElement 0 6 = some {⟨0, 0, 0⟩} ∧ ¬ Exact localElement 0) ∧
      ∀ fuel, valid localChoice 0 fuel = none := by
  have element : ConstantElement localElement 0 ⟨0, 0, 1⟩ := ⟨by decide, by decide, by decide⟩
  have base : Derived localElement 0 ⟨0, 0, 0⟩ := .alloca (by decide) (by decide)
  have derived : Derived localElement 0 ⟨0, 0, 1⟩ := .element element rfl base
  refine ⟨⟨derived, by decide +kernel, fun exact => ?_⟩, fun fuel => ?_⟩
  · have unspoiled := (exact.spec (Function.wellFormed_of_test (by decide))).2 ⟨0, 0, 1⟩
    exact (unspoiled.mp derived).2 (.made (by decide) (by decide))
  · cases ran : valid localChoice 0 fuel with
    | none => rfl
    | some found =>
      have phi := handled_of_valid ran ⟨0, 2, 0⟩ (by decide) (by decide)
      exact absurd phi (by decide)

def localCast : Context :=
  single ⟨[[⟨.alloca false, [], [], [], false, true, false⟩,
    ⟨.bitcast, [.inst ⟨0, 0, 0⟩], [], [], false, true, false⟩,
    ⟨.load, [.inst ⟨0, 0, 1⟩], [], [], false, true, true⟩,
    ⟨.bitcast, [.inst ⟨0, 0, 2⟩], [], [], false, true, false⟩,
    ⟨.ret, [], [], [], true, false, false⟩]], [[]], []⟩ (by decide)

theorem localCast_exact : (localCast.M.func 0).WellFormed ∧ Exact localCast 0 := by
  have wellFormed : (localCast.M.func 0).WellFormed := Function.wellFormed_of_test (by decide)
  have handled : Handled localCast 0 := by
    unfold Handled
    decide
  have none : ∀ I ∈ localCast.M.insts 0, isGetElementPtr (localCast.M.deref I) = false := by decide
  refine ⟨wellFormed, (exact_iff wellFormed).1.mpr ⟨handled, ?_, ?_⟩⟩
  · intro I J element
    exact absurd element.element (by simp [none I element.listed])
  · intro I cast other
    have casts : ∀ I ∈ localCast.M.insts 0, isBitCast (localCast.M.deref I) = true →
        I ∈ [(⟨0, 0, 1⟩ : InstRef), ⟨0, 0, 3⟩] := by decide
    have listed := casts I cast.listed cast.bitCast
    rw [List.mem_cons, List.mem_singleton] at listed
    rcases listed with rfl | rfl
    · exact absurd (.cast cast rfl (.alloca (by decide) (by decide))) other
    · refine .again cast rfl (.made (by decide) (by decide)) (.single ?_)
      exact .seq (by decide)

end Clou.TransientAA
