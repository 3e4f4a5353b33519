import Clou.Unrolled

/-! The instances of instructions that unrolling lays out, and the steps between them. An
instance is a stack of frames, each with the iterations it is in of the loops around it. -/

namespace Clou.Unrolled

/-- Where a function instance stands; `iters` counts iterations, outermost loop first. -/
structure Frame where
  func : FuncRef
  block : Nat
  index : Nat
  iters : List Nat
  deriving DecidableEq, Repr

namespace Frame

def inst (fr : Frame) : InstRef := ⟨fr.func, fr.block, fr.index⟩

def parent (fr : Frame) : BlockRef := ⟨fr.func, fr.block⟩

def next (fr : Frame) : Frame := { fr with index := fr.index + 1 }

def start (g : FuncRef) : Frame := ⟨g, 0, 0, []⟩

end Frame

/-- The innermost function instance comes first. -/
abbrev Config := List Frame

section

variable (P : Program)

def entered : Config → Option FuncRef
  | [] => none
  | fr :: σ => callee P ((fr :: σ).map Frame.func) (P.M.deref fr.inst)

/-- Calls that are inlined are entered until some other instruction is reached. -/
inductive Lands : Config → Config → Prop
  | here {c} : entered P c = none → Lands c c
  | enter {c d g} : entered P c = some g → Lands (.start g :: c) d → Lands c d

def blockLength (fr : Frame) : Nat := ((P.M.func fr.func).block fr.block).length

def successors (fr : Frame) : List Nat := ((P.M.func fr.func).terminator fr.block).successors

def AtEnd (fr : Frame) : Prop := fr.index + 1 = blockLength P fr

/-- Entering a block from outside of the loops in a list: a loop is entered at its header. -/
def enterBlock (loops : List Loop) (S : Nat) : Nat × List Nat :=
  match loops.find? (fun T => decide (S ∈ T.blocks)) with
  | some T => (T.header, [0])
  | none => (S, [])

/-- Jumping between blocks: in a loop around both, to the header is the next iteration. -/
def jumpTo : List Loop → Nat → Nat → List Nat → Nat × List Nat
  | loops, B, S, i :: iters =>
    match loops.find? (fun T => decide (B ∈ T.blocks)) with
    | some T =>
      if S ∈ T.blocks then
        if S = T.header then (S, [i + 1])
        else
          let inner := jumpTo T.subloops B S iters
          (inner.1, i :: inner.2)
      else enterBlock loops S
    | none => enterBlock loops S
  | loops, _, S, [] => enterBlock loops S

inductive Link : Frame → Frame → Prop
  | seq {fr} : fr.index + 1 < blockLength P fr → Link fr fr.next
  | jump {fr S B iters} : AtEnd P fr → S ∈ successors P fr →
      jumpTo (P.loopInfo fr.func).top fr.block S fr.iters = (B, iters) →
      (∀ i ∈ iters, i ≤ P.numUnrolls) → Link fr ⟨fr.func, B, 0, iters⟩

/-- Where control goes after an instruction that is not an inlined call. A function without
a successor block returns to the instruction after its call. -/
inductive Move : Config → Config → Prop
  | link {fr fr' σ} : Link P fr fr' → Move (fr :: σ) (fr' :: σ)
  | leave {fr caller σ} : AtEnd P fr → successors P fr = [] →
      Move (fr :: caller :: σ) (caller.next :: σ)

def Step (c d : Config) : Prop := ∃ e, Move P c e ∧ Lands P e d

/-- The iterations that a block can be in, relative to the loops in a list. -/
inductive Fits : List Loop → Nat → List Nat → Prop
  | own {loops B} : (∀ T ∈ loops, B ∉ T.blocks) → Fits loops B []
  | inside {loops T B i iters} : T ∈ loops → B ∈ T.blocks → i ≤ P.numUnrolls →
      Fits T.subloops B iters → Fits loops B (i :: iters)

/-- Blocks that nothing leads to are left out. -/
def LaidBlock (f : FuncRef) (B : Nat) : Prop :=
  B < (P.M.func f).blocks.length ∧ ((P.M.func f).preds B ≠ [] ∨ B = 0)

structure FrameIn (g : FuncRef) (fr : Frame) : Prop where
  func : fr.func = g
  laid : LaidBlock P g fr.block
  index : fr.index < blockLength P fr
  fits : Fits P (P.loopInfo g).top fr.block fr.iters

/-- The instances that are laid out for the instruction at a configuration. -/
inductive Laid : Config → Config → Prop
  | here {c} : entered P c = none → Laid c c
  | call {c fr g d} : entered P c = some g → FrameIn P g fr → Laid (fr :: c) d → Laid c d

end

structure FunctionOk (P : Program) (f : FuncRef) : Prop where
  wellFormed : (P.M.func f).WellFormed
  natural : (P.loopInfo f).Natural (P.M.func f)
  terminator : ∀ B < (P.M.func f).blocks.length, ((P.M.func f).terminator B).isTerminator = true

def Program.Ok (P : Program) : Prop := ∀ f, (P.M.func f).isDeclaration = false → FunctionOk P f

section

variable {P : Program}

variable {d c : Config}

theorem Lands.suffix (lands : Lands P c d) : c <:+ d := by
  induction lands with
  | here _ => exact List.suffix_refl _
  | enter _ _ ih => exact (List.suffix_cons _ _).trans ih

theorem Lands.entered (lands : Lands P c d) : entered P d = none := by
  induction lands with
  | here none => exact none
  | enter _ _ ih => exact ih

theorem Lands.unique {e : Config} (left : Lands P c d) (right : Lands P c e) : d = e := by
  induction left with
  | here none =>
    cases right with
    | here _ => rfl
    | enter some _ => simp [none] at some
  | enter some _ ih =>
    cases right with
    | here none => simp [some] at none
    | enter some' inner =>
      rw [some] at some'
      cases some'
      exact ih inner

theorem eq_of_suffix {e : Config} (left : c <:+ e) (right : d <:+ e) (same : c.length = d.length) :
    c = d :=
  List.IsSuffix.eq_of_length (List.suffix_of_suffix_length_le left right same.le) same

theorem Laid.suffix (laid : Laid P c d) : c <:+ d := by
  induction laid with
  | here _ => exact List.suffix_refl _
  | call _ _ _ ih => exact (List.suffix_cons _ _).trans ih

theorem Laid.entered (laid : Laid P c d) : entered P d = none := by
  induction laid with
  | here none => exact none
  | call _ _ _ ih => exact ih

theorem Laid.frame_eq {fr fr' : Frame} {σ : Config} (left : Laid P (fr :: σ) d)
    (right : Laid P (fr' :: σ) d) : fr = fr' := by
  have same := eq_of_suffix left.suffix right.suffix rfl
  exact (List.cons.inj same).1

end

/-! Loops side by side -/

structure SideBySide (F : Function) (LI : LoopInfo) (loops : List Loop) : Prop where
  natural : LI.Natural F
  mem : ∀ T ∈ loops, LI.Mem T
  disjoint : ∀ S ∈ loops, ∀ T ∈ loops, ∀ B ∈ S.blocks, B ∈ T.blocks → S = T
  nodup : loops.Nodup

namespace SideBySide

variable {F : Function} {LI : LoopInfo} {loops : List Loop}

theorem top (natural : LI.Natural F) : SideBySide F LI LI.top where
  natural := natural
  mem T member := ⟨T, member, .self⟩
  disjoint := natural.disjoint
  nodup := natural.top_nodup

variable {T : Loop}

section

variable (side : SideBySide F LI loops)

include side

theorem sub (member : T ∈ loops) : SideBySide F LI T.subloops where
  natural := side.natural
  mem _ inner := (side.mem T member).sub inner
  disjoint := (side.natural.loop (side.mem T member)).sub_disjoint
  nodup := side.natural.sub_nodup (side.mem T member)

theorem find_eq (member : T ∈ loops) {B : Nat} (inside : B ∈ T.blocks) :
    loops.find? (fun T => decide (B ∈ T.blocks)) = some T := by
  cases found : loops.find? (fun T => decide (B ∈ T.blocks)) with
  | none =>
    have outside := List.find?_eq_none.mp found T member
    simp [inside] at outside
  | some S =>
    have here : B ∈ S.blocks := by simpa using List.find?_some found
    rw [side.disjoint S (List.mem_of_find?_eq_some found) T member B here inside]

theorem header_own (member : T ∈ loops) : ∀ S ∈ T.subloops, T.header ∉ S.blocks :=
  (side.natural.loop (side.mem T member)).sub_header

theorem header_mem (member : T ∈ loops) :
    T.header ∈ T.blocks := (side.natural.loop (side.mem T member)).header_mem

end

end SideBySide

section

variable {P : Program} {F : Function} {LI : LoopInfo} {loops : List Loop}

variable {B S : Nat} {T : Loop} {iters : List Nat}

theorem find_none (outside : ∀ T ∈ loops, B ∉ T.blocks) :
    loops.find? (fun T => decide (B ∈ T.blocks)) = none := by
  apply List.find?_eq_none.mpr
  intro T member
  simpa using outside T member

section

variable (side : SideBySide F LI loops)

include side

theorem enterBlock_loop (member : T ∈ loops) (inside : S ∈ T.blocks) :
    enterBlock loops S = (T.header, [0]) := by
  simp [enterBlock, side.find_eq member inside]

omit side in
theorem enterBlock_own (outside : ∀ T ∈ loops, S ∉ T.blocks) : enterBlock loops S = (S, []) := by
  simp [enterBlock, find_none outside]

theorem jumpTo_inside (member : T ∈ loops) {i : Nat} (inside : B ∈ T.blocks) (stays : S ∈ T.blocks) :
    jumpTo loops B S (i :: iters) = if S = T.header then (S, [i + 1]) else
      ((jumpTo T.subloops B S iters).1, i :: (jumpTo T.subloops B S iters).2) := by
  simp [jumpTo, side.find_eq member inside, stays]

theorem jumpTo_out (member : T ∈ loops) (iters : List Nat) (inside : B ∈ T.blocks)
    (leaves : S ∉ T.blocks) : jumpTo loops B S iters = enterBlock loops S := by
  cases iters with
  | nil => rfl
  | cons i iters => simp [jumpTo, side.find_eq member inside, leaves]

theorem enterBlock_mem {Q : Nat → Prop} (whole : ∀ T ∈ loops, ∀ B ∈ T.blocks, Q B) (member : Q S) :
    Q (enterBlock loops S).1 := by
  unfold enterBlock
  split
  · rename_i T found
    have here := List.mem_of_find?_eq_some found
    exact whole T here _ (side.header_mem here)
  · exact member

/-- Inside of a set of blocks with whole loops, jumps stay in the set. -/
theorem jumpTo_mem {Q : Nat → Prop} (whole : ∀ T ∈ loops, ∀ B ∈ T.blocks, Q B) (member : Q S) :
    Q (jumpTo loops B S iters).1 := by
  induction iters generalizing loops with
  | nil => exact enterBlock_mem side whole member
  | cons i iters ih =>
    unfold jumpTo
    split
    · rename_i T found
      have here := List.mem_of_find?_eq_some found
      split
      · split
        · exact member
        · apply ih (side.sub here)
          intro S sub B inside
          exact whole T here B ((side.natural.loop (side.mem T here)).sub_mem S sub B inside)
      · exact enterBlock_mem side whole member
    · exact enterBlock_mem side whole member

theorem fits_enterBlock (S : Nat) : Fits P loops (enterBlock loops S).1 (enterBlock loops S).2 := by
  by_cases inner : ∃ T ∈ loops, S ∈ T.blocks
  · rcases inner with ⟨T, member, inside⟩
    rw [enterBlock_loop side member inside]
    exact .inside member (side.header_mem member) (Nat.zero_le _) (.own (side.header_own member))
  · have outside : ∀ T ∈ loops, S ∉ T.blocks := fun T member inside => inner ⟨T, member, inside⟩
    rw [enterBlock_own outside]
    exact .own outside

end

theorem fits_jumpTo (fits : Fits P loops B iters) (side : SideBySide F LI loops) (S : Nat)
    (bounded : ∀ i ∈ (jumpTo loops B S iters).2, i ≤ P.numUnrolls) :
    Fits P loops (jumpTo loops B S iters).1 (jumpTo loops B S iters).2 := by
  induction fits with
  | own outside => exact fits_enterBlock side S
  | @inside loops T B i iters member inside small _ ih =>
    by_cases stays : S ∈ T.blocks
    · rw [jumpTo_inside side member inside stays] at bounded ⊢
      split
      · rename_i back
        rw [if_pos back] at bounded
        subst back
        exact .inside member stays (bounded _ (by simp)) (.own (side.header_own member))
      · rename_i onward
        rw [if_neg onward] at bounded
        have inner := ih (side.sub member) (fun j later => bounded j (by simp [later]))
        refine .inside member ?_ small inner
        -- The target is in the loop: either the block itself or the header of a loop inside.
        exact jumpTo_mem (Q := (· ∈ T.blocks)) (side.sub member) (fun S sub =>
          (side.natural.loop (side.mem T member)).sub_mem S sub) stays
    · rw [jumpTo_out side member _ inside stays]
      exact fits_enterBlock side S

end

/-! What is laid out is closed under steps -/

section

variable {P : Program}

variable {g f : FuncRef} {fr : Frame} {S B : Nat} {callstack : List FuncRef}

theorem callee_defined {I : Inst} (inlined : callee P callstack I = some g) :
    (P.M.func g).isDeclaration = false := by
  unfold callee at inlined
  split at inlined
  · split at inlined
    · cases inlined
    · split at inlined
      · cases inlined
      · cases inlined
        simp_all
  · cases inlined

theorem entered_defined {c : Config} (inlined : entered P c = some g) :
    (P.M.func g).isDeclaration = false := by
  cases c with
  | nil => cases inlined
  | cons fr σ => exact callee_defined inlined

theorem callee_terminator {I : Inst} (terminator : I.isTerminator = true) :
    callee P callstack I = none := by
  unfold callee
  split
  · rename_i call
    simp [Inst.isTerminator, call] at terminator
  · rfl

theorem deref_atEnd (last : AtEnd P fr) :
    P.M.deref fr.inst = (P.M.func fr.func).terminator fr.block := by
  have bound : fr.index = ((P.M.func fr.func).block fr.block).length - 1 := by
    unfold AtEnd blockLength at last
    omega
  have present : (P.M.func fr.func).block fr.block ≠ [] := by
    intro empty
    simp [AtEnd, blockLength, empty] at last
  rw [Module.deref, Frame.inst, Function.terminator, bound, List.getD_eq_getElem?_getD,
    List.getLastD_eq_getLast?, List.getLast?_eq_getElem?]

section

variable (ok : FunctionOk P f)

include ok

theorem entered_atEnd (func : fr.func = f) (laid : LaidBlock P f fr.block) (last : AtEnd P fr)
    (σ : Config) : entered P (fr :: σ) = none := by
  subst func
  change callee P _ _ = none
  rw [deref_atEnd last]
  exact callee_terminator (ok.terminator _ laid.1)

theorem not_atEnd (inside : FrameIn P f fr) {σ : Config} (call : entered P (fr :: σ) = some g) :
    fr.index + 1 < blockLength P fr := by
  have bound := inside.index
  have open' : ¬ AtEnd P fr := by
    intro last
    rw [entered_atEnd ok inside.func inside.laid last] at call
    cases call
  unfold AtEnd at open'
  omega

omit ok in
theorem frameIn_start (ok : FunctionOk P g) : FrameIn P g (.start g) where
  func := rfl
  laid := ⟨List.length_pos_iff.mpr ok.wellFormed.defined, .inr rfl⟩
  index := ok.wellFormed.nonempty (List.length_pos_iff.mpr ok.wellFormed.defined)
  fits := .own ok.natural.entry

omit ok in
theorem frameIn_next (inside : FrameIn P g fr) (further : fr.index + 1 < blockLength P fr) :
    FrameIn P g fr.next where
  func := inside.func
  laid := inside.laid
  index := further
  fits := inside.fits

theorem laid_header {L : Loop} (member : (P.loopInfo f).Mem L) : LaidBlock P f L.header := by
  have correct := ok.natural.loop member
  rcases ok.natural.latch member with ⟨B, inside, back⟩
  refine ⟨correct.valid _ correct.header_mem, .inl fun none => ?_⟩
  have pred : B ∈ (P.M.func f).preds L.header :=
    ok.wellFormed.mem_preds.mpr ⟨correct.valid _ inside, back⟩
  simp [none] at pred

theorem laid_successor (valid : B < (P.M.func f).blocks.length)
    (flow : S ∈ ((P.M.func f).terminator B).successors) : LaidBlock P f S := by
  refine ⟨ok.wellFormed.succ_lt valid flow, .inl fun none => ?_⟩
  have pred : B ∈ (P.M.func f).preds S := ok.wellFormed.mem_preds.mpr ⟨valid, flow⟩
  simp [none] at pred

theorem laid_enterBlock {loops : List Loop} (side : SideBySide (P.M.func f) (P.loopInfo f) loops)
    (laid : LaidBlock P f S) : LaidBlock P f (enterBlock loops S).1 := by
  unfold enterBlock
  split
  · rename_i T found
    exact laid_header ok (side.mem T (List.mem_of_find?_eq_some found))
  · exact laid

theorem laid_jumpTo {loops : List Loop} {iters : List Nat}
    (side : SideBySide (P.M.func f) (P.loopInfo f) loops) (laid : LaidBlock P f S) :
    LaidBlock P f (jumpTo loops B S iters).1 := by
  induction iters generalizing loops with
  | nil => exact laid_enterBlock ok side laid
  | cons i iters ih =>
    unfold jumpTo
    split
    · rename_i T found
      split
      · split
        · exact laid
        · exact ih (side.sub (List.mem_of_find?_eq_some found))
      · exact laid_enterBlock ok side laid
    · exact laid_enterBlock ok side laid

theorem frameIn_jump (inside : FrameIn P f fr) {iters : List Nat} (flow : S ∈ successors P fr)
    (jump : jumpTo (P.loopInfo fr.func).top fr.block S fr.iters = (B, iters))
    (bounded : ∀ i ∈ iters, i ≤ P.numUnrolls) : FrameIn P f ⟨fr.func, B, 0, iters⟩ := by
  have func := inside.func
  subst func
  have side := SideBySide.top ok.natural
  have fits := fits_jumpTo inside.fits side S (by rw [jump]; exact bounded)
  have laid : LaidBlock P fr.func (jumpTo (P.loopInfo fr.func).top fr.block S fr.iters).1 :=
    laid_jumpTo ok side (laid_successor ok inside.laid.1 flow)
  rw [jump] at fits laid
  exact ⟨rfl, laid, ok.wellFormed.nonempty laid.1, fits⟩

theorem frameIn_link {fr' : Frame} (inside : FrameIn P f fr) (link : Link P fr fr') :
    FrameIn P f fr' := by
  cases link with
  | seq further => exact frameIn_next inside further
  | jump _ flow jump bounded => exact frameIn_jump ok inside flow jump bounded

end

theorem Lands.laid (okay : P.Ok) {c d : Config} (lands : Lands P c d) : Laid P c d := by
  induction lands with
  | here none => exact .here none
  | enter some _ ih => exact .call some (frameIn_start (okay _ (entered_defined some))) ih

end

end Clou.Unrolled
