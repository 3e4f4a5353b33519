import Clou.Layout

/-! The ways of control through a function and the functions that it calls, with the back edges
counted that are taken in each loop, and the iterations that the counts stand for. -/

namespace Clou.Unrolled

/-- A position in a function instance, with how often the back edges of each loop have been taken
since it was entered. -/
structure Spot where
  func : FuncRef
  block : Nat
  index : Nat
  taken : Loop → Nat

namespace Spot

def inst (s : Spot) : InstRef := ⟨s.func, s.block, s.index⟩

def next (s : Spot) : Spot := { s with index := s.index + 1 }

def start (g : FuncRef) : Spot := ⟨g, 0, 0, fun _ => 0⟩

end Spot

def backEdges (B S : Nat) (before : Loop → Nat) (L : Loop) : Nat :=
  if B ∈ L.blocks then
    if S = L.header then before L + 1 else before L
  else 0

/-- The positions in the functions on the call stack, the innermost first. -/
abbrev Control := List Spot

section

variable (P : Program)

def enters : Control → Option FuncRef
  | [] => none
  | s :: σ => callee P ((s :: σ).map Spot.func) (P.M.deref s.inst)

def Spot.blockLength (s : Spot) : Nat := ((P.M.func s.func).block s.block).length

def Spot.terminator (s : Spot) : Inst := (P.M.func s.func).terminator s.block

/-- Where control goes on after an instruction that is no entered call. It leaves a function at a
return instruction, and no back edge is taken too often. -/
inductive Goes : Control → Control → Prop
  | seq {s σ} : s.index + 1 < s.blockLength P → Goes (s :: σ) (s.next :: σ)
  | jump {s S σ} : s.index + 1 = s.blockLength P → S ∈ (s.terminator P).successors →
      (∀ L, (P.loopInfo s.func).Mem L → backEdges s.block S s.taken L ≤ P.numUnrolls) →
      Goes (s :: σ) (⟨s.func, S, 0, backEdges s.block S s.taken⟩ :: σ)
  | ret {s caller σ} : s.index + 1 = s.blockLength P → (s.terminator P).isRet = true →
      Goes (s :: caller :: σ) (caller.next :: σ)

/-- Where control stands on a way to the end of the outermost function. Calls that are entered are
left out. -/
inductive Trace : Control → List Control → Prop
  | finish {s} : s.index + 1 = s.blockLength P →
      (s.terminator P).isRet = true ∨ (s.terminator P).isUnreachable = true → Trace [s] [[s]]
  | visit {s σ c l} : enters P (s :: σ) = none → Goes P (s :: σ) c → Trace c l →
      Trace (s :: σ) ((s :: σ) :: l)
  | enter {c g l} : enters P c = some g → Trace (.start g :: c) l → Trace c l

end

/-! Counts as iterations -/

/-- The counts for the loops around a block, outermost first. -/
inductive Counts (taken : Loop → Nat) : List Loop → Nat → List Nat → Prop
  | own {loops B} : (∀ T ∈ loops, B ∉ T.blocks) → Counts taken loops B []
  | inside {loops T B iters} : T ∈ loops → B ∈ T.blocks → Counts taken T.subloops B iters →
      Counts taken loops B (taken T :: iters)

section

variable {P : Program} {F : Function} {LI : LoopInfo} {loops : List Loop} {taken : Loop → Nat}
  {B S : Nat} {iters : List Nat}

theorem Counts.bounded {n : Nat} (counts : Counts taken loops B iters) (side : SideBySide F LI loops)
    (few : ∀ L, LI.Mem L → taken L ≤ n) : ∀ i ∈ iters, i ≤ n := by
  induction counts with
  | own _ => simp
  | inside member _ _ ih =>
    exact List.forall_mem_cons.mpr ⟨few _ (side.mem _ member), ih (side.sub member)⟩

theorem Counts.mem {L T : Loop} (counts : Counts taken loops B iters) (side : SideBySide F LI loops)
    (member : T ∈ loops) (within : L.Within T) (inside : B ∈ L.blocks) : taken L ∈ iters := by
  induction within generalizing loops iters with
  | self =>
    cases counts with
    | own outside => exact absurd inside (outside L member)
    | inside member' inside' _ =>
      rw [side.disjoint L member _ member' B inside inside']
      exact List.mem_cons_self
  | @sub T S sub within ih =>
    have whole := side.natural.inside (.sub sub within) (side.mem T member) B inside
    cases counts with
    | own outside => exact absurd whole (outside T member)
    | inside member' inside' inner =>
      obtain rfl := side.disjoint T member _ member' B whole inside'
      exact List.mem_cons_of_mem _ (ih inner (side.sub member) sub)

theorem counts_enterBlock (side : SideBySide F LI loops) (reached : F.Reachable B)
    (flow : F.Flow B S) (outside : ∀ T ∈ loops, S ∈ T.blocks → B ∉ T.blocks) :
    (enterBlock loops S).1 = S ∧
      Counts (backEdges B S taken) loops S (enterBlock loops S).2 := by
  by_cases inner : ∃ T ∈ loops, S ∈ T.blocks
  · rcases inner with ⟨T, member, inside⟩
    have away := outside T member inside
    have first := (side.natural.loop (side.mem T member)).entered reached flow inside away
    rw [enterBlock_loop side member inside]
    refine ⟨first.symm, ?_⟩
    have counted : backEdges B S taken T = 0 := by rw [backEdges, if_neg away]
    rw [← counted]
    exact .inside member inside (.own (first ▸ side.header_own member))
  · have away : ∀ T ∈ loops, S ∉ T.blocks := fun T member inside => inner ⟨T, member, inside⟩
    rw [enterBlock_own away]
    exact ⟨rfl, .own away⟩

/-- Where control reaches a block, a jump leads to the block itself, in the iterations counted. -/
theorem counts_jumpTo (counts : Counts taken loops B iters) (side : SideBySide F LI loops)
    (reached : F.Reachable B) (flow : F.Flow B S) :
    (jumpTo loops B S iters).1 = S ∧
      Counts (backEdges B S taken) loops S (jumpTo loops B S iters).2 := by
  induction counts with
  | own outside => exact counts_enterBlock side reached flow fun T member _ => outside T member
  | @inside loops T B iters member inside inner ih =>
    by_cases stays : S ∈ T.blocks
    · rw [jumpTo_inside side member inside stays]
      split
      · rename_i header
        refine ⟨rfl, ?_⟩
        have counted : backEdges B S taken T = taken T + 1 := by
          rw [backEdges, if_pos inside, if_pos header]
        rw [← counted]
        exact .inside member stays (.own (header ▸ side.header_own member))
      · rename_i onward
        have counted : backEdges B S taken T = taken T := by
          rw [backEdges, if_pos inside, if_neg onward]
        rcases ih (side.sub member) reached flow with ⟨same, counts⟩
        refine ⟨same, ?_⟩
        rw [← counted]
        exact .inside member stays counts
    · rw [jumpTo_out side member _ inside stays]
      apply counts_enterBlock side reached flow
      intro T' member' there here
      rw [side.disjoint T member T' member' B inside here] at stays
      exact stays there

end

end Clou.Unrolled
