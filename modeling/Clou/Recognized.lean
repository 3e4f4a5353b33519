import Clou.Unrolling

/-! The construction gives up on a function with a terminator that it does not recognize. It gets
through only if it gets through every function instance that is laid out, so that a graph holds
no such function. -/

namespace Clou.Unrolled

open Cfg Edit

def Succeeds (construct : Construct) : Prop := ∃ id s r, construct id s = some r

section

variable {P : Program} {instruction : InstRef → Construct} {numIterations : Nat} {f : FuncRef}

theorem rest_succeeds {id : ID} {insts : List InstRef} {exits : List (BlockRef × NodeRef)} {s : State}
    {r : List (BlockRef × NodeRef) × State}
    (constructed : constructRest instruction id insts exits s = some r) :
    ∀ I ∈ insts, Succeeds (instruction I) := by
  induction insts generalizing exits s with
  | nil =>
    intro I member
    cases member
  | cons I insts ih =>
    simp only [constructRest, bind_apply, Option.bind_eq_some_iff] at constructed
    rcases constructed with ⟨port, here, _, -, later⟩
    exact List.forall_mem_cons.mpr ⟨⟨id, s, port, here⟩, ih later⟩

theorem block_succeeds {B : Nat} (laid : LaidBlock P f B)
    (succeeds : Succeeds (constructBlock P instruction f B)) :
    ∀ I ∈ blockInsts P f B, Succeeds (instruction I) := by
  rcases succeeds with ⟨id, s, r, constructed⟩
  have kept : ¬ (((P.M.func f).preds B).isEmpty ∧ B ≠ 0) := by
    intro left
    rcases laid.2 with led | first
    · exact led (List.isEmpty_iff.mp left.1)
    · exact left.2 first
  rw [constructBlock, if_neg kept] at constructed
  cases insts : blockInsts P f B with
  | nil =>
    intro I member
    cases member
  | cons first rest =>
    rw [insts] at constructed
    simp only [bind_apply, Option.bind_eq_some_iff] at constructed
    rcases constructed with ⟨port, here, exits, later, -⟩
    exact List.forall_mem_cons.mpr ⟨⟨id, s, port, here⟩, rest_succeeds later⟩

theorem blocks_succeed {id : ID} {Bs : List Nat} {s : State} {r : List Part × State}
    (constructed : constructBlocks P instruction f id Bs s = some r) :
    ∀ B ∈ Bs, Succeeds (constructBlock P instruction f B) := by
  induction Bs generalizing s r with
  | nil =>
    intro B member
    cases member
  | cons B Bs ih =>
    simp only [constructBlocks, bind_apply, Option.bind_eq_some_iff] at constructed
    rcases constructed with ⟨port, here, parts, later, -⟩
    exact List.forall_mem_cons.mpr ⟨⟨id, s, port, here⟩, ih later⟩

theorem loops_succeed {Ls : List Loop} {id : ID} {s : State} {r : List Part × State}
    (constructed : constructLoops P instruction numIterations f Ls id s = some r) :
    r.1.map Part.blocks = Ls.map Loop.blocks ∧
      ∀ L ∈ Ls, Succeeds (constructLoop P instruction numIterations f L) := by
  induction Ls generalizing s r with
  | nil =>
    rw [constructLoops] at constructed
    cases constructed
    refine ⟨rfl, fun L member => ?_⟩
    cases member
  | cons L Ls ih =>
    simp only [constructLoops, bind_apply, Option.bind_eq_some_iff] at constructed
    rcases constructed with ⟨port, here, parts, later, same⟩
    cases same
    rcases ih later with ⟨blocks, others⟩
    exact ⟨congrArg (L.blocks :: ·) blocks, List.forall_mem_cons.mpr ⟨⟨id, s, port, here⟩, others⟩⟩

/-- Each block of a nest is in one of the loops or is constructed on its own. -/
theorem nest_succeeds {Ls : List Loop} {entry : Nat} {exits blocks : List Nat}
    (succeeds : Succeeds (constructForest P instruction numIterations f Ls entry exits blocks))
    {B : Nat} (member : B ∈ blocks) :
    (∃ L ∈ Ls, B ∈ L.blocks ∧ Succeeds (constructLoop P instruction numIterations f L)) ∨
      Succeeds (constructBlock P instruction f B) := by
  rcases succeeds with ⟨id, s, r, constructed⟩
  simp only [constructForest, finishForest, bind_apply, Option.bind_eq_some_iff] at constructed
  rcases constructed with ⟨parts, first, others, second, -⟩
  rcases loops_succeed first with ⟨same, loops⟩
  by_cases inner : ∃ L ∈ Ls, B ∈ L.blocks
  · rcases inner with ⟨L, listed, here⟩
    exact .inl ⟨L, listed, here, loops L listed⟩
  · refine .inr (blocks_succeed second B (List.mem_filter.mpr ⟨member, List.all_eq_true.mpr ?_⟩))
    intro part listed
    have known : part.blocks ∈ Ls.map Loop.blocks := same ▸ List.mem_map_of_mem listed
    rcases List.mem_map.mp known with ⟨L, loop, blocks⟩
    exact decide_eq_true fun here => inner ⟨L, loop, blocks ▸ here⟩

theorem loop_succeeds {L : Loop}
    (succeeds : Succeeds (constructLoop P instruction (numIterations + 1) f L)) :
    ∀ B ∈ L.blocks, Succeeds (constructBlock P instruction f B) := by
  induction L using Loop.induct with
  | nested L ih =>
    rcases succeeds with ⟨id, s, r, constructed⟩
    simp only [constructLoop_eq, iterate, bind_apply, Option.bind_eq_some_iff] at constructed
    rcases constructed with ⟨-, ⟨loop, -, port, here, -⟩, -⟩
    have once : Succeeds (iteration P instruction (numIterations + 1) f L) := ⟨_, _, port, here⟩
    intro B member
    rcases nest_succeeds once member with ⟨T, sub, inside, succeeds⟩ | alone
    · exact ih T sub succeeds B inside
    · exact alone

end

section

variable {P : Program}

theorem function_succeeds {depth : Nat} {f : FuncRef} {callstack : List FuncRef}
    (succeeds : Succeeds (constructFunction P depth f callstack)) :
    functionExits P f ≠ none ∧ ∃ depth', ∀ B < (P.M.func f).blocks.length,
      Succeeds (constructBlock P (onStack P (constructFunction P depth') (f :: callstack)) f B) := by
  rcases succeeds with ⟨id, s, r, constructed⟩
  cases depth with
  | zero => cases constructed
  | succ depth =>
    simp only [constructFunction, constructBody, bind_apply, monadLift_self, Option.bind_eq_some_iff,
      require_eq_some] at constructed
    rcases constructed with ⟨⟨exits, _⟩, ⟨ends, rfl⟩, nest⟩
    refine ⟨ends ▸ Option.some_ne_none exits, depth, fun B valid => ?_⟩
    rcases nest_succeeds ⟨id, s, r, nest⟩ (List.mem_range.mpr valid) with
      ⟨L, -, here, succeeds⟩ | alone
    · exact loop_succeeds succeeds B here
    · exact alone

/-- The functions that are inlined into one that gets through get through. -/
theorem callee_succeeds {depth : Nat} {fr : Frame} {σ : Config} {g : FuncRef}
    (succeeds : Succeeds (constructFunction P depth fr.func (σ.map Frame.func)))
    (inside : FrameIn P fr.func fr) (call : entered P (fr :: σ) = some g) :
    ∃ depth', Succeeds (constructFunction P depth' g ((fr :: σ).map Frame.func)) := by
  rcases (function_succeeds succeeds).2 with ⟨depth', blocks⟩
  have listed : fr.inst ∈ blockInsts P fr.func fr.block :=
    List.mem_map.mpr ⟨fr.index, List.mem_range.mpr inside.index, rfl⟩
  rcases block_succeeds inside.laid (blocks fr.block inside.laid.1) fr.inst listed with
    ⟨id, s, r, constructed⟩
  have call' : callee P (fr.func :: σ.map Frame.func) (P.M.deref fr.inst) = some g := call
  simp only [onStack, constructInstruction, call', constructCall, bind_apply,
    Option.bind_eq_some_iff] at constructed
  rcases constructed with ⟨_, -, r', inlined, -⟩
  exact ⟨depth', _, _, r', inlined⟩

/-- The functions that are recognized end in returns and in `unreachable`. -/
theorem ends_of_functionExits {f : FuncRef} (recognized : functionExits P f ≠ none) {B : Nat}
    (valid : B < (P.M.func f).blocks.length) (none : ((P.M.func f).terminator B).successors = []) :
    ((P.M.func f).terminator B).isRet = true ∨ ((P.M.func f).terminator B).isUnreachable = true := by
  rcases Option.ne_none_iff_exists'.mp recognized with ⟨exits, ends⟩
  simp only [functionExits, Option.ite_none_right_eq_some, List.all_eq_true] at ends
  refine (Bool.or_eq_true ..).mp (ends.1 B (List.mem_filter.mpr ⟨List.mem_range.mpr valid, ?_⟩))
  exact List.isEmpty_iff.mpr none

end

end Clou.Unrolled
