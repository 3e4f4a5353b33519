import Clou.Graph
import Clou.Recognized
import Clou.Trace

/-! The ways of control through a function are the runs through what is laid out for it, but for
those that go on in a caller after an `unreachable`. -/

namespace Clou.Unrolled

/-- Nothing follows a return or an `unreachable`, and control leaves a block at its end. -/
structure Program.Terminated (P : Program) : Prop where
  ends : ∀ f, (P.M.func f).isDeclaration = false → ∀ B < (P.M.func f).blocks.length,
    ((P.M.func f).terminator B).isRet = true ∨ ((P.M.func f).terminator B).isUnreachable = true →
      ((P.M.func f).terminator B).successors = []
  inner : ∀ I : InstRef, I.index + 1 < ((P.M.func I.func).block I.block).length →
    (P.M.deref I).isTerminator = false

def Program.isTerminated (P : Program) : Bool :=
  P.M.funcs.all fun F =>
    (List.range F.blocks.length).all (fun B => (F.terminator B).successors.isEmpty ||
      !((F.terminator B).isRet || (F.terminator B).isUnreachable)) &&
    F.blocks.all (fun block => block.dropLast.all (fun I => !I.isTerminator))

theorem Program.terminated_of_test {P : Program} (test : P.isTerminated = true) : P.Terminated := by
  simp only [isTerminated, List.all_eq_true, Bool.and_eq_true, List.mem_range,
    Bool.not_eq_true'] at test
  have known {f : FuncRef} (defined : (P.M.func f).blocks ≠ []) : P.M.func f ∈ P.M.funcs := by
    unfold Module.func at defined ⊢
    rcases Nat.lt_or_ge f P.M.funcs.length with valid | beyond
    · simp [valid]
    · simp [List.getElem?_eq_none beyond] at defined
  constructor
  · intro f defined B valid ends
    have tested := (test _ (known (by simpa [Function.isDeclaration] using defined))).1 B valid
    rw [(Bool.or_eq_true ..).mpr ends, Bool.not_true, Bool.or_false] at tested
    exact List.isEmpty_iff.mp tested
  · intro I further
    have block : (P.M.func I.func).block I.block ∈ (P.M.func I.func).blocks := by
      unfold Function.block at further ⊢
      rcases Nat.lt_or_ge I.block (P.M.func I.func).blocks.length with valid | beyond
      · simp [valid]
      · simp [List.getElem?_eq_none beyond] at further
    apply (test _ (known (List.ne_nil_of_mem block))).2 _ block
    have bound : I.index < ((P.M.func I.func).block I.block).dropLast.length := by
      rw [List.length_dropLast]
      omega
    have here : P.M.deref I = ((P.M.func I.func).block I.block).dropLast[I.index] := by
      rw [List.getElem_dropLast, Module.deref, List.getD_eq_getElem?_getD,
        List.getElem?_eq_getElem (Nat.lt_of_succ_lt further), Option.getD_some]
    rw [here]
    exact List.getElem_mem bound

/-! Stacks of frames -/

/-- Every frame but the first stands at the call that was entered. -/
inductive Stacked (P : Program) (F : FuncRef) : Config → Prop
  | base {fr} : FrameIn P F fr → Stacked P F [fr]
  | call {fr g σ} : Stacked P F σ → entered P σ = some g → FrameIn P g fr → Stacked P F (fr :: σ)

section

variable {P : Program} {F : FuncRef}

variable {d c σ : Config} {fr : Frame}

theorem Stacked.laid {κ : Config} (stacked : Stacked P F κ) (laid : Laid P κ d) :
    Placed P F (.inst d) := by
  induction stacked with
  | base inside => exact .inst inside laid
  | call _ call inside ih => exact ih (.call call inside laid)

theorem Laid.stacked {κ : Config} (laid : Laid P κ d) (stacked : Stacked P F κ) :
    Stacked P F d := by
  induction laid with
  | here _ => exact stacked
  | call call inside _ ih => exact ih (.call stacked call inside)

theorem Placed.stacked (placed : Placed P F (.inst c)) : Stacked P F c := by
  cases placed with
  | inst inside laid => exact laid.stacked (.base inside)

theorem Stacked.frame (defined : (P.M.func F).isDeclaration = false)
    (stacked : Stacked P F (fr :: σ)) :
    (P.M.func fr.func).isDeclaration = false ∧ FrameIn P fr.func fr := by
  cases stacked with
  | base inside => exact ⟨inside.func.symm ▸ defined, inside.func.symm ▸ inside⟩
  | call _ call inside => exact ⟨inside.func.symm ▸ entered_defined call, inside.func.symm ▸ inside⟩

theorem Stacked.replace {fr' : Frame} (stacked : Stacked P F (fr :: σ)) (func : fr'.func = fr.func)
    (inside : FrameIn P fr'.func fr') : Stacked P F (fr' :: σ) := by
  cases stacked with
  | base old => exact .base (old.func ▸ func ▸ inside)
  | call below call old => exact .call below call (old.func ▸ func ▸ inside)

theorem Stacked.move (okay : P.Ok) (defined : (P.M.func F).isDeclaration = false) {e : Config}
    (stacked : Stacked P F c) (moves : Move P c e) : Stacked P F e := by
  cases moves with
  | link link =>
    rcases stacked.frame defined with ⟨known, inside⟩
    have next := frameIn_link (okay _ known) inside link
    exact stacked.replace next.func (next.func.symm ▸ next)
  | leave last ends =>
    cases stacked with
    | call below call inside =>
      rcases below.frame defined with ⟨known, inside'⟩
      exact below.replace rfl (frameIn_next inside' (not_atEnd (okay _ known) inside' call))

theorem Stacked.lands (okay : P.Ok) {e : Config} (stacked : Stacked P F e) (lands : Lands P e d) :
    Stacked P F d ∧ Placed P F (.inst d) :=
  ⟨(lands.laid okay).stacked stacked, stacked.laid (lands.laid okay)⟩

theorem stacked_start (okay : P.Ok) (defined : (P.M.func F).isDeclaration = false) :
    Stacked P F [.start F] := .base (frameIn_start (okay F defined))

theorem Stacked.succeeds (built : Succeeds (constructFunction P (maxDepth P) F []))
    (stacked : Stacked P F c) : ∃ fr σ depth, c = fr :: σ ∧ FrameIn P fr.func fr ∧
      Succeeds (constructFunction P depth fr.func (σ.map Frame.func)) := by
  induction stacked with
  | @base fr inside =>
    exact ⟨fr, [], maxDepth P, rfl, inside.func.symm ▸ inside, inside.func.symm ▸ built⟩
  | @call fr g σ _ call inside ih =>
    rcases ih with ⟨caller, τ, depth, rfl, below, succeeds⟩
    rcases callee_succeeds succeeds below call with ⟨depth', inlined⟩
    exact ⟨fr, _, depth', rfl, inside.func.symm ▸ inside, inside.func.symm ▸ inlined⟩

/-- Once the graph is built, every function that is laid out in it has been recognized. -/
theorem Stacked.recognized {s : State} (built : construct P F = some s)
    (stacked : Stacked P F (fr :: σ)) : functionExits P fr.func ≠ none := by
  simp only [construct, constructGraph, Edit.bind_apply, Option.map_eq_some_iff,
    Option.bind_eq_some_iff] at built
  rcases built with ⟨_, ⟨_, -, _, -, r, constructed, -⟩, -⟩
  rcases stacked.succeeds ⟨_, _, r, constructed⟩ with ⟨_, _, _, same, -, succeeds⟩
  cases same
  exact (function_succeeds succeeds).1

end

/-! Ways and runs -/

/-- The instances on a run from one of them to the end of the outermost function. -/
inductive Course (P : Program) (F : FuncRef) : Config → List Config → Prop
  | last {c} : Ends P F [] c → Course P F c [c]
  | step {c d l} : Step P c d → Course P F d l → Course P F c (c :: l)

/-- A position of control is that of an instance, in the iterations that are counted. -/
structure Matched (P : Program) (s : Spot) (fr : Frame) : Prop where
  func : s.func = fr.func
  block : s.block = fr.block
  index : s.index = fr.index
  reached : (P.M.func fr.func).Reachable fr.block
  counts : Counts s.taken (P.loopInfo fr.func).top fr.block fr.iters
  few : ∀ L, (P.loopInfo fr.func).Mem L → s.taken L ≤ P.numUnrolls

abbrev Matches (P : Program) : Control → Config → Prop := List.Forall₂ (Matched P)

section Matches

variable {P : Program} {F : FuncRef} {s : Spot} {fr : Frame} {c : Control} {κ : Config}

section

variable (matched : Matched P s fr)

include matched

theorem Matched.inst : s.inst = fr.inst := by
  rw [Spot.inst, Frame.inst, matched.func, matched.block, matched.index]

theorem Matched.next : Matched P s.next fr.next :=
  { matched with index := congrArg (· + 1) matched.index }

theorem Matched.blockLength : s.blockLength P = blockLength P fr := by
  rw [Spot.blockLength, Unrolled.blockLength, matched.func, matched.block]

theorem Matched.terminator : s.terminator P = (P.M.func fr.func).terminator fr.block := by
  rw [Spot.terminator, matched.func, matched.block]

theorem Matched.atEnd : s.index + 1 = s.blockLength P ↔ AtEnd P fr := by
  rw [matched.blockLength, matched.index, AtEnd]

end

theorem matched_start (ok : FunctionOk P F) : Matched P (.start F) (.start F) where
  func := rfl
  block := rfl
  index := rfl
  reached := .refl
  counts := .own fun T member => ok.natural.entry T member
  few := fun _ _ => Nat.zero_le _

theorem matches_enters (matches' : Matches P c κ) : enters P c = entered P κ := by
  have funcs : c.map Spot.func = κ.map Frame.func := by
    induction matches' with
    | nil => rfl
    | cons matched _ ih => rw [List.map_cons, List.map_cons, matched.func, ih]
  cases matches' with
  | nil => rfl
  | cons matched _ => rw [enters, entered, funcs, matched.inst]

/-- A jump of control is one between instances, to the same iterations. -/
theorem Matched.jump (ok : FunctionOk P fr.func) (matched : Matched P s fr) {S : Nat}
    (flow : S ∈ successors P fr)
    (few : ∀ L, (P.loopInfo fr.func).Mem L → backEdges fr.block S s.taken L ≤ P.numUnrolls) :
    ∃ iters, jumpTo (P.loopInfo fr.func).top fr.block S fr.iters = (S, iters) ∧
      (∀ i ∈ iters, i ≤ P.numUnrolls) ∧
      Matched P ⟨s.func, S, 0, backEdges s.block S s.taken⟩ ⟨fr.func, S, 0, iters⟩ := by
  have side := SideBySide.top ok.natural
  rcases counts_jumpTo matched.counts side matched.reached flow with ⟨same, counts⟩
  refine ⟨_, Prod.ext same rfl, counts.bounded side few, ?_⟩
  exact ⟨matched.func, rfl, rfl, matched.reached.tail flow, matched.block.symm ▸ counts,
    matched.block.symm ▸ few⟩

/-- If no iteration is beyond the last one, then no back edge is taken too often. -/
theorem Matched.few_jump (ok : FunctionOk P fr.func) (matched : Matched P s fr) {S : Nat}
    (flow : S ∈ successors P fr)
    (bounded : ∀ i ∈ (jumpTo (P.loopInfo fr.func).top fr.block S fr.iters).2, i ≤ P.numUnrolls)
    (L : Loop) (member : (P.loopInfo fr.func).Mem L) :
    backEdges fr.block S s.taken L ≤ P.numUnrolls := by
  have side := SideBySide.top ok.natural
  have counts := (counts_jumpTo matched.counts side matched.reached flow).2
  by_cases stays : S ∈ L.blocks
  · rcases member with ⟨T, top, within⟩
    exact bounded _ (counts.mem side top within stays)
  · have onward : S ≠ L.header := fun same => stays (same ▸ (ok.natural.loop member).header_mem)
    unfold backEdges
    rw [if_neg onward]
    split
    · exact matched.few L member
    · exact Nat.zero_le _

theorem matches_move (okay : P.Ok) (terminated : P.Terminated)
    (defined : (P.M.func F).isDeclaration = false) {c' : Control} (stacked : Stacked P F κ)
    (matches' : Matches P c κ) (goes : Goes P c c') : ∃ κ', Move P κ κ' ∧ Matches P c' κ' := by
  cases matches' with
  | nil => cases goes
  | @cons s fr σ κ matched below =>
    rcases stacked.frame defined with ⟨known, inside⟩
    cases goes with
    | seq further =>
      rw [matched.blockLength, matched.index] at further
      exact ⟨_, .link (.seq further), .cons matched.next below⟩
    | jump last flow few =>
      rw [matched.terminator] at flow
      rw [matched.func, matched.block] at few
      rcases matched.jump (okay _ known) flow few with ⟨iters, jump, bounded, matched'⟩
      exact ⟨_, .link (.jump (matched.atEnd.mp last) flow jump bounded), .cons matched' below⟩
    | ret last returns =>
      cases below with
      | cons caller below =>
        rw [matched.terminator] at returns
        have ends := terminated.ends _ known _ inside.laid.1 (.inl returns)
        exact ⟨_, .leave (matched.atEnd.mp last) ends, .cons caller.next below⟩

/-- Control leaves an inlined function at a return, or goes on after an `unreachable`. -/
def Proper (P : Program) : Config → Prop
  | [] => True
  | fr :: σ => (P.M.deref fr.inst).isUnreachable = true → σ = []

theorem matches_goes (okay : P.Ok) (defined : (P.M.func F).isDeclaration = false) {built : State}
    (constructed : construct P F = some built) {κ' : Config} (stacked : Stacked P F κ)
    (matches' : Matches P c κ) (proper : Proper P κ) (moves : Move P κ κ') :
    ∃ c', Goes P c c' ∧ Matches P c' κ' := by
  cases matches' with
  | nil => cases moves
  | @cons s fr σ κ matched below =>
    rcases stacked.frame defined with ⟨known, inside⟩
    cases moves with
    | link link =>
      cases link with
      | seq further =>
        rw [← matched.blockLength, ← matched.index] at further
        exact ⟨_, .seq further, .cons matched.next below⟩
      | @jump S B iters last flow jump bounded =>
        have few := matched.few_jump (okay _ known) flow fun i member =>
          bounded i (by rwa [jump] at member)
        rcases matched.jump (okay _ known) flow few with ⟨iters', jump', -, matched'⟩
        obtain ⟨rfl, rfl⟩ := Prod.ext_iff.mp (jump.symm.trans jump')
        refine ⟨_, .jump (matched.atEnd.mpr last) ?_ ?_, .cons matched' below⟩
        · rwa [matched.terminator]
        · rwa [matched.func, matched.block]
    | leave last ends =>
      cases below with
      | cons caller below =>
        rcases ends_of_functionExits (stacked.recognized constructed) inside.laid.1 ends with
          returns | stops
        · refine ⟨_, .ret (matched.atEnd.mpr last) ?_, .cons caller.next below⟩
          rwa [matched.terminator]
        · rw [← deref_atEnd last] at stops
          cases proper stops

theorem matches_lands (okay : P.Ok) {d : Config} (lands : Lands P κ d) (matches' : Matches P c κ) :
    ∃ c', Matches P c' d ∧ ∀ l, Trace P c' l → Trace P c l := by
  induction lands generalizing c with
  | here _ => exact ⟨c, matches', fun _ trace => trace⟩
  | enter call _ ih =>
    have begun := matched_start (okay _ (entered_defined call))
    rcases ih (.cons begun matches') with ⟨c', matches', onward⟩
    refine ⟨c', matches', fun l trace => .enter ?_ (onward l trace)⟩
    rwa [matches_enters ‹Matches P c _›]

abbrev Same : Control → Config → Prop :=
  List.Forall₂ fun s fr => s.func = fr.func ∧ s.block = fr.block ∧ s.index = fr.index

theorem Matches.same (matches' : Matches P c κ) : Same c κ :=
  matches'.imp fun _ _ matched => ⟨matched.func, matched.block, matched.index⟩

theorem kind_unreachable {I : Inst} (stops : I.isUnreachable = true) : I.kind = .unreachable := by
  cases kind : I.kind <;> simp [Inst.isUnreachable, kind] at stops
  rfl

/-- A way of control goes on in no caller after an `unreachable`. -/
theorem trace_proper (okay : P.Ok) (terminated : P.Terminated)
    (defined : (P.M.func F).isDeclaration = false) {l : List Control} (trace : Trace P c l)
    (stacked : Stacked P F κ) (matches' : Matches P c κ) :
    ∀ d ∈ l, ∀ s σ, d = s :: σ → (P.M.deref s.inst).isUnreachable = true → σ = [] := by
  induction trace generalizing κ with
  | finish _ _ =>
    intro d member s σ same _
    rw [List.mem_singleton.mp member] at same
    cases same
    rfl
  | @visit s σ c l _ goes _ ih =>
    rcases matches_move okay terminated defined stacked matches' goes with ⟨κ', moves, next⟩
    refine List.forall_mem_cons.mpr ⟨?_, ih (stacked.move okay defined moves) next⟩
    rintro _ _ ⟨rfl, rfl⟩ stops
    have kind := kind_unreachable stops
    cases matches' with
    | @cons _ fr _ _ matched below =>
      rcases stacked.frame defined with ⟨known, inside⟩
      cases goes with
      | seq further =>
        have other := terminated.inner s.inst further
        simp [Inst.isTerminator, kind] at other
      | jump last flow _ =>
        rw [matched.inst, deref_atEnd (matched.atEnd.mp last)] at stops
        rw [matched.terminator, terminated.ends _ known _ inside.laid.1 (.inr stops)] at flow
        cases flow
      | ret last returns =>
        rw [matched.terminator, ← deref_atEnd (matched.atEnd.mp last), ← matched.inst] at returns
        simp [Inst.isRet, kind] at returns
  | enter call _ ih =>
    rw [matches_enters matches'] at call
    have ok := okay _ (entered_defined call)
    exact ih (.call stacked call (frameIn_start ok)) (.cons (matched_start ok) matches')

theorem trace_course (okay : P.Ok) (terminated : P.Terminated)
    (defined : (P.M.func F).isDeclaration = false) {l : List Control} (trace : Trace P c l)
    (stacked : Stacked P F κ) (matches' : Matches P c κ) :
    ∃ d l', Lands P κ d ∧ Course P F d l' ∧ List.Forall₂ Same l l' := by
  induction trace generalizing κ with
  | finish last ends =>
    cases matches' with
    | cons matched below =>
      cases below with
      | nil =>
        rcases stacked.frame defined with ⟨known, inside⟩
        cases stacked with
        | base inside' =>
          rw [matched.terminator] at ends
          have atEnd := matched.atEnd.mp last
          refine ⟨_, _, .here (entered_atEnd (okay _ known) rfl inside.laid atEnd []),
            .last ⟨_, rfl, inside', atEnd, terminated.ends _ known _ inside.laid.1 ends⟩, ?_⟩
          exact .cons (Matches.same (.cons matched .nil)) .nil
        | call below _ _ => cases below
  | visit plain goes _ ih =>
    rcases matches_move okay terminated defined stacked matches' goes with ⟨κ', moves, next⟩
    rcases ih (stacked.move okay defined moves) next with ⟨d, l', lands, course, same⟩
    rw [matches_enters matches'] at plain
    exact ⟨κ, κ :: l', .here plain, .step ⟨κ', moves, lands⟩ course, .cons (Matches.same matches') same⟩
  | enter call _ ih =>
    rw [matches_enters matches'] at call
    have ok := okay _ (entered_defined call)
    rcases ih (.call stacked call (frameIn_start ok)) (.cons (matched_start ok) matches') with
      ⟨d, l', lands, course, same⟩
    exact ⟨d, l', .enter call lands, course, same⟩

/-- A run through the instances is a way of control if it leaves inlined functions by returns. -/
theorem course_trace (okay : P.Ok) (defined : (P.M.func F).isDeclaration = false) {built : State}
    (constructed : construct P F = some built) {d : Config} {l : List Config}
    (course : Course P F d l) (lands : Lands P κ d) (stacked : Stacked P F κ)
    (matches' : Matches P c κ) (proper : ∀ e ∈ l, Proper P e) :
    ∃ l', Trace P c l' ∧ List.Forall₂ Same l' l := by
  induction course generalizing κ c with
  | @last d ends =>
    rcases ends with ⟨fr, rfl, inside, atEnd, none⟩
    rcases matches_lands okay lands matches' with ⟨c', here, onward⟩
    cases here with
    | cons matched below =>
      cases below with
      | nil =>
        have ends := ends_of_functionExits ((Stacked.base inside).recognized constructed)
          (inside.func.symm ▸ inside.laid.1) none
        rw [← matched.terminator] at ends
        exact ⟨_, onward _ (.finish (matched.atEnd.mpr atEnd) ends),
          .cons (Matches.same (.cons matched .nil)) .nil⟩
  | @step d e l step _ ih =>
    rcases step with ⟨κ', moves, lands'⟩
    rcases matches_lands okay lands matches' with ⟨c', here, onward⟩
    have stacked' := (stacked.lands okay lands).1
    rcases matches_goes okay defined constructed stacked' here
      (proper d List.mem_cons_self) moves with ⟨c'', goes, next⟩
    rcases ih lands' (stacked'.move okay defined moves) next
      (fun e later => proper e (List.mem_cons_of_mem d later)) with ⟨l', trace, same⟩
    have plain := (matches_enters here).trans lands.entered
    cases here with
    | nil => cases moves
    | cons matched below =>
      exact ⟨_, onward _ (.visit plain goes trace), .cons (Matches.same (.cons matched below)) same⟩

end Matches

end Clou.Unrolled
