import Clou.Metered
import Clou.Unrolling

/-! The construction of the unrolled graph with the call stack as the field that it is in the
source: it is read where a call may be inlined, and pushed and popped by the scope of a
function. Recursion is metered, and every stack there has been is written down. -/

namespace Clou.CallStack

open Cfg Metered Unrolled

/-- The call stack, all stacks so far, and for each function that was left the stacks before
the call and after the return. -/
structure Calls where
  callstack : List FuncRef
  moments : List (List FuncRef)
  returns : List (List FuncRef × List FuncRef)

def Calls.start : Calls := ⟨[], [[]], []⟩

def Calls.push (f : FuncRef) (calls : Calls) : Calls :=
  { calls with
    callstack := f :: calls.callstack
    moments := calls.moments ++ [f :: calls.callstack] }

def Calls.pop (before calls : Calls) : Calls where
  callstack := calls.callstack.tail
  moments := calls.moments ++ [calls.callstack.tail]
  returns := calls.returns ++ [(before.callstack, calls.callstack.tail)]

/-- Edits of the graph that keep the call stack and that may run out of fuel. -/
def Building (A : Type) := Run State Calls (Option A)

namespace Building

variable {A B : Type}

instance : Monad Building where
  pure a := ret (some a)
  bind x next := bind x fun
    | some a => next a
    | none => ret none

def perform (op : Edit A) : Building A :=
  lift fun s =>
    match op s with
    | some (a, s') => (some a, s')
    | none => (none, s)

instance : MonadLift Edit Building := ⟨perform⟩

def withCallstack (body : List FuncRef → Building A) : Building A :=
  ask fun calls => body calls.callstack

def pushed (f : FuncRef) (body : Building A) : Building A :=
  scope (Calls.push f) Calls.pop body

end Building

open Building

section

variable (P : Program)

def instruction (construct : FuncRef → ID → Building Port) (I : InstRef) (id : ID) : Building Port :=
  withCallstack fun callstack => constructInstruction P construct callstack I id

def numIterations : Nat := (P.numUnrolls + 1) % 2 ^ 32

def constructFunction : Nat → FuncRef → ID → Building Port
  | 0, _, _ => exhausted
  | fuel + 1, f, id =>
    pushed f (constructBody P (instruction P (constructFunction fuel)) (numIterations P) f id)

def construct (fuel : Nat) (F : FuncRef) : Building Unit :=
  constructGraph (constructFunction P fuel F)

end

/-! What every part does to the graph and to the call stack -/

structure Held (P : Program) (callstack : List FuncRef) (calls : Calls) : Prop where
  current : calls.callstack = callstack
  moments : ∀ stack ∈ calls.moments, ∀ g, stack.count g ≤ P.recursiveCallLimit + 1
  returns : ∀ pair ∈ calls.returns, pair.1 = pair.2

def Reflects {A : Type} (f : Edit A) (s : State) (result : Option A) (s' : State) : Prop :=
  f s = result.map fun a => (a, s')

def Tracks {A : Type} (P : Program) (callstack : List FuncRef) (x : Building A) (f : Edit A) : Prop :=
  Meets (Held P callstack)
    (fun s result s' => P.numUnrolls + 1 < 2 ^ 32 → Reflects f s result s') x

namespace Tracks

variable {P : Program} {callstack : List FuncRef} {A B : Type} {x : Building A} {f f' : Edit A}
  {next : A → Building B} {g : A → Edit B}

/-- Nothing is said where the number of iterations wraps around. -/
theorem wrapped (tracks : Tracks P callstack x f) (wraps : ¬ P.numUnrolls + 1 < 2 ^ 32) :
    Tracks P callstack x f' :=
  tracks.weaken fun _ _ _ _ small => absurd small wraps

theorem pure (a : A) : Tracks P callstack (pure a) (pure a) :=
  Meets.ret fun _ _ => rfl

theorem edit (op : Edit A) : Tracks P callstack (liftM op) (liftM op) := by
  change Tracks P callstack (perform op) op
  refine Meets.lift fun s _ => ?_
  cases result : op s with
  | none => exact result
  | some pair => exact result

theorem bind (first : Tracks P callstack x f) (rest : ∀ a, Tracks P callstack (next a) (g a)) :
    Tracks P callstack (x >>= next) (f >>= g) := by
  refine Meets.bind first fun result => ?_
  cases result with
  | none =>
    refine Meets.ret fun s s₀ failed small => ?_
    change (f s₀).bind _ = none
    rw [failed small, Option.map_none, Option.bind_none]
  | some a =>
    refine (rest a).weaken fun s result s' reflects s₀ reached small => ?_
    change (f s₀).bind _ = _
    rw [reached small, Option.map_some, Option.bind_some]
    exact reflects small

theorem withCallstack {body : List FuncRef → Building A}
    (tracks : Tracks P callstack (body callstack) f) :
    Tracks P callstack (withCallstack body) f := by
  refine Meets.ask fun calls held => ?_
  rw [held.current]
  exact tracks

theorem pushed {h : FuncRef} (few : ∀ g, (h :: callstack).count g ≤ P.recursiveCallLimit + 1)
    (tracks : Tracks P (h :: callstack) x f) : Tracks P callstack (pushed h x) f := by
  refine Meets.scope tracks (fun calls held => ?_) fun before calls held held' => ?_
  · refine ⟨congrArg (h :: ·) held.current, fun stack member => ?_, held.returns⟩
    rcases List.mem_append.mp member with old | new
    · exact held.moments stack old
    · rw [List.mem_singleton.mp new, held.current]
      exact few
  · have restored : calls.callstack.tail = callstack := by rw [held'.current, List.tail_cons]
    refine ⟨restored, fun stack member => ?_, fun pair member => ?_⟩
    · rcases List.mem_append.mp member with old | new
      · exact held'.moments stack old
      · rw [List.mem_singleton.mp new, restored]
        exact fun g => (List.count_le_count_cons).trans (few g)
    · rcases List.mem_append.mp member with old | new
      · exact held'.returns pair old
      · rw [List.mem_singleton.mp new, restored]
        exact held.current

end Tracks

/-! The parts of a function -/

section

variable {P : Program} {f : FuncRef} {callstack : List FuncRef}
  {instruction' : InstRef → ID → Building Port} {instruction : InstRef → Construct}

theorem rest_tracks {insts : List InstRef}
    (each : ∀ I ∈ insts, ∀ id, Tracks P callstack (instruction' I id) (instruction I id)) (id : ID)
    (exits : List (BlockRef × NodeRef)) :
    Tracks P callstack (constructRest instruction' id insts exits)
      (constructRest instruction id insts exits) := by
  induction insts generalizing exits with
  | nil => exact Tracks.pure exits
  | cons I rest ih =>
    have later := ih fun J member => each J (List.mem_cons_of_mem I member)
    exact (each I List.mem_cons_self id).bind fun port =>
      (Tracks.edit _).bind fun _ => later port.exits

section

variable (each : ∀ B, ∀ I ∈ blockInsts P f B, ∀ id,
  Tracks P callstack (instruction' I id) (instruction I id))

include each

theorem block_tracks (B : Nat) (id : ID) : Tracks P callstack (constructBlock P instruction' f B id)
      (constructBlock P instruction f B id) := by
  unfold constructBlock
  by_cases skipped : ((P.M.func f).preds B).isEmpty ∧ B ≠ 0
  · simp only [if_pos skipped]
    exact Tracks.pure _
  · simp only [if_neg skipped]
    have inside := each B
    cases insts : blockInsts P f B with
    | nil => exact Tracks.edit _
    | cons I rest =>
      rw [insts] at inside
      have later := rest_tracks (fun J member => inside J (List.mem_cons_of_mem I member)) id
      exact (inside I List.mem_cons_self id).bind fun port =>
        (later port.exits).bind fun exits => Tracks.pure _

theorem blocks_tracks (id : ID) (blocks : List Nat) :
    Tracks P callstack (constructBlocks P instruction' f id blocks)
      (constructBlocks P instruction f id blocks) := by
  induction blocks with
  | nil => exact Tracks.pure []
  | cons B rest ih =>
    exact (block_tracks each B id).bind fun port => ih.bind fun parts => Tracks.pure _

theorem finishForest_tracks (entry : Nat) (exits blocks : List Nat) (loops : List Part) (id : ID) :
    Tracks P callstack (finishForest P instruction' f entry exits blocks loops id)
      (finishForest P instruction f entry exits blocks loops id) :=
  (blocks_tracks each id _).bind fun _ => (Tracks.edit _).bind fun _ => (Tracks.edit _).bind fun _ =>
    (Tracks.edit _).bind fun _ => (Tracks.edit _).bind fun _ => Tracks.pure _

omit each in
theorem iterate_tracks {iteration' : ID → Building Port} {iteration : Construct}
    (once : ∀ id, Tracks P callstack (iteration' id) (iteration id)) (id : ID) (n : Nat) :
    Tracks P callstack (iterate iteration' id n) (iterate iteration id n) := by
  induction n with
  | zero => exact Tracks.pure []
  | succ n ih =>
    exact (Tracks.edit _).bind fun loop => (once { id with loop := id.loop ++ [loop] }).bind
      fun port => (Tracks.edit _).bind fun header => (Tracks.edit _).bind fun continuations =>
        ih.bind fun rest => Tracks.pure _

variable (n : Nat)

omit each in
theorem loops_tracks {Ls : List Loop} (loops : ∀ L ∈ Ls, ∀ id, Tracks P callstack
      (constructLoop P instruction' n f L id) (constructLoop P instruction n f L id)) (id : ID) :
    Tracks P callstack (constructLoops P instruction' n f Ls id)
      (constructLoops P instruction n f Ls id) := by
  induction Ls with
  | nil =>
    rw [constructLoops, constructLoops]
    exact Tracks.pure []
  | cons L rest ih =>
    have later := ih fun T member => loops T (List.mem_cons_of_mem L member)
    rw [constructLoops, constructLoops]
    exact (loops L List.mem_cons_self id).bind fun port => later.bind fun parts => Tracks.pure _

theorem forest_tracks {Ls : List Loop} (loops : ∀ L ∈ Ls, ∀ id, Tracks P callstack
      (constructLoop P instruction' n f L id) (constructLoop P instruction n f L id)) (entry : Nat)
    (exits blocks : List Nat) (id : ID) :
    Tracks P callstack (constructForest P instruction' n f Ls entry exits blocks id)
      (constructForest P instruction n f Ls entry exits blocks id) :=
  (loops_tracks n loops id).bind fun parts => finishForest_tracks each entry exits blocks parts id

theorem loop_tracks (L : Loop) (id : ID) :
    Tracks P callstack (constructLoop P instruction' n f L id)
      (constructLoop P instruction n f L id) := by
  induction L using Loop.induct generalizing id with
  | nested L ih =>
    rw [constructLoop_eq, constructLoop_eq]
    exact (iterate_tracks (forest_tracks each n ih _ _ _) id n).bind fun _ => Tracks.edit _

theorem body_tracks (id : ID) : Tracks P callstack (constructBody P instruction' n f id)
    (constructBody P instruction n f id) :=
  (Tracks.edit _).bind fun exits => forest_tracks each n (fun L _ => loop_tracks each n L) 0 exits _ id

end

/-- Where the calls track, the instructions do: the stack that is read is the one passed down. -/
theorem instruction_tracks {construct' : FuncRef → ID → Building Port}
    {construct : ConstructFunction} {I : InstRef}
    (calls : ∀ g, callee P callstack (P.M.deref I) = some g →
      ∀ id, Tracks P callstack (construct' g id) (construct g callstack id)) (id : ID) :
    Tracks P callstack (CallStack.instruction P construct' I id)
      (onStack P construct callstack I id) := by
  refine Tracks.withCallstack ?_
  unfold onStack constructInstruction
  cases called : callee P callstack (P.M.deref I) with
  | none => exact Tracks.edit _
  | some g =>
    exact (Tracks.edit _).bind fun calleeId => (calls g called ⟨calleeId, id.loop⟩).bind fun port =>
      Tracks.edit _

end

/-! Functions -/

section

variable {P : Program}

theorem defined_of_inst {f : FuncRef} {B : Nat} {I : InstRef} (member : I ∈ blockInsts P f B) :
    (P.M.func f).isDeclaration = false := by
  by_contra empty
  have none : (P.M.func f).blocks = [] := by
    simpa [Function.isDeclaration] using empty
  simp [blockInsts, Function.block, none] at member

/-- The measure is the room that is left on the call stack: with every function on it at most
one time more than the limit, it cannot get longer than the fuel. -/
theorem function_tracks {fuel depth : Nat} {callstack : List FuncRef} {f : FuncRef}
    (count : ∀ g, (f :: callstack).count g ≤ P.recursiveCallLimit + 1)
    (defined : ∀ g ∈ callstack, (P.M.func g).isDeclaration = false)
    (fuelled : maxDepth P ≤ fuel + callstack.length)
    (deep : maxDepth P ≤ depth + callstack.length) (id : ID) :
    Tracks P callstack (constructFunction P fuel f id)
      (Unrolled.constructFunction P depth f callstack id) := by
  have room : callstack.length < maxDepth P :=
    Nat.lt_succ_of_le (callstack_length_le (fun g => List.count_le_count_cons.trans (count g)) defined)
  induction fuel generalizing depth callstack f id with
  | zero => omega
  | succ fuel ih =>
    cases depth with
    | zero => omega
    | succ depth =>
      have each (B : Nat) (I : InstRef) (member : I ∈ blockInsts P f B) :
          ∀ id, Tracks P (f :: callstack) (instruction P (constructFunction P fuel) I id)
            (onStack P (Unrolled.constructFunction P depth) (f :: callstack) I id) := by
        refine instruction_tracks fun g called id => ?_
        have below : ∀ h ∈ f :: callstack, (P.M.func h).isDeclaration = false := by
          intro h on
          rcases List.mem_cons.mp on with rfl | earlier
          · exact defined_of_inst member
          · exact defined h earlier
        have room' := Nat.lt_succ_of_le (callstack_length_le count below)
        rw [List.length_cons] at room'
        exact ih (count_cons_le count (callee_count called)) below
          (by rw [List.length_cons]; omega) (by rw [List.length_cons]; omega) id
          (by rw [List.length_cons]; exact room')
      have body := body_tracks each (numIterations P) id
      refine Tracks.pushed count ?_
      by_cases small : P.numUnrolls + 1 < 2 ^ 32
      · rwa [numIterations, Nat.mod_eq_of_lt small] at body ⊢
      · exact body.wrapped small

theorem construct_tracks {fuel : Nat} (enough : maxDepth P ≤ fuel) (F : FuncRef) :
    Tracks P [] (construct P fuel F)
      (constructGraph (Unrolled.constructFunction P (maxDepth P) F [])) := by
  have once (g : FuncRef) : [F].count g ≤ P.recursiveCallLimit + 1 :=
    (List.count_le_length (l := [F])).trans (Nat.le_add_left 1 _)
  have function : Tracks P [] (constructFunction P fuel F ⟨[], []⟩)
      (Unrolled.constructFunction P (maxDepth P) F [] ⟨[], []⟩) :=
    function_tracks once (by simp) enough le_rfl ⟨[], []⟩
  exact (Tracks.edit _).bind fun entry => (Tracks.edit _).bind fun exit =>
    function.bind fun port => (Tracks.edit _).bind fun first => Tracks.edit _

/-- With enough fuel the construction ends, for every program and function. No function is ever
on the call stack more than one time above the limit, every return restores the stack, and the
graph is that of the construction by depth. -/
theorem construct_terminates (P : Program) (F : FuncRef) {fuel : Nat} (enough : maxDepth P ≤ fuel) :
    ∃ result s calls, construct P fuel F State.empty Calls.start = some (result, s, calls) ∧
      (∀ stack ∈ calls.moments, ∀ g, stack.count g ≤ P.recursiveCallLimit + 1) ∧
      (∀ pair ∈ calls.returns, pair.1 = pair.2) ∧ calls.callstack = [] ∧
      (P.numUnrolls + 1 < 2 ^ 32 → Unrolled.construct P F = result.map fun _ => s) := by
  have start : Held P [] Calls.start := ⟨rfl, by simp [Calls.start], by simp [Calls.start]⟩
  obtain ⟨result, s, calls, ends, held, reflects⟩ := construct_tracks enough F State.empty _ start
  refine ⟨result, s, calls, ends, held.moments, held.returns, held.current, fun small => ?_⟩
  rw [Unrolled.construct, reflects small, Option.map_map]
  rfl

end

/-! Two functions that call each other, one of them in a loop -/

def mutualCalls : Program where
  M := ⟨[
    ⟨[[⟨.br, [], [], [1], true, false, false⟩],
      [⟨.call (some 1) false false, [], [], [], true, false, false⟩,
        ⟨.br, [], [], [1, 2], true, false, false⟩],
      [⟨.ret, [], [], [], true, false, false⟩]], [[], [0, 1], [1]], []⟩,
    ⟨[[⟨.call (some 0) false false, [], [], [], true, false, false⟩,
      ⟨.ret, [], [], [], true, false, false⟩]], [[]], []⟩]⟩
  loopInfo f := if f = 0 then ⟨[.mk 1 [1] []]⟩ else ⟨[]⟩
  numUnrolls := 1
  recursiveCallLimit := 0

theorem mutualCalls_terminates : maxDepth mutualCalls = 3 ∧
    ∃ result s calls, construct mutualCalls 3 0 State.empty Calls.start = some (result, s, calls) ∧
      (∀ stack ∈ calls.moments, ∀ g, stack.count g ≤ 1) ∧
      (∀ pair ∈ calls.returns, pair.1 = pair.2) ∧ calls.callstack = [] ∧
      (1 + 1 < 2 ^ 32 → Unrolled.construct mutualCalls 0 = result.map fun _ => s) :=
  ⟨rfl, construct_terminates mutualCalls 0 (by decide)⟩

example : (construct mutualCalls 3 0 State.empty Calls.start).map (·.2.2.moments) =
    some [[], [0], [1, 0], [0], [1, 0], [0], []] := by
  decide +kernel

end Clou.CallStack
