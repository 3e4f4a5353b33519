import Clou.CallTree
import Clou.OptionFold
import Clou.Unrolling

/-! The translations that are made while a graph is constructed, and the record of the calls that
are inlined, are those of one tree of calls. What is inlined depends on the part of the program
and the functions on the stack alone, not on the instance or the iteration that is built. -/

namespace Clou.Unrolled

open Cfg Translations CallTree Edit

def callOf : Entry → Option Inlined
  | (⟨c, .inst C⟩, ⟨k, Vs⟩) => some ⟨c, C, k, Vs⟩
  | _ => none

/-- A part of the construction inlines a forest of calls into an instance. -/
structure Inlines (ts : List CallTree) (id : List FuncID) (s s' : State) : Prop where
  translations : s'.translations = FiniteMap.emplaceAll s.translations (allEntries ts id s.nextFunc)
  inlined : s'.inlined = s.inlined ++ (allEntries ts id s.nextFunc).filterMap callOf
  nextFunc : s'.nextFunc = s.nextFunc + sizes ts

namespace Inlines

variable {ts us : List CallTree} {id : List FuncID} {s s₁ s' : State}

theorem quiet (translations : s'.translations = s.translations) (inlined : s'.inlined = s.inlined)
    (nextFunc : s'.nextFunc = s.nextFunc) : Inlines [] id s s' where
  translations := translations
  inlined := by simp [inlined, allEntries]
  nextFunc := nextFunc

theorem refl : Inlines [] id s s := quiet rfl rfl rfl

theorem trans (first : Inlines ts id s s₁) (second : Inlines us id s₁ s') :
    Inlines (ts ++ us) id s s' where
  translations := by
    rw [second.translations, first.translations, first.nextFunc, allEntries_append,
      FiniteMap.emplaceAll_append]
  inlined := by
    rw [second.inlined, first.inlined, first.nextFunc, allEntries_append, List.filterMap_append,
      List.append_assoc]
  nextFunc := by rw [second.nextFunc, first.nextFunc, sizes_append, Nat.add_assoc]

theorem step (first : Inlines ts id s s₁) (second : Inlines [] id s₁ s') : Inlines ts id s s' := by
  simpa using first.trans second

end Inlines

/-! Connecting -/

section

variable {P : Program} {f : FuncRef} {id : List FuncID} {s s' : State}

theorem connect_inlines {srcs : List NodeRef} {dst : Option NodeRef}
    (connected : connect srcs dst s = some s') : Inlines [] id s s' := by
  refine foldlM_invariant (motive := Inlines [] id s) (fun src _ before edge => ?_) .refl connected
  rcases Option.map_eq_some_iff.mp edge with ⟨dst, -, rfl⟩
  exact before.step (.quiet rfl rfl rfl)

theorem connectParts_inlines {parts : List Part} (connected : connectParts P f parts s = some s') :
    Inlines [] id s s' := by
  refine foldlM_invariant (motive := Inlines [] id s) (fun part _ before outer => ?_) .refl connected
  refine foldlM_invariant (motive := Inlines [] id s) (fun srcB _ before inner => ?_) before outer
  refine foldlM_invariant (motive := Inlines [] id s) (fun dst _ before edges => ?_) before inner
  split at edges
  · cases edges
    exact before
  · split at edges
    · cases edges
      exact before
    · exact before.step (connect_inlines edges)

theorem glue_inlines {iterations : List (Port × List NodeRef)} (glued : glue iterations s = some s') :
    Inlines [] id s s' := by
  induction iterations generalizing s with
  | nil =>
    cases glued
    exact .refl
  | cons first rest ih =>
    cases rest with
    | nil =>
      cases glued
      exact .refl
    | cons second rest =>
      rw [glue, Option.bind_eq_bind, Option.bind_eq_some_iff] at glued
      rcases glued with ⟨s₁, connected, later⟩
      exact (connect_inlines connected).step (ih later)

theorem erase_inlines (header : NodeRef) (continuations : List NodeRef) :
    Inlines [] id s (continuations.foldl (fun s continuation => s.eraseEdge continuation header) s) := by
  induction continuations generalizing s with
  | nil => exact .refl
  | cons continuation rest ih =>
    have one : Inlines [] id s (s.eraseEdge continuation header) := .quiet rfl rfl rfl
    exact one.step ih

end

/-! Parts of a function -/

section Parts

def Chosen (calls : InstRef → Option CallTree) (ts : List CallTree) : Prop :=
  ∀ t ∈ ts, calls t.C = some t

def Uniform (construct : Construct) (ts : List CallTree) (blocks : List BlockRef) : Prop :=
  ∀ {id s port s'}, construct id s = some (port, s') →
    port.exits.map Prod.fst = blocks ∧ Inlines ts id.func s s'

def Steady (calls : InstRef → Option CallTree) (construct : Construct) : Prop :=
  ∃ ts blocks, Chosen calls ts ∧ Uniform construct ts blocks

variable {calls : InstRef → Option CallTree} {P : Program} {f : FuncRef}
  {instruction : InstRef → Construct} {numIterations : Nat}

theorem Chosen.nil : Chosen calls [] := nofun

theorem Chosen.append {ts us : List CallTree} (first : Chosen calls ts) (second : Chosen calls us) :
    Chosen calls (ts ++ us) := by
  intro t member
  rcases List.mem_append.mp member with here | there
  · exact first t here
  · exact second t there

def Part.shape (part : Part) : List Nat × List BlockRef := (part.blocks, part.port.exits.map Prod.fst)

theorem getBlockPort_shape (parts : List Part) (B : Nat) :
    getBlockPort parts B = (parts.map Part.shape).findIdx? fun shape => decide (B ∈ shape.1) := by
  rw [getBlockPort, List.findIdx?_map]
  rfl

/-- The blocks of merged exits depend on the shapes of the parts. -/
theorem mergeExits_steady (Bs : List Nat) (shapes : List (List Nat × List BlockRef)) :
    ∃ blocks, ∀ {parts exits}, parts.map Part.shape = shapes → mergeExits Bs parts = some exits →
      exits.map Prod.fst = blocks := by
  induction Bs generalizing shapes with
  | nil =>
    refine ⟨[], fun _ merged => ?_⟩
    cases merged
    rfl
  | cons B Bs ih =>
    cases place : shapes.findIdx? fun shape => decide (B ∈ shape.1) with
    | none =>
      refine ⟨[], fun shaped merged => ?_⟩
      rw [mergeExits, getBlockPort_shape, shaped, place] at merged
      cases merged
    | some i =>
      have bound : i < shapes.length := (List.findIdx?_eq_some_iff_getElem.mp place).1
      have found := List.getElem?_eq_getElem bound
      generalize shapes[i] = shape at found
      rcases ih (shapes.set i (shape.1, [])) with ⟨rest, spec⟩
      refine ⟨shape.2 ++ rest, fun shaped merged => ?_⟩
      rw [mergeExits, getBlockPort_shape, shaped, place] at merged
      simp only [Option.bind_eq_bind, Option.bind_some, Option.bind_eq_some_iff] at merged
      rcases merged with ⟨part, here, more, later, same⟩
      cases same
      rw [← shaped, List.getElem?_map, here] at found
      cases found
      rw [List.map_append, spec _ later]
      · rfl
      · rw [List.map_set, shaped]
        rfl

section Steady

variable (steady : ∀ I, Steady calls (instruction I))

include steady

theorem rest_steady (insts : List InstRef) (blocks : List BlockRef) :
    ∃ ts ends, Chosen calls ts ∧ ∀ {id exits s exits' s'}, exits.map Prod.fst = blocks →
      constructRest instruction id insts exits s = some (exits', s') →
      exits'.map Prod.fst = ends ∧ Inlines ts id.func s s' := by
  induction insts generalizing blocks with
  | nil =>
    refine ⟨[], blocks, .nil, fun same constructed => ?_⟩
    cases constructed
    exact ⟨same, .refl⟩
  | cons I insts ih =>
    rcases steady I with ⟨ts, mid, chosen, first⟩
    rcases ih mid with ⟨us, ends, chosen', rest⟩
    refine ⟨ts ++ us, ends, chosen.append chosen', fun _ constructed => ?_⟩
    simp only [constructRest, bind_apply, monadLift_self, Option.bind_eq_some_iff, effect_eq_some]
      at constructed
    rcases constructed with ⟨⟨port, s₁⟩, here, ⟨_, s₂⟩, connected, later⟩
    rcases first here with ⟨same, inlines⟩
    rcases rest same later with ⟨same', inlines'⟩
    exact ⟨same', (inlines.step (connect_inlines connected)).trans inlines'⟩

theorem block_steady (B : Nat) : Steady calls (constructBlock P instruction f B) := by
  by_cases left : ((P.M.func f).preds B).isEmpty ∧ B ≠ 0
  · refine ⟨[], [], .nil, fun constructed => ?_⟩
    rw [constructBlock, if_pos left] at constructed
    cases constructed
    exact ⟨rfl, .refl⟩
  · cases insts : blockInsts P f B with
    | nil =>
      refine ⟨[], [], .nil, fun constructed => ?_⟩
      rw [constructBlock, if_neg left, insts] at constructed
      cases constructed
    | cons I insts' =>
      rcases steady I with ⟨ts, mid, chosen, first⟩
      rcases rest_steady steady insts' mid with ⟨us, ends, chosen', rest⟩
      refine ⟨ts ++ us, ends, chosen.append chosen', fun constructed => ?_⟩
      rw [constructBlock, if_neg left, insts] at constructed
      simp only [bind_apply, pure_apply, Option.bind_eq_some_iff] at constructed
      rcases constructed with ⟨⟨port, s₁⟩, here, ⟨exits, s₂⟩, later, same⟩
      cases same
      rcases first here with ⟨same, inlines⟩
      rcases rest same later with ⟨same', inlines'⟩
      exact ⟨same', inlines.trans inlines'⟩

theorem blocks_steady (Bs : List Nat) : ∃ ts shapes, Chosen calls ts ∧ ∀ {id s parts s'},
      constructBlocks P instruction f id Bs s = some (parts, s') →
      parts.map Part.shape = shapes ∧ Inlines ts id.func s s' := by
  induction Bs with
  | nil =>
    refine ⟨[], [], .nil, fun constructed => ?_⟩
    cases constructed
    exact ⟨rfl, .refl⟩
  | cons B Bs ih =>
    rcases block_steady (f := f) steady B with ⟨ts, ends, chosen, first⟩
    rcases ih with ⟨us, shapes, chosen', rest⟩
    refine ⟨ts ++ us, ([B], ends) :: shapes, chosen.append chosen', fun constructed => ?_⟩
    simp only [constructBlocks, bind_apply, pure_apply, Option.bind_eq_some_iff] at constructed
    rcases constructed with ⟨⟨port, s₁⟩, here, ⟨parts, s₂⟩, later, same⟩
    cases same
    rcases first here with ⟨same, inlines⟩
    rcases rest later with ⟨same', inlines'⟩
    refine ⟨?_, inlines.trans inlines'⟩
    rw [List.map_cons, same', Part.shape, same]

theorem finish_steady (entry : Nat) (exits blocks : List Nat)
    (shapes : List (List Nat × List BlockRef)) :
    ∃ ts ends, Chosen calls ts ∧ ∀ {loops id s port s'}, loops.map Part.shape = shapes →
      finishForest P instruction f entry exits blocks loops id s = some (port, s') →
      port.exits.map Prod.fst = ends ∧ Inlines ts id.func s s' := by
  rcases blocks_steady (f := f) steady
    (blocks.filter fun B => shapes.all fun shape => decide (B ∉ shape.1)) with
      ⟨ts, others, chosen, built⟩
  rcases mergeExits_steady exits (shapes ++ others) with ⟨ends, merge⟩
  refine ⟨ts, ends, chosen, fun {loops id s port s'} shaped constructed => ?_⟩
  have outside : (blocks.filter fun B => loops.all fun part => decide (B ∉ part.blocks)) =
      blocks.filter fun B => shapes.all fun shape => decide (B ∉ shape.1) := by
    rw [← shaped]
    simp only [List.all_map]
    rfl
  simp only [finishForest, bind_apply, monadLift_self, pure_apply, Option.bind_eq_some_iff,
    effect_eq_some, require_eq_some] at constructed
  rcases constructed with ⟨⟨parts, s₁⟩, here, ⟨_, s₂⟩, connected, ⟨_, _⟩, ⟨-, rfl⟩, ⟨_, _⟩, ⟨-, rfl⟩,
    ⟨_, _⟩, ⟨exits, rfl⟩, same⟩
  cases same
  rw [outside] at here
  rcases built here with ⟨same, inlines⟩
  exact ⟨merge (by rw [List.map_append, shaped, same]) exits,
    inlines.step (connectParts_inlines connected)⟩

omit steady in
theorem iterate_steady {iteration : Construct} (steady : Steady calls iteration) (n : Nat) :
    ∃ ts ends, Chosen calls ts ∧ ∀ {id s iterations s'},
      iterate iteration id n s = some (iterations, s') →
      (iterations.flatMap (·.1.exits)).map Prod.fst = ends ∧ Inlines ts id.func s s' := by
  rcases steady with ⟨ts, ends, chosen, first⟩
  induction n with
  | zero =>
    refine ⟨[], [], .nil, fun iterated => ?_⟩
    cases iterated
    exact ⟨rfl, .refl⟩
  | succ n ih =>
    rcases ih with ⟨us, ends', chosen', rest⟩
    refine ⟨ts ++ us, ends ++ ends', chosen.append chosen', fun {id s _ _} iterated => ?_⟩
    simp only [iterate, bind_apply, monadLift_self, pure_apply, nextLoop, Option.bind_some,
      Option.bind_eq_some_iff, require_eq_some, cutContinuations, Option.map_eq_some_iff] at iterated
    rcases iterated with ⟨⟨port, s₁⟩, here, ⟨header, _⟩, ⟨-, rfl⟩, _, ⟨continuations, -, rfl⟩,
      ⟨more, s₂⟩, later, same⟩
    cases same
    rcases first here with ⟨same, inlines⟩
    rcases rest later with ⟨same', inlines'⟩
    have numbered : Inlines [] id.func s { s with nextLoop := s.nextLoop + 1 } := .quiet rfl rfl rfl
    refine ⟨?_, (numbered.trans (inlines.step (erase_inlines header continuations))).trans inlines'⟩
    rw [List.flatMap_cons, List.map_append, same, same']

omit steady in
theorem loops_steady {Ls : List Loop}
    (steady : ∀ L ∈ Ls, Steady calls (constructLoop P instruction numIterations f L)) :
    ∃ ts shapes, Chosen calls ts ∧ ∀ {id s parts s'},
      constructLoops P instruction numIterations f Ls id s = some (parts, s') →
      parts.map Part.shape = shapes ∧ Inlines ts id.func s s' := by
  induction Ls with
  | nil =>
    refine ⟨[], [], .nil, fun constructed => ?_⟩
    rw [constructLoops] at constructed
    cases constructed
    exact ⟨rfl, .refl⟩
  | cons L Ls ih =>
    rcases steady L List.mem_cons_self with ⟨ts, ends, chosen, first⟩
    rcases ih fun T later => steady T (List.mem_cons_of_mem L later) with ⟨us, shapes, chosen', rest⟩
    refine ⟨ts ++ us, (L.blocks, ends) :: shapes, chosen.append chosen', fun constructed => ?_⟩
    simp only [constructLoops, bind_apply, pure_apply, Option.bind_eq_some_iff] at constructed
    rcases constructed with ⟨⟨port, s₁⟩, here, ⟨parts, s₂⟩, later, same⟩
    cases same
    rcases first here with ⟨same, inlines⟩
    rcases rest later with ⟨same', inlines'⟩
    refine ⟨?_, inlines.trans inlines'⟩
    rw [List.map_cons, same', Part.shape, same]

theorem nest_steady {Ls : List Loop}
    (loops : ∀ L ∈ Ls, Steady calls (constructLoop P instruction numIterations f L)) (entry : Nat)
    (exits blocks : List Nat) :
    Steady calls (constructForest P instruction numIterations f Ls entry exits blocks) := by
  rcases loops_steady loops with ⟨ts, shapes, chosen, first⟩
  rcases finish_steady (f := f) steady entry exits blocks shapes with ⟨us, ends, chosen', rest⟩
  refine ⟨ts ++ us, ends, chosen.append chosen', fun constructed => ?_⟩
  rw [constructForest, bind_apply, Option.bind_eq_some_iff] at constructed
  rcases constructed with ⟨⟨parts, s₁⟩, here, later⟩
  rcases first here with ⟨shaped, inlines⟩
  rcases rest shaped later with ⟨same, inlines'⟩
  exact ⟨same, inlines.trans inlines'⟩

theorem loop_steady (L : Loop) : Steady calls (constructLoop P instruction numIterations f L) := by
  induction L using Loop.induct with
  | nested L ih =>
    have once : Steady calls (iteration P instruction numIterations f L) :=
      nest_steady steady ih L.header (exitingBlocks P f L) L.blocks
    rcases iterate_steady once numIterations with ⟨ts, ends, chosen, iterated⟩
    refine ⟨ts, ends, chosen, fun constructed => ?_⟩
    simp only [constructLoop_eq, joinIterations, bind_apply, monadLift_self, pure_apply,
      Option.bind_eq_some_iff, effect_eq_some, require_eq_some] at constructed
    rcases constructed with ⟨⟨iterations, s₁⟩, here, ⟨_, s₂⟩, glued, ⟨first, _⟩, ⟨-, rfl⟩, same⟩
    cases same
    rcases iterated here with ⟨same, inlines⟩
    exact ⟨same, inlines.step (glue_inlines glued)⟩

end Steady

end Parts

/-! Calls -/

section

variable {P : Program} {construct : ConstructFunction} {callstack : List FuncRef}

theorem returned_eq (C : Inst) (exits : List (BlockRef × NodeRef)) :
    returned P C exits = returned P C ((exits.map Prod.fst).map fun B => (B, 0)) := by
  rw [returned, returned, List.map_map, List.foldl_map]
  rfl

def callTree (P : Program) (C : InstRef) (g : FuncRef) (inner : List CallTree)
    (blocks : List BlockRef) :
    CallTree :=
  .call C g ((List.range (P.M.func g).argIsPointer.length).zip (P.M.deref C).args)
    (returned P (P.M.deref C) (blocks.map fun B => (B, 0))) inner

theorem filterMap_parameters (g : FuncRef) (args : List (Nat × Value)) (c k : List FuncID) :
    (parameters g args c k).filterMap callOf = [] := by
  rw [parameters, List.filterMap_map, List.filterMap_eq_nil_iff]
  exact fun _ _ => rfl

theorem translateArguments_eq (g : FuncRef) (args : List Value) (c k : List FuncID)
    (map : Translations.Map) :
    translateArguments P g args c k map = FiniteMap.emplaceAll map
      (parameters g ((List.range (P.M.func g).argIsPointer.length).zip args) c k) := by
  rw [translateArguments, FiniteMap.emplaceAll, parameters, List.foldl_map]

theorem call_uniform (C : InstRef) {g : FuncRef} {ts : List CallTree} {blocks : List BlockRef}
    (uniform : Uniform (construct g callstack) ts blocks) :
    Uniform (constructCall P (construct · callstack) C g) [callTree P C g ts blocks] blocks := by
  intro id s port s' constructed
  simp only [constructCall, bind_apply, monadLift_self, beginCall, Option.bind_some,
    Option.bind_eq_some_iff] at constructed
  rcases constructed with ⟨⟨port', s₁⟩, inner, same⟩
  cases same
  rcases uniform inner with ⟨same, inlines⟩
  have returns := returned_eq (P := P) (P.M.deref C) port'.exits
  rw [same] at returns
  refine ⟨same, ?_, ?_, ?_⟩
  · rw [allEntries_singleton, callTree, entries, FiniteMap.emplaceAll_append, FiniteMap.emplaceAll_append,
      ← translateArguments_eq, ← inlines.translations, ← returns]
    rfl
  · rw [allEntries_singleton, callTree, entries, List.filterMap_append, List.filterMap_append,
      filterMap_parameters, List.nil_append, ← List.append_assoc, ← inlines.inlined, ← returns]
    rfl
  · rw [sizes_singleton, callTree, CallTree.size, ← Nat.add_assoc]
    exact inlines.nextFunc

/-- The callees are uniform, so that each instruction inlines one tree or none. -/
theorem instruction_steady
    (uniform : ∀ g, ∃ ts blocks, Coherent ts ∧ Uniform (construct g callstack) ts blocks) :
    ∃ calls : InstRef → Option CallTree, (∀ I t, calls I = some t → t.C = I ∧ Coherent t.inner) ∧
      ∀ I, Steady calls (onStack P construct callstack I) := by
  choose inner blocks coherent spec using uniform
  refine ⟨fun I => (callee P callstack (P.M.deref I)).map fun g => callTree P I g (inner g) (blocks g),
    fun I t called => ?_, fun I => ?_⟩
  · rcases Option.map_eq_some_iff.mp called with ⟨g, -, rfl⟩
    exact ⟨rfl, coherent g⟩
  · cases into : callee P callstack (P.M.deref I) with
    | none =>
      refine ⟨[], [I.parent], .nil, fun constructed => ?_⟩
      rw [onStack, constructInstruction, into] at constructed
      cases constructed
      exact ⟨rfl, .quiet rfl rfl rfl⟩
    | some g =>
      refine ⟨[callTree P I g (inner g) (blocks g)], blocks g, ?_, fun constructed => ?_⟩
      · intro t member
        rw [List.mem_singleton.mp member]
        change Option.map _ (callee P callstack (P.M.deref I)) = _
        rw [into]
        rfl
      · rw [onStack, constructInstruction, into] at constructed
        exact call_uniform I (spec g) constructed

theorem Chosen.coherent {calls : InstRef → Option CallTree}
    (called : ∀ I t, calls I = some t → t.C = I ∧ Coherent t.inner) {ts : List CallTree}
    (chosen : Chosen calls ts) : Coherent ts := by
  refine .nest (fun t here u there same => ?_) fun t here => (called _ t (chosen t here)).2
  have first := chosen t here
  rw [same, chosen u there] at first
  exact (Option.some.inj first).symm

/-- Constructing a function is uniform: by induction on the depth of inlined calls. -/
theorem function_uniform (depth : Nat) (f : FuncRef) (callstack : List FuncRef) :
    ∃ ts blocks, Coherent ts ∧ Uniform (constructFunction P depth f callstack) ts blocks := by
  induction depth generalizing f callstack with
  | zero => exact ⟨[], [], .nest nofun nofun, nofun⟩
  | succ depth ih =>
    cases ends : functionExits P f with
    | none =>
      refine ⟨[], [], .nest nofun nofun, fun constructed => ?_⟩
      rw [constructFunction, constructBody_none ends] at constructed
      cases constructed
    | some exits =>
      rcases instruction_steady fun g => ih g (f :: callstack) with ⟨calls, called, steady⟩
      have loops : ∀ L ∈ (P.loopInfo f).top, Steady calls
          (constructLoop P (onStack P (constructFunction P depth) (f :: callstack))
            (P.numUnrolls + 1) f L) :=
        fun L _ => loop_steady steady L
      rcases nest_steady steady loops 0 exits (List.range (P.M.func f).blocks.length) with
        ⟨ts, blocks, chosen, uniform⟩
      refine ⟨ts, blocks, chosen.coherent called, fun constructed => ?_⟩
      rw [constructFunction, constructBody_some ends] at constructed
      exact uniform constructed

end

structure Logged (s : State) (ts : List CallTree) : Prop where
  coherent : Coherent ts
  translations : ∀ key, s.translations.lookup key = (allEntries ts [] 0).lookup key
  inlined : s.inlined = (allEntries ts [] 0).filterMap callOf

theorem construct_logged {P : Program} {F : FuncRef} {s : State}
    (constructed : construct P F = some s) :
    ∃ ts, Logged s ts := by
  rcases function_uniform (P := P) (maxDepth P) F [] with ⟨ts, blocks, coherent, uniform⟩
  simp only [construct, constructGraph, bind_apply, monadLift_self, newNode, Option.bind_some,
    Option.map_eq_some_iff, Option.bind_eq_some_iff, require_eq_some, effect_eq_some] at constructed
  rcases constructed with ⟨⟨_, _⟩, ⟨⟨port, s₁⟩, built, ⟨first, _⟩, ⟨-, rfl⟩, connected⟩, rfl⟩
  have inlines := (uniform built).2
  have edge : Inlines [] [] s₁ (s₁.addEdge 0 first) := .quiet rfl rfl rfl
  have whole := inlines.step (edge.step (connect_inlines connected))
  refine ⟨ts, coherent, fun key => ?_, ?_⟩
  · rw [whole.translations, FiniteMap.lookup_emplaceAll_or]
    rfl
  · rw [whole.inlined]
    rfl

end Clou.Unrolled
