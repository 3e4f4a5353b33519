import Mathlib.Data.Fintype.Order
import Clou.DataflowLoops

/-! The values that a pass over a function with annotated loops computes, compared with the
values along the paths that make the iterations their loops are annotated with. -/

namespace Clou.Dataflow

open FiniteMap Descent

variable {V : Type} [SemilatticeInf V] [OrderTop V] {tr : InstRef → V → V} {M : Module}
  {f : FuncRef} {LI : LoopInfo} {minIterations : Loop → Nat}

/-- How often the back edges of each loop have been taken since it was entered. -/
def taken (f : FuncRef) (I J : InstRef) (before : Loop → Nat) (L : Loop) : Nat :=
  if I.block ∈ L.blocks then
    if J = ⟨f, L.header, 0⟩ then before L + 1 else before L
  else 0

/-- Every loop that a step leaves has taken its back edges as often as it is annotated. -/
def Leaves (LI : LoopInfo) (minIterations : Loop → Nat) (I J : InstRef) (count : Loop → Nat) :
    Prop :=
  ∀ L, LoopInfo.Mem L LI → I.block ∈ L.blocks → J.block ∉ L.blocks → minIterations L ≤ count L

/-- Paths inside some blocks on which loops are left only after the iterations they are
annotated with, with the value that the transfers make of `s` on the way. -/
inductive Traverses (tr : InstRef → V → V) (M : Module) (f : FuncRef) (LI : LoopInfo)
    (minIterations : Loop → Nat) (inside : Nat → Prop) (start : InstRef) (s : V)
    (first : Loop → Nat) : InstRef → V → (Loop → Nat) → Prop
  | start : Traverses tr M f LI minIterations inside start s first start s first
  | step {I J v count} : Traverses tr M f LI minIterations inside start s first I v count →
      M.Next I J → inside J.block → Leaves LI minIterations I J count →
      Traverses tr M f LI minIterations inside start s first J (tr I v) (taken f I J count)

omit [SemilatticeInf V] [OrderTop V] in
theorem Traverses.reaches {inside : Nat → Prop} {start I : InstRef} {s v : V}
    {first count : Loop → Nat} (wellFormed : (M.func f).WellFormed)
    (path : Traverses tr M f LI minIterations inside start s first I v count)
    (member : start ∈ M.insts f) (reachable : (M.func f).Reachable start.block) :
    I ∈ M.insts f ∧ (M.func f).Reachable I.block := by
  induction path with
  | start => exact ⟨member, reachable⟩
  | step _ next _ _ ih =>
    have func := ((Module.mem_insts ..).mp ih.1).1
    refine ⟨next.mem_insts wellFormed ih.1, ?_⟩
    rcases next_cases next func with ⟨-, -, -, rfl⟩ | ⟨-, flow, -⟩
    · exact ih.2
    · exact ih.2.tail flow

section Covered

variable [DecidableEq V] {fuel : Nat}

/-- The values of a loop's transfer are below those along the paths through it. -/
def LoopCovered (tr : InstRef → V → V) (M : Module) (f : FuncRef) (LI : LoopInfo)
    (minIterations : Loop → Nat) (fuel : Nat) (L : Loop) : Prop :=
  ∀ {e s : V} {first : Loop → Nat} {I : InstRef} {v : V} {count : Loop → Nat}, e ≤ s →
    first L = 0 → (M.func f).Reachable L.header →
    Traverses tr M f LI minIterations (· ∈ L.blocks) ⟨f, L.header, 0⟩ s first I v count →
    (loop (latticeContext tr) M f fuel minIterations L).val e I ≤ v ∧
    (I ∈ loopExits M f L → (∀ T, T.Within L → I.block ∈ T.blocks → minIterations T ≤ count T) →
      (loop (latticeContext tr) M f fuel minIterations L).ext e I ≤ tr I v)

/-- A place on a path through the components of a nest, whose entry values are `A`. -/
inductive Covered (tr : InstRef → V → V) (M : Module) (f : FuncRef) (LI : LoopInfo)
    (minIterations : Loop → Nat) (blocks : List Nat) (Ls : List Loop) (A : InstRef → V) :
    InstRef → V → (Loop → Nat) → Prop
  | block {B I v count} : B ∈ blocks → (∀ L ∈ Ls, B ∉ L.blocks) → I ∈ blockInsts M f B →
      (block (latticeContext tr) M f B).val (A ⟨f, B, 0⟩) I ≤ v →
      Covered tr M f LI minIterations blocks Ls A I v count
  | loop {S s first I v count} : S ∈ Ls → A ⟨f, S.header, 0⟩ ≤ s → first S = 0 →
      (M.func f).Reachable S.header →
      Traverses tr M f LI minIterations (· ∈ S.blocks) ⟨f, S.header, 0⟩ s first I v count →
      Covered tr M f LI minIterations blocks Ls A I v count

variable {blocks : List Nat} {Ls : List Loop} {header : Nat} {A : InstRef → V} {I J : InstRef}
  {v : V} {count : Loop → Nat}

structure CoveredNest (tr : InstRef → V → V) (M : Module) (f : FuncRef) (LI : LoopInfo)
    (minIterations : Loop → Nat) (fuel : Nat) (blocks : List Nat) (Ls : List Loop) (header : Nat) :
    Prop where
  wellFormed : (M.func f).WellFormed
  monotone : ∀ I, Monotone (tr I)
  correct : LI.Correct (M.func f)
  nested : Nested (M.func f) blocks Ls header
  members : ∀ S ∈ Ls, LoopInfo.Mem S LI
  loops : ∀ S ∈ Ls, LoopCovered tr M f LI minIterations fuel S

variable (nest : CoveredNest tr M f LI minIterations fuel blocks Ls header)

include nest

theorem CoveredNest.nonempty {B : Nat} (present : B ∈ blocks) : 0 < ((M.func f).block B).length :=
  nest.wellFormed.nonempty (nest.nested.valid B present)

theorem CoveredNest.start_mem : (⟨f, header, 0⟩ : InstRef) ∈ M.insts f :=
  (Module.mem_insts ..).mpr ⟨rfl, nest.nested.valid _ nest.nested.header_mem,
    nest.nonempty nest.nested.header_mem⟩

/-- Where a path enters a component, it is covered by every entry value below its own. -/
theorem covered_entry {c : Component V}
    (member : c ∈ nestComponents (latticeContext tr) M f fuel minIterations blocks Ls)
    (reachable : (M.func f).Reachable c.entry.block) (below : A c.entry ≤ v)
    (outside : ∀ L ∈ Ls, c.entry = ⟨f, L.header, 0⟩ → count L = 0) :
    Covered tr M f LI minIterations blocks Ls A c.entry v count := by
  rcases mem_nestComponents.mp member with ⟨L, present, rfl⟩ | ⟨B, present, own, rfl⟩
  · rw [loop_entry] at below reachable outside ⊢
    exact .loop present below (outside L present rfl) reachable .start
  · have nonempty := nest.nonempty present
    refine .block present own (mem_blockInsts.mpr ⟨rfl, rfl, nonempty⟩) ?_
    rw [show (block (latticeContext tr) M f B).entry = ⟨f, B, 0⟩ from rfl,
      block_val_first nonempty]
    exact below

theorem covered_header (below : A ⟨f, header, 0⟩ ≤ v) :
    Covered tr M f LI minIterations blocks Ls A ⟨f, header, 0⟩ v count := by
  have nonempty := nest.nonempty nest.nested.header_mem
  refine .block nest.nested.header_mem nest.nested.header_own
    (mem_blockInsts.mpr ⟨rfl, rfl, nonempty⟩) ?_
  rw [block_val_first nonempty]
  exact below

/-- The values of the nest's components are below those on the path. -/
theorem Covered.below (covered : Covered tr M f LI minIterations blocks Ls A I v count) :
    ∃ c ∈ nestComponents (latticeContext tr) M f fuel minIterations blocks Ls, I ∈ c.insts ∧
      c.val (A c.entry) I ≤ v ∧ (I ∈ c.exits →
        (∀ S ∈ Ls, ∀ T, T.Within S → I.block ∈ T.blocks → minIterations T ≤ count T) →
        c.ext (A c.entry) I ≤ tr I v) := by
  cases covered with
  | @block B _ _ _ present own inBlock below =>
    refine ⟨_, mem_nestComponents.mpr (.inr ⟨B, present, own, rfl⟩), inBlock, below, ?_⟩
    intro exit _
    obtain rfl := List.mem_singleton.mp exit
    rw [block_ext (nest.nonempty present)]
    exact nest.monotone _ below
  | @loop S s first _ _ _ present below fresh reachable path =>
    have own := nest.nested.loop S present
    have valid := own.valid _ own.header_mem
    have start : (⟨f, S.header, 0⟩ : InstRef) ∈ M.insts f :=
      (Module.mem_insts ..).mpr ⟨rfl, valid, nest.wellFormed.nonempty valid⟩
    have inBlock : I ∈ blockInsts M f I.block := by
      obtain ⟨func, -, bound⟩ :=
        (Module.mem_insts ..).mp (path.reaches nest.wellFormed start reachable).1
      exact mem_blockInsts.mpr ⟨func, rfl, bound⟩
    have inside : I.block ∈ S.blocks := by
      cases path with
      | start => exact own.header_mem
      | step _ _ inside _ => exact inside
    refine ⟨_, mem_nestComponents.mpr (.inl ⟨S, present, rfl⟩),
      mem_loop_insts.mpr ⟨inside, inBlock⟩, ?_⟩
    rw [loop_entry, loop_exits]
    obtain ⟨val, ext⟩ := nest.loops S present below fresh reachable path
    exact ⟨val, fun exit leaves => ext exit (leaves S present)⟩

/-- A jump between two components of a nest leads to the entry of the second. -/
theorem covered_jump (member : I ∈ M.insts f) (reachable : (M.func f).Reachable I.block)
    (jump : Jump M f Ls I J) (inside : J.block ∈ blocks) :
    ∃ d ∈ nestComponents (latticeContext tr) M f fuel minIterations blocks Ls, d.entry = J ∧
      I.block ∈ (M.func f).preds J.block ∧ ∀ A', A' J ≤ v →
        Covered tr M f LI minIterations blocks Ls A' J v (taken f I J count) := by
  have pred : I.block ∈ (M.func f).preds J.block :=
    nest.wellFormed.mem_preds.mpr ⟨((Module.mem_insts ..).mp member).2.1, jump.flow⟩
  obtain ⟨d, present, atEntry⟩ : ∃ d ∈ nestComponents (latticeContext tr) M f fuel minIterations
      blocks Ls, d.entry = J := jump_target jump.front inside fun L present here =>
    (nest.nested.loop L present).entered reachable jump.flow here (jump.apart L present here)
  refine ⟨d, present, atEntry, pred, ?_⟩
  intro A' below
  subst atEntry
  refine covered_entry nest present (reachable.tail jump.flow) below ?_
  intro L other atHeader
  have here : d.entry.block ∈ L.blocks := by
    rw [atHeader]
    exact (nest.nested.loop L other).header_mem
  rw [taken, if_neg (jump.apart L other here)]

/-- One step of a path in a nest stays in its component, or it leads from an exit to the
entry of a component. -/
theorem Covered.step (covered : Covered tr M f LI minIterations blocks Ls A I v count)
    (next : M.Next I J) (member : I ∈ M.insts f) (reachable : (M.func f).Reachable I.block)
    (inside : J.block ∈ blocks) (leaves : Leaves LI minIterations I J count) :
    (Covered tr M f LI minIterations blocks Ls A J (tr I v) (taken f I J count) ∧
      J ≠ ⟨f, header, 0⟩) ∨
    ∃ c ∈ nestComponents (latticeContext tr) M f fuel minIterations blocks Ls, I ∈ c.exits ∧
      c.ext (A c.entry) I ≤ tr I v ∧
      ∃ d ∈ nestComponents (latticeContext tr) M f fuel minIterations blocks Ls, d.entry = J ∧
        I.block ∈ (M.func f).preds J.block ∧ ∀ A', A' J ≤ tr I v →
          Covered tr M f LI minIterations blocks Ls A' J (tr I v) (taken f I J count) := by
  have func := ((Module.mem_insts ..).mp member).1
  cases covered with
  | @block B _ _ _ present own inBlock below =>
    have nonempty := nest.nonempty present
    obtain ⟨-, rfl, bound⟩ := mem_blockInsts.mp inBlock
    obtain ⟨-, -, more, rfl⟩ | jump := block_step own next func
    · refine .inl ⟨.block present own (mem_blockInsts.mpr ⟨rfl, rfl, more⟩) ?_, by simp⟩
      rw [block_val_next nonempty _ more, show (⟨f, I.block, I.index⟩ : InstRef) = I by
        rw [← func]]
      exact nest.monotone I below
    · refine .inr ⟨_, mem_nestComponents.mpr (.inr ⟨I.block, present, own, rfl⟩),
        List.mem_singleton.mpr jump.terminator, ?_, covered_jump nest member reachable jump inside⟩
      have value : (Dataflow.block (latticeContext tr) M f I.block).ext (A ⟨f, I.block, 0⟩)
          (M.terminator ⟨f, I.block⟩) = _ := block_ext nonempty _
      rw [← jump.terminator] at value
      exact value.le.trans (nest.monotone I below)
  | @loop S s first _ _ _ present below fresh reached path =>
    have here : I.block ∈ S.blocks := by
      cases path with
      | start => exact (nest.nested.loop S present).header_mem
      | step _ _ inside _ => exact inside
    obtain stays | ⟨exit, jump⟩ := nest.nested.loop_step present here next func
    · refine .inl ⟨.loop present below fresh reached (path.step next stays leaves), ?_⟩
      rintro rfl
      exact nest.nested.header_own S present stays
    · refine .inr ⟨_, mem_nestComponents.mpr (.inl ⟨S, present, rfl⟩), ?_, ?_,
        covered_jump nest member reachable jump inside⟩
      · rwa [loop_exits]
      · rw [loop_entry]
        refine (nest.loops S present below fresh reached path).2 exit ?_
        intro T within there
        refine leaves T ((nest.members S present).within within) there fun target => ?_
        exact jump.apart S present
          (nest.correct.inside within (nest.members S present) _ target) here

end Covered

/-! Paths through a nest and through a loop -/

section Paths

variable [DecidableEq V] [Finite V] {fuel : Nat} {I : InstRef}

/-- Along a path through a nest the values of the greatest solution are below those on
the path. -/
theorem covered_along {blocks : List Nat} {Ls : List Loop} {header : Nat}
    (nest : CoveredNest tr M f LI minIterations fuel blocks Ls header)
    (exact : (nestGraph (latticeContext tr) M f fuel minIterations blocks Ls header [] []).Exact tr
      M f) {e s : V} {first : Loop → Nat} {v : V} {count : Loop → Nat} (below : e ≤ s)
    (reachable : (M.func f).Reachable header)
    (path : Traverses tr M f LI minIterations (· ∈ blocks) ⟨f, header, 0⟩ s first I v count) :
    Covered tr M f LI minIterations blocks Ls
      ((nestGraph (latticeContext tr) M f fuel minIterations blocks Ls header [] []).best M f e)
      I v count := by
  induction path with
  | start =>
    exact covered_header nest ((exact.best_entry_le e).trans below)
  | @step I J v count path next inside leaves ih =>
    rcases path.reaches nest.wellFormed nest.start_mem reachable with ⟨present, reached⟩
    rcases ih.step nest next present reached inside leaves with ⟨covered, -⟩ | ⟨c, other, exit, value, d, target, rfl, pred, lands⟩
    · exact covered
    · apply lands
      exact (exact.best_edge e target other exit
        (link_source nest.nested other target exit pred List.not_mem_nil)).trans value

section

variable {L : Loop}

/-- The entry values of a loop's components on a path that has taken the back edges `n`
times: those of the iterations it is annotated with, then those of the last transfer. -/
noncomputable def stage (tr : InstRef → V → V) (M : Module) (f : FuncRef) (fuel : Nat)
    (minIterations : Loop → Nat) (L : Loop) (e : V) (n : Nat) : InstRef → V :=
  if n < minIterations L then
    (bodyGraph tr M f fuel minIterations L).best M f
      ((iteration M f (bodyGraph tr M f fuel minIterations L) (backinsts M f L))^[n] e)
  else (loopGraph tr M f fuel minIterations L []).best M f
    ((iteration M f (bodyGraph tr M f fuel minIterations L)
      (backinsts M f L))^[minIterations L] e)

variable (setting : Setting tr M f fuel minIterations L)

include setting

theorem stage_back {e : V} {n : Nat} {c : Component V} (member : c ∈ setting.components)
    {X : InstRef} (exit : X ∈ c.exits) (back : X ∈ backinsts M f L) :
    stage tr M f fuel minIterations L e (n + 1) ⟨f, L.header, 0⟩ ≤
      c.ext (stage tr M f fuel minIterations L e n c.entry) X := by
  have exact := setting.loopGraph_exact []
  have body := setting.bodyGraph_exact
  have next (v : V) : setting.step v ≤ c.ext (setting.body.best M f v c.entry) X := by
    rw [← body.exitAt_eq _ member exit]
    exact le_iteration.mp le_rfl X back
  rw [stage, stage]
  by_cases here : n < minIterations L
  · rw [if_pos here]
    by_cases more : n + 1 < minIterations L
    · rw [if_pos more, Function.iterate_succ_apply']
      exact (body.best_entry_le _).trans (next _)
    · rw [if_neg more, show minIterations L = n + 1 by omega, Function.iterate_succ_apply']
      exact (exact.best_entry_le _).trans (next _)
  · rw [if_neg here, if_neg (by omega)]
    exact exact.best_edge _ setting.header_mem member exit
      ((mem_header_sources setting.wellFormed setting.nested [] setting.correct).mpr back)

theorem stage_edge {e : V} {n : Nat} {c d : Component V} (member : c ∈ setting.components)
    (target : d ∈ setting.components) {X : InstRef} (exit : X ∈ c.exits)
    (pred : X.block ∈ (M.func f).preds d.entry.block) (inner : d.entry ≠ ⟨f, L.header, 0⟩) :
    stage tr M f fuel minIterations L e n d.entry ≤
      c.ext (stage tr M f fuel minIterations L e n c.entry) X := by
  rw [stage]
  split
  · refine setting.bodyGraph_exact.best_edge _ target member exit
      (link_source setting.nested member target exit pred ?_)
    intro ignored
    rcases List.mem_map.mp ignored with ⟨Y, -, same⟩
    exact inner (Prod.mk.inj same).2.symm
  · exact (setting.loopGraph_exact []).best_edge _ target member exit
      (link_source setting.nested member target exit pred List.not_mem_nil)

/-- Along a path through a loop the values of the stage it has come to are below those on
the path. -/
theorem stage_along (nest : CoveredNest tr M f LI minIterations fuel L.blocks L.subloops L.header)
    {e s : V} {first : Loop → Nat} {v : V} {count : Loop → Nat} (below : e ≤ s)
    (fresh : first L = 0) (reachable : (M.func f).Reachable L.header)
    (path : Traverses tr M f LI minIterations (· ∈ L.blocks) ⟨f, L.header, 0⟩ s first I v count) :
    I.block ∈ L.blocks ∧ Covered tr M f LI minIterations L.blocks L.subloops
      (stage tr M f fuel minIterations L e (count L)) I v count := by
  induction path with
  | start =>
    refine ⟨nest.nested.header_mem, covered_header nest (le_trans ?_ below)⟩
    rw [fresh, stage]
    split
    · exact setting.bodyGraph_exact.best_entry_le e
    · rename_i none
      rw [show minIterations L = 0 by omega]
      exact (setting.loopGraph_exact []).best_entry_le e
  | @step I J v count path next inside leaves ih =>
    refine ⟨inside, ?_⟩
    rcases path.reaches nest.wellFormed nest.start_mem reachable with ⟨present, reached⟩
    rcases ih.2.step nest next present reached inside leaves with
      ⟨covered, inner⟩ | ⟨c, other, exit, value, d, target, rfl, pred, lands⟩
    · rw [show taken f I J count L = count L by rw [taken, if_pos ih.1, if_neg inner]]
      exact covered
    · apply lands
      refine le_trans ?_ value
      by_cases atHeader : d.entry = ⟨f, L.header, 0⟩
      · rw [taken, if_pos ih.1, if_pos atHeader, atHeader]
        apply stage_back setting other exit
        rw [atHeader] at pred
        exact mem_backinsts.mpr ⟨I.block, ih.1, (setting.wellFormed.mem_preds.mp pred).2,
          (nest_exit_block nest.nested other exit).1.symm⟩
      · rw [taken, if_pos ih.1, if_neg atHeader]
        exact stage_edge setting other target exit pred atHeader

/-- The values of a loop's transfer are below those along the paths through it. -/
theorem loop_covered (room : setting.components.length * Nat.card V + 3 ≤ fuel)
    (correct : LI.Correct (M.func f)) (member : LoopInfo.Mem L LI)
    (loops : ∀ S ∈ L.subloops, LoopCovered tr M f LI minIterations fuel S) :
    LoopCovered tr M f LI minIterations fuel L := by
  intro e s first I v count below fresh reachable path
  have nest : CoveredNest tr M f LI minIterations fuel L.blocks L.subloops L.header :=
    ⟨setting.wellFormed, setting.monotone, correct, setting.nested, fun S sub => member.sub sub,
      loops⟩
  constructor
  · obtain ⟨c, present, here, value, -⟩ :=
      (covered_along nest (setting.loopGraph_exact []) below reachable path).below nest
    rw [setting.val_eq room e present here]
    exact value
  · intro exit leaves
    obtain ⟨inside, covered⟩ := stage_along setting nest below fresh reachable path
    obtain ⟨c, present, here, -, value⟩ := covered.below nest
    obtain ⟨d, other, leaving, ext⟩ := setting.exit room (X := I) (by rwa [loop_exits])
    obtain rfl : c = d := (setting.loopGraph_exact []).disjoint present other here
      (((setting.loopGraph_exact []).component d other).exits_mem leaving)
    rw [ext]
    rw [stage, if_neg (Nat.not_lt.mpr (leaves L .self inside))] at value
    exact value leaving fun S sub T within there => leaves T (.sub sub within) there

end

section

variable (wellFormed : (M.func f).WellFormed) (monotone : ∀ I, Monotone (tr I))
  (correct : LI.Correct (M.func f)) (steady : Steady tr M f minIterations LI)

include wellFormed monotone correct steady

theorem loops_covered (enough : Enough V M f LI fuel) (L : Loop) (member : LoopInfo.Mem L LI) :
    LoopCovered tr M f LI minIterations fuel L := by
  induction L using Loop.induct with
  | nested L ih =>
    exact loop_covered (loop_setting wellFormed monotone correct enough steady member)
      (loop_room enough member) correct member fun S sub => ih S sub (member.sub sub)

omit monotone correct steady [SemilatticeInf V] [OrderTop V] [DecidableEq V] [Finite V] in
theorem traverses_inside {e v : V} {first count : Loop → Nat}
    (path : Traverses tr M f LI minIterations (fun _ => True) ⟨f, 0, 0⟩ e first I v count) :
    Traverses tr M f LI minIterations (· ∈ List.range (M.func f).blocks.length) ⟨f, 0, 0⟩ e first I
      v count := by
  induction path with
  | start => exact .start
  | step path next _ leaves ih =>
    have present := (path.reaches wellFormed (Module.entry_mem_insts wellFormed) .refl).1
    have target := next.mem_insts wellFormed present
    exact ih.step next (List.mem_range.mpr ((Module.mem_insts ..).mp target).2.1) leaves

/-- If the transfers inside annotated loops preserve meets, the pass ends, and its values are
below those along every path that leaves no loop before it has made the iterations it is
annotated with. -/
theorem annotated_below_paths (e : V) :
    ∃ bound, ∀ fuel, bound ≤ fuel →
      ∃ r, transferLoop (latticeContext tr) M f LI fuel minIterations e = some r ∧
        ∀ I v count, Traverses tr M f LI minIterations (fun _ => True) ⟨f, 0, 0⟩ e (fun _ => 0)
          I v count → ∃ a, r.ins.lookup I = some a ∧ a ≤ v := by
  rcases exists_enough V M f LI with ⟨bound, enough⟩
  refine ⟨bound, fun fuel above => ?_⟩
  replace enough := enough fuel above
  have nest : CoveredNest tr M f LI minIterations fuel (List.range (M.func f).blocks.length)
      LI.top 0 :=
    ⟨wellFormed, monotone, correct, Nested.of_function wellFormed correct,
      fun L top => ⟨L, top, .self⟩, fun L top =>
        loops_covered wellFormed monotone correct steady enough L ⟨L, top, .self⟩⟩
  rcases transferLoop_best wellFormed monotone correct enough steady e with ⟨r, moved, outcome⟩
  refine ⟨r, moved, fun I v count path => ?_⟩
  have covered := covered_along nest
    (functionGraph_exact wellFormed monotone correct enough steady) le_rfl .refl
    (traverses_inside wellFormed path)
  obtain ⟨c, present, here, value, -⟩ := covered.below nest
  exact ⟨_, (outcome.inside trivial c present I here).1, value⟩

end

end Paths

/-! A loop that is entered from two blocks -/

/-- Block 0 branches to the loop of block 2 and to block 1, which leads there too. -/
def twoEntries : Module :=
  ⟨[⟨[[⟨.br, [], [], [1, 2], true, false, false⟩], [⟨.br, [], [], [2], true, false, false⟩],
      [⟨.br, [], [], [2, 3], true, false, false⟩], [⟨.ret, [], [], [], true, false, false⟩]],
    [[], [0], [0, 1, 2], [2]], []⟩]⟩

def twoEntriesLoops : LoopInfo := ⟨[.mk 2 [2] []]⟩

theorem twoEntries_wellFormed : (twoEntries.func 0).WellFormed :=
  Function.wellFormed_of_test (by decide)

theorem twoEntries_correct : twoEntriesLoops.Correct (twoEntries.func 0) :=
  .single (by decide) (by decide) (fun _ flow =>
    Function.forall_flow (p := fun P B => B ∈ [2] → P ∉ [2] → B = 2) flow (by decide)) (by decide)

def swapInLoop (I : InstRef) (v : Bool × Bool) : Bool × Bool := if I.block = 2 then v.swap else v

theorem swapInLoop_monotone (I : InstRef) : Monotone (swapInLoop I) := by
  intro v w below
  by_cases here : I.block = 2
  · simpa only [swapInLoop, if_pos here, Prod.swap_le_swap] using below
  · simpa only [swapInLoop, if_neg here] using below

theorem swapInLoop_below_paths :
    (twoEntries.func 0).WellFormed ∧ (∀ I, Monotone (swapInLoop I)) ∧
    twoEntriesLoops.Correct (twoEntries.func 0) ∧
    Steady swapInLoop twoEntries 0 (fun _ => 1) twoEntriesLoops ∧
    ∃ bound, ∀ fuel, bound ≤ fuel →
      ∃ r, transferLoop (latticeContext swapInLoop) twoEntries 0 twoEntriesLoops fuel (fun _ => 1)
          (true, false) = some r ∧
        ∀ I v count, Traverses swapInLoop twoEntries 0 twoEntriesLoops (fun _ => 1) (fun _ => True)
          ⟨0, 0, 0⟩ (true, false) (fun _ => 0) I v count →
          ∃ a, r.ins.lookup I = some a ∧ a ≤ v := by
  have steady : Steady swapInLoop twoEntries 0 (fun _ => 1) twoEntriesLoops := by
    intro L _ _ I _ v w
    by_cases here : I.block = 2
    · simp only [swapInLoop, if_pos here, Prod.swap_inf]
    · simp only [swapInLoop, if_neg here]
  exact ⟨twoEntries_wellFormed, swapInLoop_monotone, twoEntries_correct, steady,
    annotated_below_paths twoEntries_wellFormed swapInLoop_monotone twoEntries_correct steady
      (true, false)⟩

/-- A monotone transfer that does not preserve meets in the loop. -/
def turnInLoop (I : InstRef) (v : Bool × Bool) : Bool × Bool :=
  if I.block = 0 then (true, false)
  else if I.block = 1 then (v.1 && v.2, v.1 && v.2)
  else if I.block = 2 then (v.1 && v.2, v.1 || v.2)
  else v

/-- The value before block 3 is not below the one along the path 0, 1, 2, 2, 3, although the
loop is left after one iteration: the cached exit values of the loop belong to a higher entry
value than the one they are found under. -/
theorem turnInLoop_unsound :
    (twoEntries.func 0).WellFormed ∧ (∀ I, Monotone (turnInLoop I)) ∧
    twoEntriesLoops.Correct (twoEntries.func 0) ∧
    ∃ r a v count, transferLoop (latticeContext turnInLoop) twoEntries 0 twoEntriesLoops 6
        (fun _ => 1) ⊤ = some r ∧
      Traverses turnInLoop twoEntries 0 twoEntriesLoops (fun _ => 1) (fun _ => True) ⟨0, 0, 0⟩ ⊤
        (fun _ => 0) ⟨0, 3, 0⟩ v count ∧
      r.ins.lookup ⟨0, 3, 0⟩ = some a ∧ ¬ a ≤ v := by
  have monotone (I : InstRef) : Monotone (turnInLoop I) := by
    have block1 : ∀ v w : Bool × Bool, v ≤ w →
        ((v.1 && v.2, v.1 && v.2) : Bool × Bool) ≤ (w.1 && w.2, w.1 && w.2) := by decide
    have block2 : ∀ v w : Bool × Bool, v ≤ w →
        ((v.1 && v.2, v.1 || v.2) : Bool × Bool) ≤ (w.1 && w.2, w.1 || w.2) := by decide
    intro v w below
    unfold turnInLoop
    split
    · exact le_rfl
    · split
      · exact block1 v w below
      · split
        · exact block2 v w below
        · exact below
  have computed : (transferLoop (latticeContext turnInLoop) twoEntries 0 twoEntriesLoops 6
      (fun _ => 1) ⊤).bind (·.ins.lookup ⟨0, 3, 0⟩) = some (false, true) := by decide +kernel
  rcases Option.bind_eq_some_iff.mp computed with ⟨r, moved, found⟩
  -- Only the last step leaves the loop, after one step along its back edge.
  have next {B S : Nat} (jump : 0 + 1 = ((twoEntries.func 0).block B).length ∧
      S ∈ ((twoEntries.func 0).terminator B).successors) : twoEntries.Next ⟨0, B, 0⟩ ⟨0, S, 0⟩ :=
    .jump jump.1 jump.2
  have stays {B S : Nat} {count : Loop → Nat} (inside : B ∈ [2] → S ∈ [2]) :
      Leaves twoEntriesLoops (fun _ => 1) ⟨0, B, 0⟩ ⟨0, S, 0⟩ count := by
    intro L member here there
    obtain rfl := member.single
    exact absurd (inside here) there
  have path : Traverses turnInLoop twoEntries 0 twoEntriesLoops (fun _ => 1) (fun _ => True)
    ⟨0, 0, 0⟩ ⊤ (fun _ => 0) ⟨0, 0, 0⟩ ⊤ (fun _ => 0) := .start
  replace path := path.step (next (S := 1) (by decide)) trivial (stays (by decide))
  replace path := path.step (next (S := 2) (by decide)) trivial (stays (by decide))
  replace path := path.step (next (S := 2) (by decide)) trivial (stays (by decide))
  replace path := path.step (next (S := 3) (by decide)) trivial (by
    intro L member _ _
    obtain rfl := member.single
    decide)
  exact ⟨twoEntries_wellFormed, monotone, twoEntries_correct, r, _, _, _, moved, path, found,
    by decide⟩

end Clou.Dataflow
