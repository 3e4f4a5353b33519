import Clou.Forest
import Mathlib.Algebra.Order.BigOperators.Group.Finset

/-! What the construction of loops and of functions adds to the drawing, and the graph of a
whole function. -/

namespace Clou.Unrolled

open Cfg Labelled Edit

/-! The iterations of a loop -/

section Iterations

variable {P : Program} {f : FuncRef} {σ : Config} {p : List Nat} {L : Loop}

def Back (P : Program) (f : FuncRef) (p : List Nat) (L : Loop) (j : Nat) (fr : Frame) : Prop :=
  Region P f (p ++ [j]) L.subloops L.blocks fr ∧ AtEnd P fr ∧ L.header ∈ successors P fr

structure IterationOk (P : Program) (f : FuncRef) (σ : Config) (p : List Nat) (L : Loop)
    (labels : List Label) (j : Nat) (iteration : Port × List NodeRef) : Prop where
  entry : Enters P σ ⟨f, L.header, 0, p ++ [j]⟩ labels iteration.1.entry
  exits : ∃ X, (∀ fr, fr.block ∈ exitingBlocks P f L → X fr) ∧
    Marks labels iteration.1.exits (EndsOf P f σ (p ++ [j]) L.subloops L.blocks X)
  valid : ∀ n ∈ iteration.2, n < labels.length
  listed : ∀ x, Listed labels iteration.2 x ↔
    ∃ c fr, Back P f p L j fr ∧ Leaves P (fr :: σ) c ∧ x = .inst c

theorem IterationOk.grow {labels labels' : List Label} {j : Nat} {iteration : Port × List NodeRef}
    (okay : IterationOk P f σ p L labels j iteration) (more : labels <+: labels')
    (nodup : labels'.Nodup) : IterationOk P f σ p L labels' j iteration := by
  rcases okay.exits with ⟨X, exiting, marks⟩
  refine ⟨okay.entry.grow more, ⟨X, exiting, marks.grow more nodup⟩,
    fun n member => (okay.valid n member).trans_le more.length_le, fun x => ?_⟩
  rw [← okay.listed]
  refine exists_congr fun n => and_congr_right fun member => ?_
  rcases more with ⟨new, rfl⟩
  rw [List.getElem?_append_left (okay.valid n member)]

def BuildsIteration (P : Program) (f : FuncRef) (σ : Config) (p : List Nat) (L : Loop)
    (iteration : Construct) : Prop :=
  ∀ j id s G, Shows s G → Fresh P σ (Region P f (p ++ [j]) L.subloops L.blocks) G →
    Names G.calls G.loops σ f (p ++ [j]) id → Yields (Broken P) (iteration id s) fun r =>
      ∃ X, (∀ fr, fr.block ∈ exitingBlocks P f L → X fr) ∧
        ∃ G', Built P σ (Region P f (p ++ [j]) L.subloops L.blocks)
          (Links P (p ++ [j]) L.subloops (Region P f (p ++ [j]) L.subloops L.blocks)
            (fun _ S => S ∈ L.blocks)) ⟨f, L.header, 0, p ++ [j]⟩
          (EndsOf P f σ (p ++ [j]) L.subloops L.blocks X) G r G'

def Onward (P : Program) (f : FuncRef) (p : List Nat) (L : Loop) (j : Nat) : Frame → Frame → Prop :=
  Links P (p ++ [j]) L.subloops (Region P f (p ++ [j]) L.subloops L.blocks)
    (fun _ S => S ∈ L.blocks ∧ S ≠ L.header)

structure LoopOk (P : Program) (f : FuncRef) (L : Loop) : Prop where
  program : P.Ok
  ok : FunctionOk P f
  member : (P.loopInfo f).Mem L
  side : SideBySide (P.M.func f) (P.loopInfo f) L.subloops

namespace LoopOk

variable (loopOk : LoopOk P f L)

include loopOk

theorem correct : L.Correct (P.M.func f) := loopOk.ok.natural.loop loopOk.member

theorem header_region (j : Nat) :
    Region P f (p ++ [j]) L.subloops L.blocks ⟨f, L.header, 0, p ++ [j]⟩ where
  func := rfl
  laid := laid_header loopOk.ok loopOk.member
  index := loopOk.ok.wellFormed.nonempty (laid_header loopOk.ok loopOk.member).1
  iters := ⟨[], (List.append_nil _).symm, .own loopOk.correct.sub_header⟩
  block := loopOk.correct.header_mem

variable {G : Drawing} {s : State}

/-- Erasing what leads to the header of an iteration leaves its other links. -/
theorem erase_header {j : Nat} {X : Frame → Prop}
    (exiting : ∀ fr, fr.block ∈ exitingBlocks P f L → X fr) {r : Port × State} {G' : Drawing}
    (shows : Shows s G) (fresh : Fresh P σ (Region P f (p ++ [j]) L.subloops L.blocks) G)
    (built : Built P σ (Region P f (p ++ [j]) L.subloops L.blocks)
      (Links P (p ++ [j]) L.subloops (Region P f (p ++ [j]) L.subloops L.blocks)
        (fun _ S => S ∈ L.blocks)) ⟨f, L.header, 0, p ++ [j]⟩
      (EndsOf P f σ (p ++ [j]) L.subloops L.blocks X) G r G') :
    ∃ n preds G'', r.1.entry = some n ∧ r.2.po.rev.lookup n = some preds ∧
      Shows (preds.foldl (fun s k => s.eraseEdge k n) r.2) G'' ∧
      Extends P σ (Region P f (p ++ [j]) L.subloops L.blocks) (Onward P f p L j) G G'' ∧
      IterationOk P f σ p L G''.labels j (r.1, preds) := by
  have own := loopOk.correct.sub_header
  rcases built.entry with ⟨n, d, entry, found, lands⟩
  have new : .inst d ∉ G.labels :=
    fresh _ d (loopOk.header_region j) (lands.laid loopOk.program)
  have old (x : Label) : ¬ G.edge x (.inst d) := fun edge => new (shows.denotes.within edge).2
  rcases built.shows.eraseInto found with ⟨preds, looked, valid, listed, shows'⟩
  refine ⟨n, preds, G'.eraseInto (.inst d), entry, looked, shows', ?_, ?_⟩
  · refine ⟨built.extended.labels, built.extended.calls, built.extended.loops, fun x y => ?_⟩
    have onward : Onward P f p L j = fun a b => Links P (p ++ [j]) L.subloops
        (Region P f (p ++ [j]) L.subloops L.blocks) (fun _ S => S ∈ L.blocks) a b ∧
          b ≠ ⟨f, L.header, 0, p ++ [j]⟩ :=
      funext fun a => funext fun b => propext (links_onward loopOk.side own)
    simp only [Drawing.eraseInto, built.extended.edge, onward, drawn_away loopOk.program lands]
    constructor
    · rintro ⟨edge | ⟨c, d', drawn, rfl, rfl⟩, other⟩
      · exact .inl edge
      · exact .inr ⟨c, d', ⟨drawn, fun same => other (congrArg Label.inst same)⟩, rfl, rfl⟩
    · rintro (edge | ⟨c, d', ⟨drawn, other⟩, rfl, rfl⟩)
      · exact ⟨.inl edge, fun same => old x (same ▸ edge)⟩
      · exact ⟨.inr ⟨c, d', drawn, rfl, rfl⟩, fun same => other (Label.inst.inj same)⟩
  · refine ⟨built.entry, ⟨X, exiting, built.exits⟩, valid, fun x => ?_⟩
    change Listed G'.labels preds x ↔ _
    rw [listed, built.extended.edge]
    constructor
    · rintro (edge | ⟨c, d', drawn, rfl, same⟩)
      · exact absurd edge (old x)
      · obtain rfl := Label.inst.inj same
        rcases (drawn_landing loopOk.program lands).mp drawn with ⟨fr, link, leaves⟩
        exact ⟨c, fr, (links_header loopOk.side own loopOk.correct.header_mem).mp link, leaves, rfl⟩
    · rintro ⟨c, fr, back, leaves, rfl⟩
      have link := (links_header loopOk.side own loopOk.correct.header_mem).mpr back
      exact .inr ⟨c, d, (drawn_landing loopOk.program lands).mpr ⟨fr, link, leaves⟩, rfl, rfl⟩

theorem iterate_yields {iteration : Construct} (builds : BuildsIteration P f σ p L iteration)
    {id : ID} {i n : Nat} (shows : Shows s G)
    (fresh : Fresh P σ (fun fr => ∃ j, i ≤ j ∧ j < i + n ∧
      Region P f (p ++ [j]) L.subloops L.blocks fr) G) (names : Names G.calls G.loops σ f p id) :
    Yields (Broken P) (iterate iteration id n s) fun r =>
      ∃ G', Shows r.2 G' ∧
        Extends P σ (fun fr => ∃ j, i ≤ j ∧ j < i + n ∧
            Region P f (p ++ [j]) L.subloops L.blocks fr)
          (fun a b => ∃ j, i ≤ j ∧ j < i + n ∧ Onward P f p L j a b) G G' ∧
        List.Forall₂ (IterationOk P f σ p L G'.labels) (List.range' i n) r.1 := by
  induction n generalizing i s G with
  | zero =>
    refine .of_some ⟨G, shows, .refl ?_ ?_, .nil⟩
    · rintro fr ⟨j, from', below, -⟩
      omega
    · rintro a b ⟨j, from', below, -⟩
      omega
  | succ n ih =>
    have named : Names G.calls (G.loops ++ [⟨f, L.header, 0, p ++ [i]⟩ :: σ]) σ f (p ++ [i])
        { id with loop := id.loop ++ [s.nextLoop] } := by
      rcases names.loop with ⟨outer, own, split, path, levels⟩
      have last : (G.loops ++ [⟨f, L.header, 0, p ++ [i]⟩ :: σ])[s.nextLoop]? =
          some (⟨f, L.header, 0, p ++ [i]⟩ :: σ) := by
        rw [shows.nextLoop]
        simp
      exact ⟨names.func, outer, own ++ [s.nextLoop], by rw [split, List.append_assoc],
        path.grow (List.prefix_append _ _), .inside (levels.grow (List.prefix_append _ _)) last⟩
    have fresh₀ : Fresh P σ (Region P f (p ++ [i]) L.subloops L.blocks)
        (G.addLoop (⟨f, L.header, 0, p ++ [i]⟩ :: σ)) :=
      fresh.mono fun fr region => ⟨i, le_rfl, by omega, region⟩
    simp only [iterate, bind_apply, monadLift_self, nextLoop, Option.bind_some]
    refine (builds i _ _ _ (shows.addLoop _) fresh₀ named).bind ?_
    rintro ⟨port, s₁⟩ ⟨X, exiting, G₁, built⟩
    rcases loopOk.erase_header exiting (shows.addLoop _) fresh₀ built with
      ⟨header, preds, G₂, entry, looked, shows₂, extended₂, okay₂⟩
    have extended : Extends P σ (Region P f (p ++ [i]) L.subloops L.blocks) (Onward P f p L i)
        G G₂ :=
      ⟨extended₂.labels, extended₂.calls, (List.prefix_append _ _).trans extended₂.loops,
        extended₂.edge⟩
    have fresh₂ : Fresh P σ (fun fr => ∃ j, i + 1 ≤ j ∧ j < i + 1 + n ∧
        Region P f (p ++ [j]) L.subloops L.blocks fr) G₂ := by
      refine (fresh.mono ?_).extend extended ?_
      · rintro fr ⟨j, from', below, region⟩
        exact ⟨j, by omega, by omega, region⟩
      · rintro fr region ⟨j, from', -, region'⟩
        have same := region_disjoint region region'
        omega
    change port.entry = some header at entry
    change s₁.po.rev.lookup header = some preds at looked
    simp only [require, cutContinuations, entry, looked, Option.map_some, Option.bind_some]
    refine (ih shows₂ fresh₂ (names.grow extended.calls extended.loops)).bind ?_
    rintro ⟨rest, s₃⟩ ⟨G₃, shows₃, extended₃, okay₃⟩
    refine .of_some ⟨G₃, shows₃, (extended.trans extended₃).congr ?_ ?_,
      .cons (okay₂.grow extended₃.grows shows₃.denotes.nodup) okay₃⟩
    · intro fr
      constructor
      · rintro (region | ⟨j, from', below, region⟩)
        · exact ⟨i, le_rfl, by omega, region⟩
        · exact ⟨j, by omega, by omega, region⟩
      · rintro ⟨j, from', below, region⟩
        rcases Nat.eq_or_lt_of_le from' with rfl | later
        · exact .inl region
        · exact .inr ⟨j, later, by omega, region⟩
    · intro a b
      constructor
      · rintro (link | ⟨j, from', below, link⟩)
        · exact ⟨i, le_rfl, by omega, link⟩
        · exact ⟨j, by omega, by omega, link⟩
      · rintro ⟨j, from', below, link⟩
        rcases Nat.eq_or_lt_of_le from' with rfl | later
        · exact .inl link
        · exact .inr ⟨j, later, by omega, link⟩

variable {iterations : List (Port × List NodeRef)}

omit loopOk in
theorem glue_links {R : Frame → Prop} {G' : Drawing} {i n : Nat}
    (okay : List.Forall₂ (IterationOk P f σ p L G'.labels) (List.range' i n) iterations)
    {N : Frame → Frame → Prop} (linked : Linked P σ R G G' s N) :
    ∃ s', glue iterations s = some s' ∧ Linked P σ R G G' s' (fun a b => N a b ∨
      ∃ j, i ≤ j ∧ j + 1 < i + n ∧ Back P f p L j a ∧ b = ⟨f, L.header, 0, p ++ [j + 1]⟩) := by
  induction n generalizing i iterations s N with
  | zero =>
    cases okay
    refine ⟨s, rfl, linked.congr fun a b => ?_⟩
    constructor
    · exact .inl
    · rintro (link | ⟨j, from', below, -⟩)
      · exact link
      · omega
  | succ n ih =>
    rw [List.range'_succ] at okay
    cases okay with
    | @cons _ first _ rest head tail =>
      cases n with
      | zero =>
        cases tail
        refine ⟨s, rfl, linked.congr fun a b => ?_⟩
        constructor
        · exact .inl
        · rintro (link | ⟨j, from', below, -⟩)
          · exact link
          · omega
      | succ n =>
        have tail' := tail
        rw [List.range'_succ] at tail
        cases tail with
        | @cons _ second _ rest next _ =>
          rcases linked.connect head.valid head.listed next.entry with
            ⟨s₁, connected, linked₁⟩
          rcases ih tail' linked₁ with ⟨s₂, glued, linked₂⟩
          refine ⟨s₂, by simp [glue, connected, glued], linked₂.congr fun a b => ?_⟩
          rw [or_assoc]
          refine or_congr_right ?_
          constructor
          · rintro (⟨back, rfl⟩ | ⟨j, from', below, link⟩)
            · exact ⟨i, le_rfl, by omega, back, rfl⟩
            · exact ⟨j, by omega, by omega, link⟩
          · rintro ⟨j, from', below, back, rfl⟩
            rcases Nat.eq_or_lt_of_le from' with rfl | later
            · exact .inl ⟨back, rfl⟩
            · exact .inr ⟨j, later, by omega, back, rfl⟩

omit loopOk in
theorem marks_iterations {labels : List Label} {js : List Nat} (nodup : js.Nodup)
    (okay : List.Forall₂ (IterationOk P f σ p L labels) js iterations) :
    ∃ X, (∀ fr, fr.block ∈ exitingBlocks P f L → X fr) ∧
      Marks labels (iterations.flatMap (·.1.exits))
        (fun c => ∃ j ∈ js, EndsOf P f σ (p ++ [j]) L.subloops L.blocks X c) := by
  induction okay with
  | nil => exact ⟨fun _ => True, fun _ _ => trivial, Marks.nil.congr (by simp)⟩
  | @cons j iteration js iterations head tail ih =>
    rcases head.exits with ⟨Y, exiting, marks⟩
    rcases ih (List.nodup_cons.mp nodup).2 with ⟨Z, exiting', marks'⟩
    refine ⟨fun fr => (Region P f (p ++ [j]) L.subloops L.blocks fr → Y fr) ∧
      (¬ Region P f (p ++ [j]) L.subloops L.blocks fr → Z fr),
      fun fr member => ⟨fun _ => exiting fr member, fun _ => exiting' fr member⟩, ?_⟩
    refine (marks.append marks').congr fun c => ?_
    rw [List.exists_mem_cons_iff]
    refine or_congr ?_ (exists_congr fun k => and_congr_right fun later => ?_)
    · refine exists_congr fun fr => and_congr_right fun _ => and_congr_right fun region =>
        and_congr_right fun _ => ?_
      simp [region]
    · refine exists_congr fun fr => and_congr_right fun _ => and_congr_right fun region =>
        and_congr_right fun _ => ?_
      have other : ¬ Region P f (p ++ [j]) L.subloops L.blocks fr := fun region' =>
        (List.nodup_cons.mp nodup).1 (region_disjoint region region' ▸ later)
      simp [other]

end LoopOk

end Iterations

/-! Loops -/

section Loops

variable {P : Program} {f : FuncRef} {σ : Config} {construct : ConstructFunction}

def BuildsLoop (P : Program) (f : FuncRef) (σ : Config) (construct : ConstructFunction)
    (loops : List Loop) (L : Loop) : Prop :=
  ∀ p id s G, Shows s G → Fresh P σ (Region P f p loops L.blocks) G →
    Names G.calls G.loops σ f p id →
    Yields (Broken P) (constructLoop P (onStack P construct (f :: σ.map Frame.func))
      (P.numUnrolls + 1) f L id s) fun r =>
      ∃ G', Shows r.2 G' ∧ Extends P σ (Region P f p loops L.blocks)
          (Links P p loops (Region P f p loops L.blocks) (fun _ S => S ∈ L.blocks)) G G' ∧
        PartOk P f σ p loops G'.labels ⟨true, L.blocks, exitingBlocks P f L, r.1⟩

variable {loops : List Loop}

theorem loop_builds (side : SideBySide (P.M.func f) (P.loopInfo f) loops) {L : Loop}
    (present : L ∈ loops) (loopOk : LoopOk P f L)
    (builds : ∀ p, BuildsIteration P f σ p L
      (iteration P (onStack P construct (f :: σ.map Frame.func)) (P.numUnrolls + 1) f L)) :
    BuildsLoop P f σ construct loops L := by
  intro p id s G shows fresh names
  have frames (fr : Frame) : (∃ j, 0 ≤ j ∧ j < 0 + (P.numUnrolls + 1) ∧
      Region P f (p ++ [j]) L.subloops L.blocks fr) ↔ Region P f p loops L.blocks fr := by
    rw [region_loop side present]
    exact exists_congr fun j => by rw [Nat.zero_add, Nat.lt_succ_iff]; simp
  rw [constructLoop_eq, bind_apply]
  refine (loopOk.iterate_yields (builds p) shows (fresh.mono fun fr => (frames fr).mp) names).bind ?_
  rintro ⟨iterations, s₁⟩ ⟨G₁, shows₁, extended₁, okay⟩
  rcases LoopOk.glue_links okay ⟨G₁.edge, shows₁, extended₁⟩ with ⟨s₂, glued, edge, shows₂, extended₂⟩
  rcases LoopOk.marks_iterations List.nodup_range' okay with ⟨X, exiting, marks⟩
  change glue iterations s₁ = some s₂ at glued
  rw [List.range'_succ] at okay
  cases okay with
  | @cons _ first _ rest head tail =>
    simp only [monadLift_self, joinIterations, bind_apply, effect, require, glued, List.head?_cons,
      Option.map_some, Option.bind_some]
    refine .of_some ⟨{ G₁ with edge := edge }, shows₂, extended₂.congr frames ?_, ?_, X, exiting, ?_⟩
    · intro a b
      rw [links_loop side present]
      refine or_congr (exists_congr fun j => ?_) (exists_congr fun j => ?_)
      · rw [Nat.zero_add, Nat.lt_succ_iff]
        simp [Onward]
      · rw [Nat.zero_add, Nat.succ_lt_succ_iff, Nat.succ_le_iff]
        simp [Back]
    · intro S member _
      rw [entryFrame, enterBlock_loop side present member]
      exact head.entry
    · refine marks.congr fun c => ?_
      constructor
      · rintro ⟨j, member, fr, rfl, region, rest⟩
        rw [List.mem_range'_1] at member
        exact ⟨fr, rfl, (region_loop side present).mpr ⟨j, by omega, region⟩, rest⟩
      · rintro ⟨fr, rfl, region, rest⟩
        rcases (region_loop side present).mp region with ⟨j, small, region⟩
        refine ⟨j, ?_, fr, rfl, region, rest⟩
        rw [List.mem_range'_1]
        omega

theorem loops_yield (side : SideBySide (P.M.func f) (P.loopInfo f) loops) {Ls : List Loop}
    (some : ∀ L ∈ Ls, L ∈ loops) (nodup : Ls.Nodup)
    (builds : ∀ L ∈ Ls, BuildsLoop P f σ construct loops L) {p : List Nat} {id : ID} {s : State}
    {G : Drawing} (shows : Shows s G)
    (fresh : Fresh P σ (fun fr => ∃ T ∈ Ls, Region P f p loops T.blocks fr) G)
    (names : Names G.calls G.loops σ f p id) :
    Yields (Broken P) (constructLoops P (onStack P construct (f :: σ.map Frame.func))
      (P.numUnrolls + 1) f Ls id s) fun r =>
      ∃ G', Shows r.2 G' ∧ Extends P σ (fun fr => ∃ T ∈ Ls, Region P f p loops T.blocks fr)
          (fun a b => ∃ T ∈ Ls,
            Links P p loops (Region P f p loops T.blocks) (fun _ S => S ∈ T.blocks) a b) G G' ∧
        r.1.map Part.outline = Ls.map (fun T => (true, T.blocks, exitingBlocks P f T)) ∧
        ∀ part ∈ r.1, PartOk P f σ p loops G'.labels part := by
  induction Ls generalizing s G with
  | nil =>
    refine .of_some ⟨G, shows, .refl (by simp) (by simp), rfl, by simp⟩
  | cons L Ls ih =>
    rw [constructLoops, bind_apply]
    refine (builds L List.mem_cons_self p id s G shows (fresh.mono fun fr region =>
      ⟨L, List.mem_cons_self, region⟩) names).bind ?_
    rintro ⟨port, s₁⟩ ⟨G₁, shows₁, extended₁, okay₁⟩
    have fresh₁ : Fresh P σ (fun fr => ∃ T ∈ Ls, Region P f p loops T.blocks fr) G₁ := by
      refine (fresh.mono ?_).extend extended₁ ?_
      · rintro fr ⟨T, later, region⟩
        exact ⟨T, List.mem_cons_of_mem L later, region⟩
      · rintro fr region ⟨T, later, region'⟩
        have same := side.disjoint L (some L List.mem_cons_self) T
          (some T (List.mem_cons_of_mem L later)) _ region.block region'.block
        exact (List.nodup_cons.mp nodup).1 (same ▸ later)
    refine (ih (fun T later => some T (List.mem_cons_of_mem L later)) (List.nodup_cons.mp nodup).2
      (fun T later => builds T (List.mem_cons_of_mem L later)) shows₁ fresh₁
      (names.grow extended₁.calls extended₁.loops)).bind ?_
    rintro ⟨parts, s₂⟩ ⟨G₂, shows₂, extended₂, outlines, okay₂⟩
    refine .of_some ⟨G₂, shows₂, (extended₁.trans extended₂).congr ?_ ?_, ?_, ?_⟩
    · intro fr
      rw [List.exists_mem_cons_iff]
    · intro a b
      rw [List.exists_mem_cons_iff]
    · rw [List.map_cons, outlines]
      rfl
    · intro part member
      rcases List.mem_cons.mp member with rfl | later
      · exact okay₁.grow extended₂.grows shows₂.denotes.nodup
      · exact okay₂ part later

variable (program : P.Ok) (ok : FunctionOk P f)
  (callees : ∀ fr g, fr.func = f → entered P (fr :: σ) = some g →
    BuildsFunction P construct g (fr :: σ))

include program ok callees

omit program in
theorem iteration_builds {L : Loop} (loopOk : LoopOk P f L)
    (builds : ∀ T ∈ L.subloops, BuildsLoop P f σ construct L.subloops T) (p : List Nat) :
    BuildsIteration P f σ p L (iteration P (onStack P construct (f :: σ.map Frame.func))
      (P.numUnrolls + 1) f L) := by
  intro j id s G shows fresh names
  have correct := loopOk.correct
  have freshLoops : Fresh P σ (fun fr => ∃ T ∈ L.subloops,
      Region P f (p ++ [j]) L.subloops T.blocks fr) G :=
    fresh.mono fun fr ⟨T, sub, region⟩ => region.of_blocks (correct.sub_mem T sub _ region.block)
  refine (loops_yield loopOk.side (fun _ sub => sub) loopOk.side.nodup builds shows freshLoops
    names).bind ?_
  rintro ⟨parts, s₁⟩ ⟨G₁, shows₁, extended₁, outlines, okay⟩
  have asked (B : Nat) (exiting : B ∈ exitingBlocks P f L) :
      B ∈ L.blocks ∧ ∀ T ∈ L.subloops, B ∈ T.blocks → B ∈ exitingBlocks P f T := by
    -- A block that leaves the loop leaves the subloop it is in.
    rcases List.mem_filter.mp exiting with ⟨here, leaves⟩
    rcases List.any_eq_true.mp leaves with ⟨S, flow, outside⟩
    refine ⟨here, fun T sub inner => List.mem_filter.mpr ⟨inner, List.any_eq_true.mpr ⟨S, flow, ?_⟩⟩⟩
    have away : S ∉ L.blocks := by simpa using outside
    simpa using fun there => away (correct.sub_mem T sub S there)
  refine (forest_yields ok callees loopOk.side correct.sub_mem
    (ok.natural.blocks_nodup loopOk.member) correct.valid outlines
    ⟨correct.header_mem, correct.sub_header⟩ (laid_header ok loopOk.member) asked shows₁ extended₁
    okay fresh (names.grow extended₁.calls extended₁.loops)).mono ?_
  rintro r ⟨X, exiting, -, G', built⟩
  exact ⟨X, exiting, G', built⟩

theorem every_loop_builds (L : Loop) (side : SideBySide (P.M.func f) (P.loopInfo f) loops)
    (present : L ∈ loops) : BuildsLoop P f σ construct loops L := by
  induction L using Loop.induct generalizing loops with
  | nested L ih =>
    have loopOk : LoopOk P f L := ⟨program, ok, side.mem L present, side.sub present⟩
    exact loop_builds side present loopOk (iteration_builds ok callees loopOk
      fun T sub => ih T sub (side.sub present) sub)

theorem function_yields {exits : List Nat} (ends : functionExits P f = some exits) {id : ID}
    {s : State} {G : Drawing} (shows : Shows s G) (fresh : Fresh P σ (FrameIn P f) G)
    (names : Names G.calls G.loops σ f [] id) :
    Yields (Broken P) (constructForest P (onStack P construct (f :: σ.map Frame.func))
        (P.numUnrolls + 1) f (P.loopInfo f).top 0 exits (List.range (P.M.func f).blocks.length) id
          s) fun r =>
      ∃ G', Built P σ (FrameIn P f) (fun fr fr' => FrameIn P f fr ∧ Link P fr fr') (.start f)
        (Ends P f σ) G r G' := by
  have side := SideBySide.top ok.natural
  have valid {T : Loop} (top : T ∈ (P.loopInfo f).top) := (ok.natural.loop (side.mem T top)).valid
  have nonempty : 0 < (P.M.func f).blocks.length := List.length_pos_iff.mpr ok.wellFormed.defined
  have frames (fr : Frame) : FrameIn P f fr ↔ Region P f [] (P.loopInfo f).top
      (List.range (P.M.func f).blocks.length) fr := frameIn_iff
  have mem_exits (B : Nat) : B ∈ exits ↔ B < (P.M.func f).blocks.length ∧
      ((P.M.func f).terminator B).successors = [] := by
    simp only [functionExits, Option.ite_none_right_eq_some] at ends
    rw [← Option.some.inj ends.2, List.mem_filter, List.mem_range, List.isEmpty_iff]
  -- No loop is left by the end of the function.
  have outside (B : Nat) (exit : B ∈ exits) (T : Loop) (top : T ∈ (P.loopInfo f).top) :
      B ∉ T.blocks := by
    intro here
    rcases ok.natural.stays (side.mem T top) B here with ⟨S, -, flow⟩
    rw [Function.Flow, ((mem_exits B).mp exit).2] at flow
    cases flow
  have freshAll : Fresh P σ (Region P f [] (P.loopInfo f).top
      (List.range (P.M.func f).blocks.length)) G := fresh.mono fun fr => (frames fr).mpr
  have freshLoops : Fresh P σ (fun fr => ∃ T ∈ (P.loopInfo f).top,
      Region P f [] (P.loopInfo f).top T.blocks fr) G := by
    apply freshAll.mono
    rintro fr ⟨T, top, region⟩
    exact region.of_blocks (List.mem_range.mpr (valid top _ region.block))
  refine (loops_yield side (fun _ top => top) side.nodup
    (fun T top => every_loop_builds program ok callees T side top) shows freshLoops names).bind ?_
  rintro ⟨parts, s₁⟩ ⟨G₁, shows₁, extended₁, outlines, okay⟩
  refine (forest_yields ok callees side (fun T top B here => List.mem_range.mpr (valid top B here))
    List.nodup_range (fun B member => List.mem_range.mp member) outlines
    ⟨List.mem_range.mpr nonempty, ok.natural.entry⟩ ⟨nonempty, .inr rfl⟩
    (fun B exit => ⟨List.mem_range.mpr ((mem_exits B).mp exit).1,
      fun T top here => absurd here (outside B exit T top)⟩)
    shows₁ extended₁ okay freshAll (names.grow extended₁.calls extended₁.loops)).mono ?_
  rintro r ⟨X, exiting, only, G', built⟩
  refine ⟨G', built.shows, built.extended.congr (fun fr => (frames fr).symm) ?_, built.entry,
    built.exits.congr fun c => ?_⟩
  · intro a b
    rw [link_iff ok, funext fun fr => propext (frames fr)]
  · constructor
    · rintro ⟨fr, rfl, region, last, marked⟩
      have exit : fr.block ∈ exits := by
        rcases only fr marked with exit | ⟨B, exit, T, top, here⟩
        · exact exit
        · exact absurd here (outside B exit T top)
      refine ⟨fr, rfl, (frames fr).mpr region, last, ?_⟩
      rw [successors, region.func]
      exact ((mem_exits fr.block).mp exit).2
    · rintro ⟨fr, rfl, inside, last, none⟩
      rw [successors, inside.func] at none
      exact ⟨fr, rfl, (frames fr).mp inside, last,
        exiting fr ((mem_exits fr.block).mpr ⟨inside.laid.1, none⟩)⟩

end Loops

/-! Functions -/

section

variable {P : Program} {F : FuncRef}

/-- No function is on the stack more than one time above the limit. -/
structure Stack (P : Program) (σ : Config) : Prop where
  count : ∀ g, (σ.map Frame.func).count g ≤ P.recursiveCallLimit + 1
  defined : ∀ g ∈ σ.map Frame.func, (P.M.func g).isDeclaration = false

variable {g : FuncRef} {callstack : List FuncRef} {σ : Config}

theorem valid_of_defined (defined : (P.M.func g).isDeclaration = false) : g < P.M.funcs.length := by
  by_contra far
  rw [Module.func, List.getD_eq_getElem?_getD, List.getElem?_eq_none (Nat.le_of_not_lt far)]
    at defined
  cases defined

theorem callstack_length_le (count : ∀ g, callstack.count g ≤ P.recursiveCallLimit + 1)
    (defined : ∀ g ∈ callstack, (P.M.func g).isDeclaration = false) :
    callstack.length ≤ (P.recursiveCallLimit + 1) * P.M.funcs.length := by
  have inside : callstack.toFinset ⊆ Finset.range P.M.funcs.length := by
    intro g member
    exact Finset.mem_range.mpr (valid_of_defined (defined g (List.mem_toFinset.mp member)))
  calc callstack.length = ∑ g ∈ callstack.toFinset, callstack.count g :=
        (List.sum_toFinset_count_eq_length _).symm
    _ ≤ callstack.toFinset.card * (P.recursiveCallLimit + 1) :=
        Finset.sum_le_card_nsmul _ _ _ fun g _ => count g
    _ ≤ P.M.funcs.length * (P.recursiveCallLimit + 1) := by
        refine Nat.mul_le_mul_right _ ?_
        simpa using Finset.card_le_card inside
    _ = (P.recursiveCallLimit + 1) * P.M.funcs.length := Nat.mul_comm ..

theorem count_cons_le {f : FuncRef} (count : ∀ g, callstack.count g ≤ P.recursiveCallLimit + 1)
    (few : callstack.count f ≤ P.recursiveCallLimit) (g : FuncRef) :
    (f :: callstack).count g ≤ P.recursiveCallLimit + 1 := by
  rw [List.count_cons]
  split
  · rename_i same
    rw [← eq_of_beq same]
    exact Nat.succ_le_succ few
  · exact count g

theorem Stack.length_le (stack : Stack P σ) :
    σ.length ≤ (P.recursiveCallLimit + 1) * P.M.funcs.length := by
  rw [← List.length_map]
  exact callstack_length_le stack.count stack.defined

theorem callee_count {I : Inst} (inlined : callee P callstack I = some g) :
    callstack.count g ≤ P.recursiveCallLimit := by
  unfold callee at inlined
  split at inlined
  · split at inlined
    · cases inlined
    · split at inlined
      · cases inlined
      · rename_i few
        cases inlined
        exact Nat.le_of_not_lt few
  · cases inlined

theorem Stack.cons (stack : Stack P σ) {fr : Frame}
    (defined : (P.M.func fr.func).isDeclaration = false)
    (few : (σ.map Frame.func).count fr.func ≤ P.recursiveCallLimit) : Stack P (fr :: σ) := by
  refine ⟨count_cons_le stack.count few, fun g member => ?_⟩
  rcases List.mem_cons.mp member with rfl | later
  · exact defined
  · exact stack.defined g later

theorem function_builds (program : P.Ok) {depth : Nat} (stack : Stack P σ)
    (defined : (P.M.func g).isDeclaration = false)
    (few : (σ.map Frame.func).count g ≤ P.recursiveCallLimit)
    (deep : maxDepth P ≤ depth + σ.length) : BuildsFunction P (constructFunction P depth) g σ := by
  induction depth generalizing σ g with
  | zero =>
    have bound := stack.length_le
    rw [maxDepth] at deep
    omega
  | succ depth ih =>
    intro id s G shows fresh names
    cases ends : functionExits P g with
    | none => exact .inl ⟨by rw [constructFunction, constructBody_none ends], g, defined, ends⟩
    | some exits =>
      rw [constructFunction, constructBody_some ends]
      refine function_yields program (program g defined) ?_ ends shows fresh names
      intro fr h func call
      have stack' : Stack P (fr :: σ) := stack.cons (func ▸ defined) (func ▸ few)
      exact ih stack' (entered_defined call) (callee_count call)
        (by rw [List.length_cons]; omega)

structure Draws (P : Program) (F : FuncRef) (G : Drawing) : Prop where
  labels : ∃ new, G.labels = .entry :: .exit :: new ∧
    ∀ x, x ∈ new ↔ ∃ fr d, FrameIn P F fr ∧ Laid P [fr] d ∧ x = .inst d
  edge : ∀ x y, G.edge x y ↔ (x = .entry ∧ ∃ d, Lands P [.start F] d ∧ y = .inst d) ∨
    (y = .exit ∧ ∃ c, Ends P F [] c ∧ x = .inst c) ∨
    ∃ c d, Drawn P [] (FrameIn P F) (fun fr fr' => FrameIn P F fr ∧ Link P fr fr') c d ∧
      x = .inst c ∧ y = .inst d
  enters : ∃ d, Lands P [.start F] d

theorem construct_yields (program : P.Ok) (defined : (P.M.func F).isDeclaration = false) :
    Yields (Broken P) (construct P F) fun s => ∃ G, Shows s G ∧ Draws P F G := by
  let blank : Drawing := ⟨[], [], [], fun _ _ => False⟩
  have shows₀ : Shows .empty blank :=
    { nodes := .nil
      denotes := ⟨List.nodup_nil, False.elim, by simp [State.empty, blank]⟩
      proper := Binrel.proper_empty
      keys := by simp [blank]
      nextFunc := rfl
      nextLoop := rfl }
  rcases shows₀.addNode (x := .entry) (by simp [blank]) .entry with ⟨-, shows₁⟩
  rcases shows₁.addNode (x := .exit) (by simp [blank, Drawing.addLabel]) .exit with ⟨-, shows₂⟩
  have built := function_builds (σ := []) program ⟨by simp, by simp⟩ defined (by simp)
    (Nat.le_refl (maxDepth P)) ⟨[], []⟩ _ _ shows₂ (by simp [Fresh, blank, Drawing.addLabel])
    ⟨.root, [], [], rfl, .root, .own⟩
  rw [construct]
  apply Yields.map
  simp only [constructGraph, bind_apply, monadLift_self, newNode, Option.bind_some]
  refine built.bind ?_
  rintro ⟨port, s₃⟩ ⟨G₃, built⟩
  rcases built.entry with ⟨n, d, entry, found, lands⟩
  rcases built.extended.labels with ⟨new, labels, mem_new⟩
  change G₃.labels = .entry :: .exit :: new at labels
  have first : G₃.labels[0]? = some .entry := by simp [labels]
  have last : G₃.labels[1]? = some .exit := by simp [labels]
  have shows₄ := built.shows.addEdge first found
  rcases shows₄.connect (fun m member => built.exits.valid member) last with ⟨s₅, connected, shows₅⟩
  change port.entry = some n at entry
  change connect (port.exits.map Prod.snd) (some 1) (s₃.addEdge 0 n) = some s₅ at connected
  simp only [require, entry, effect, Option.map_some, Option.bind_some]
  change Yields _ ((connect (port.exits.map Prod.snd) (some 1) (s₃.addEdge 0 n)).map _) _
  rw [connected]
  refine .of_some ⟨_, shows₅, ⟨new, labels, mem_new⟩, ?_, d, lands⟩
  intro x y
  have landing (y : Label) : y = .inst d ↔ ∃ d', Lands P [.start F] d' ∧ y = .inst d' := by
    constructor
    · rintro rfl
      exact ⟨d, lands, rfl⟩
    · rintro ⟨d', lands', rfl⟩
      rw [lands.unique lands']
  simp only [Drawing.addEdges, built.extended.edge, built.exits.listed, ← landing]
  constructor
  · rintro ((edge | ⟨rfl, rfl⟩) | ⟨⟨c, ends, rfl⟩, rfl⟩)
    · rcases edge with never | drawn
      · exact never.elim
      · exact .inr (.inr drawn)
    · exact .inl ⟨rfl, rfl⟩
    · exact .inr (.inl ⟨rfl, c, ends, rfl⟩)
  · rintro (⟨rfl, rfl⟩ | ⟨rfl, c, ends, rfl⟩ | drawn)
    · exact .inl (.inr ⟨rfl, rfl⟩)
    · exact .inr ⟨⟨c, ends, rfl⟩, rfl⟩
    · exact .inl (.inl (.inr drawn))

end

end Clou.Unrolled
