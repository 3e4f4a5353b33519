import Clou.DataflowBest

/-! Loops as components over a finite lattice, with the iterations they are annotated to make
at least. -/

namespace Clou.Dataflow

open FiniteMap Descent

variable {V : Type} [SemilatticeInf V] [OrderTop V] {tr : InstRef → V → V} {M : Module}
  {f : FuncRef}

def Graph.exitAt (G : Graph V) (A : InstRef → V) (X : InstRef) : V :=
  match G.components.find? (fun c => X ∈ c.exits) with
  | some c => c.ext (A c.entry) X
  | none => ⊤

theorem Graph.Exact.exitAt_eq {G : Graph V} (exact : G.Exact tr M f) (A : InstRef → V)
    {c : Component V} (member : c ∈ G.components) {X : InstRef} (exit : X ∈ c.exits) :
    G.exitAt A X = c.ext (A c.entry) X := by
  rw [Graph.exitAt]
  cases found : G.components.find? (fun c => X ∈ c.exits) with
  | none => simpa [exit] using List.find?_eq_none.mp found c member
  | some d =>
    have present := List.mem_of_find?_eq_some found
    have other : X ∈ d.exits := by simpa using List.find?_some found
    rw [exact.disjoint present member ((exact.component d present).exits_mem other)
      ((exact.component c member).exits_mem exit)]

/-! The iterations that are made at least -/

section

variable {G : Graph V} {backinsts : List InstRef}

noncomputable def iteration (M : Module) (f : FuncRef) (G : Graph V) (backinsts : List InstRef)
    (v : V) : V :=
  meetOver (G.exitAt (G.best M f v)) backinsts ⊤

variable {v : V}

theorem le_iteration {low : V} : low ≤ iteration M f G backinsts v ↔
    ∀ X ∈ backinsts, low ≤ G.exitAt (G.best M f v) X := by
  simp [iteration, le_meetOver]

theorem foldlM_meet {exits : Map V} {value : InstRef → V} {keys : List InstRef}
    (found : ∀ X ∈ keys, exits.lookup X = some (value X)) (start : V) :
    keys.foldlM (fun new I => (exits.lookup I).map ((latticeContext tr).meet new)) start =
      some (meetOver value keys start) := by
  induction keys generalizing start with
  | nil => rfl
  | cons X keys ih =>
    rw [List.foldlM_cons, found X List.mem_cons_self]
    exact ih (fun Y later => found Y (List.mem_cons_of_mem X later)) _

variable [Finite V]

theorem iteration_mono (exact : G.Exact tr M f) (exits : ∀ X ∈ backinsts, X ∈ G.componentExits)
    {w : V} (below : v ≤ w) : iteration M f G backinsts v ≤ iteration M f G backinsts w := by
  refine le_iteration.mpr fun X member => ?_
  rcases List.mem_flatMap.mp (exits X member) with ⟨c, present, exit⟩
  apply (le_iteration.mp le_rfl X member).trans
  rw [exact.exitAt_eq _ present exit, exact.exitAt_eq _ present exit]
  exact (exact.component c present).ext_mono exit (exact.best_mono below present)

theorem iteration_inf (exact : G.Exact tr M f) (exits : ∀ X ∈ backinsts, X ∈ G.componentExits)
    (preserves : ∀ c ∈ G.components, c.Preserves) (v w : V) :
    iteration M f G backinsts (v ⊓ w) =
      iteration M f G backinsts v ⊓ iteration M f G backinsts w := by
  apply le_antisymm
  · exact le_inf (iteration_mono exact exits inf_le_left) (iteration_mono exact exits inf_le_right)
  · refine le_iteration.mpr fun X member => ?_
    rcases List.mem_flatMap.mp (exits X member) with ⟨c, present, exit⟩
    rw [exact.exitAt_eq _ present exit, exact.best_inf preserves v w present,
      (preserves c present).ext _ _ X exit, ← exact.exitAt_eq _ present exit,
      ← exact.exitAt_eq _ present exit]
    exact inf_le_inf (le_iteration.mp le_rfl X member) (le_iteration.mp le_rfl X member)

/-- The loop over the minimum count stops early only where an iteration changes nothing. -/
theorem minimumIterations_eq [DecidableEq V] (exact : G.Exact tr M f)
    (handed : ∀ X ∈ backinsts, X ∈ G.exits ∧ X ∈ G.componentExits) {fuel : Nat}
    (enough : G.components.length * Nat.card V + 3 ≤ fuel) (count : Nat) {old : Option V}
    (reached : ∀ w, old = some w → iteration M f G backinsts w = v) {cache : Cache V}
    (valid : CacheExact G cache) :
    ∃ cache', minimumIterations (latticeContext tr) M f G fuel backinsts count v old cache =
      some ((iteration M f G backinsts)^[count] v, cache') ∧ CacheExact G cache' := by
  induction count generalizing v old cache with
  | zero => exact ⟨cache, rfl, valid⟩
  | succ count ih =>
    rw [minimumIterations]
    by_cases same : old = some v
    · rw [if_pos same, Function.iterate_fixed (reached v same)]
      exact ⟨cache, rfl, valid⟩
    · rcases exact.transfer valid v (fun (absurd : False) => absurd.elim) enough with
        ⟨r, cache', A, moved, valid', outcome⟩
      have met : backinsts.foldlM
          (fun new I => (r.exits.lookup I).map ((latticeContext tr).meet new)) ⊤ =
          some (iteration M f G backinsts v) := by
        apply foldlM_meet
        intro X member
        rcases List.mem_flatMap.mp (handed X member).2 with ⟨c, present, exit⟩
        rw [exact.exitAt_eq _ present exit]
        exact (outcome.eq_best exact).exits X (handed X member).1 c present exit
      have next (w : V) (before : some v = some w) :
          iteration M f G backinsts w = iteration M f G backinsts v := by
        rw [Option.some.inj before]
      rcases ih next valid' with ⟨cache'', rest, valid''⟩
      refine ⟨cache'', ?_, valid''⟩
      rw [if_neg same, moved, Option.bind_some, show (latticeContext tr).top = ⊤ from rfl, met,
        Option.bind_some, rest, Function.iterate_succ_apply]

end

/-! The graph of a loop -/

section

variable [DecidableEq V] {fuel : Nat} {minIterations : Loop → Nat} {blocks : List Nat}
  {Ls : List Loop} {header : Nat} {exits : List InstRef} {ignore : List (InstRef × InstRef)}

variable {c : Component V} {X : InstRef}

theorem component_front
    (member : c ∈ nestComponents (latticeContext tr) M f fuel minIterations blocks Ls) :
    c.entry.index = 0 := by
  rcases mem_nestComponents.mp member with ⟨L, -, rfl⟩ | ⟨B, -, -, rfl⟩
  · rw [loop_entry]
  · rfl

theorem nest_exact (wellFormed : (M.func f).WellFormed) (monotone : ∀ I, Monotone (tr I))
    (nested : Nested (M.func f) blocks Ls header)
    (loops : ∀ L ∈ Ls, (loop (latticeContext tr) M f fuel minIterations L).Exact tr M f) :
    (nestGraph (latticeContext tr) M f fuel minIterations blocks Ls header exits ignore).Exact tr M
      f := by
  constructor
  · intro c member
    rcases mem_nestComponents.mp member with ⟨L, present, rfl⟩ | ⟨B, present, -, rfl⟩
    · exact loops L present
    · exact block_exact (wellFormed.nonempty (nested.valid B present)) monotone
        (nested.valid B present)
  · exact nested.components_disjoint
  · exact ⟨_, mem_nestComponents.mpr (.inr ⟨header, nested.header_mem, nested.header_own, rfl⟩),
      rfl⟩
  · intro c member atEntry e
    rcases mem_nestComponents.mp member with ⟨L, present, rfl⟩ | ⟨B, present, -, rfl⟩
    · rw [loop_entry] at atEntry
      obtain rfl : L.header = header := congrArg InstRef.block atEntry
      exact absurd (nested.loop L present).header_mem (nested.header_own L present)
    · exact block_val_first (wellFormed.nonempty (nested.valid B present)) e
  · rfl
  · intro c member inner
    exact absurd (component_front member) inner

/-- The exits of the components are terminators of the nest's blocks. -/
theorem nest_exit_block (nested : Nested (M.func f) blocks Ls header)
    (member : c ∈ nestComponents (latticeContext tr) M f fuel minIterations blocks Ls)
    (exit : X ∈ c.exits) : X = M.terminator ⟨f, X.block⟩ ∧ X.block ∈ blocks := by
  rcases mem_nestComponents.mp member with ⟨L, present, rfl⟩ | ⟨B, present, -, rfl⟩
  · rw [loop_exits] at exit
    obtain ⟨B, here, -, rfl⟩ := mem_loopExits.mp exit
    exact ⟨rfl, nested.inside L present B here⟩
  · rw [List.mem_singleton.mp exit]
    exact ⟨rfl, present⟩

theorem mem_nest_insts (nested : Nested (M.func f) blocks Ls header) {I : InstRef} :
    I ∈ (nestGraph (latticeContext tr) M f fuel minIterations blocks Ls header exits
        ignore).insts ↔ I.block ∈ blocks ∧ I ∈ blockInsts M f I.block :=
  List.mem_flatMap.trans (mem_component_insts nested)

theorem mem_sources {J : InstRef} (front : J.index = 0) :
    X ∈ (nestGraph (latticeContext tr) M f fuel minIterations blocks Ls header exits
        ignore).sources M f J ↔
      (∃ P ∈ (M.func f).preds J.block, M.terminator ⟨f, P⟩ = X) ∧
      (∃ c ∈ nestComponents (latticeContext tr) M f fuel minIterations blocks Ls, c.entry = J) ∧
      X ∈ (nestGraph (latticeContext tr) M f fuel minIterations blocks Ls header exits
        ignore).componentExits ∧ (X, J) ∉ ignore := by
  rw [Graph.sources, if_pos front, List.mem_filter, List.mem_map]
  simp only [Graph.checkEdge, nestGraph, decide_eq_true_eq, List.mem_map]

theorem link_source (nested : Nested (M.func f) blocks Ls header) {d : Component V}
    (member : c ∈ nestComponents (latticeContext tr) M f fuel minIterations blocks Ls)
    (target : d ∈ nestComponents (latticeContext tr) M f fuel minIterations blocks Ls)
    (exit : X ∈ c.exits) (pred : X.block ∈ (M.func f).preds d.entry.block)
    (kept : (X, d.entry) ∉ ignore) :
    X ∈ (nestGraph (latticeContext tr) M f fuel minIterations blocks Ls header exits
      ignore).sources M f d.entry :=
  (mem_sources (component_front target)).mpr
    ⟨⟨X.block, pred, (nest_exit_block nested member exit).1.symm⟩, ⟨d, target, rfl⟩,
      List.mem_flatMap.mpr ⟨c, member, exit⟩, kept⟩

end

/-! One loop -/

section Loop

variable [DecidableEq V] {fuel : Nat} {minIterations : Loop → Nat} {L : Loop}

def backinsts (M : Module) (f : FuncRef) (L : Loop) : List InstRef :=
  (backblocks M f L).map (fun B => M.terminator ⟨f, B⟩)

abbrev loopGraph (tr : InstRef → V → V) (M : Module) (f : FuncRef) (fuel : Nat)
    (minIterations : Loop → Nat) (L : Loop) (exits : List InstRef) : Graph V :=
  nestGraph (latticeContext tr) M f fuel minIterations L.blocks L.subloops L.header exits []

abbrev bodyGraph (tr : InstRef → V → V) (M : Module) (f : FuncRef) (fuel : Nat)
    (minIterations : Loop → Nat) (L : Loop) : Graph V :=
  nestGraph (latticeContext tr) M f fuel minIterations L.blocks L.subloops L.header
    (backinsts M f L) ((backinsts M f L).map (·, ⟨f, L.header, 0⟩))

variable {X : InstRef}

theorem mem_backinsts : X ∈ backinsts M f L ↔
    ∃ P ∈ L.blocks, (M.func f).Flow P L.header ∧ M.terminator ⟨f, P⟩ = X := by
  simp only [backinsts, backblocks, List.mem_map, List.mem_filter, decide_eq_true_eq, and_assoc,
    Function.Flow]

theorem backinsts_exits (correct : L.Correct (M.func f)) (back : X ∈ backinsts M f L) :
    ∃ c ∈ nestComponents (latticeContext tr) M f fuel minIterations
      L.blocks L.subloops, X ∈ c.exits := by
  rcases mem_backinsts.mp back with ⟨P, here, flow, rfl⟩
  exact mem_nest_exits here fun S sub _ => ⟨L.header, flow, correct.sub_header S sub⟩

section

variable (wellFormed : (M.func f).WellFormed)
  (nested : Nested (M.func f) L.blocks L.subloops L.header) (exits : List InstRef)

include wellFormed nested

/-- The edges to a loop's header from inside are its back edges. -/
theorem mem_header_sources (correct : L.Correct (M.func f)) {X : InstRef} :
    X ∈ (loopGraph tr M f fuel minIterations L exits).sources M f ⟨f, L.header, 0⟩ ↔
      X ∈ backinsts M f L := by
  rw [mem_sources rfl]
  constructor
  · rintro ⟨⟨P, pred, rfl⟩, -, exit, -⟩
    rcases List.mem_flatMap.mp exit with ⟨c, member, exit⟩
    exact mem_backinsts.mpr ⟨P, (nest_exit_block nested member exit).2,
      (wellFormed.mem_preds.mp pred).2, rfl⟩
  · intro back
    obtain ⟨c, member, exit⟩ : ∃ c ∈ nestComponents (latticeContext tr) M f fuel minIterations
      L.blocks L.subloops, X ∈ c.exits := backinsts_exits correct back
    rcases mem_backinsts.mp back with ⟨P, here, flow, rfl⟩
    refine ⟨⟨P, wellFormed.mem_preds.mpr ⟨nested.valid P here, flow⟩, rfl⟩, ?_,
      List.mem_flatMap.mpr ⟨c, member, exit⟩, by simp⟩
    exact ⟨_, mem_nestComponents.mpr (.inr ⟨L.header, nested.header_mem, nested.header_own, rfl⟩),
      rfl⟩

omit wellFormed nested in
theorem mem_body_sources {J X : InstRef} (front : J.index = 0) :
    X ∈ (bodyGraph tr M f fuel minIterations L).sources M f J ↔
      X ∈ (loopGraph tr M f fuel minIterations L exits).sources M f J ∧
        (X, J) ∉ (backinsts M f L).map (·, (⟨f, L.header, 0⟩ : InstRef)) := by
  rw [mem_sources front, mem_sources front]
  simp only [List.not_mem_nil, not_false_eq_true, and_true]
  exact ⟨fun ⟨pred, target, exit, kept⟩ => ⟨⟨pred, target, exit⟩, kept⟩,
    fun ⟨⟨pred, target, exit⟩, kept⟩ => ⟨pred, target, exit, kept⟩⟩

end

structure LoopResult (tr : InstRef → V → V) (M : Module) (f : FuncRef) (fuel : Nat)
    (minIterations : Loop → Nat) (L : Loop) (e : V) (r : Values V) : Prop where
  inside : ∀ c ∈ nestComponents (latticeContext tr) M f fuel minIterations L.blocks L.subloops,
    ∀ I ∈ c.insts,
      r.ins.lookup I =
        some (c.val ((loopGraph tr M f fuel minIterations L []).best M f e c.entry) I) ∧
      r.outs.lookup I =
        some (tr I (c.val ((loopGraph tr M f fuel minIterations L []).best M f e c.entry) I))
  outside : ∀ I, I ∉ L.blocks.flatMap (blockInsts M f) →
    r.ins.lookup I = none ∧ r.outs.lookup I = none
  exits : ∀ X ∈ loopExits M f L,
    ∀ c ∈ nestComponents (latticeContext tr) M f fuel minIterations L.blocks L.subloops,
      X ∈ c.exits → r.exits.lookup X = some (c.ext ((loopGraph tr M f fuel minIterations L []).best
        M f ((iteration M f (bodyGraph tr M f fuel minIterations L)
          (backinsts M f L))^[minIterations L] e) c.entry) X)
  other_exits : ∀ X, X ∉ loopExits M f L → r.exits.lookup X = none

structure Setting (tr : InstRef → V → V) (M : Module) (f : FuncRef) (fuel : Nat)
    (minIterations : Loop → Nat) (L : Loop) : Prop where
  wellFormed : (M.func f).WellFormed
  monotone : ∀ I, Monotone (tr I)
  correct : L.Correct (M.func f)
  nested : Nested (M.func f) L.blocks L.subloops L.header
  subloops : ∀ S ∈ L.subloops, (loop (latticeContext tr) M f fuel minIterations S).Exact tr M f

namespace Setting

abbrev components (_ : Setting tr M f fuel minIterations L) : List (Component V) :=
  nestComponents (latticeContext tr) M f fuel minIterations L.blocks L.subloops

abbrev graph (_ : Setting tr M f fuel minIterations L) : Graph V :=
  loopGraph tr M f fuel minIterations L []

abbrev body (_ : Setting tr M f fuel minIterations L) : Graph V :=
  bodyGraph tr M f fuel minIterations L

abbrev whole (_ : Setting tr M f fuel minIterations L) : Component V :=
  loop (latticeContext tr) M f fuel minIterations L

noncomputable abbrev step (setting : Setting tr M f fuel minIterations L) : V → V :=
  iteration M f setting.body (backinsts M f L)

variable (setting : Setting tr M f fuel minIterations L)

include setting

theorem loopGraph_exact (exits : List InstRef) :
    (loopGraph tr M f fuel minIterations L exits).Exact tr M f :=
  nest_exact setting.wellFormed setting.monotone setting.nested setting.subloops

theorem bodyGraph_exact : setting.body.Exact tr M f :=
  nest_exact setting.wellFormed setting.monotone setting.nested setting.subloops

theorem header_mem : block (latticeContext tr) M f L.header ∈ setting.components :=
  mem_nestComponents.mpr
    (.inr ⟨L.header, setting.nested.header_mem, setting.nested.header_own, rfl⟩)

variable {X : InstRef} {c : Component V}

theorem back_exits (back : X ∈ backinsts M f L) : ∃ c ∈ setting.components, X ∈ c.exits :=
  backinsts_exits setting.correct back

/-- A solution of the loop's graph is one of its body, which the back edges do not lower. -/
theorem solves_iff {e : V} {A : InstRef → V} :
    setting.graph.Solves M f e A ↔ A ⟨f, L.header, 0⟩ ≤ e ∧
      setting.body.Solves M f (A ⟨f, L.header, 0⟩) A ∧
      ∀ X ∈ backinsts M f L, A ⟨f, L.header, 0⟩ ≤ setting.body.exitAt A X := by
  constructor
  · intro solves
    refine ⟨solves.entry, ⟨le_rfl, ?_⟩, ?_⟩
    · intro c member d other X exit source
      exact solves.edge c member d other X exit
        ((mem_body_sources [] (component_front member)).mp source).1
    · intro X back
      rcases setting.back_exits back with ⟨d, other, exit⟩
      rw [setting.bodyGraph_exact.exitAt_eq A other exit]
      exact solves.edge _ setting.header_mem d other X exit
        ((mem_header_sources setting.wellFormed setting.nested [] setting.correct).mpr back)
  · rintro ⟨entry, body, backs⟩
    refine ⟨entry, ?_⟩
    intro c member d other X exit source
    by_cases ignored : (X, c.entry) ∈ (backinsts M f L).map (·, (⟨f, L.header, 0⟩ : InstRef))
    · rcases List.mem_map.mp ignored with ⟨Y, back, same⟩
      obtain ⟨rfl, atHeader⟩ := Prod.mk.inj same
      rw [← atHeader, ← setting.bodyGraph_exact.exitAt_eq A other exit]
      exact backs Y back
    · exact body.edge c member d other X exit
        ((mem_body_sources [] (component_front member)).mpr ⟨source, ignored⟩)

theorem exitAt_mono {A B : InstRef → V} (below : ∀ c ∈ setting.components, A c.entry ≤ B c.entry)
    (back : X ∈ backinsts M f L) : setting.body.exitAt A X ≤ setting.body.exitAt B X := by
  have exact := setting.bodyGraph_exact
  rcases setting.back_exits back with ⟨d, other, exit⟩
  rw [exact.exitAt_eq A other exit, exact.exitAt_eq B other exit]
  exact (exact.component d other).ext_mono exit (below d other)

theorem not_mem_body_header : X ∉ setting.body.sources M f ⟨f, L.header, 0⟩ := by
  intro source
  rcases (mem_body_sources [] rfl).mp source with ⟨source, kept⟩
  exact kept (List.mem_map.mpr
    ⟨X, (mem_header_sources setting.wellFormed setting.nested [] setting.correct).mp source, rfl⟩)

variable [Finite V]

/-- The value at the header: the greatest below the entry value that an iteration does not
lower. -/
theorem header_greatest (e : V) :
    IsGreatest {x | x ≤ e ∧ x ≤ setting.step x} (setting.graph.best M f e ⟨f, L.header, 0⟩) := by
  have exact := setting.loopGraph_exact []
  have body := setting.bodyGraph_exact
  constructor
  · rcases setting.solves_iff.mp (exact.isBest e).solves with ⟨below, inBody, backs⟩
    refine ⟨below, le_iteration.mpr fun X back => (backs X back).trans ?_⟩
    exact setting.exitAt_mono (fun c member => body.le_best inBody member) back
  · rintro y ⟨below, kept⟩
    -- The best solution of the body from `y`, with `y` itself at the header.
    let A := Function.update (setting.body.best M f y) ⟨f, L.header, 0⟩ y
    have atHeader : A ⟨f, L.header, 0⟩ = y := Function.update_self ..
    have above (I : InstRef) : setting.body.best M f y I ≤ A I := by
      by_cases here : I = ⟨f, L.header, 0⟩
      · rw [here, atHeader]
        exact body.best_entry_le y
      · exact (Function.update_of_ne here ..).ge
    have solution : setting.graph.Solves M f e A := by
      rw [setting.solves_iff, atHeader]
      refine ⟨below, ⟨atHeader.le, ?_⟩, ?_⟩
      · intro c member d other X exit source
        have inner : c.entry ≠ ⟨f, L.header, 0⟩ := fun here =>
          setting.not_mem_body_header (here ▸ source)
        rw [show A c.entry = setting.body.best M f y c.entry from Function.update_of_ne inner ..]
        exact (body.best_edge y member other exit source).trans
          ((body.component d other).ext_mono exit (above d.entry))
      · intro X back
        exact (le_iteration.mp kept X back).trans
          (setting.exitAt_mono (fun c _ => above c.entry) back)
    have result := exact.le_best solution setting.header_mem
    rwa [show (block (latticeContext tr) M f L.header).entry = ⟨f, L.header, 0⟩ from rfl,
      atHeader] at result

/-- The exits that a graph hands on do not matter for its solutions. -/
theorem best_exits (exits : List InstRef) (e : V) (member : c ∈ setting.components) :
    (loopGraph tr M f fuel minIterations L exits).best M f e c.entry =
      setting.graph.best M f e c.entry := by
  have isBest := (setting.loopGraph_exact exits).isBest e
  exact (setting.loopGraph_exact []).eq_best
    ⟨⟨isBest.solves.entry, isBest.solves.edge⟩,
      fun B solves => isBest.greatest B ⟨solves.entry, solves.edge⟩⟩ member

theorem transfer (enough : setting.components.length * Nat.card V + 3 ≤ fuel) (e : V) :
    ∃ r, setting.whole.transfer e = some r ∧ LoopResult tr M f fuel minIterations L e r := by
  have inner := setting.loopGraph_exact []
  have final := setting.loopGraph_exact (loopExits M f L)
  obtain ⟨inside, cache, movedIn, valid, outcome⟩ := inner.transfer_empty e enough
  have handed (X : InstRef) (back : X ∈ backinsts M f L) :
      X ∈ setting.body.exits ∧ X ∈ setting.body.componentExits :=
    ⟨back, List.mem_flatMap.mpr (setting.back_exits back)⟩
  have start (w : V) (before : none = some w) : setting.step w = e := by
    cases before
  rcases minimumIterations_eq setting.bodyGraph_exact handed enough (minIterations L) start
    valid with ⟨cache', iterated, valid'⟩
  rcases final.transfer valid' (setting.step^[minIterations L] e)
    (fun (absurd : False) => absurd.elim) enough with ⟨outside, cache'', A', movedOut, -, outcome'⟩
  replace outcome' := outcome'.eq_best final
  refine ⟨⟨inside.ins, inside.outs, outside.exits⟩, ?_, ?_⟩
  · rw [whole, loop_eq]
    exact Option.bind_eq_some_iff.mpr ⟨_, movedIn, Option.bind_eq_some_iff.mpr
      ⟨_, iterated, Option.map_eq_some_iff.mpr ⟨_, movedOut, rfl⟩⟩⟩
  · refine ⟨outcome.inside trivial, ?_, ?_, outcome'.other_exits⟩
    · intro I absent
      apply outcome.outside
      intro present
      rcases (mem_nest_insts setting.nested).mp present with ⟨here, inBlock⟩
      exact absent (List.mem_flatMap.mpr ⟨_, here, inBlock⟩)
    · intro X exit c member leaves
      rw [← setting.best_exits (loopExits M f L) _ member]
      exact outcome'.exits X exit c member leaves

variable (enough : setting.components.length * Nat.card V + 3 ≤ fuel)

include enough

theorem val_eq (e : V) (member : c ∈ setting.components) {I : InstRef} (here : I ∈ c.insts) :
    setting.whole.val e I = c.val (setting.graph.best M f e c.entry) I := by
  rcases setting.transfer enough e with ⟨r, moved, result⟩
  rw [Component.val_eq moved, valueAt_of_lookup (result.inside c member I here).1]

theorem ext_eq (e : V) (member : c ∈ setting.components) (exit : X ∈ loopExits M f L)
    (here : X ∈ c.exits) : setting.whole.ext e X =
      c.ext (setting.graph.best M f (setting.step^[minIterations L] e) c.entry) X := by
  rcases setting.transfer enough e with ⟨r, moved, result⟩
  rw [Component.ext_eq moved, valueAt_of_lookup (result.exits X exit c member here)]

theorem inside {I : InstRef} (here : I ∈ setting.whole.insts) :
    ∃ c ∈ setting.components, I ∈ c.insts ∧
      ∀ e, setting.whole.val e I = c.val (setting.graph.best M f e c.entry) I := by
  have member : I ∈ setting.graph.insts :=
    (mem_nest_insts setting.nested).mpr (mem_loop_insts.mp here)
  obtain ⟨c, present, there⟩ := List.mem_flatMap.mp member
  exact ⟨c, present, there, fun e => setting.val_eq enough e present there⟩

theorem exit (exit : X ∈ setting.whole.exits) :
    ∃ c ∈ setting.components, X ∈ c.exits ∧ ∀ e, setting.whole.ext e X =
      c.ext (setting.graph.best M f (setting.step^[minIterations L] e) c.entry) X := by
  rw [loop_exits] at exit
  obtain ⟨c, member, there⟩ : ∃ c ∈ setting.components, X ∈ c.exits :=
    loopExits_exits setting.correct exit
  exact ⟨c, member, there, fun e => setting.ext_eq enough e member exit there⟩

omit enough in
theorem iterations_mono {e e' : V} (below : e ≤ e') (count : Nat) :
    setting.step^[count] e ≤ setting.step^[count] e' := by
  have step : Monotone setting.step := fun v w below => iteration_mono setting.bodyGraph_exact
    (fun X back => List.mem_flatMap.mpr (setting.back_exits back)) below
  exact step.iterate count below

omit enough in
theorem iteration_preserves (all : ∀ c ∈ setting.components, c.Preserves) (v w : V) :
    setting.step (v ⊓ w) = setting.step v ⊓ setting.step w :=
  iteration_inf setting.bodyGraph_exact
    (fun _ back => List.mem_flatMap.mpr (setting.back_exits back)) all v w

theorem val_header (e : V) :
    setting.whole.val e ⟨f, L.header, 0⟩ = setting.graph.best M f e ⟨f, L.header, 0⟩ := by
  have nonempty := setting.wellFormed.nonempty
    (setting.correct.valid _ setting.correct.header_mem)
  have first : (⟨f, L.header, 0⟩ : InstRef) ∈ (block (latticeContext tr) M f L.header).insts :=
    mem_blockInsts.mpr ⟨rfl, rfl, nonempty⟩
  rw [setting.val_eq enough e setting.header_mem first, block_val_first nonempty]
  rfl

/-- A loop is an exact component if it is not annotated or its components preserve meets. -/
theorem exact (steady : minIterations L = 0 ∨ ∀ c ∈ setting.components, c.Preserves) :
    setting.whole.Exact tr M f := by
  have own := setting.correct
  have inner := setting.loopGraph_exact []
  constructor
  · rw [loop_entry]
    exact mem_loop_insts.mpr ⟨own.header_mem, mem_blockInsts.mpr
      ⟨rfl, rfl, setting.wellFormed.nonempty (own.valid _ own.header_mem)⟩⟩
  · intro I here
    obtain ⟨c, member, there, -⟩ := setting.inside enough here
    exact (inner.component c member).insts_mem there
  · intro X exit
    rw [loop_exits] at exit
    obtain ⟨B, here, -, rfl⟩ := mem_loopExits.mp exit
    exact mem_loop_insts.mpr ⟨here, mem_terminator setting.wellFormed (own.valid B here)⟩
  · intro e
    obtain ⟨r, moved, result⟩ := setting.transfer enough e
    have both (I : InstRef) :
        r.ins.lookup I =
          (if I ∈ setting.whole.insts then some (setting.whole.val e I) else none) ∧
        r.outs.lookup I =
          (if I ∈ setting.whole.insts then some (tr I (setting.whole.val e I)) else none) := by
      by_cases here : I ∈ setting.whole.insts
      · obtain ⟨c, member, there, value⟩ := setting.inside enough here
        rw [if_pos here, if_pos here, value]
        exact result.inside c member I there
      · rw [if_neg here, if_neg here]
        exact result.outside I (fun there => here (by rwa [loop_insts]))
    refine ⟨r, moved, fun I => (both I).1, fun I => (both I).2, ?_⟩
    intro X
    by_cases here : X ∈ setting.whole.exits
    · obtain ⟨c, member, there, value⟩ := setting.exit enough here
      rw [if_pos here, value]
      exact result.exits X (by rwa [loop_exits] at here) c member there
    · rw [if_neg here]
      exact result.other_exits X (by rwa [loop_exits] at here)
  · intro e e' I here below
    obtain ⟨c, member, there, value⟩ := setting.inside enough here
    rw [value, value]
    exact (inner.component c member).val_mono there (inner.best_mono below member)
  · intro e e' X exit below
    obtain ⟨c, member, there, value⟩ := setting.exit enough exit
    rw [value, value]
    exact (inner.component c member).ext_mono there
      (inner.best_mono (setting.iterations_mono below _) member)
  · intro e
    rw [loop_entry, setting.val_header enough]
    exact inner.best_entry_le e
  · intro e
    rw [loop_entry, setting.val_header enough]
    constructor
    · intro I here
      obtain ⟨c, member, -, value⟩ := setting.inside enough here
      rw [value, value]
      exact congrArg (c.val · I) (inner.best_again e member)
    · intro X exit
      obtain ⟨c, member, -, value⟩ := setting.exit enough exit
      rw [value, value]
      refine congrArg (c.ext · X) ?_
      rcases steady with none | preserves
      · rw [none]
        exact inner.best_again e member
      · have same := greatest_iterate_again (setting.iteration_preserves preserves)
          setting.header_greatest (minIterations L) e
        exact (inner.best_again _ member).symm.trans
          ((congrArg (fun v => setting.graph.best M f v c.entry) same).trans
            (inner.best_again _ member))

theorem preserves (all : ∀ c ∈ setting.components, c.Preserves) : setting.whole.Preserves := by
  have inner := setting.loopGraph_exact []
  constructor
  · intro e e' I here
    obtain ⟨c, member, there, value⟩ := setting.inside enough here
    rw [value, value, value, inner.best_inf all e e' member, (all c member).val _ _ I there]
  · intro e e' X exit
    obtain ⟨c, member, there, value⟩ := setting.exit enough exit
    rw [value, value, value, iterate_inf (setting.iteration_preserves all),
      inner.best_inf all _ _ member, (all c member).ext _ _ X there]

end Setting

end Loop

/-! The loops of a function -/

/-- Fuel for the graphs of a function and of its loops: every round but two lowers the entry
value of some component. -/
structure Enough (V : Type) (M : Module) (f : FuncRef) (LI : LoopInfo) (fuel : Nat) : Prop where
  loop : ∀ {L}, LoopInfo.Mem L LI → (L.blocks.length + L.subloops.length) * Nat.card V + 3 ≤ fuel
  function : ((M.func f).blocks.length + LI.top.length) * Nat.card V + 3 ≤ fuel
  insts : (M.insts f).length * Nat.card V + 3 ≤ fuel

theorem length_le_sizeOf {A : Type} [SizeOf A] (l : List A) : l.length ≤ sizeOf l := by
  induction l with
  | nil => simp
  | cons a l ih =>
    simp only [List.length_cons, List.cons.sizeOf_spec]
    omega

theorem sizeOf_within {S L : Loop} (within : S.Within L) : sizeOf S ≤ sizeOf L := by
  induction within with
  | self => exact le_rfl
  | @sub L T member _ ih =>
    have smaller := List.sizeOf_lt_of_mem member
    cases L
    simp only [Loop.subloops, Loop.mk.sizeOf_spec] at smaller ⊢
    omega

theorem exists_enough (V : Type) (M : Module) (f : FuncRef) (LI : LoopInfo) :
    ∃ bound, ∀ fuel, bound ≤ fuel → Enough V M f LI fuel := by
  refine ⟨(sizeOf LI.top + (M.func f).blocks.length + (M.insts f).length) * Nat.card V + 3, ?_⟩
  have room {n fuel : Nat} (within : n ≤ sizeOf LI.top + (M.func f).blocks.length +
      (M.insts f).length) (enough : (sizeOf LI.top + (M.func f).blocks.length +
        (M.insts f).length) * Nat.card V + 3 ≤ fuel) : n * Nat.card V + 3 ≤ fuel :=
    (Nat.add_le_add_right (Nat.mul_le_mul_right _ within) 3).trans enough
  intro fuel enough
  refine ⟨?_, room ?_ enough, room ?_ enough⟩
  · rintro L ⟨T, top, within⟩
    have inside := sizeOf_within within
    have outer := List.sizeOf_lt_of_mem top
    have blocks := length_le_sizeOf L.blocks
    have subloops := length_le_sizeOf L.subloops
    refine room ?_ enough
    cases L
    simp only [Loop.subloops, Loop.blocks, Loop.mk.sizeOf_spec] at *
    omega
  · have top := length_le_sizeOf LI.top
    omega
  · omega

section

variable [DecidableEq V] [Finite V] {fuel : Nat} {minIterations : Loop → Nat} {LI : LoopInfo}

omit [Finite V] in
theorem length_nestComponents_le (blocks : List Nat) (Ls : List Loop) :
    (nestComponents (latticeContext tr) M f fuel minIterations blocks Ls).length ≤
      blocks.length + Ls.length := by
  rw [nestComponents, loops_eq, List.length_append, List.length_map, List.length_map, ownBlocks]
  have fewer := List.length_filter_le (fun B => Ls.all (fun L => B ∉ L.blocks)) blocks
  omega

omit [Finite V] in
theorem loop_room (enough : Enough V M f LI fuel) {L : Loop} (member : LoopInfo.Mem L LI) :
    (nestComponents (latticeContext tr) M f fuel minIterations L.blocks L.subloops).length *
      Nat.card V + 3 ≤ fuel :=
  (Nat.add_le_add_right (Nat.mul_le_mul_right _ (length_nestComponents_le ..)) 3).trans
    (enough.loop member)

/-- The transfers of the instructions inside annotated loops preserve meets. -/
def Steady (tr : InstRef → V → V) (M : Module) (f : FuncRef) (minIterations : Loop → Nat)
    (LI : LoopInfo) : Prop :=
  ∀ L, LoopInfo.Mem L LI → 0 < minIterations L →
    ∀ I ∈ L.blocks.flatMap (blockInsts M f), ∀ v w, tr I (v ⊓ w) = tr I v ⊓ tr I w

variable (wellFormed : (M.func f).WellFormed) (monotone : ∀ I, Monotone (tr I))
  (correct : LI.Correct (M.func f)) (enough : Enough V M f LI fuel)
  (steady : Steady tr M f minIterations LI)

include wellFormed monotone correct enough steady

theorem loop_exact_preserves (L : Loop) (member : LoopInfo.Mem L LI) :
    (loop (latticeContext tr) M f fuel minIterations L).Exact tr M f ∧
    ((∀ I ∈ L.blocks.flatMap (blockInsts M f), ∀ v w, tr I (v ⊓ w) = tr I v ⊓ tr I w) →
      (loop (latticeContext tr) M f fuel minIterations L).Preserves) := by
  induction L using Loop.induct with
  | nested L ih =>
    have own := correct.loop member
    have setting : Setting tr M f fuel minIterations L :=
      ⟨wellFormed, monotone, own, Nested.of_loop correct member,
        fun S sub => (ih S sub (member.sub sub)).1⟩
    have room : setting.components.length * Nat.card V + 3 ≤ fuel := loop_room enough member
    have components (preserves : ∀ I ∈ L.blocks.flatMap (blockInsts M f), ∀ v w,
        tr I (v ⊓ w) = tr I v ⊓ tr I w) (c : Component V) (present : c ∈ setting.components) :
        c.Preserves := by
      rcases mem_nestComponents.mp present with ⟨S, sub, rfl⟩ | ⟨B, here, -, rfl⟩
      · apply (ih S sub (member.sub sub)).2
        intro I inside
        rcases List.mem_flatMap.mp inside with ⟨B, here, inBlock⟩
        exact preserves I (List.mem_flatMap.mpr ⟨B, own.sub_mem S sub B here, inBlock⟩)
      · exact block_preserves (wellFormed.nonempty (own.valid B here)) fun I inBlock =>
          preserves I (List.mem_flatMap.mpr ⟨B, here, inBlock⟩)
    refine ⟨setting.exact room ?_, fun preserves =>
      setting.preserves room (components preserves)⟩
    rcases Nat.eq_zero_or_pos (minIterations L) with zero | annotated
    · exact .inl zero
    · exact .inr (components (steady L member annotated))

theorem loop_setting {L : Loop} (member : LoopInfo.Mem L LI) :
    Setting tr M f fuel minIterations L :=
  ⟨wellFormed, monotone, correct.loop member, Nested.of_loop correct member, fun S sub =>
    (loop_exact_preserves wellFormed monotone correct enough steady S (member.sub sub)).1⟩

abbrev functionGraph (tr : InstRef → V → V) (M : Module) (f : FuncRef) (LI : LoopInfo) (fuel : Nat)
    (minIterations : Loop → Nat) : Graph V :=
  nestGraph (latticeContext tr) M f fuel minIterations (List.range (M.func f).blocks.length) LI.top
    0 [] []

theorem functionGraph_exact : (functionGraph tr M f LI fuel minIterations).Exact tr M f :=
  nest_exact wellFormed monotone (Nested.of_function wellFormed correct) fun L top =>
    (loop_exact_preserves wellFormed monotone correct enough steady L ⟨L, top, .self⟩).1

/-- The pass over a function ends with the greatest solution of its graph. -/
theorem transferLoop_best (e : V) :
    ∃ r, transferLoop (latticeContext tr) M f LI fuel minIterations e = some r ∧
      Outcome tr M f (functionGraph tr M f LI fuel minIterations) e True r
        ((functionGraph tr M f LI fuel minIterations).best M f e) := by
  have exact := functionGraph_exact wellFormed monotone correct enough steady
  have room : (functionGraph tr M f LI fuel minIterations).components.length * Nat.card V + 3 ≤
      fuel := by
    have fewer : (functionGraph tr M f LI fuel minIterations).components.length ≤
      (List.range (M.func f).blocks.length).length + LI.top.length := length_nestComponents_le ..
    rw [List.length_range] at fewer
    exact (Nat.add_le_add_right (Nat.mul_le_mul_right _ fewer) 3).trans enough.function
  obtain ⟨r, cache, moved, -, outcome⟩ := exact.transfer_empty e room
  exact ⟨r, Option.map_eq_some_iff.mpr ⟨_, moved, rfl⟩, outcome⟩

end

end Clou.Dataflow
