import Clou.DataflowGraph
import Clou.LoopInfo

/-! Transfers of whole graphs and of loops are sound. -/

namespace Clou.Dataflow

open FiniteMap

variable {V : Type} {ctx : Context V} {M : Module} {f : FuncRef} {S : Type}
variable {sim : Simulation ctx M f S}

variable {I : InstRef}

theorem Component.Sound.walk_mem {c : Component V} {edge : InstRef → InstRef → Prop}
    (sound : c.Sound sim edge) {s v : S} (walk : Walk sim edge c.entry s I v) : I ∈ c.insts := by
  cases walk with
  | start => exact sound.entry_mem
  | step _ _ _ edge => exact sound.edge_mem edge

variable {I : InstRef} {X : InstRef}

section Graph

variable {G : Graph V} {region : InstRef → InstRef → Prop}

variable {ins exits : Map V} {e x : V} {cache : Cache V} {s v : S} {fresh : Prop}

section Decomposed

variable (decomposed : G.Decomposed sim region)

include decomposed

theorem Solution.exit_some (solution : Solution sim G fresh ins exits) (exit : X ∈ G.componentExits) :
    ∃ b, exits.lookup X = some b ∧ sim.Out b := by
  rcases List.mem_flatMap.mp exit with ⟨c, member, exit⟩
  rcases decomposed.component c member with ⟨edge, sound, -⟩
  rcases solution member with ⟨x, e, r, settled⟩
  have known := settled.filled.known
  have transfer := settled.filled.transfer
  rcases sound.entered known transfer with ⟨x', value, -, le⟩
  rcases sound.mono known transfer known transfer value le exit with ⟨b, -, found, -⟩
  exact ⟨b, by rw [settled.exits exit, found], sound.out_exits known transfer found⟩

omit decomposed in
theorem Solution.of_components (solution : Solution sim G fresh ins exits) (H : Graph V)
    (components : H.components = G.components) (ignore : H.ignore = G.ignore) :
    Solution sim H fresh ins exits := by
  intro c member
  rcases solution (components ▸ member) with ⟨x, e, r, settled⟩
  refine ⟨x, e, r, settled.filled, settled.entry, settled.known, ?_, settled.exits⟩
  intro P pred edge
  apply settled.accounts P pred
  have same : H.checkEdge (M.terminator ⟨f, P⟩) c.entry = G.checkEdge (M.terminator ⟨f, P⟩) c.entry := by
    unfold Graph.checkEdge Graph.componentExits
    congr 1
    rw [components, ignore]
  exact same ▸ edge

omit decomposed in
theorem CacheValid.empty (sim : Simulation ctx M f S) (fresh : Prop) (G : Graph V) (ins : Map V) :
    CacheValid sim fresh G ins ∅ := by
  intro c entry _ found
  simp at found

theorem initial_inv (known : sim.Known G.entry e)
    (valid : CacheValid sim fresh G (G.initial ctx e cache).ins cache) :
    Inv sim G e fresh (G.initial ctx e cache) := by
  refine ⟨?_, ?_, ⟨e, by simp [Graph.initial], known, sim.le_refl e⟩, valid⟩
  · intro I a found
    simp only [Graph.initial, Graph.constantMap, lookup_foldl_insert] at found
    split at found
    · exact Option.some.inj found ▸ sim.out_top
    · simp at found
  · intro I present
    rcases FiniteMap.exists_of_mem present with ⟨a, found⟩
    simp only [Graph.initial, Graph.constantMap, lookup_insert, lookup_foldl_insert] at found
    split at found
    · rename_i here
      rcases decomposed.entry with ⟨c, member, atEntry⟩
      rcases decomposed.component c member with ⟨edge, sound, -⟩
      exact List.mem_flatMap.mpr ⟨c, member, by rw [here, ← atEntry]; exact sound.entry_mem⟩
    · split at found
      · assumption
      · simp at found

/-- A transfer begins above every solution that the entry value is above of. -/
theorem initial_above {low lowExits : Map V} (solution : Solution sim G fresh low lowExits)
    (below : ∀ x, low.lookup G.entry = some x → sim.le x e) :
    Above sim G low lowExits (G.initial ctx e cache) := by
  constructor
  · intro x a foundLow found
    simp only [Graph.initial, AList.lookup_insert, Option.some.injEq] at found
    exact found ▸ below x foundLow
  · intro X b exit found
    rcases solution.exit_some decomposed exit with ⟨b', found', out⟩
    obtain rfl := Option.some.inj (found.symm.trans found')
    refine ⟨ctx.top, ?_, sim.out_le_top out⟩
    simp [Graph.initial, Graph.constantMap, lookup_foldl_insert, exit]

omit decomposed in
theorem initial_not_stable [DecidableEq V] (G : Graph V) (e : V) (cache : Cache V) :
    Graph.stable (G.initial ctx e cache) = false := by
  by_contra stable
  simp only [Graph.stable, Bool.and_eq_true, Bool.not_eq_false] at stable
  have same := sameMap_lookup stable.1.1 G.entry
  simp [Graph.initial] at same

omit decomposed in
/-- The exits that a transfer hands on are those that the graph has. -/
theorem lookup_handedOn (wanted : List InstRef) (exits : Map V) (X : InstRef) :
    (wanted.foldl (fun map I => match exits.lookup I with
      | some value => map.insert I value
      | none => map) (∅ : Map V)).lookup X = if X ∈ wanted then exits.lookup X else none := by
  have fold (map : Map V) : (wanted.foldl (fun map I => match exits.lookup I with
      | some value => map.insert I value
      | none => map) map).lookup X =
        if X ∈ wanted then (exits.lookup X).or (map.lookup X) else map.lookup X := by
    induction wanted generalizing map with
    | nil => simp
    | cons I wanted ih =>
      rw [List.foldl_cons, ih]
      cases found : exits.lookup I with
      | none =>
        by_cases here : X = I
        · subst here
          simp [found]
        · simp [here]
      | some value =>
        simp only [lookup_insert]
        by_cases here : X = I
        · subst here
          simp [found]
        · simp [here]
  rw [fold]
  simp

structure Transferred (sim : Simulation ctx M f S) (G : Graph V) (e : V) (fresh : Prop)
    (r : Values V) (exits : Map V) : Prop where
  keys : ∀ {I}, I ∈ r.ins → I ∈ G.insts
  exit_keys : ∀ {X}, X ∈ r.exits → X ∈ G.exits
  handedOn : ∀ {X}, X ∈ G.exits → r.exits.lookup X = exits.lookup X
  out_exits : AllOut sim exits
  entry : ∃ x, r.ins.lookup G.entry = some x ∧ sim.Known G.entry x ∧ sim.le x e
  solution : Solution sim G fresh r.ins exits
  above : ∀ {lowFresh low lowExits}, Solution sim G lowFresh low lowExits →
    (∀ x, low.lookup G.entry = some x → sim.le x e) →
    (∀ {x a}, low.lookup G.entry = some x → r.ins.lookup G.entry = some a → sim.le x a) ∧
    ∀ {X b}, X ∈ G.componentExits → lowExits.lookup X = some b →
      ∃ b', exits.lookup X = some b' ∧ sim.le b b'

theorem transfer_spec [DecidableEq V] (known : sim.Known G.entry e) {cache' : Cache V}
    (valid : CacheValid sim fresh G (G.initial ctx e cache).ins cache) {fuel : Nat} {r : Values V}
    (moved : G.transfer ctx M f fuel e cache = some (r, cache')) :
    CacheValid sim fresh G r.ins cache' ∧ ∃ exits, Transferred sim G e fresh r exits := by
  rcases Option.map_eq_some_iff.mp moved with ⟨t, stopped, result⟩
  obtain ⟨rfl, rfl⟩ := Prod.mk.inj result
  have initial := initial_inv decomposed known valid
  have unstable : Graph.stable (G.initial ctx e cache) = false := initial_not_stable G e cache
  rcases iterate_solution decomposed initial unstable stopped with ⟨inv, solution⟩
  refine ⟨inv.cache, t.exits, inv.keys, ?_, ?_, inv.out_exits, inv.entry, solution, ?_⟩
  · intro X present
    rcases FiniteMap.exists_of_mem present with ⟨b, found⟩
    replace found := (lookup_handedOn G.exits t.exits X).symm.trans found
    split at found
    · assumption
    · cases found
  · intro X exit
    exact (lookup_handedOn G.exits t.exits X).trans (if_pos exit)
  · intro lowFresh low lowExits lowSolution below
    have start : Above sim G low lowExits (G.initial ctx e cache) :=
      initial_above decomposed lowSolution below
    have keeps {s u : State V} (holds : Inv sim G e fresh s ∧ Above sim G low lowExits s)
        (round : G.round ctx M f s = some u) :
        Inv sim G e fresh u ∧ Above sim G low lowExits u :=
      ⟨round_inv decomposed holds.1 round,
        round_above decomposed holds.1 round lowSolution holds.2⟩
    rcases iterate_last keeps ⟨initial, start⟩ stopped with ⟨-, ⟨-, above⟩, -⟩
    exact ⟨above.entry, above.exits⟩

/-- A path of the region is inside one of the components, which it entered with a value
that the component's entry value covers. -/
theorem Solution.walk (solution : Solution sim G fresh ins exits)
    (entry : ins.lookup G.entry = some x) (covers : sim.Covers s x)
    (walk : Walk sim region G.entry s I v) :
    ∃ c ∈ G.components, ∃ x e r, Settled sim G fresh ins exits c x e r ∧
    ∃ edge, c.Sound sim edge ∧
      (∀ {I J}, I ∈ c.insts → region I J → edge I J ∨ (I ∈ c.exits ∧ G.Link M f I J)) ∧
    ∃ s', sim.Covers s' x ∧ Walk sim edge c.entry s' I v := by
  induction walk with
  | start =>
    rcases decomposed.entry with ⟨c, member, atEntry⟩
    rcases solution member with ⟨x', e, r, settled⟩
    rcases decomposed.component c member with ⟨edge, sound, divides⟩
    rw [← atEntry] at entry ⊢
    obtain rfl := Option.some.inj (entry.symm.trans settled.entry)
    exact ⟨c, member, x, e, r, settled, edge, sound, divides, s, covers, .start⟩
  | @step I J v w _ ok moved inRegion ih =>
    rcases ih with ⟨c, member, x', e, r, settled, edge, sound, divides, s', covers', walk'⟩
    rcases divides (sound.walk_mem walk') inRegion with inner | ⟨exit, link⟩
    · exact ⟨c, member, x', e, r, settled, edge, sound, divides, s', covers',
        .step walk' ok moved inner⟩
    · rcases sound.exit settled.filled.known settled.filled.transfer settled.filled.value covers'
        walk' exit ok moved with ⟨b, found, after⟩
      rcases link.target with ⟨d, target, rfl⟩
      rcases solution target with ⟨y, e', r', settled'⟩
      rcases decomposed.component d target with ⟨edge', sound', divides'⟩
      have passes := link.checkEdge decomposed.complete
      rw [← link.terminator] at passes
      rcases settled'.accounts I.block link.pred passes with ⟨b', found', le⟩
      rw [link.terminator, settled.exits exit, found] at found'
      obtain rfl := Option.some.inj found'
      exact ⟨d, target, y, e', r', settled', edge', sound', divides', w,
        sim.covers_le le after, .start⟩

theorem Solution.inside (solution : Solution sim G True ins exits)
    (entry : ins.lookup G.entry = some x) (covers : sim.Covers s x)
    (walk : Walk sim region G.entry s I v) : ∃ a, ins.lookup I = some a ∧ sim.Covers v a := by
  rcases solution.walk decomposed entry covers walk with
    ⟨c, -, x', e, r, settled, edge, sound, -, s', covers', walk'⟩
  have filled := settled.filled
  rcases sound.inside filled.known filled.transfer filled.value covers' walk' with ⟨a, found, holds⟩
  refine ⟨a, ?_, holds⟩
  by_cases atEntry : I = c.entry
  · subst atEntry
    rw [settled.entry, ← found, filled.value]
  · exact filled.written trivial (sound.walk_mem walk') atEntry found

theorem Solution.exit (solution : Solution sim G fresh ins exits)
    (entry : ins.lookup G.entry = some x) {w : S} (covers : sim.Covers s x)
    (walk : Walk sim region G.entry s X v) (member : X ∈ G.exits) (ok : sim.ok X v)
    (moved : sim.step X v = some w) : ∃ b, exits.lookup X = some b ∧ sim.Covers w b := by
  rcases solution.walk decomposed entry covers walk with
    ⟨c, present, x', e, r, settled, edge, sound, -, s', covers', walk'⟩
  have exit := decomposed.exits present member (sound.walk_mem walk')
  rcases sound.exit settled.filled.known settled.filled.transfer settled.filled.value covers' walk'
    exit ok moved with ⟨b, found, after⟩
  exact ⟨b, by rw [settled.exits exit, found], after⟩

end Decomposed

end Graph

/-! Loops -/

structure RegionEdge (M : Module) (f : FuncRef) (blocks : List Nat) (I J : InstRef) : Prop where
  next : M.Next I J
  func : I.func = f
  reachable : (M.func f).Reachable I.block
  source : I.block ∈ blocks
  target : J.block ∈ blocks

variable {J : InstRef}

theorem next_cases (next : M.Next I J) (func : I.func = f) : SeqEdge M f I.block I J ∨
    (I = M.terminator ⟨f, I.block⟩ ∧ (M.func f).Flow I.block J.block ∧ J = ⟨f, J.block, 0⟩) := by
  subst func
  cases next with
  | seq bound => exact .inl ⟨rfl, rfl, bound, rfl⟩
  | jump last succ => exact .inr ⟨by simp [Module.terminator, ← last], succ, rfl⟩

variable {B : Nat}

theorem mem_terminator (wellFormed : (M.func f).WellFormed) (valid : B < (M.func f).blocks.length) :
    M.terminator ⟨f, B⟩ ∈ blockInsts M f B :=
  mem_blockInsts.mpr ⟨rfl, rfl, Nat.sub_lt (wellFormed.nonempty valid) Nat.one_pos⟩

theorem mem_loopExits {L : Loop} : I ∈ loopExits M f L ↔
    ∃ B ∈ L.blocks, (∃ S, (M.func f).Flow B S ∧ S ∉ L.blocks) ∧ M.terminator ⟨f, B⟩ = I := by
  simp [loopExits, exitingBlocks, Function.Flow, and_assoc]

structure Jump (M : Module) (f : FuncRef) (Ls : List Loop) (I J : InstRef) : Prop where
  terminator : I = M.terminator ⟨f, I.block⟩
  flow : (M.func f).Flow I.block J.block
  front : J = ⟨f, J.block, 0⟩
  apart : ∀ L ∈ Ls, J.block ∈ L.blocks → I.block ∉ L.blocks

theorem block_step {Ls : List Loop} (own : ∀ L ∈ Ls, I.block ∉ L.blocks) (next : M.Next I J)
    (func : I.func = f) : SeqEdge M f I.block I J ∨ Jump M f Ls I J := by
  obtain seq | ⟨terminator, flow, front⟩ := next_cases next func
  · exact .inl seq
  · exact .inr ⟨terminator, flow, front, fun L other _ => own L other⟩

theorem RegionEdge.mem (wellFormed : (M.func f).WellFormed) {blocks : List Nat}
    (valid : ∀ B ∈ blocks, B < (M.func f).blocks.length) (edge : RegionEdge M f blocks I J) :
    J ∈ blocks.flatMap (blockInsts M f) := by
  refine List.mem_flatMap.mpr ⟨J.block, edge.target, mem_blockInsts.mpr ?_⟩
  rcases next_cases edge.next edge.func with ⟨-, -, bound, same⟩ | ⟨-, -, same⟩
  · rw [same]
    exact ⟨rfl, rfl, bound⟩
  · rw [same]
    exact ⟨rfl, rfl, wellFormed.nonempty (valid _ edge.target)⟩

section Loops

variable [DecidableEq V] {fuel : Nat} {minIterations : Loop → Nat}

theorem loop_eq (L : Loop) : loop ctx M f fuel minIterations L =
    loopComponent ctx M f fuel (minIterations L) L
      (nestComponents ctx M f fuel minIterations L.blocks L.subloops) := by
  cases L
  rfl

theorem loops_eq (Ls : List Loop) : loops ctx M f fuel minIterations Ls =
    Ls.map (loop ctx M f fuel minIterations) := by
  induction Ls with
  | nil => rfl
  | cons L Ls ih => rw [loops, ih, List.map_cons]

theorem loop_insts (L : Loop) :
    (loop ctx M f fuel minIterations L).insts = L.blocks.flatMap (blockInsts M f) := by
  rw [loop_eq]
  rfl

theorem loop_entry (L : Loop) : (loop ctx M f fuel minIterations L).entry = ⟨f, L.header, 0⟩ := by
  rw [loop_eq]
  rfl

theorem loop_exits (L : Loop) : (loop ctx M f fuel minIterations L).exits = loopExits M f L := by
  rw [loop_eq]
  rfl

theorem mem_ownBlocks {blocks : List Nat} {Ls : List Loop} :
    B ∈ ownBlocks blocks Ls ↔ B ∈ blocks ∧ ∀ L ∈ Ls, B ∉ L.blocks := by
  simp [ownBlocks]

/-- Loops that lie side by side in a set of blocks, none of which has the header. -/
structure Nested (F : Function) (blocks : List Nat) (Ls : List Loop) (header : Nat) : Prop where
  loop : ∀ L ∈ Ls, L.Correct F
  inside : ∀ L ∈ Ls, ∀ B ∈ L.blocks, B ∈ blocks
  disjoint : ∀ L ∈ Ls, ∀ T ∈ Ls, ∀ B ∈ L.blocks, B ∈ T.blocks → L = T
  header_mem : header ∈ blocks
  header_own : ∀ L ∈ Ls, header ∉ L.blocks
  valid : ∀ B ∈ blocks, B < F.blocks.length
  start : 0 ∈ blocks → header = 0

section Nest

variable {blocks : List Nat} {Ls : List Loop} {header : Nat} {exits : List InstRef}

variable {c : Component V} {I : InstRef}

theorem mem_nestComponents :
    c ∈ nestComponents ctx M f fuel minIterations blocks Ls ↔
      (∃ L ∈ Ls, c = loop ctx M f fuel minIterations L) ∨
      (∃ B ∈ blocks, (∀ L ∈ Ls, B ∉ L.blocks) ∧ c = block ctx M f B) := by
  simp only [nestComponents, loops_eq, List.mem_append, List.mem_map, mem_ownBlocks, eq_comm,
    and_assoc]

theorem mem_loop_insts {L : Loop} :
    I ∈ (loop ctx M f fuel minIterations L).insts ↔
      I.block ∈ L.blocks ∧ I ∈ blockInsts M f I.block := by
  rw [loop_insts, List.mem_flatMap]
  constructor
  · rintro ⟨B, member, inside⟩
    obtain rfl := (mem_blockInsts.mp inside).2.1
    exact ⟨member, inside⟩
  · rintro ⟨member, inside⟩
    exact ⟨I.block, member, inside⟩

theorem Nested.components_disjoint (nested : Nested (M.func f) blocks Ls header) {d : Component V}
    (left : c ∈ nestComponents ctx M f fuel minIterations blocks Ls)
    (right : d ∈ nestComponents ctx M f fuel minIterations blocks Ls) (inC : I ∈ c.insts)
    (inD : I ∈ d.insts) : c = d := by
  rcases mem_nestComponents.mp left with ⟨L, present, rfl⟩ | ⟨B, present, own, rfl⟩
  · have here := (mem_loop_insts.mp inC).1
    rcases mem_nestComponents.mp right with ⟨T, present', rfl⟩ | ⟨C, present', own', rfl⟩
    · rw [nested.disjoint L present T present' I.block here (mem_loop_insts.mp inD).1]
    · exact absurd here ((mem_blockInsts.mp inD).2.1 ▸ own' L present)
  · rcases mem_nestComponents.mp right with ⟨T, present', rfl⟩ | ⟨C, present', own', rfl⟩
    · exact absurd (mem_loop_insts.mp inD).1 ((mem_blockInsts.mp inC).2.1 ▸ own T present')
    · rw [← (mem_blockInsts.mp inC).2.1, ← (mem_blockInsts.mp inD).2.1]

theorem exists_component {P : Component V → Prop} (here : B ∈ blocks)
    (inLoop : ∀ L ∈ Ls, B ∈ L.blocks → P (loop ctx M f fuel minIterations L))
    (own : (∀ L ∈ Ls, B ∉ L.blocks) → P (block ctx M f B)) :
    ∃ c ∈ nestComponents ctx M f fuel minIterations blocks Ls, P c := by
  by_cases some : ∃ L ∈ Ls, B ∈ L.blocks
  · obtain ⟨L, member, there⟩ := some
    exact ⟨_, mem_nestComponents.mpr (.inl ⟨L, member, rfl⟩), inLoop L member there⟩
  · have none : ∀ L ∈ Ls, B ∉ L.blocks := fun L member there => some ⟨L, member, there⟩
    exact ⟨_, mem_nestComponents.mpr (.inr ⟨B, here, none, rfl⟩), own none⟩

/-- A jump out of a block of the nest leaves the block's component. -/
theorem mem_nest_exits (here : B ∈ blocks)
    (leaves : ∀ L ∈ Ls, B ∈ L.blocks → ∃ S, (M.func f).Flow B S ∧ S ∉ L.blocks) :
    ∃ c ∈ nestComponents ctx M f fuel minIterations blocks Ls, M.terminator ⟨f, B⟩ ∈ c.exits := by
  apply exists_component here
  · intro L member there
    rw [loop_exits]
    exact mem_loopExits.mpr ⟨B, there, leaves L member there, rfl⟩
  · exact fun _ => List.mem_singleton_self _

theorem mem_component_insts (nested : Nested (M.func f) blocks Ls header) :
    (∃ c ∈ nestComponents ctx M f fuel minIterations blocks Ls, I ∈ c.insts) ↔
      I.block ∈ blocks ∧ I ∈ blockInsts M f I.block := by
  constructor
  · rintro ⟨c, present, inside⟩
    rcases mem_nestComponents.mp present with ⟨L, here, rfl⟩ | ⟨B, here, -, rfl⟩
    · obtain ⟨there, inBlock⟩ := mem_loop_insts.mp inside
      exact ⟨nested.inside L here _ there, inBlock⟩
    · obtain rfl := (mem_blockInsts.mp inside).2.1
      exact ⟨here, inside⟩
  · rintro ⟨here, inBlock⟩
    exact exists_component here (fun L _ there => mem_loop_insts.mpr ⟨there, inBlock⟩)
      fun _ => inBlock

/-- A jump into a nest leads to the entry of a component, if it does not lead past the header
of a loop. -/
theorem jump_target (front : J = ⟨f, J.block, 0⟩) (inside : J.block ∈ blocks)
    (enters : ∀ L ∈ Ls, J.block ∈ L.blocks → J.block = L.header) :
    ∃ d ∈ nestComponents ctx M f fuel minIterations blocks Ls, d.entry = J := by
  apply exists_component inside
  · intro L present here
    rw [loop_entry, front, enters L present here]
  · exact fun _ => front.symm

theorem Nested.loop_step (nested : Nested (M.func f) blocks Ls header) {L : Loop} (present : L ∈ Ls)
    (here : I.block ∈ L.blocks) (next : M.Next I J) (func : I.func = f) :
    J.block ∈ L.blocks ∨ (I ∈ loopExits M f L ∧ Jump M f Ls I J) := by
  by_cases stays : J.block ∈ L.blocks
  · exact .inl stays
  · obtain ⟨-, -, -, rfl⟩ | ⟨terminator, flow, front⟩ := next_cases next func
    · exact absurd here stays
    · refine .inr ⟨mem_loopExits.mpr ⟨I.block, here, ⟨J.block, flow, stays⟩, terminator.symm⟩,
        terminator, flow, front, ?_⟩
      intro T other target there
      exact stays (nested.disjoint L present T other I.block here there ▸ target)

/-- A jump that does not stay inside one of the loops links two components. -/
theorem nest_link (wellFormed : (M.func f).WellFormed) (nested : Nested (M.func f) blocks Ls header)
    (edge : RegionEdge M f blocks I J) (jump : Jump M f Ls I J)
    (source : I ∈ (nestGraph ctx M f fuel (fun _ => 0) blocks Ls header exits []).componentExits) :
    (nestGraph ctx M f fuel (fun _ => 0) blocks Ls header exits []).Link M f I J := by
  have pred : I.block ∈ (M.func f).preds J.block :=
    wellFormed.mem_preds.mpr ⟨nested.valid _ edge.source, jump.flow⟩
  refine ⟨source, ?_, jump.terminator.symm, pred⟩
  exact jump_target jump.front edge.target fun L member inside =>
    (nested.loop L member).entered edge.reachable jump.flow inside (jump.apart L member inside)

theorem nest_decomposed (wellFormed : (M.func f).WellFormed)
    (nested : Nested (M.func f) blocks Ls header)
    (sound : ∀ L ∈ Ls, (loop ctx M f fuel (fun _ => 0) L).Sound sim (RegionEdge M f L.blocks))
    (leaving : ∀ X ∈ exits, ∃ B, X = M.terminator ⟨f, B⟩ ∧
      ∀ L ∈ Ls, B ∈ L.blocks → X ∈ loopExits M f L) :
    (nestGraph ctx M f fuel (fun _ => 0) blocks Ls header exits []).Decomposed sim (RegionEdge M f blocks) := by
  constructor
  · intro c member
    rcases mem_nestComponents.mp member with ⟨L, present, rfl⟩ | ⟨B, present, own, rfl⟩
    · refine ⟨_, sound L present, ?_⟩
      intro I J inside edge
      have here := (mem_loop_insts.mp inside).1
      obtain stays | ⟨exit, jump⟩ := nested.loop_step present here edge.next edge.func
      · exact .inl ⟨edge.next, edge.func, edge.reachable, here, stays⟩
      · replace exit : I ∈ (loop ctx M f fuel (fun _ => 0) L).exits := by rwa [loop_exits]
        exact .inr ⟨exit, nest_link wellFormed nested edge jump
          (List.mem_flatMap.mpr ⟨_, member, exit⟩)⟩
    · refine ⟨_, block_sound sim (nested.valid B present)
        (wellFormed.nonempty (nested.valid B present)), ?_⟩
      intro I J inside edge
      obtain rfl := (mem_blockInsts.mp inside).2.1
      obtain seq | jump := block_step own edge.next edge.func
      · exact .inl seq
      · have exit : I ∈ (block ctx M f I.block).exits := List.mem_singleton.mpr jump.terminator
        exact .inr ⟨exit, nest_link wellFormed nested edge jump
          (List.mem_flatMap.mpr ⟨_, member, exit⟩)⟩
  · exact nested.components_disjoint
  · exact ⟨_, mem_nestComponents.mpr (.inr ⟨header, nested.header_mem, nested.header_own, rfl⟩), rfl⟩
  · intro c e r member atEntry moved
    rcases mem_nestComponents.mp member with ⟨L, present, rfl⟩ | ⟨B, present, own, rfl⟩
    · rw [loop_entry] at atEntry
      obtain rfl : L.header = header := congrArg InstRef.block atEntry
      exact absurd (nested.loop L present).header_mem (nested.header_own L present)
    · exact (block_result (wellFormed.nonempty (nested.valid B present)) moved).first
  · intro c member other
    rcases mem_nestComponents.mp member with ⟨L, present, rfl⟩ | ⟨B, present, -, rfl⟩
    · rw [loop_entry] at other ⊢
      rintro (zero : L.header = 0)
      have here := nested.inside L present _ (nested.loop L present).header_mem
      exact other (by rw [zero, nestGraph, nested.start (zero ▸ here)])
    · rintro (zero : B = 0)
      exact other (by rw [block, nestGraph, zero, nested.start (zero ▸ present)])
  · intro c X member exit inside
    obtain ⟨C, rfl, exiting⟩ := leaving X exit
    rcases mem_nestComponents.mp member with ⟨L, present, rfl⟩ | ⟨B, present, own, rfl⟩
    · rw [loop_exits]
      exact exiting L present (mem_loop_insts.mp inside).1
    · obtain rfl : C = B := (mem_blockInsts.mp inside).2.1
      exact List.mem_singleton_self _
  · rfl

end Nest

variable {L : Loop} {e : V} {r : Values V} {LI : LoopInfo}

/-- A loop is transferred twice: for the values inside and, with the same cache, for the
values at its exits. -/
theorem loop_transfer (moved : (loop ctx M f fuel (fun _ => 0) L).transfer e = some r) :
    ∃ inside cache outside cache',
      (nestGraph ctx M f fuel (fun _ => 0) L.blocks L.subloops L.header [] []).transfer ctx M f fuel e ∅ =
        some (inside, cache) ∧
      (nestGraph ctx M f fuel (fun _ => 0) L.blocks L.subloops L.header (loopExits M f L) []).transfer
        ctx M f fuel e cache = some (outside, cache') ∧
      r.ins = inside.ins ∧ r.exits = outside.exits := by
  rw [loop_eq] at moved
  rcases Option.bind_eq_some_iff.mp moved with ⟨⟨inside, cache⟩, first, moved⟩
  rcases Option.map_eq_some_iff.mp moved with ⟨⟨outside, cache'⟩, second, rfl⟩
  exact ⟨inside, cache, outside, cache', first, second, rfl, rfl⟩

theorem exit_leaves_subloops (correct : L.Correct (M.func f))
    (leaves : ∃ S, (M.func f).Flow B S ∧ S ∉ L.blocks) {T : Loop} (sub : T ∈ L.subloops) :
    ∃ S, (M.func f).Flow B S ∧ S ∉ T.blocks := by
  obtain ⟨S, flow, outside⟩ := leaves
  exact ⟨S, flow, fun inner => outside (correct.sub_mem T sub S inner)⟩

theorem loopExits_exits (correct : L.Correct (M.func f)) (exit : X ∈ loopExits M f L) :
    ∃ c ∈ nestComponents ctx M f fuel minIterations L.blocks L.subloops, X ∈ c.exits := by
  obtain ⟨B, here, leaves, rfl⟩ := mem_loopExits.mp exit
  exact mem_nest_exits here fun T sub _ => exit_leaves_subloops correct leaves sub

theorem Nested.of_loop {F : Function} (correct : LI.Correct F) (member : LoopInfo.Mem L LI) :
    Nested F L.blocks L.subloops L.header :=
  have own := correct.loop member
  { loop := fun _ sub => correct.loop (member.sub sub)
    inside := own.sub_mem
    disjoint := own.sub_disjoint
    header_mem := own.header_mem
    header_own := own.sub_header
    valid := own.valid
    start := fun here => absurd here (correct.entry_outside member) }

theorem Nested.of_function {F : Function} (wellFormed : F.WellFormed) (correct : LI.Correct F) :
    Nested F (List.range F.blocks.length) LI.top 0 :=
  have top (L : Loop) (member : L ∈ LI.top) : LoopInfo.Mem L LI := ⟨L, member, .self⟩
  { loop := fun L member => correct.loop (top L member)
    inside := fun L member B here =>
      List.mem_range.mpr ((correct.loop (top L member)).valid B here)
    disjoint := correct.disjoint
    header_mem := List.mem_range.mpr (List.length_pos_iff.mpr wellFormed.defined)
    header_own := correct.entry
    valid := fun _ here => List.mem_range.mp here
    start := fun _ => rfl }

/-- The two transfers of a loop: the values inside of it are those of the first, the values after
its exits those of the second. -/
structure LoopRun (sim : Simulation ctx M f S) (fuel : Nat) (L : Loop) (e : V)
    (r inside outside : Values V) (exitsIn exitsOut : Map V) : Prop where
  first : Transferred sim (nestGraph ctx M f fuel (fun _ => 0) L.blocks L.subloops L.header [] []) e
    True inside exitsIn
  second : Transferred sim (nestGraph ctx M f fuel (fun _ => 0) L.blocks L.subloops L.header
    (loopExits M f L) []) e False outside exitsOut
  ins : r.ins = inside.ins
  exits : r.exits = outside.exits
  below : ∀ {x}, r.ins.lookup ⟨f, L.header, 0⟩ = some x →
    ∃ x', outside.ins.lookup ⟨f, L.header, 0⟩ = some x' ∧ sim.le x' x

section

variable (wellFormed : (M.func f).WellFormed) (correct : L.Correct (M.func f))
  (nested : Nested (M.func f) L.blocks L.subloops L.header)
  (sound : ∀ T ∈ L.subloops, (loop ctx M f fuel (fun _ => 0) T).Sound sim (RegionEdge M f T.blocks))

include wellFormed correct nested sound

theorem loop_decomposed (exits : List InstRef) (leave : ∀ X ∈ exits, X ∈ loopExits M f L) :
    (nestGraph ctx M f fuel (fun _ => 0) L.blocks L.subloops L.header exits []).Decomposed sim
      (RegionEdge M f L.blocks) := by
  apply nest_decomposed wellFormed nested sound
  intro X exit
  obtain ⟨B, -, leaves, rfl⟩ := mem_loopExits.mp (leave X exit)
  exact ⟨B, rfl, fun T sub here =>
    mem_loopExits.mpr ⟨B, here, exit_leaves_subloops correct leaves sub, rfl⟩⟩

/-- Both transfers of a loop, and how their values at the header compare. -/
theorem loop_result (known : sim.Known (loop ctx M f fuel (fun _ => 0) L).entry e)
    (moved : (loop ctx M f fuel (fun _ => 0) L).transfer e = some r) :
    ∃ inside outside exitsIn exitsOut, LoopRun sim fuel L e r inside outside exitsIn exitsOut := by
  have first := loop_decomposed wellFormed correct nested sound [] (by simp)
  have second := loop_decomposed wellFormed correct nested sound _ fun _ exit => exit
  rw [loop_entry] at known
  obtain ⟨inside, cache, outside, cache', movedIn, movedOut, sameIns, sameExits⟩ :=
    loop_transfer moved
  obtain ⟨valid, exitsIn, transferredIn⟩ :=
    transfer_spec first known (CacheValid.empty sim True _ _) movedIn
  have reused {ins : Map V} : CacheValid sim False
      (nestGraph ctx M f fuel (fun _ => 0) L.blocks L.subloops L.header (loopExits M f L) []) ins cache := by
    intro c entry member found
    obtain ⟨e, r, filled, exits⟩ := valid member found
    exact ⟨e, r, ⟨filled.known, filled.transfer, filled.value, False.elim⟩, exits⟩
  obtain ⟨-, exitsOut, transferredOut⟩ := transfer_spec second known reused movedOut
  obtain ⟨x', entryOut, -, le⟩ := transferredOut.entry
  refine ⟨inside, outside, exitsIn, exitsOut, transferredIn, transferredOut, sameIns, sameExits, ?_⟩
  intro x entryIn
  refine ⟨x', entryOut, ?_⟩
  -- The values of the second transfer are a solution, which the first transfer stays above.
  have solution := transferredOut.solution.of_components
    (nestGraph ctx M f fuel (fun _ => 0) L.blocks L.subloops L.header [] []) rfl rfl
  refine (transferredIn.above solution ?_).1 entryOut (sameIns ▸ entryIn)
  intro y found
  exact Option.some.inj (entryOut.symm.trans found) ▸ le

theorem loop_sound_step :
    (loop ctx M f fuel (fun _ => 0) L).Sound sim (RegionEdge M f L.blocks) := by
  have first := loop_decomposed wellFormed correct nested sound [] (by simp)
  have second := loop_decomposed wellFormed correct nested sound _ fun _ exit => exit
  constructor
  · rw [loop_entry, loop_insts]
    exact List.mem_flatMap.mpr ⟨L.header, correct.header_mem, mem_blockInsts.mpr
      ⟨rfl, rfl, wellFormed.nonempty (correct.valid _ correct.header_mem)⟩⟩
  · rw [loop_entry]
  · intro I inside
    obtain ⟨here, inBlock⟩ := mem_loop_insts.mp inside
    obtain ⟨func, -, bound⟩ := mem_blockInsts.mp inBlock
    exact (Module.mem_insts ..).mpr ⟨func, correct.valid _ here, bound⟩
  · intro X exit
    rw [loop_exits] at exit
    obtain ⟨B, here, -, rfl⟩ := mem_loopExits.mp exit
    exact mem_loop_insts.mpr ⟨here, mem_terminator wellFormed (correct.valid B here)⟩
  · intro I J edge
    rw [loop_insts]
    exact edge.mem wellFormed correct.valid
  · intro e r I known moved present
    obtain ⟨_, _, _, _, run⟩ := loop_result wellFormed correct nested sound known moved
    have member := List.mem_flatMap.mp (run.first.keys (run.ins ▸ present))
    exact mem_loop_insts.mpr ((mem_component_insts nested).mp member)
  · intro e r X known moved present
    obtain ⟨_, _, _, _, run⟩ := loop_result wellFormed correct nested sound known moved
    rw [loop_exits]
    exact run.second.exit_keys (run.exits ▸ present)
  · intro e r known moved
    obtain ⟨_, _, _, _, run⟩ := loop_result wellFormed correct nested sound known moved
    rw [loop_entry, run.ins]
    exact run.first.entry
  · intro e r X b known moved found
    obtain ⟨_, _, _, _, run⟩ := loop_result wellFormed correct nested sound known moved
    rw [run.exits] at found
    rw [run.second.handedOn (run.second.exit_keys (mem_of_lookup found))] at found
    exact run.second.out_exits found
  · intro e r x s I v known moved value covers walk
    obtain ⟨_, _, _, _, run⟩ := loop_result wellFormed correct nested sound known moved
    rw [loop_entry, run.ins] at value
    rw [loop_entry] at walk
    rw [run.ins]
    exact run.first.solution.inside first value covers walk
  · intro e r x s X v w known moved value covers walk exit ok stepped
    obtain ⟨_, _, _, _, run⟩ := loop_result wellFormed correct nested sound known moved
    rw [loop_entry] at value walk
    rw [loop_exits] at exit
    obtain ⟨x', entryOut, le⟩ := run.below value
    rw [run.exits, run.second.handedOn exit]
    exact run.second.solution.exit second entryOut (sim.covers_le le covers) walk exit ok stepped
  · intro e r e' r' z X known moved known' moved' value le exit
    obtain ⟨_, _, _, _, run⟩ := loop_result wellFormed correct nested sound known moved
    obtain ⟨_, _, _, _, run'⟩ := loop_result wellFormed correct nested sound known' moved'
    rw [loop_entry] at value
    rw [loop_exits] at exit
    obtain ⟨x', entryOut, lower⟩ := run'.below value
    have source : X ∈ (nestGraph ctx M f fuel (fun _ => 0) L.blocks L.subloops L.header
      (loopExits M f L) []).componentExits := List.mem_flatMap.mpr (loopExits_exits correct exit)
    obtain ⟨b', found', -⟩ := run'.second.solution.exit_some second source
    obtain ⟨b, found, le'⟩ := (run.second.above run'.second.solution fun w found =>
      Option.some.inj (entryOut.symm.trans found) ▸ sim.le_trans lower le).2 source found'
    rw [run.exits, run'.exits, run.second.handedOn exit, run'.second.handedOn exit]
    exact ⟨b, b', found, found', le'⟩

end

theorem loop_sound (wellFormed : (M.func f).WellFormed) (correct : LI.Correct (M.func f)) (L : Loop)
    (member : LoopInfo.Mem L LI) :
    (loop ctx M f fuel (fun _ => 0) L).Sound sim (RegionEdge M f L.blocks) := by
  induction L using Loop.induct with
  | nested L ih =>
    exact loop_sound_step wellFormed (correct.loop member) (Nested.of_loop correct member)
      fun S sub => ih S sub (member.sub sub)

omit [DecidableEq V] in
theorem walk_region (wellFormed : (M.func f).WellFormed) {s v : S}
    (walk : Walk sim M.Next ⟨f, 0, 0⟩ s I v) : I ∈ M.insts f ∧ (M.func f).Reachable I.block ∧
      Walk sim (RegionEdge M f (List.range (M.func f).blocks.length)) ⟨f, 0, 0⟩ s I v := by
  induction walk with
  | start => exact ⟨Module.entry_mem_insts wellFormed, .refl, .start⟩
  | @step I J v w _ ok moved next ih =>
    rcases ih with ⟨member, reachable, inRegion⟩
    have target := next.mem_insts wellFormed member
    rcases (Module.mem_insts ..).mp member with ⟨func, valid, -⟩
    have edge : RegionEdge M f (List.range (M.func f).blocks.length) I J :=
      ⟨next, func, reachable, List.mem_range.mpr valid,
        List.mem_range.mpr ((Module.mem_insts ..).mp target).2.1⟩
    refine ⟨target, ?_, .step inRegion ok moved edge⟩
    rcases next_cases next func with ⟨-, -, -, rfl⟩ | ⟨-, flow, -⟩
    · exact reachable
    · exact reachable.tail flow

/-- Where the pass over a function stops, its values cover those along every path. -/
theorem transferLoop_sound (wellFormed : (M.func f).WellFormed) (correct : LI.Correct (M.func f))
    (known : sim.Known ⟨f, 0, 0⟩ e) (moved : transferLoop ctx M f LI fuel (fun _ => 0) e = some r)
    {s v : S} (covers : sim.Covers s e) (walk : Walk sim M.Next ⟨f, 0, 0⟩ s I v) :
    ∃ a, r.ins.lookup I = some a ∧ sim.Covers v a := by
  have top (L : Loop) (member : L ∈ LI.top) : LoopInfo.Mem L LI := ⟨L, member, .self⟩
  have nested := Nested.of_function wellFormed correct
  have decomposed : (nestGraph ctx M f fuel (fun _ => 0) (List.range (M.func f).blocks.length) LI.top 0
      [] []).Decomposed sim (RegionEdge M f (List.range (M.func f).blocks.length)) :=
    nest_decomposed wellFormed nested
      (fun L member => loop_sound wellFormed correct L (top L member)) (by simp)
  rcases Option.map_eq_some_iff.mp moved with ⟨⟨r, cache⟩, transferred, rfl⟩
  rcases transfer_spec decomposed known (CacheValid.empty sim True _ _) transferred with
    ⟨-, exits, transferred⟩
  rcases transferred.entry with ⟨x, entry, -, le⟩
  exact transferred.solution.inside decomposed entry (sim.covers_le le covers)
    (walk_region wellFormed walk).2.2

end Loops

end Clou.Dataflow
