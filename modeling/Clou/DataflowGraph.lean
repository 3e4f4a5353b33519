import Clou.DataflowPass
import Clou.DataflowSound

/-! Rounds of a dataflow graph, and what holds where they stop. -/

namespace Clou.Dataflow

open FiniteMap

variable {V : Type} {ctx : Context V} {M : Module} {f : FuncRef} {S : Type}

/-- An edge of the program from an exit of one component to the entry of another. -/
structure Graph.Link (M : Module) (f : FuncRef) (G : Graph V) (X J : InstRef) : Prop where
  source : X ∈ G.componentExits
  target : ∃ c ∈ G.components, c.entry = J
  terminator : M.terminator ⟨f, X.block⟩ = X
  pred : X.block ∈ (M.func f).preds J.block

/-- The components of a graph are sound and divide the program edges of its region. -/
structure Graph.Decomposed (sim : Simulation ctx M f S) (G : Graph V)
    (region : InstRef → InstRef → Prop) : Prop where
  component : ∀ c ∈ G.components, ∃ edge, c.Sound sim edge ∧
    ∀ {I J}, I ∈ c.insts → region I J → edge I J ∨ (I ∈ c.exits ∧ G.Link M f I J)
  disjoint : ∀ {c d I}, c ∈ G.components → d ∈ G.components → I ∈ c.insts → I ∈ d.insts → c = d
  entry : ∃ c ∈ G.components, c.entry = G.entry
  entry_plain : ∀ {c e r}, c ∈ G.components → c.entry = G.entry → c.transfer e = some r →
    r.ins.lookup c.entry = some e
  inner : ∀ {c}, c ∈ G.components → c.entry ≠ G.entry → c.entry.block ≠ 0
  exits : ∀ {c X}, c ∈ G.components → X ∈ G.exits → X ∈ c.insts → X ∈ c.exits
  complete : G.ignore = []

variable {sim : Simulation ctx M f S} {G : Graph V} {region : InstRef → InstRef → Prop}

theorem Graph.Decomposed.separate (decomposed : G.Decomposed sim region) : G.Separate M f where
  entry_mem member := by
    obtain ⟨edge, sound, -⟩ := decomposed.component _ member
    exact sound.entry_mem
  insts_mem member I inside := by
    obtain ⟨edge, sound, -⟩ := decomposed.component _ member
    exact sound.insts_mem inside
  exits_mem member X exit := by
    obtain ⟨edge, sound, -⟩ := decomposed.component _ member
    exact sound.exits_mem exit
  disjoint := decomposed.disjoint

theorem Graph.Link.checkEdge {X J : InstRef} (link : G.Link M f X J) (complete : G.ignore = []) :
    G.checkEdge X J = true := by
  simp only [Graph.checkEdge, complete, List.not_mem_nil, not_false_eq_true, and_true,
    decide_eq_true_eq, List.mem_map]
  exact ⟨link.target, link.source⟩

section

def AllOut (sim : Simulation ctx M f S) (map : Map V) : Prop :=
  ∀ {X b}, map.lookup X = some b → sim.Out b

def AccountsFor (sim : Simulation ctx M f S) (G : Graph V) (exits : Map V) (I : InstRef) (a : V)
    (preds : List Nat) : Prop :=
  ∀ P ∈ preds, G.checkEdge (M.terminator ⟨f, P⟩) I = true →
    ∃ b, exits.lookup (M.terminator ⟨f, P⟩) = some b ∧ sim.le a b

abbrev Accounts (sim : Simulation ctx M f S) (G : Graph V) (exits : Map V) (I : InstRef) (a : V) :
    Prop :=
  AccountsFor sim G exits I a ((M.func f).preds I.block)

variable {exits ins ins' : Map V} {I : InstRef} {a : V}

theorem foldMeet_spec (out : AllOut sim exits) (front : I.index = 0) {preds : List Nat}
    (inside : ∀ P ∈ preds, P ∈ (M.func f).preds I.block) {start : V} (known : sim.Known I start)
    (folded : preds.foldlM (G.meetPred ctx M f exits I) start = some a) :
    sim.Known I a ∧ sim.le a start ∧ AccountsFor sim G exits I a preds ∧
    ∀ low, sim.le low start → AccountsFor sim G exits I low preds → sim.le low a := by
  induction preds generalizing start with
  | nil =>
    obtain rfl : start = a := by simpa using folded
    exact ⟨known, sim.le_refl start, by simp [AccountsFor], fun low below _ => below⟩
  | cons P preds ih =>
    rcases foldlM_cons_eq_some.mp folded with ⟨next, step, rest⟩
    have later : ∀ Q ∈ preds, Q ∈ (M.func f).preds I.block :=
      fun Q member => inside Q (List.mem_cons_of_mem P member)
    by_cases edge : G.checkEdge (M.terminator ⟨f, P⟩) I = true
    · rw [Graph.meetPred, if_pos edge] at step
      rcases Option.map_eq_some_iff.mp step with ⟨b, found, rfl⟩
      have knownNext := sim.known_meet front (inside P List.mem_cons_self) known (out found)
      rcases ih later knownNext rest with ⟨knownA, below, accounts, greatest⟩
      refine ⟨knownA, sim.le_trans below (sim.meet_le_left start b), ?_, ?_⟩
      · intro Q member edge'
        rcases List.mem_cons.mp member with rfl | member
        · exact ⟨b, found, sim.le_trans below (sim.meet_le_right start b)⟩
        · exact accounts Q member edge'
      · intro low lowStart lowPreds
        rcases lowPreds P List.mem_cons_self edge with ⟨b', found', lowB⟩
        obtain rfl := Option.some.inj (found.symm.trans found')
        exact greatest low (sim.le_meet lowStart lowB)
          fun Q member => lowPreds Q (List.mem_cons_of_mem P member)
    · rw [Graph.meetPred, if_neg edge] at step
      obtain rfl := Option.some.inj step
      rcases ih later known rest with ⟨knownA, below, accounts, greatest⟩
      refine ⟨knownA, below, ?_, ?_⟩
      · intro Q member edge'
        rcases List.mem_cons.mp member with rfl | member
        · exact absurd edge' edge
        · exact accounts Q member edge'
      · intro low lowStart lowPreds
        exact greatest low lowStart fun Q member => lowPreds Q (List.mem_cons_of_mem P member)

/-- What a meet makes of the value before a component: the greatest value that accounts
for the edges and, at the graph's entry, for the old value. -/
structure MetAt (sim : Simulation ctx M f S) (G : Graph V) (ins exits : Map V) (I : InstRef)
    (a : V) : Prop where
  known : sim.Known I a
  accounts : Accounts sim G exits I a
  entry : I = G.entry → ∀ {old}, ins.lookup I = some old → sim.le a old
  greatest : ∀ {low}, sim.Known I low →
    (I = G.entry → ∃ old, ins.lookup I = some old ∧ sim.le low old) →
    Accounts sim G exits I low → sim.le low a

def EntryKnown (sim : Simulation ctx M f S) (G : Graph V) (ins : Map V) : Prop :=
  ∀ {a}, ins.lookup G.entry = some a → sim.Known G.entry a

theorem meetAt_spec (decomposed : G.Decomposed sim region) (known : EntryKnown sim G ins)
    (out : AllOut sim exits) {c : Component V} (member : c ∈ G.components)
    (computed : G.meetAt ctx M f ins exits c.entry = some a) : MetAt sim G ins exits c.entry a := by
  rcases decomposed.component c member with ⟨edge, sound, -⟩
  rcases Option.bind_eq_some_iff.mp computed with ⟨old, found, computed⟩
  rw [if_pos sound.entry_front] at computed
  by_cases atEntry : c.entry = G.entry
  · rw [if_neg (not_not.mpr atEntry)] at computed
    have knownOld : sim.Known c.entry old := by
      rw [atEntry] at found ⊢
      exact known found
    rcases foldMeet_spec out sound.entry_front (fun _ here => here) knownOld computed with
      ⟨knownA, below, accounts, greatest⟩
    refine ⟨knownA, accounts, ?_, ?_⟩
    · intro _ old' found'
      exact Option.some.inj (found.symm.trans found') ▸ below
    · intro low _ lowOld lowPreds
      rcases lowOld atEntry with ⟨old', found', lower⟩
      obtain rfl := Option.some.inj (found.symm.trans found')
      exact greatest low lower lowPreds
  · rw [if_pos atEntry] at computed
    have knownTop := sim.known_top sound.entry_front (decomposed.inner member atEntry)
    rcases foldMeet_spec out sound.entry_front (fun _ here => here) knownTop computed with
      ⟨knownA, below, accounts, greatest⟩
    refine ⟨knownA, accounts, fun here => absurd here atEntry, ?_⟩
    intro low knownLow _ lowPreds
    exact greatest low (sim.known_le_top knownLow) lowPreds

structure Met (sim : Simulation ctx M f S) (G : Graph V) (ins exits ins' : Map V) : Prop where
  frame : ∀ {I}, (∀ c ∈ G.components, c.entry ≠ I) → ins'.lookup I = ins.lookup I
  value : ∀ {c}, c ∈ G.components → ∃ a, ins'.lookup c.entry = some a ∧
    MetAt sim G ins exits c.entry a

/-- A value that is met once more stays one that the old values allow. -/
theorem MetAt.again {b : V} (first : MetAt sim G ins exits I a) (found : ins'.lookup I = some a)
    (second : MetAt sim G ins' exits I b) : MetAt sim G ins exits I b := by
  refine ⟨second.known, second.accounts, ?_, ?_⟩
  · intro atEntry old foundOld
    exact sim.le_trans (second.entry atEntry found) (first.entry atEntry foundOld)
  · intro low known lowOld lowPreds
    exact second.greatest known (fun _ => ⟨a, found, first.greatest known lowOld lowPreds⟩) lowPreds

theorem MetAt.of_lookup (met : MetAt sim G ins' exits I a) (same : ins'.lookup I = ins.lookup I) :
    MetAt sim G ins exits I a := by
  refine ⟨met.known, met.accounts, ?_, ?_⟩
  · intro atEntry old found
    exact met.entry atEntry (same.trans found)
  · intro low known lowOld lowPreds
    refine met.greatest known ?_ lowPreds
    intro atEntry
    rw [same]
    exact lowOld atEntry

theorem meetOnce_spec (decomposed : G.Decomposed sim region) (known : EntryKnown sim G ins)
    (out : AllOut sim exits) (met : G.meetOnce ctx M f ins exits = some ins') :
    Met sim G ins exits ins' := by
  have round : Yields True (G.meetOnce ctx M f ins exits) (Met sim G ins exits) := by
    refine (meetOnce_yields (MetAt sim G ins exits) fun {c before} member reached => ?_).mono
      fun ins' met => ⟨met.1, met.2 _⟩
    have knownBefore : EntryKnown sim G before := by
      intro a found
      obtain ⟨d, present, atEntry⟩ := decomposed.entry
      rcases atEntry ▸ reached d present with same | ⟨b, found', earlier⟩
      · exact known (same.symm.trans found)
      · exact Option.some.inj (found'.symm.trans found) ▸ earlier.known
    refine .of_result fun computed => ?_
    have now := meetAt_spec decomposed knownBefore out member computed
    rcases reached c member with same | ⟨b, found, earlier⟩
    · exact now.of_lookup same
    · exact earlier.again found now
  exact round.result met

end

variable {fresh : Prop} {r : Values V} {edge : InstRef → InstRef → Prop}

section Transfer

variable {c d : Component V} {ins : Map V} {next pass : Graph.Pass V} {cache : Cache V}

/-- A transfer of a component from `e` left `x` before its entry. In a graph transfer that
began with an empty cache, its other values are still in the map. -/
structure Filled (sim : Simulation ctx M f S) (fresh : Prop) (ins : Map V) (c : Component V)
    (x e : V) (r : Values V) : Prop where
  known : sim.Known c.entry e
  transfer : c.transfer e = some r
  value : r.ins.lookup c.entry = some x
  written : fresh → ∀ {I y}, I ∈ c.insts → I ≠ c.entry → r.ins.lookup I = some y →
    ins.lookup I = some y

theorem Filled.of_lookup {ins' : Map V} {x e : V} (filled : Filled sim fresh ins c x e r)
    (same : ∀ {I}, I ∈ c.insts → I ≠ c.entry → ins'.lookup I = ins.lookup I) :
    Filled sim fresh ins' c x e r := by
  refine ⟨filled.known, filled.transfer, filled.value, ?_⟩
  intro isFresh I y inside inner found
  rw [same inside inner]
  exact filled.written isFresh inside inner found

def CacheValid (sim : Simulation ctx M f S) (fresh : Prop) (G : Graph V) (ins : Map V)
    (cache : Cache V) : Prop :=
  ∀ {c entry}, c ∈ G.components → cache.lookup c.entry = some entry →
    ∃ e r, Filled sim fresh ins c entry.entry e r ∧ r.exits = entry.exits

/-- A component after its turn in a pass that began with `ins`. Its exit values are those
of a transfer from `e`, its entry value `a` in this pass is between `e` and the value `x`
that the transfer left. -/
structure Done (sim : Simulation ctx M f S) (fresh : Prop) (ins : Map V) (pass : Graph.Pass V)
    (c : Component V) (a x e : V) (r : Values V) : Prop where
  start : ins.lookup c.entry = some a
  below : sim.le x a
  above : sim.le a e
  filled : Filled sim fresh pass.ins c x e r
  entry : pass.ins.lookup c.entry = some x
  cached : pass.cache.lookup c.entry = some ⟨x, r.exits⟩
  exits : ∀ {X}, X ∈ c.exits → pass.exits.lookup X = r.exits.lookup X

structure Turn (sim : Simulation ctx M f S) (fresh : Prop) (ins : Map V)
    (pass next : Graph.Pass V) (c : Component V) : Prop where
  done : ∃ a x e r, Done sim fresh ins next c a x e r
  out_exits : AllOut sim next.exits
  frame_ins : ∀ {I}, I ∉ c.insts → next.ins.lookup I = pass.ins.lookup I
  frame_exits : ∀ {X}, X ∉ c.exits → next.exits.lookup X = pass.exits.lookup X
  frame_cache : ∀ {J}, J ≠ c.entry → next.cache.lookup J = pass.cache.lookup J

structure Waiting (cache : Cache V) (ins : Map V) (pass : Graph.Pass V) (c : Component V) :
    Prop where
  ins : ∀ {I}, I ∈ c.insts → pass.ins.lookup I = ins.lookup I
  exits : ∀ {X}, X ∈ c.exits → pass.exits.lookup X = none
  cached : pass.cache.lookup c.entry = cache.lookup c.entry

theorem transferComponent_run (sound : c.Sound sim edge) (out : AllOut sim pass.exits)
    (waiting : Waiting cache ins pass c) {a : V} (known : sim.Known c.entry a)
    (found : ins.lookup c.entry = some a) (run : Graph.transferComponent.run pass c a = some next) :
    Turn sim fresh ins pass next c := by
  rcases Option.bind_eq_some_iff.mp run with ⟨r, transfer, run⟩
  rcases Option.map_eq_some_iff.mp run with ⟨x, value, rfl⟩
  rcases sound.entered known transfer with ⟨x', value', knownX, below⟩
  have read {I : InstRef} {y : V} (here : r.ins.lookup I = some y) :
      (insertAll r.ins pass.ins).lookup I = some y := by
    simp only [insertAll, lookup_union, here, Option.some_or]
  obtain rfl := Option.some.inj (value.symm.trans (read value'))
  constructor
  · refine ⟨a, x, a, r, found, below, sim.le_refl a, ⟨known, transfer, value', ?_⟩, value,
      AList.lookup_insert _, ?_⟩
    · intro _ I y _ _ here
      exact read here
    · intro X exit
      simp only [insertAll, lookup_union, waiting.exits exit, Option.none_or]
  · intro X b here
    simp only [insertAll, lookup_union, Option.or_eq_some_iff] at here
    rcases here with old | ⟨-, new⟩
    · exact out old
    · exact sound.out_exits known transfer new
  · intro I outside
    have absent : I ∉ r.ins := fun present => outside (sound.writes known transfer present)
    simp only [insertAll, lookup_union, AList.lookup_eq_none.mpr absent, Option.none_or]
  · intro X outside
    have absent : X ∉ r.exits := fun present => outside (sound.exit_keys known transfer present)
    simp only [insertAll, lookup_union, AList.lookup_eq_none.mpr absent, Option.or_none]
  · intro J other
    exact AList.lookup_insert_ne other

theorem Turn.waiting (decomposed : G.Decomposed sim region) (turn : Turn sim fresh ins pass next c)
    (member : c ∈ G.components) (other : d ∈ G.components) (different : c.entry ≠ d.entry)
    (waiting : Waiting cache ins pass d) : Waiting cache ins next d := by
  rcases decomposed.separate.apart member other different with ⟨insts, exits⟩
  constructor
  · intro I inside
    rw [turn.frame_ins (insts inside), waiting.ins inside]
  · intro X exit
    rw [turn.frame_exits (exits exit), waiting.exits exit]
  · rw [turn.frame_cache different.symm, waiting.cached]

/-- A turn of one component leaves those that have had theirs as they are. -/
theorem Turn.others (decomposed : G.Decomposed sim region) (turn : Turn sim fresh ins pass next c)
    (member : c ∈ G.components) (other : d ∈ G.components) (different : c.entry ≠ d.entry)
    {a x e : V} (done : Done sim fresh ins pass d a x e r) : Done sim fresh ins next d a x e r := by
  rcases decomposed.separate.apart member other different with ⟨insts, exits⟩
  refine ⟨done.start, done.below, done.above, ?_, ?_, ?_, ?_⟩
  · exact done.filled.of_lookup fun inside _ => turn.frame_ins (insts inside)
  · rw [turn.frame_ins (insts (decomposed.separate.entry_mem other)), done.entry]
  · rw [turn.frame_cache different.symm, done.cached]
  · intro X exit
    rw [turn.frame_exits (exits exit), done.exits exit]

variable [DecidableEq V]

theorem transferComponent_spec (member : c ∈ G.components) (sound : c.Sound sim edge)
    (valid : CacheValid sim fresh G ins cache)
    (known : ∀ {a}, ins.lookup c.entry = some a → sim.Known c.entry a) (out : AllOut sim pass.exits)
    (waiting : Waiting cache ins pass c) (moved : Graph.transferComponent pass c = some next) :
    Turn sim fresh ins pass next c := by
  rcases Option.bind_eq_some_iff.mp moved with ⟨a, found, moved⟩
  have start := (waiting.ins sound.entry_mem).symm.trans found
  cases hit : pass.cache.lookup c.entry with
  | none =>
    rw [hit] at moved
    exact transferComponent_run sound out waiting (known start) start moved
  | some cached =>
    rw [hit] at moved
    by_cases equal : cached.entry = a
    · -- The cached exits are those of an earlier transfer, from a higher value.
      simp only [equal, if_true, Option.some.injEq] at moved
      subst moved
      rcases cached with ⟨entry, exits⟩
      subst equal
      rcases valid member (waiting.cached ▸ hit) with ⟨e, r, filled, rfl⟩
      rcases sound.entered filled.known filled.transfer with ⟨x, value, knownX, above⟩
      obtain rfl := Option.some.inj (filled.value.symm.trans value)
      constructor
      · refine ⟨entry, entry, e, r, start, sim.le_refl entry, above, ?_, found, hit, ?_⟩
        · exact filled.of_lookup fun inside _ => waiting.ins inside
        · intro X exit
          simp only [insertAll, lookup_union, waiting.exits exit, Option.none_or]
      · intro X b here
        simp only [insertAll, lookup_union, Option.or_eq_some_iff] at here
        rcases here with old | ⟨-, new⟩
        · exact out old
        · exact sound.out_exits filled.known filled.transfer new
      · exact fun _ => rfl
      · intro X outside
        have absent : X ∉ r.exits := fun present =>
          outside (sound.exit_keys filled.known filled.transfer present)
        simp only [insertAll, lookup_union, AList.lookup_eq_none.mpr absent, Option.or_none]
      · exact fun _ => rfl
    · simp only [equal, if_false] at moved
      exact transferComponent_run sound out waiting (known start) start moved

structure Passed (sim : Simulation ctx M f S) (fresh : Prop) (G : Graph V) (ins : Map V)
    (pass : Graph.Pass V) : Prop where
  done : ∀ {c}, c ∈ G.components → ∃ a x e r, Done sim fresh ins pass c a x e r
  out_exits : AllOut sim pass.exits
  frame_ins : ∀ {I}, I ∉ G.insts → pass.ins.lookup I = ins.lookup I

theorem transferOnce_spec (decomposed : G.Decomposed sim region) {outs : Map V}
    (valid : CacheValid sim fresh G ins cache)
    (known : ∀ c ∈ G.components, ∀ {a}, ins.lookup c.entry = some a → sim.Known c.entry a)
    (moved : G.transferOnce M f ins outs cache = some pass) : Passed sim fresh G ins pass := by
  have separate := decomposed.separate
  have turns : Yields True (G.transferOnce M f ins outs cache) fun pass =>
      (AllOut sim pass.exits ∧ ∀ {I}, I ∉ G.insts → pass.ins.lookup I = ins.lookup I) ∧
        ∀ c ∈ G.order M f, ∃ a x e r, Done sim fresh ins pass c a x e r := by
    refine Yields.turns (Waiting cache ins) _ (order_distinct G) ?_ ⟨?_, fun _ => rfl⟩ ?_
    · intro c before here kept waiting
      have member := separate.mem_order.mp here
      obtain ⟨edge, sound, -⟩ := decomposed.component c member
      refine .of_result fun step => ?_
      have turn := transferComponent_spec member sound valid (known c member) kept.1 waiting step
      refine ⟨⟨turn.out_exits, fun {I} outside => ?_⟩, turn.done, fun d there => ⟨?_, ?_⟩⟩
      · have absent : I ∉ c.insts := fun inside =>
          outside (List.mem_flatMap.mpr ⟨c, member, inside⟩)
        rw [turn.frame_ins absent, kept.2 outside]
      · exact fun different => turn.waiting decomposed member (separate.mem_order.mp there) different
      · intro different done
        obtain ⟨a, x, e, r, done⟩ := done
        exact ⟨a, x, e, r, turn.others decomposed member (separate.mem_order.mp there)
          different.symm done⟩
    · intro X b found
      simp at found
    · exact fun c _ => ⟨fun _ => rfl, fun _ => AList.lookup_empty _, rfl⟩
  obtain ⟨⟨out, frame⟩, done⟩ := turns.result moved
  exact ⟨fun member => done _ (separate.mem_order.mpr member), out, frame⟩

end Transfer

section Iterate

structure Inv (sim : Simulation ctx M f S) (G : Graph V) (e : V) (fresh : Prop) (s : State V) :
    Prop where
  out_exits : AllOut sim s.exits
  keys : ∀ {I}, I ∈ s.ins → I ∈ G.insts
  entry : ∃ a, s.ins.lookup G.entry = some a ∧ sim.Known G.entry a ∧ sim.le a e
  cache : CacheValid sim fresh G s.ins s.cache

structure Settled (sim : Simulation ctx M f S) (G : Graph V) (fresh : Prop) (ins exits : Map V)
    (c : Component V) (x e : V) (r : Values V) : Prop where
  filled : Filled sim fresh ins c x e r
  entry : ins.lookup c.entry = some x
  known : sim.Known c.entry x
  accounts : Accounts sim G exits c.entry x
  exits : ∀ {X}, X ∈ c.exits → exits.lookup X = r.exits.lookup X

def Solution (sim : Simulation ctx M f S) (G : Graph V) (fresh : Prop) (ins exits : Map V) : Prop :=
  ∀ ⦃c⦄, c ∈ G.components → ∃ x e r, Settled sim G fresh ins exits c x e r

structure Visited (sim : Simulation ctx M f S) (G : Graph V) (fresh : Prop) (s t : State V)
    (c : Component V) (a x e : V) (r : Values V) : Prop where
  met : MetAt sim G s.ins s.exits c.entry a
  below : sim.le x a
  above : sim.le a e
  filled : Filled sim fresh t.ins c x e r
  entry : t.ins.lookup c.entry = some x
  cached : t.cache.lookup c.entry = some ⟨x, r.exits⟩
  exits : ∀ {X}, X ∈ c.exits → t.exits.lookup X = r.exits.lookup X

variable {e : V} {s t : State V}

section Decomposed

variable (decomposed : G.Decomposed sim region)

include decomposed

theorem Visited.known {c : Component V} (member : c ∈ G.components) {a x e : V}
    (visited : Visited sim G fresh s t c a x e r) : sim.Known c.entry x := by
  obtain ⟨edge, sound, -⟩ := decomposed.component c member
  obtain ⟨y, value, known, -⟩ := sound.entered visited.filled.known visited.filled.transfer
  exact Option.some.inj (value.symm.trans visited.filled.value) ▸ known

variable [DecidableEq V]

theorem round_visits (inv : Inv sim G e fresh s) (moved : G.round ctx M f s = some t) :
    AllOut sim t.exits ∧ t.oldExits = s.exits ∧
    (∀ {I}, I ∉ G.insts → t.ins.lookup I = s.ins.lookup I) ∧
    ∀ {c}, c ∈ G.components → ∃ a x e r, Visited sim G fresh s t c a x e r := by
  rcases Option.bind_eq_some_iff.mp moved with ⟨ins, meets, moved⟩
  rcases Option.map_eq_some_iff.mp moved with ⟨pass, transfers, rfl⟩
  have entryKnown : EntryKnown sim G s.ins := by
    intro a found
    rcases inv.entry with ⟨b, found', known, -⟩
    exact Option.some.inj (found'.symm.trans found) ▸ known
  have met := meetOnce_spec decomposed entryKnown inv.out_exits meets
  -- Inside a component the meets changed its entry only.
  have valid : CacheValid sim fresh G ins s.cache := by
    intro c entry member found
    rcases inv.cache member found with ⟨e, r, filled, exits⟩
    refine ⟨e, r, filled.of_lookup ?_, exits⟩
    intro I inside inner
    exact met.frame fun d other => decomposed.separate.inner member inside inner other
  have known (c : Component V) (member : c ∈ G.components) {a : V}
      (found : ins.lookup c.entry = some a) : sim.Known c.entry a := by
    rcases met.value member with ⟨b, found', metAt⟩
    exact Option.some.inj (found'.symm.trans found) ▸ metAt.known
  have passed := transferOnce_spec decomposed valid known transfers
  refine ⟨passed.out_exits, rfl, ?_, ?_⟩
  · intro I outside
    rw [passed.frame_ins outside]
    exact met.frame fun c member same => outside (same ▸ decomposed.separate.entry_insts member)
  · intro c member
    rcases passed.done member with ⟨a, x, e, r, done⟩
    rcases met.value member with ⟨b, found, metAt⟩
    obtain rfl := Option.some.inj (found.symm.trans done.start)
    exact ⟨b, x, e, r, metAt, done.below, done.above, done.filled, done.entry, done.cached,
      done.exits⟩

theorem round_inv (inv : Inv sim G e fresh s) (moved : G.round ctx M f s = some t) :
    Inv sim G e fresh t := by
  rcases round_visits decomposed inv moved with ⟨out, -, frame, visits⟩
  refine ⟨out, ?_, ?_, ?_⟩
  · intro I present
    by_contra outside
    rcases FiniteMap.exists_of_mem present with ⟨x, found⟩
    rw [frame outside] at found
    exact outside (inv.keys (mem_of_lookup found))
  · rcases decomposed.entry with ⟨c, member, atEntry⟩
    rcases visits member with ⟨a, x, e', r, visited⟩
    have known := visited.known decomposed member
    rcases inv.entry with ⟨old, found, -, le⟩
    rw [← atEntry] at found ⊢
    exact ⟨x, visited.entry, known,
      sim.le_trans visited.below (sim.le_trans (visited.met.entry atEntry found) le)⟩
  · intro c entry member found
    rcases visits member with ⟨a, x, e', r, visited⟩
    obtain rfl := Option.some.inj (visited.cached.symm.trans found)
    exact ⟨e', r, visited.filled, rfl⟩

omit decomposed in
theorem sameMap_lookup {a b : Map V} (same : sameMap a b = true) (I : InstRef) :
    a.lookup I = b.lookup I := by
  simp only [sameMap, Bool.and_eq_true, List.all_eq_true, decide_eq_true_eq] at same
  by_cases left : I ∈ a
  · exact same.1 I left
  · by_cases right : I ∈ b
    · exact same.2 I right
    · rw [AList.lookup_eq_none.mpr left, AList.lookup_eq_none.mpr right]

omit decomposed in
/-- What every round keeps, a run keeps; a run that begins unstable ends with a round that
changed no exit value. -/
theorem iterate_last {motive : State V → Prop}
    (keeps : ∀ {s t}, motive s → G.round ctx M f s = some t → motive t) {fuel : Nat}
    (holds : motive s) (stopped : G.iterate ctx M f fuel s = some t) :
    Graph.stable t = true ∧ motive t ∧
      (Graph.stable s = true ∨ ∃ u, motive u ∧ G.round ctx M f u = some t) := by
  induction fuel generalizing s with
  | zero => cases stopped
  | succ fuel ih =>
    rw [Graph.iterate] at stopped
    by_cases stable : Graph.stable s = true
    · rw [if_pos stable] at stopped
      obtain rfl := Option.some.inj stopped
      exact ⟨stable, holds, .inl stable⟩
    · rw [if_neg stable] at stopped
      rcases Option.bind_eq_some_iff.mp stopped with ⟨next, moved, rest⟩
      rcases ih (keeps holds moved) rest with ⟨stops, ends, last⟩
      refine ⟨stops, ends, .inr ?_⟩
      rcases last with here | earlier
      · have same : t = next := by
          cases fuel with
          | zero => cases rest
          | succ fuel => simpa [Graph.iterate, here] using rest.symm
        exact ⟨s, holds, same ▸ moved⟩
      · exact earlier

theorem iterate_solution {fuel : Nat} (inv : Inv sim G e fresh s)
    (unstable : Graph.stable s = false) (stopped : G.iterate ctx M f fuel s = some t) :
    Inv sim G e fresh t ∧ Solution sim G fresh t.ins t.exits := by
  rcases iterate_last (round_inv decomposed) inv stopped with ⟨stops, ends, last⟩
  refine ⟨ends, ?_⟩
  rcases last with stable | ⟨u, before, moved⟩
  · rw [stable] at unstable
    cases unstable
  · rcases round_visits decomposed before moved with ⟨-, old, -, visits⟩
    simp only [Graph.stable, Bool.and_eq_true] at stops
    intro c member
    rcases visits member with ⟨a, x, e', r, visited⟩
    refine ⟨x, e', r, visited.filled, visited.entry, visited.known decomposed member, ?_,
      visited.exits⟩
    intro P pred edge'
    rcases visited.met.accounts P pred edge' with ⟨b, found, le⟩
    refine ⟨b, ?_, sim.le_trans visited.below le⟩
    rw [sameMap_lookup stops.2, old, found]

structure Above (sim : Simulation ctx M f S) (G : Graph V) (low lowExits : Map V) (s : State V) :
    Prop where
  entry : ∀ {x a}, low.lookup G.entry = some x → s.ins.lookup G.entry = some a → sim.le x a
  exits : ∀ {X b}, X ∈ G.componentExits → lowExits.lookup X = some b →
    ∃ b', s.exits.lookup X = some b' ∧ sim.le b b'

theorem round_above {fresh lowFresh : Prop} (inv : Inv sim G e fresh s)
    (moved : G.round ctx M f s = some t) {low lowExits : Map V}
    (solution : Solution sim G lowFresh low lowExits) (above : Above sim G low lowExits s) :
    Above sim G low lowExits t := by
  rcases round_visits decomposed inv moved with ⟨-, -, -, visits⟩
  have entered {c : Component V} (member : c ∈ G.components) {a x e x' e' : V} {r r' : Values V}
      (visited : Visited sim G fresh s t c a x e r)
      (settled : Settled sim G lowFresh low lowExits c x' e' r') : sim.le x' e := by
    refine sim.le_trans (visited.met.greatest settled.known ?_ ?_) visited.above
    · intro atEntry
      rcases inv.entry with ⟨old, found, -, -⟩
      exact ⟨old, atEntry ▸ found, above.entry (atEntry ▸ settled.entry) found⟩
    · intro P pred edge
      rcases settled.accounts P pred edge with ⟨b, found, le⟩
      simp only [Graph.checkEdge, decide_eq_true_eq] at edge
      rcases above.exits edge.2.1 found with ⟨b', found', le'⟩
      exact ⟨b', found', sim.le_trans le le'⟩
  constructor
  · intro x' y low' now
    rcases decomposed.entry with ⟨c, member, atEntry⟩
    rcases visits member with ⟨a, x, e, r, visited⟩
    rcases solution member with ⟨x'', e', r', settled⟩
    have plain := decomposed.entry_plain member atEntry visited.filled.transfer
    obtain rfl := Option.some.inj (visited.filled.value.symm.trans plain)
    rw [← atEntry] at low' now
    obtain rfl := Option.some.inj (settled.entry.symm.trans low')
    obtain rfl := Option.some.inj (visited.entry.symm.trans now)
    exact entered member visited settled
  · intro X b exit found
    rcases List.mem_flatMap.mp exit with ⟨c, member, exit⟩
    rcases decomposed.component c member with ⟨edge, sound, -⟩
    rcases visits member with ⟨a, x, e, r, visited⟩
    rcases solution member with ⟨x', e', r', settled⟩
    rcases sound.mono visited.filled.known visited.filled.transfer settled.filled.known
      settled.filled.transfer settled.filled.value (entered member visited settled) exit with
      ⟨b', b'', now, low', le⟩
    rw [settled.exits exit, low'] at found
    obtain rfl := Option.some.inj found
    exact ⟨b', by rw [visited.exits exit, now], le⟩

end Decomposed

end Iterate

end Clou.Dataflow
