import Clou.DataflowPaths
import Clou.Descent

/-! Over a finite lattice the rounds of a dataflow graph stop, and where they stop is the
greatest solution of the equations between its components. -/

namespace Clou.Dataflow

open FiniteMap Descent

variable {V : Type} [SemilatticeInf V] [OrderTop V] {tr : InstRef → V → V} {M : Module}
  {f : FuncRef}

def latticeContext (tr : InstRef → V → V) : Context V := ⟨⊤, fun I v => some (tr I v), (· ⊓ ·)⟩

def valueAt (map : Map V) (I : InstRef) : V := (map.lookup I).getD ⊤

variable {I : InstRef}

theorem valueAt_of_lookup {map : Map V} {v : V} (found : map.lookup I = some v) :
    valueAt map I = v := by
  rw [valueAt, found, Option.getD_some]

theorem lookup_eq_valueAt {map : Map V} (present : I ∈ map) :
    map.lookup I = some (valueAt map I) := by
  rcases FiniteMap.exists_of_mem present with ⟨v, found⟩
  rw [valueAt_of_lookup found, found]

variable {c : Component V}

namespace Component

def val (c : Component V) (e : V) (I : InstRef) : V :=
  match c.transfer e with
  | some r => valueAt r.ins I
  | none => ⊤

def ext (c : Component V) (e : V) (X : InstRef) : V :=
  match c.transfer e with
  | some r => valueAt r.exits X
  | none => ⊤

structure Writes (tr : InstRef → V → V) (c : Component V) (e : V) (r : Values V) : Prop where
  ins : ∀ I, r.ins.lookup I = if I ∈ c.insts then some (c.val e I) else none
  outs : ∀ I, r.outs.lookup I = if I ∈ c.insts then some (tr I (c.val e I)) else none
  exits : ∀ X, r.exits.lookup X = if X ∈ c.exits then some (c.ext e X) else none

structure Agrees (c : Component V) (e e' : V) : Prop where
  val : ∀ I ∈ c.insts, c.val e I = c.val e' I
  ext : ∀ X ∈ c.exits, c.ext e X = c.ext e' X

/-- A component whose transfer is a monotone function of the entry value. What it leaves
before its entry, it makes the same of as of the entry value itself. -/
structure Exact (tr : InstRef → V → V) (M : Module) (f : FuncRef) (c : Component V) : Prop where
  entry_mem : c.entry ∈ c.insts
  insts_mem : ∀ {I}, I ∈ c.insts → I ∈ M.insts f
  exits_mem : ∀ {X}, X ∈ c.exits → X ∈ c.insts
  transfer : ∀ e, ∃ r, c.transfer e = some r ∧ c.Writes tr e r
  val_mono : ∀ {e e' I}, I ∈ c.insts → e ≤ e' → c.val e I ≤ c.val e' I
  ext_mono : ∀ {e e' X}, X ∈ c.exits → e ≤ e' → c.ext e X ≤ c.ext e' X
  entry_le : ∀ e, c.val e c.entry ≤ e
  again : ∀ e, c.Agrees (c.val e c.entry) e

theorem val_eq {e : V} {r : Values V} (moved : c.transfer e = some r) (I : InstRef) :
    c.val e I = valueAt r.ins I := by
  simp only [val, moved]

theorem ext_eq {e : V} {r : Values V} (moved : c.transfer e = some r) (X : InstRef) :
    c.ext e X = valueAt r.exits X := by
  simp only [ext, moved]

end Component

namespace Graph

def sources (M : Module) (f : FuncRef) (G : Graph V) (I : InstRef) : List InstRef :=
  if I.index = 0 then
    (((M.func f).preds I.block).map fun P => M.terminator ⟨f, P⟩).filter (G.checkEdge · I)
  else [⟨f, I.block, I.index - 1⟩]

def met (M : Module) (f : FuncRef) (G : Graph V) (exits : InstRef → V) (entry : V) (I : InstRef) :
    V :=
  meetOver exits (G.sources M f I) (if I = G.entry then entry else ⊤)

structure Exact (tr : InstRef → V → V) (M : Module) (f : FuncRef) (G : Graph V) : Prop where
  component : ∀ c ∈ G.components, c.Exact tr M f
  disjoint : ∀ {c d I}, c ∈ G.components → d ∈ G.components → I ∈ c.insts → I ∈ d.insts → c = d
  entry : ∃ c ∈ G.components, c.entry = G.entry
  entry_plain : ∀ c ∈ G.components, c.entry = G.entry → ∀ e, c.val e c.entry = e
  entry_front : G.entry.index = 0
  sequence : ∀ c ∈ G.components, c.entry.index ≠ 0 →
    ⟨f, c.entry.block, c.entry.index - 1⟩ ∈ G.componentExits

variable {G : Graph V}

theorem le_met {exits : InstRef → V} {entry low : V} : low ≤ G.met M f exits entry I ↔
      (I = G.entry → low ≤ entry) ∧ ∀ X ∈ G.sources M f I, low ≤ exits X := by
  rw [met, le_meetOver]
  by_cases here : I = G.entry
  · simp [here]
  · simp [here]

theorem met_mono {exits exits' : InstRef → V} {entry entry' : V} (below : entry ≤ entry')
    (values : ∀ X ∈ G.sources M f I, exits X ≤ exits' X) :
    G.met M f exits entry I ≤ G.met M f exits' entry' I := by
  have own := (le_met (M := M) (f := f) (G := G) (I := I)).mp (le_refl (G.met M f exits entry I))
  exact le_met.mpr ⟨fun here => (own.1 here).trans below,
    fun X member => (own.2 X member).trans (values X member)⟩

theorem Exact.separate (exact : G.Exact tr M f) : G.Separate M f where
  entry_mem member := (exact.component _ member).entry_mem
  insts_mem member _ inside := (exact.component _ member).insts_mem inside
  exits_mem member _ exit := (exact.component _ member).exits_mem exit
  disjoint := exact.disjoint

theorem Exact.sources_mem (exact : G.Exact tr M f) (member : c ∈ G.components) {X : InstRef}
    (source : X ∈ G.sources M f c.entry) : X ∈ G.componentExits := by
  rw [sources] at source
  split at source
  · have edge := (List.mem_filter.mp source).2
    simp only [checkEdge, decide_eq_true_eq] at edge
    exact edge.2.1
  · rename_i inner
    rw [List.mem_singleton.mp source]
    exact exact.sequence c member inner

end Graph

section

variable {G : Graph V} {exits : Map V}

theorem foldMeet_eq (full : ∀ X ∈ G.componentExits, X ∈ exits) (I : InstRef) (preds : List Nat)
    (start : V) :
    preds.foldlM (G.meetPred (latticeContext tr) M f exits I) start =
      some (meetOver (valueAt exits)
        ((preds.map fun P => M.terminator ⟨f, P⟩).filter (G.checkEdge · I)) start) := by
  induction preds generalizing start with
  | nil => rfl
  | cons P preds ih =>
    rw [List.foldlM_cons, List.map_cons, List.filter_cons, Graph.meetPred]
    by_cases edge : G.checkEdge (M.terminator ⟨f, P⟩) I = true
    · have present : M.terminator ⟨f, P⟩ ∈ exits := by
        simp only [Graph.checkEdge, decide_eq_true_eq] at edge
        exact full _ edge.2.1
      rw [if_pos edge, if_pos edge, lookup_eq_valueAt present]
      exact ih _
    · rw [if_neg edge, if_neg edge]
      exact ih start

theorem meetAt_eq (exact : G.Exact tr M f) (full : ∀ X ∈ G.componentExits, X ∈ exits)
    (member : c ∈ G.components) {ins : Map V} {old : V} (found : ins.lookup c.entry = some old) :
    G.meetAt (latticeContext tr) M f ins exits c.entry =
      some (G.met M f (valueAt exits) old c.entry) := by
  rw [Graph.meetAt, found, Option.bind_some, Graph.met, Graph.sources]
  by_cases front : c.entry.index = 0
  · rw [if_pos front, if_pos front, foldMeet_eq full]
    by_cases here : c.entry = G.entry
    · simp [here]
    · simp [here, latticeContext]
  · have inner : c.entry ≠ G.entry := fun same => front (same ▸ exact.entry_front)
    rw [if_neg front, if_neg front, if_neg inner,
      lookup_eq_valueAt (full _ (exact.sequence c member front))]
    simp [meetOver]

theorem met_again (value : InstRef → V) (entry : V) (I : InstRef) :
    G.met M f value (G.met M f value entry I) I = G.met M f value entry I := by
  by_cases here : I = G.entry
  · rw [Graph.met, Graph.met, if_pos here, meetOver_again]
  · rw [Graph.met, if_neg here, Graph.met, if_neg here]

/-- Every component entry gets its meet, nothing else changes. -/
theorem meetOnce_eq (exact : G.Exact tr M f) (full : ∀ X ∈ G.componentExits, X ∈ exits)
    {ins : Map V} (present : ∀ c ∈ G.components, c.entry ∈ ins) :
    ∃ ins', G.meetOnce (latticeContext tr) M f ins exits = some ins' ∧
      (∀ c ∈ G.components, ins'.lookup c.entry =
        some (G.met M f (valueAt exits) (valueAt ins G.entry) c.entry)) ∧
      ∀ I, (∀ c ∈ G.components, c.entry ≠ I) → ins'.lookup I = ins.lookup I := by
  have round : Yields False (G.meetOnce (latticeContext tr) M f ins exits) fun ins' =>
      (∀ c ∈ G.components, ins'.lookup c.entry =
        some (G.met M f (valueAt exits) (valueAt ins G.entry) c.entry)) ∧
      ∀ I, (∀ c ∈ G.components, c.entry ≠ I) → ins'.lookup I = ins.lookup I := by
    refine (meetOnce_yields (fun I a => a = G.met M f (valueAt exits) (valueAt ins G.entry) I)
      fun {c before} member reached => ?_).mono fun ins' met => ⟨?_, fun I outside => met.1 outside⟩
    · refine .inr ⟨_, ?_, rfl⟩
      rcases reached c member with same | ⟨a, done, rfl⟩
      · rw [meetAt_eq exact full member (same.trans (lookup_eq_valueAt (present c member)))]
        by_cases atEntry : c.entry = G.entry
        · rw [atEntry]
        · rw [Graph.met, Graph.met, if_neg atEntry, if_neg atEntry]
      · rw [meetAt_eq exact full member done, met_again]
    · intro c member
      obtain ⟨a, found, rfl⟩ := met.2 c member
      exact found
  exact round.total

end

/-! One component's turn -/

structure Inside (tr : InstRef → V → V) (ins outs : Map V) (c : Component V) (e : V) : Prop where
  ins : ∀ I ∈ c.insts, I ≠ c.entry → ins.lookup I = some (c.val e I)
  outs : ∀ I ∈ c.insts, outs.lookup I = some (tr I (c.val e I))

structure Blank (ins outs : Map V) (c : Component V) : Prop where
  ins : ∀ I ∈ c.insts, I ≠ c.entry → ins.lookup I = some ⊤
  outs : ∀ I ∈ c.insts, outs.lookup I = some ⊤

structure CachedFor (cached : CacheEntry V) (c : Component V) (e : V) : Prop where
  entry : cached.entry = c.val e c.entry
  exits : ∀ X, cached.exits.lookup X = if X ∈ c.exits then some (c.ext e X) else none

def CacheExact (G : Graph V) (cache : Cache V) : Prop :=
  ∀ c ∈ G.components, ∀ cached, cache.lookup c.entry = some cached → ∃ e, CachedFor cached c e

/-- What a pass that began with `ins`, `outs` and `cache` makes of a component whose entry
value is `e`. Either the cache has that value, or the component is transferred. -/
structure Visit (tr : InstRef → V → V) (ins outs : Map V) (cache : Cache V)
    (pass : Graph.Pass V) (c : Component V) (e : V) : Prop where
  entry : pass.ins.lookup c.entry = some (c.val e c.entry)
  exits : ∀ X ∈ c.exits, pass.exits.lookup X = some (c.ext e X)
  cached : ∃ cached, pass.cache.lookup c.entry = some cached ∧ CachedFor cached c e ∧
    ((cache.lookup c.entry = some cached ∧ cached.entry = e ∧
      (∀ I ∈ c.insts, I ≠ c.entry → pass.ins.lookup I = ins.lookup I) ∧
      ∀ I ∈ c.insts, pass.outs.lookup I = outs.lookup I) ∨
    ((∀ old, cache.lookup c.entry = some old → old.entry ≠ e) ∧
      Inside tr pass.ins pass.outs c e))

structure Spares (pass next : Graph.Pass V) (c : Component V) : Prop where
  ins : ∀ I, I ∉ c.insts → next.ins.lookup I = pass.ins.lookup I
  outs : ∀ I, I ∉ c.insts → next.outs.lookup I = pass.outs.lookup I
  exits : ∀ X, X ∉ c.exits → next.exits.lookup X = pass.exits.lookup X
  cache : ∀ J, J ≠ c.entry → next.cache.lookup J = pass.cache.lookup J

structure Awaits (ins outs : Map V) (cache : Cache V) (pass : Graph.Pass V) (c : Component V) :
    Prop where
  ins : ∀ I ∈ c.insts, pass.ins.lookup I = ins.lookup I
  outs : ∀ I ∈ c.insts, pass.outs.lookup I = outs.lookup I
  exits : ∀ X ∈ c.exits, pass.exits.lookup X = none
  cache : pass.cache.lookup c.entry = cache.lookup c.entry

section

variable {ins outs : Map V} {cache : Cache V} {pass next : Graph.Pass V} {c d : Component V}
  {e : V}

theorem CachedFor.again (exact : c.Exact tr M f) {cached : CacheEntry V}
    (valid : CachedFor cached c e) : CachedFor cached c cached.entry := by
  have same := exact.again e
  constructor
  · rw [valid.entry, same.val _ exact.entry_mem]
  · intro X
    rw [valid.exits, valid.entry]
    by_cases exit : X ∈ c.exits
    · rw [if_pos exit, if_pos exit, same.ext X exit]
    · rw [if_neg exit, if_neg exit]

theorem Spares.visit (spares : Spares pass next c) (insts : ∀ {I}, I ∈ d.insts → I ∉ c.insts)
    (exits : ∀ {X}, X ∈ d.exits → X ∉ c.exits) (different : d.entry ≠ c.entry)
    (entry : d.entry ∈ d.insts) (visit : Visit tr ins outs cache pass d e) :
    Visit tr ins outs cache next d e := by
  rcases visit.cached with ⟨cached, found, valid, way⟩
  refine ⟨?_, ?_, cached, ?_, valid, ?_⟩
  · rw [spares.ins _ (insts entry), visit.entry]
  · intro X exit
    rw [spares.exits X (exits exit), visit.exits X exit]
  · rw [spares.cache _ different, found]
  · rcases way with ⟨hit, equal, keptIns, keptOuts⟩ | ⟨misses, inside⟩
    · refine .inl ⟨hit, equal, ?_, ?_⟩
      · intro I here inner
        rw [spares.ins I (insts here), keptIns I here inner]
      · intro I here
        rw [spares.outs I (insts here), keptOuts I here]
    · refine .inr ⟨misses, ?_, ?_⟩
      · intro I here inner
        rw [spares.ins I (insts here), inside.ins I here inner]
      · intro I here
        rw [spares.outs I (insts here), inside.outs I here]

omit [SemilatticeInf V] [OrderTop V] in
theorem Spares.awaits (spares : Spares pass next c) (insts : ∀ {I}, I ∈ d.insts → I ∉ c.insts)
    (exits : ∀ {X}, X ∈ d.exits → X ∉ c.exits) (different : d.entry ≠ c.entry)
    (awaits : Awaits ins outs cache pass d) : Awaits ins outs cache next d := by
  constructor
  · intro I here
    rw [spares.ins I (insts here), awaits.ins I here]
  · intro I here
    rw [spares.outs I (insts here), awaits.outs I here]
  · intro X exit
    rw [spares.exits X (exits exit), awaits.exits X exit]
  · rw [spares.cache _ different, awaits.cache]

theorem run_visits (exact : c.Exact tr M f) (awaits : Awaits ins outs cache pass c)
    (misses : ∀ old, cache.lookup c.entry = some old → old.entry ≠ e) :
    ∃ next, Graph.transferComponent.run pass c e = some next ∧
      Visit tr ins outs cache next c e ∧ Spares pass next c := by
  rcases exact.transfer e with ⟨r, moved, writes⟩
  have written (I : InstRef) (here : I ∈ c.insts) :
      (insertAll r.ins pass.ins).lookup I = some (c.val e I) := by
    rw [insertAll, lookup_union, writes.ins, if_pos here, Option.some_or]
  refine ⟨⟨insertAll r.ins pass.ins, insertAll r.outs pass.outs, insertAll pass.exits r.exits,
    pass.cache.insert c.entry ⟨c.val e c.entry, r.exits⟩⟩, ?_, ?_, ?_⟩
  · rw [Graph.transferComponent.run, moved, Option.bind_some, written _ exact.entry_mem,
      Option.map_some]
  · refine ⟨written _ exact.entry_mem, ?_, _, AList.lookup_insert _, ⟨rfl, writes.exits⟩,
      .inr ⟨misses, fun I here _ => written I here, ?_⟩⟩
    · intro X exit
      simp only [insertAll, lookup_union, awaits.exits X exit, Option.none_or, writes.exits, if_pos exit]
    · intro I here
      simp only [insertAll, lookup_union, writes.outs, if_pos here, Option.some_or]
  · constructor
    · intro I outside
      simp only [insertAll, lookup_union, writes.ins, if_neg outside, Option.none_or]
    · intro I outside
      simp only [insertAll, lookup_union, writes.outs, if_neg outside, Option.none_or]
    · intro X outside
      simp only [insertAll, lookup_union, writes.exits, if_neg outside, Option.or_none]
    · intro J other
      exact AList.lookup_insert_ne other

variable [DecidableEq V]

theorem transferComponent_visits (exact : c.Exact tr M f) (awaits : Awaits ins outs cache pass c)
    (valid : ∀ cached, cache.lookup c.entry = some cached → ∃ e, CachedFor cached c e)
    (start : ins.lookup c.entry = some e) :
    ∃ next, Graph.transferComponent pass c = some next ∧ Visit tr ins outs cache next c e ∧
      Spares pass next c := by
  have found := (awaits.ins _ exact.entry_mem).trans start
  rw [Graph.transferComponent, found, Option.bind_some, awaits.cache]
  cases hit : cache.lookup c.entry with
  | none => exact run_visits exact awaits (by simp [hit])
  | some cached =>
    by_cases equal : cached.entry = e
    · rcases valid cached hit with ⟨e', left⟩
      have again := equal ▸ left.again exact
      refine ⟨_, if_pos equal, ⟨?_, ?_, cached, awaits.cache.trans hit, again,
        .inl ⟨hit, equal, fun I here _ => awaits.ins I here, awaits.outs⟩⟩, ?_⟩
      · rw [found, ← again.entry, equal]
      · intro X exit
        simp only [insertAll, lookup_union, awaits.exits X exit, Option.none_or, again.exits,
          if_pos exit]
      · refine ⟨fun _ _ => rfl, fun _ _ => rfl, ?_, fun _ _ => rfl⟩
        intro X outside
        simp only [insertAll, lookup_union, again.exits, if_neg outside, Option.or_none]
    · have misses (old : CacheEntry V) (here : cache.lookup c.entry = some old) :
          old.entry ≠ e := by
        rwa [← Option.some.inj (hit.symm.trans here)]
      rcases run_visits exact awaits misses with ⟨next, run, visit, spares⟩
      exact ⟨next, (if_neg equal).trans run, visit, spares⟩

end

section

variable {G : Graph V}

variable [DecidableEq V]

theorem transferOnce_visits (exact : G.Exact tr M f) {ins outs : Map V} {cache : Cache V}
    (valid : CacheExact G cache) {entry : InstRef → V}
    (start : ∀ c ∈ G.components, ins.lookup c.entry = some (entry c.entry)) :
    ∃ pass, G.transferOnce M f ins outs cache = some pass ∧
      (∀ c ∈ G.components, Visit tr ins outs cache pass c (entry c.entry)) ∧
      (∀ I, I ∉ G.insts →
        pass.ins.lookup I = ins.lookup I ∧ pass.outs.lookup I = outs.lookup I) ∧
      ∀ X, X ∉ G.componentExits → pass.exits.lookup X = none := by
  have separate := exact.separate
  have turns : Yields False (G.transferOnce M f ins outs cache) fun pass =>
      ((∀ I, I ∉ G.insts →
          pass.ins.lookup I = ins.lookup I ∧ pass.outs.lookup I = outs.lookup I) ∧
        ∀ X, X ∉ G.componentExits → pass.exits.lookup X = none) ∧
      ∀ c ∈ G.order M f, Visit tr ins outs cache pass c (entry c.entry) := by
    refine Yields.turns (Awaits ins outs cache) _ (order_distinct G) ?_
      ⟨fun _ _ => ⟨rfl, rfl⟩, fun X _ => AList.lookup_empty X⟩
      fun _ _ => ⟨fun _ _ => rfl, fun _ _ => rfl, fun _ _ => AList.lookup_empty _, rfl⟩
    intro c before here kept awaits
    have member := separate.mem_order.mp here
    obtain ⟨next, step, visit, spares⟩ :=
      transferComponent_visits (exact.component c member) awaits (valid c member) (start c member)
    refine .inr ⟨next, step, ⟨fun I outside => ?_, fun X outside => ?_⟩, visit, fun d there => ?_⟩
    · have absent : I ∉ c.insts := fun inside =>
        outside (List.mem_flatMap.mpr ⟨c, member, inside⟩)
      rw [spares.ins I absent, spares.outs I absent]
      exact kept.1 I outside
    · have absent : X ∉ c.exits := fun exit => outside (List.mem_flatMap.mpr ⟨c, member, exit⟩)
      rw [spares.exits X absent, kept.2 X outside]
    · have other := separate.mem_order.mp there
      constructor
      · intro different
        obtain ⟨insts, exits⟩ := separate.apart member other different
        exact spares.awaits insts exits different.symm
      · intro different
        obtain ⟨insts, exits⟩ := separate.apart member other different.symm
        exact spares.visit insts exits different (separate.entry_mem other)
  obtain ⟨pass, moved, ⟨frame, exits⟩, visits⟩ := turns.total
  exact ⟨pass, moved, fun c member => visits c (separate.mem_order.mpr member), frame, exits⟩

end

/-! Rounds -/

structure Graph.Solves (M : Module) (f : FuncRef) (G : Graph V) (e : V) (A : InstRef → V) :
    Prop where
  entry : A G.entry ≤ e
  edge : ∀ c ∈ G.components, ∀ d ∈ G.components, ∀ X ∈ d.exits, X ∈ G.sources M f c.entry →
    A c.entry ≤ d.ext (A d.entry) X

structure Ready (G : Graph V) (s : State V) : Prop where
  exits : ∀ X ∈ G.componentExits, X ∈ s.exits
  entries : ∀ c ∈ G.components, c.entry ∈ s.ins
  cache : CacheExact G s.cache
  outside : ∀ I, I ∉ G.insts → s.ins.lookup I = none ∧ s.outs.lookup I = none

/-- A state after at least one round of a transfer from `e`, in which `A` were the entry
values of the components. In a transfer that began with an empty cache all their values
are written. -/
structure After (tr : InstRef → V → V) (M : Module) (f : FuncRef) (G : Graph V) (e : V)
    (fresh : Prop) (s : State V) (A : InstRef → V) : Prop where
  met : ∀ c ∈ G.components,
    A c.entry = G.met M f (valueAt s.oldExits) (valueAt s.oldIns G.entry) c.entry
  entry : ∀ c ∈ G.components, s.ins.lookup c.entry = some (c.val (A c.entry) c.entry)
  exits : ∀ c ∈ G.components, ∀ X ∈ c.exits, s.exits.lookup X = some (c.ext (A c.entry) X)
  cached : ∀ c ∈ G.components, ∃ cached, s.cache.lookup c.entry = some cached ∧
    CachedFor cached c (A c.entry) ∧ (Inside tr s.ins s.outs c (A c.entry) ∨
      Blank s.ins s.outs c ∧ cached.entry = A c.entry)
  written : fresh → ∀ c ∈ G.components, Inside tr s.ins s.outs c (A c.entry)
  outside : ∀ I, I ∉ G.insts → s.ins.lookup I = none ∧ s.outs.lookup I = none
  other_exits : ∀ X, X ∉ G.componentExits → s.exits.lookup X = none
  exits_le : ∀ X ∈ G.componentExits, valueAt s.exits X ≤ valueAt s.oldExits X
  entry_le : valueAt s.ins G.entry ≤ valueAt s.oldIns G.entry
  below : A G.entry ≤ e
  above : ∀ B, G.Solves M f e B → ∀ c ∈ G.components, B c.entry ≤ A c.entry

section

variable {ins outs : Map V} {cache : Cache V} {pass : Graph.Pass V} {c : Component V} {e : V}

theorem Visit.inside_of_none (visit : Visit tr ins outs cache pass c e)
    (absent : cache.lookup c.entry = none) : Inside tr pass.ins pass.outs c e := by
  rcases visit.cached with ⟨cached, -, -, ⟨hit, -⟩ | ⟨-, inside⟩⟩
  · rw [absent] at hit
    cases hit
  · exact inside

/-- What is written inside a component stays right: a cached entry value is one that the
component does not tell from the value it was transferred from. -/
theorem Visit.inside_of_cached (exact : c.Exact tr M f) (visit : Visit tr ins outs cache pass c e)
    {cached : CacheEntry V} {a : V} (found : cache.lookup c.entry = some cached)
    (valid : CachedFor cached c a) (inside : Inside tr ins outs c a) :
    Inside tr pass.ins pass.outs c e := by
  rcases visit.cached with ⟨cached', -, -, ⟨hit, equal, keptIns, keptOuts⟩ | ⟨-, computed⟩⟩
  · obtain rfl := Option.some.inj (found.symm.trans hit)
    have same := exact.again a
    rw [← valid.entry, equal] at same
    constructor
    · intro I here inner
      rw [keptIns I here inner, inside.ins I here inner, same.val I here]
    · intro I here
      rw [keptOuts I here, inside.outs I here, same.val I here]
  · exact computed

theorem Visit.cached_of_blank (visit : Visit tr ins outs cache pass c e)
    (blank : Blank ins outs c) : ∃ cached, pass.cache.lookup c.entry = some cached ∧
      CachedFor cached c e ∧ (Inside tr pass.ins pass.outs c e ∨
        Blank pass.ins pass.outs c ∧ cached.entry = e) := by
  rcases visit.cached with ⟨cached, found, valid, ⟨-, equal, keptIns, keptOuts⟩ | ⟨-, inside⟩⟩
  · refine ⟨cached, found, valid, .inr ⟨⟨?_, ?_⟩, equal⟩⟩
    · intro I here inner
      rw [keptIns I here inner, blank.ins I here inner]
    · intro I here
      rw [keptOuts I here, blank.outs I here]
  · exact ⟨cached, found, valid, .inl inside⟩

end

section Round

variable {G : Graph V} {s : State V} {e : V} {fresh : Prop} {A : InstRef → V}

theorem After.ready (after : After tr M f G e fresh s A) : Ready G s := by
  refine ⟨?_, ?_, ?_, after.outside⟩
  · intro X exit
    rcases List.mem_flatMap.mp exit with ⟨c, member, exit⟩
    exact mem_of_lookup (after.exits c member X exit)
  · intro c member
    exact mem_of_lookup (after.entry c member)
  · intro c member cached found
    rcases after.cached c member with ⟨cached', found', valid, -⟩
    exact ⟨_, Option.some.inj (found'.symm.trans found) ▸ valid⟩

theorem After.exit_value (after : After tr M f G e fresh s A) (member : c ∈ G.components)
    {X : InstRef} (exit : X ∈ c.exits) : valueAt s.exits X = c.ext (A c.entry) X :=
  valueAt_of_lookup (after.exits c member X exit)

theorem After.entry_value (exact : G.Exact tr M f) (after : After tr M f G e fresh s A) :
    valueAt s.ins G.entry = A G.entry := by
  rcases exact.entry with ⟨c, member, atEntry⟩
  have found := after.entry c member
  rw [exact.entry_plain c member atEntry, atEntry] at found
  exact valueAt_of_lookup found

theorem After.descends (exact : G.Exact tr M f) (after : After tr M f G e fresh s A)
    (member : c ∈ G.components) :
    G.met M f (valueAt s.exits) (valueAt s.ins G.entry) c.entry ≤ A c.entry := by
  rw [after.met c member]
  exact Graph.met_mono after.entry_le fun X source =>
    after.exits_le X (exact.sources_mem member source)

variable [DecidableEq V]

/-- A round visits every component with the meet of what leads to it. -/
theorem round_visits_all (exact : G.Exact tr M f) (ready : Ready G s) :
    ∃ t, G.round (latticeContext tr) M f s = some t ∧
      t.oldIns = s.ins ∧ t.oldOuts = s.outs ∧ t.oldExits = s.exits ∧
      (∀ c ∈ G.components, Visit tr s.ins s.outs s.cache ⟨t.ins, t.outs, t.exits, t.cache⟩ c
        (G.met M f (valueAt s.exits) (valueAt s.ins G.entry) c.entry)) ∧
      (∀ I, I ∉ G.insts → t.ins.lookup I = none ∧ t.outs.lookup I = none) ∧
      (∀ X, X ∉ G.componentExits → t.exits.lookup X = none) ∧
      valueAt t.ins G.entry ≤ valueAt s.ins G.entry := by
  rcases meetOnce_eq exact ready.exits ready.entries with ⟨ins, meets, values, frame⟩
  rcases transferOnce_visits exact ready.cache values with
    ⟨pass, transfers, visits, outside, exits⟩
  refine ⟨⟨pass.ins, pass.outs, pass.exits, s.ins, s.outs, s.exits, pass.cache⟩, ?_, rfl, rfl, rfl,
    ?_, ?_, exits, ?_⟩
  · rw [Graph.round, meets, Option.bind_some, transfers, Option.map_some]
  · intro c member
    have visit := visits c member
    refine ⟨visit.entry, visit.exits, ?_⟩
    rcases visit.cached with ⟨cached, found, valid, ⟨hit, equal, keptIns, keptOuts⟩ | computed⟩
    · refine ⟨cached, found, valid, .inl ⟨hit, equal, ?_, keptOuts⟩⟩
      intro I here inner
      rw [keptIns I here inner]
      exact frame I fun d other => exact.separate.inner member here inner other
    · exact ⟨cached, found, valid, .inr computed⟩
  · intro I absent
    have own (c : Component V) (member : c ∈ G.components) : c.entry ≠ I := fun same =>
      absent (same ▸ exact.separate.entry_insts member)
    rw [(outside I absent).1, (outside I absent).2, frame I own]
    exact ready.outside I absent
  · obtain ⟨c, member, atEntry⟩ := exact.entry
    have found := (visits c member).entry
    rw [exact.entry_plain c member atEntry, atEntry] at found
    rw [valueAt_of_lookup found]
    exact (Graph.le_met.mp le_rfl).1 rfl

omit [SemilatticeInf V] [OrderTop V] in
theorem sameMap_of_lookup {a b : Map V} (same : ∀ I, a.lookup I = b.lookup I) :
    sameMap a b = true := by
  simp [sameMap, same]

theorem After.stable (after : After tr M f G e fresh s A) {t : State V}
    (oldIns : t.oldIns = s.ins) (oldOuts : t.oldOuts = s.outs) (oldExits : t.oldExits = s.exits)
    (visits : ∀ c ∈ G.components,
      Visit tr s.ins s.outs s.cache ⟨t.ins, t.outs, t.exits, t.cache⟩ c (A c.entry))
    (outside : ∀ I, I ∉ G.insts → t.ins.lookup I = none ∧ t.outs.lookup I = none)
    (others : ∀ X, X ∉ G.componentExits → t.exits.lookup X = none) : Graph.stable t = true := by
  have inside (c : Component V) (member : c ∈ G.components) :
      (∀ I ∈ c.insts, I ≠ c.entry → t.ins.lookup I = s.ins.lookup I) ∧
      ∀ I ∈ c.insts, t.outs.lookup I = s.outs.lookup I := by
    rcases (visits c member).cached with ⟨-, -, -, ⟨-, -, keptIns, keptOuts⟩ | ⟨misses, computed⟩⟩
    · exact ⟨keptIns, keptOuts⟩
    · rcases after.cached c member with ⟨cached, found, -, before | ⟨-, equal⟩⟩
      · refine ⟨fun I here inner => ?_, fun I here => ?_⟩
        · rw [before.ins I here inner]
          exact computed.ins I here inner
        · rw [before.outs I here]
          exact computed.outs I here
      · exact absurd equal (misses cached found)
  have ins (I : InstRef) : t.ins.lookup I = s.ins.lookup I := by
    by_cases absent : I ∈ G.insts
    · rcases List.mem_flatMap.mp absent with ⟨c, member, here⟩
      by_cases atEntry : I = c.entry
      · rw [atEntry, after.entry c member]
        exact (visits c member).entry
      · exact (inside c member).1 I here atEntry
    · rw [(outside I absent).1, (after.outside I absent).1]
  have outs (I : InstRef) : t.outs.lookup I = s.outs.lookup I := by
    by_cases absent : I ∈ G.insts
    · rcases List.mem_flatMap.mp absent with ⟨c, member, here⟩
      exact (inside c member).2 I here
    · rw [(outside I absent).2, (after.outside I absent).2]
  have exits (X : InstRef) : t.exits.lookup X = s.exits.lookup X := by
    by_cases absent : X ∈ G.componentExits
    · rcases List.mem_flatMap.mp absent with ⟨c, member, here⟩
      rw [after.exits c member X here]
      exact (visits c member).exits X here
    · rw [others X absent, after.other_exits X absent]
  rw [Graph.stable, oldIns, oldOuts, oldExits, sameMap_of_lookup ins, sameMap_of_lookup outs,
    sameMap_of_lookup exits]
  rfl

theorem After.round (exact : G.Exact tr M f) (after : After tr M f G e fresh s A) :
    ∃ t, G.round (latticeContext tr) M f s = some t ∧
      After tr M f G e fresh t (G.met M f (valueAt s.exits) (valueAt s.ins G.entry)) ∧
      ((∀ c ∈ G.components,
          G.met M f (valueAt s.exits) (valueAt s.ins G.entry) c.entry = A c.entry) →
        Graph.stable t = true) := by
  rcases round_visits_all exact after.ready with
    ⟨t, moved, oldIns, oldOuts, oldExits, visits, outside, others, entry_le⟩
  have exit_le (c : Component V) (member : c ∈ G.components) (X : InstRef) (exit : X ∈ c.exits) :
      valueAt t.exits X ≤ valueAt s.exits X := by
    rw [valueAt_of_lookup ((visits c member).exits X exit), after.exit_value member exit]
    exact (exact.component c member).ext_mono exit (after.descends exact member)
  refine ⟨t, moved, ?_, ?_⟩
  · refine ⟨?_, fun c member => (visits c member).entry, fun c member => (visits c member).exits,
      ?_, ?_, outside, others, ?_, ?_, ?_, ?_⟩
    · rw [oldIns, oldExits]
      exact fun _ _ => rfl
    · intro c member
      rcases after.cached c member with ⟨cached, found, valid, inside | ⟨blank, -⟩⟩
      · rcases (visits c member).cached with ⟨cached', found', valid', -⟩
        exact ⟨cached', found', valid',
          .inl ((visits c member).inside_of_cached (exact.component c member) found valid inside)⟩
      · exact (visits c member).cached_of_blank blank
    · intro isFresh c member
      rcases after.cached c member with ⟨cached, found, valid, -⟩
      exact (visits c member).inside_of_cached (exact.component c member) found valid
        (after.written isFresh c member)
    · intro X exit
      rcases List.mem_flatMap.mp exit with ⟨c, member, exit⟩
      rw [oldExits]
      exact exit_le c member X exit
    · rwa [oldIns]
    · have entered := after.below
      rw [← after.entry_value exact] at entered
      exact ((Graph.le_met.mp le_rfl).1 rfl).trans entered
    · intro B solves c member
      refine Graph.le_met.mpr ⟨?_, ?_⟩
      · intro atEntry
        rw [after.entry_value exact, ← atEntry]
        exact after.above B solves c member
      · intro X source
        rcases List.mem_flatMap.mp (exact.sources_mem member source) with ⟨d, other, exit⟩
        rw [after.exit_value other exit]
        exact (solves.edge c member d other X exit source).trans
          ((exact.component d other).ext_mono exit (after.above B solves d other))
  · intro same
    refine after.stable oldIns oldOuts oldExits ?_ outside others
    intro c member
    rw [← same c member]
    exact visits c member

/-- Where the rounds stop, the entry values are a solution. -/
theorem After.solves (after : After tr M f G e fresh s A)
    (stable : Graph.stable s = true) : G.Solves M f e A := by
  simp only [Graph.stable, Bool.and_eq_true] at stable
  refine ⟨after.below, ?_⟩
  intro c member d other X exit source
  have same : valueAt s.exits X = valueAt s.oldExits X := by
    rw [valueAt, valueAt, sameMap_lookup stable.2]
  rw [← after.exit_value other exit, same, after.met c member]
  exact (Graph.le_met.mp le_rfl).2 X source

/-- The rounds stop: as long as they change something, some entry value descends. -/
theorem After.iterate [Finite V] (exact : G.Exact tr M f) (after : After tr M f G e fresh s A)
    {fuel : Nat} (enough : potential (G.components.map (·.entry)) A + 2 ≤ fuel) :
    ∃ t B, G.iterate (latticeContext tr) M f fuel s = some t ∧ After tr M f G e fresh t B ∧
      Graph.stable t = true := by
  induction fuel generalizing s A with
  | zero => omega
  | succ fuel ih =>
    rw [Graph.iterate]
    by_cases stable : Graph.stable s = true
    · exact ⟨s, A, if_pos stable, after, stable⟩
    · rw [if_neg stable]
      rcases after.round exact with ⟨t, moved, next, stops⟩
      rw [moved, Option.bind_some]
      by_cases same : ∀ c ∈ G.components,
          G.met M f (valueAt s.exits) (valueAt s.ins G.entry) c.entry = A c.entry
      · refine ⟨t, _, ?_, next, stops same⟩
        obtain ⟨fuel, rfl⟩ := Nat.exists_eq_add_of_le' (show 1 ≤ fuel by omega)
        rw [Graph.iterate, if_pos (stops same)]
      · push Not at same
        rcases same with ⟨c, member, changes⟩
        have below : ∀ I ∈ G.components.map (·.entry),
            G.met M f (valueAt s.exits) (valueAt s.ins G.entry) I ≤ A I := by
          intro I here
          rcases List.mem_map.mp here with ⟨d, other, rfl⟩
          exact after.descends exact other
        have less := potential_lt below (List.mem_map_of_mem member) changes
        exact ih next (by omega)

end Round

/-! Transfers of a graph -/

section

variable {G : Graph V} {cache : Cache V} {e : V}

theorem initial_ins (G : Graph V) (cache : Cache V) (e : V) (I : InstRef) :
    (G.initial (latticeContext tr) e cache).ins.lookup I =
      if I = G.entry then some e else if I ∈ G.insts then some ⊤ else none := by
  simp [Graph.initial, Graph.constantMap, lookup_insert, lookup_foldl_insert, latticeContext]

theorem initial_outs (G : Graph V) (cache : Cache V) (e : V) (I : InstRef) :
    (G.initial (latticeContext tr) e cache).outs.lookup I =
      if I ∈ G.insts then some ⊤ else none := by
  simp [Graph.initial, Graph.constantMap, lookup_foldl_insert, latticeContext]

theorem initial_exits (G : Graph V) (cache : Cache V) (e : V) (X : InstRef) :
    (G.initial (latticeContext tr) e cache).exits.lookup X =
      if X ∈ G.componentExits then some ⊤ else none := by
  simp [Graph.initial, Graph.constantMap, lookup_foldl_insert, latticeContext]

theorem Graph.Exact.entry_insts (exact : G.Exact tr M f) : G.entry ∈ G.insts := by
  rcases exact.entry with ⟨c, member, atEntry⟩
  exact atEntry ▸ exact.separate.entry_insts member

theorem initial_ready (exact : G.Exact tr M f) (valid : CacheExact G cache) (e : V) :
    Ready G (G.initial (latticeContext tr) e cache) := by
  refine ⟨?_, ?_, valid, ?_⟩
  · intro X exit
    exact mem_of_lookup ((initial_exits G cache e X).trans (if_pos exit))
  · intro c member
    rw [← AList.lookup_isSome, initial_ins, if_pos (exact.separate.entry_insts member)]
    split
    · rfl
    · rfl
  · intro I outside
    have inner : I ≠ G.entry := fun same => outside (same ▸ exact.entry_insts)
    rw [initial_ins, initial_outs, if_neg inner, if_neg outside]
    exact ⟨rfl, rfl⟩

theorem initial_blank (exact : G.Exact tr M f) (member : c ∈ G.components) :
    Blank (G.initial (latticeContext tr) e cache).ins (G.initial (latticeContext tr) e cache).outs
      c := by
  have inside (I : InstRef) (here : I ∈ c.insts) : I ∈ G.insts :=
    List.mem_flatMap.mpr ⟨c, member, here⟩
  constructor
  · intro I here inner
    have other : I ≠ G.entry := by
      obtain ⟨d, present, atEntry⟩ := exact.entry
      rw [← atEntry]
      exact (exact.separate.inner member here inner present).symm
    rw [initial_ins, if_neg other, if_pos (inside I here)]
  · intro I here
    rw [initial_outs, if_pos (inside I here)]

variable [DecidableEq V]

theorem initial_round (exact : G.Exact tr M f) (valid : CacheExact G cache) {fresh : Prop}
    (empty : fresh → ∀ c ∈ G.components, cache.lookup c.entry = none) :
    ∃ t A, G.round (latticeContext tr) M f (G.initial (latticeContext tr) e cache) = some t ∧
      After tr M f G e fresh t A := by
  rcases round_visits_all exact (initial_ready exact valid e) with
    ⟨t, moved, oldIns, oldOuts, oldExits, visits, outside, others, entry_le⟩
  have top (X : InstRef) : valueAt (G.initial (latticeContext tr) e cache).exits X = ⊤ := by
    rw [valueAt, initial_exits]
    split
    · rfl
    · rfl
  have start : valueAt (G.initial (latticeContext tr) e cache).ins G.entry = e := by
    rw [valueAt, initial_ins, if_pos rfl, Option.getD_some]
  refine ⟨t, _, moved, ?_, fun c member => (visits c member).entry,
    fun c member => (visits c member).exits,
    fun c member => (visits c member).cached_of_blank (initial_blank exact member), ?_, outside,
    others, ?_, ?_, ?_, ?_⟩
  · rw [oldIns, oldExits]
    exact fun _ _ => rfl
  · intro isFresh c member
    exact (visits c member).inside_of_none (empty isFresh c member)
  · intro X _
    rw [oldExits, top]
    exact le_top
  · rwa [oldIns]
  · exact ((Graph.le_met.mp le_rfl).1 rfl).trans start.le
  · intro B solves c member
    refine Graph.le_met.mpr ⟨?_, ?_⟩
    · intro atEntry
      rw [start, atEntry]
      exact solves.entry
    · intro X _
      rw [top]
      exact le_top

end

/-- What a transfer of a graph from `e` computes: the greatest entry values of its
components that the edges allow, and from them all other values. -/
structure Outcome (tr : InstRef → V → V) (M : Module) (f : FuncRef) (G : Graph V) (e : V)
    (fresh : Prop) (r : Values V) (A : InstRef → V) : Prop where
  solves : G.Solves M f e A
  greatest : ∀ B, G.Solves M f e B → ∀ c ∈ G.components, B c.entry ≤ A c.entry
  inside : fresh → ∀ c ∈ G.components, ∀ I ∈ c.insts,
    r.ins.lookup I = some (c.val (A c.entry) I) ∧
      r.outs.lookup I = some (tr I (c.val (A c.entry) I))
  outside : ∀ I, I ∉ G.insts → r.ins.lookup I = none ∧ r.outs.lookup I = none
  exits : ∀ X ∈ G.exits, ∀ c ∈ G.components, X ∈ c.exits →
    r.exits.lookup X = some (c.ext (A c.entry) X)
  other_exits : ∀ X, X ∉ G.exits → r.exits.lookup X = none

/-- With enough fuel a transfer gives a result, and it is the right one. -/
theorem Graph.Exact.transfer [DecidableEq V] [Finite V] {G : Graph V} (exact : G.Exact tr M f)
    {cache : Cache V} (valid : CacheExact G cache) (e : V) {fresh : Prop}
    (empty : fresh → ∀ c ∈ G.components, cache.lookup c.entry = none) {fuel : Nat}
    (enough : G.components.length * Nat.card V + 3 ≤ fuel) :
    ∃ r cache' A, G.transfer (latticeContext tr) M f fuel e cache = some (r, cache') ∧
      CacheExact G cache' ∧ Outcome tr M f G e fresh r A := by
  rcases initial_round exact valid empty with ⟨s, B, first, after⟩
  obtain ⟨fuel, rfl⟩ := Nat.exists_eq_add_of_le' (show 1 ≤ fuel by omega)
  have few := potential_le_card (G.components.map (·.entry)) B
  rw [List.length_map] at few
  have left : potential (G.components.map (·.entry)) B + 2 ≤ fuel := by omega
  rcases after.iterate exact left with ⟨t, A, stops, ends, stable⟩
  have unstable : Graph.stable (G.initial (latticeContext tr) e cache) = false :=
    initial_not_stable G e cache
  have moved : ∃ r, G.transfer (latticeContext tr) M f (fuel + 1) e cache = some (r, t.cache) ∧
      r.ins = t.ins ∧ r.outs = t.outs ∧
      ∀ X, r.exits.lookup X = if X ∈ G.exits then t.exits.lookup X else none := by
    rw [Graph.transfer, Graph.iterate, unstable, if_neg Bool.false_ne_true, first, Option.bind_some,
      stops, Option.map_some]
    exact ⟨_, rfl, rfl, rfl, lookup_handedOn G.exits t.exits⟩
  rcases moved with ⟨r, moved, ins, outs, exits⟩
  refine ⟨r, _, A, moved, ends.ready.cache, ends.solves stable, ends.above, ?_, ?_, ?_, ?_⟩
  · intro isFresh c member I here
    have inside := ends.written isFresh c member
    rw [ins, outs]
    refine ⟨?_, inside.outs I here⟩
    by_cases atEntry : I = c.entry
    · rw [atEntry, ends.entry c member]
    · exact inside.ins I here atEntry
  · rw [ins, outs]
    exact ends.outside
  · intro X wanted c member exit
    rw [exits, if_pos wanted, ends.exits c member X exit]
  · intro X unwanted
    rw [exits, if_neg unwanted]

end Clou.Dataflow
