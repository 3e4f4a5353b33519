import Clou.Prune
import Clou.Sweep

/-! Which nodes a node depends on through its references, computed in two ways: along program order,
and node by node. -/

namespace Clou.Dependencies

abbrev NodeRefMap := SetMap NodeRef NodeRef

section

variable (order : Cfg.HashOrder) (cfg : Cfg)

def plusAssign (a b : NodeRefMap) : NodeRefMap := if a.entries.isEmpty then b else SetMap.unite a b

def refRefs (node : Cfg.Node) (dst : NodeRef) : List NodeRef :=
  node.refs.entries.flatMap fun pair => order.elements dst pair.2

def addRef (dst : NodeRef) (map : NodeRefMap) (ref : NodeRef) : Option NodeRefMap :=
  let map := SetMap.add map dst {ref}
  (map.lookup ref).map (SetMap.add map dst)

def addRefs (dst : NodeRef) (map : NodeRefMap) : Option NodeRefMap := do
  let node ← cfg.nodes[dst]?
  (refRefs order node dst).foldlM (addRef dst) (SetMap.add map dst ∅)

def collectInputs (outs : AList (fun _ : NodeRef => NodeRefMap)) (srcs : List NodeRef) :
    Option NodeRefMap :=
  srcs.foldlM (fun ins src => (outs.lookup src).map (plusAssign ins)) ∅

def dependenciesStep (outs : AList (fun _ : NodeRef => NodeRefMap)) (dst : NodeRef) :
    Option (AList (fun _ : NodeRef => NodeRefMap)) := do
  let srcs ← cfg.po.rev.lookup dst
  let ins ← collectInputs outs srcs
  let out ← addRefs order cfg dst ins
  some (outs.insert dst out)

def constructDependencies : Option NodeRefMap := do
  let outs ← cfg.reversePostorder.foldlM (dependenciesStep order cfg) ∅
  some (outs.entries.foldl (fun res out => plusAssign res out.2) ∅)

def constructDependencies2 : Option NodeRefMap :=
  cfg.reversePostorder.foldlM (fun map dst => addRefs order cfg dst map) ∅

end

def Refers (cfg : Cfg) (n m : NodeRef) : Prop :=
  ∃ node, cfg.nodes[n]? = some node ∧ ∃ V, m ∈ SetMap.get node.refs V

def RefersBack (cfg : Cfg) : Prop :=
  ∀ {n m}, Refers cfg n m → Relation.TransGen cfg.po.Edge m n

section Spec

variable {order : Cfg.HashOrder} {cfg : Cfg} {map : NodeRefMap}

structure Exact (cfg : Cfg) (keys : NodeRef → Prop) (map : NodeRefMap) : Prop where
  mem : ∀ n, n ∈ map ↔ keys n
  closure : ∀ {n}, keys n → ∀ m, m ∈ SetMap.get map n ↔ Relation.TransGen (Refers cfg) n m

theorem exact_empty : Exact cfg (fun _ => False) ∅ where
  mem n := iff_of_false (AList.notMem_empty n) id
  closure none := none.elim

variable {dst n m : NodeRef} {K : NodeRef → Prop}

theorem addRefs_keys {map' : NodeRefMap} (added : addRefs order cfg dst map = some map')
    (listed : n = dst ∨ n ∈ map) : n ∈ map' := by
  rcases Option.bind_eq_some_iff.mp added with ⟨node, -, folded⟩
  apply foldlM_invariant (motive := fun map => n ∈ map) _ _ folded
  · intro map map' ref _ member stepped
    rcases Option.map_eq_some_iff.mp stepped with ⟨set, -, rfl⟩
    rw [SetMap.mem_add, SetMap.mem_add]
    exact .inr (.inr member)
  · rwa [SetMap.mem_add]

theorem constructDependencies2_keys (computed : constructDependencies2 order cfg = some map)
    (bound : n < cfg.size) : n ∈ map := by
  have general : ∀ (refs : List NodeRef) (start : NodeRefMap),
      refs.foldlM (fun map dst => addRefs order cfg dst map) start = some map →
      n ∈ refs ∨ n ∈ start → n ∈ map := by
    intro refs
    induction refs with
    | nil =>
      rintro start folded (none | member)
      · cases none
      · cases folded
        exact member
    | cons dst refs ih =>
      intro start folded listed
      rcases foldlM_cons_eq_some.mp folded with ⟨next, added, later⟩
      rw [List.mem_cons, or_right_comm] at listed
      exact ih next later (listed.symm.imp_right (addRefs_keys added))
  exact general _ ∅ computed (.inl (List.mem_range.mpr bound))

theorem mem_refRefs {node : Cfg.Node} :
    m ∈ refRefs order node dst ↔ ∃ V, m ∈ SetMap.get node.refs V := by
  simp only [refRefs, List.mem_flatMap, Cfg.HashOrder.mem_elements, SetMap.mem_get_iff]
  constructor
  · rintro ⟨pair, listed, member⟩
    exact ⟨pair.1, pair.2, listed, member⟩
  · rintro ⟨V, set, listed, member⟩
    exact ⟨⟨V, set⟩, listed, member⟩

theorem Exact.plusAssign {L : NodeRef → Prop} {a b : NodeRefMap} (left : Exact cfg K a)
    (right : Exact cfg L b) : Exact cfg (fun n => K n ∨ L n) (plusAssign a b) := by
  unfold Dependencies.plusAssign
  split
  · rename_i empty
    have none (n : NodeRef) : ¬ K n := by
      rw [← left.mem]
      exact (SetMap.entries_eq_nil_iff a).mp (List.isEmpty_iff.mp empty) n
    exact ⟨fun n => by rw [right.mem, or_iff_right (none n)],
      fun either => right.closure (either.resolve_left (none _))⟩
  · refine ⟨fun n => by rw [SetMap.mem_unite, left.mem, right.mem], fun {n} either m => ?_⟩
    rw [SetMap.mem_get_unite]
    have absent {K : NodeRef → Prop} {c : NodeRefMap} (exact' : Exact cfg K c) (other : ¬ K n) :
        m ∉ SetMap.get c n := by
      rw [SetMap.get_of_notMem fun member => other ((exact'.mem n).mp member)]
      exact Finset.notMem_empty m
    by_cases first : K n
    · by_cases second : L n
      · rw [left.closure first, right.closure second, or_self]
      · rw [left.closure first, or_iff_left (absent right second)]
    · rw [right.closure (either.resolve_left first), or_iff_right (absent left first)]

theorem addRef_spec {ref : NodeRef} (different : ref ≠ dst) (known : ref ∈ map) :
    ∃ map', addRef dst map ref = some map' ∧ (∀ n, n ∈ map' ↔ n = dst ∨ n ∈ map) ∧
      ∀ n m, m ∈ SetMap.get map' n ↔
        m ∈ SetMap.get map n ∨ n = dst ∧ (m = ref ∨ m ∈ SetMap.get map ref) := by
  have listed : ref ∈ SetMap.add map dst {ref} := (SetMap.mem_add ..).mpr (.inr known)
  rcases FiniteMap.exists_of_mem listed with ⟨set, found⟩
  have same (m : NodeRef) : m ∈ set ↔ m ∈ SetMap.get map ref := by
    have whole : m ∈ SetMap.get (SetMap.add map dst {ref}) ref ↔ m ∈ set := by
      rw [SetMap.get, found, Option.getD_some]
    rw [← whole, SetMap.mem_get_add, or_iff_left fun both => different both.1]
  refine ⟨SetMap.add (SetMap.add map dst {ref}) dst set, ?_, fun n => ?_, fun n m => ?_⟩
  · change (AList.lookup ref (SetMap.add map dst {ref})).map _ = _
    rw [found, Option.map_some]
  · rw [SetMap.mem_add, SetMap.mem_add, ← or_assoc, or_self]
  · rw [SetMap.mem_get_add, SetMap.mem_get_add, Finset.mem_singleton, same, or_assoc, ← and_or_left]

theorem foldlM_addRef {refs : List NodeRef} (different : ∀ r ∈ refs, r ≠ dst)
    (known : ∀ r ∈ refs, r ∈ map) :
    ∃ map', refs.foldlM (addRef dst) map = some map' ∧ (∀ n, n ≠ dst → (n ∈ map' ↔ n ∈ map)) ∧
      (dst ∈ map → dst ∈ map') ∧
      ∀ n m, m ∈ SetMap.get map' n ↔
        m ∈ SetMap.get map n ∨ n = dst ∧ ∃ r ∈ refs, m = r ∨ m ∈ SetMap.get map r := by
  induction refs generalizing map with
  | nil => exact ⟨map, rfl, fun _ _ => Iff.rfl, id, fun n m => by simp⟩
  | cons ref refs ih =>
    rcases List.forall_mem_cons.mp different with ⟨first, others⟩
    rcases List.forall_mem_cons.mp known with ⟨listed, later⟩
    rcases addRef_spec first listed with ⟨next, stepped, keys, sets⟩
    rcases ih others fun r member => (keys r).mpr (.inr (later r member)) with
      ⟨map', folded, keys', kept, sets'⟩
    refine ⟨map', foldlM_cons_eq_some.mpr ⟨next, stepped, folded⟩, fun n other => ?_, fun here => ?_,
      fun n m => ?_⟩
    · rw [keys' n other, keys, or_iff_right other]
    · exact kept ((keys dst).mpr (.inl rfl))
    · -- the sets of the references are not touched, for they are sets of other nodes
      have same : ∀ r ∈ refs, (m ∈ SetMap.get next r ↔ m ∈ SetMap.get map r) := by
        intro r member
        rw [sets, or_iff_left fun both => others r member both.1]
      rw [sets', sets, or_assoc, ← and_or_left, List.exists_mem_cons_iff]
      apply or_congr_right
      apply and_congr_right
      intro _
      apply or_congr_right
      exact exists_congr fun r => and_congr_right fun member => or_congr_right (same r member)

/-- The closure of a node is made of its references and of their closures. -/
theorem transGen_refers_iff : Relation.TransGen (Refers cfg) n m ↔
    ∃ r, Refers cfg n r ∧ (m = r ∨ Relation.TransGen (Refers cfg) r m) := by
  rw [Relation.TransGen.head'_iff]
  exact exists_congr fun r => and_congr_right fun _ => Relation.reflTransGen_iff_eq_or_transGen

/-- A node whose references have their closures gets its own. -/
theorem Exact.addRefs (known : Exact cfg K map) (bound : dst < cfg.size) (fresh : ¬ K dst)
    (listed : ∀ r, Refers cfg dst r → K r) :
    ∃ map', addRefs order cfg dst map = some map' ∧ Exact cfg (fun n => K n ∨ n = dst) map' := by
  have here : cfg.nodes[dst]? = some cfg.nodes[dst] := List.getElem?_eq_getElem bound
  have refers (r : NodeRef) : r ∈ refRefs order cfg.nodes[dst] dst ↔ Refers cfg dst r := by
    rw [mem_refRefs, Refers, here]
    simp
  have absent : SetMap.get map dst = ∅ :=
    SetMap.get_of_notMem fun member => fresh ((known.mem dst).mp member)
  have start (n m : NodeRef) : m ∈ SetMap.get (SetMap.add map dst ∅) n ↔ m ∈ SetMap.get map n := by
    simp [SetMap.mem_get_add]
  have keys (n : NodeRef) : n ∈ SetMap.add map dst ∅ ↔ n = dst ∨ K n := by
    rw [SetMap.mem_add, known.mem]
  have inside : ∀ r ∈ refRefs order cfg.nodes[dst] dst, K r := fun r member =>
    listed r ((refers r).mp member)
  have apart : ∀ r ∈ refRefs order cfg.nodes[dst] dst, r ≠ dst := fun r member same =>
    fresh (same ▸ inside r member)
  rcases foldlM_addRef apart
    (fun r member => (keys r).mpr (.inr (inside r member))) with ⟨map', folded, others, kept, sets⟩
  refine ⟨map', ?_, fun n => ?_, fun {n} key m => ?_⟩
  · rw [Dependencies.addRefs, here]
    exact folded
  · by_cases same : n = dst
    · subst same
      exact iff_of_true (kept ((keys n).mpr (.inl rfl))) (.inr rfl)
    · rw [others n same, keys, or_comm]
  · rw [sets, start]
    by_cases same : n = dst
    · subst same
      rw [absent, transGen_refers_iff, or_iff_right (Finset.notMem_empty m), and_iff_right rfl]
      apply exists_congr
      intro r
      rw [refers]
      apply and_congr_right
      intro ref
      rw [start, known.closure (listed r ref)]
    · rw [or_iff_left fun both => same both.1, known.closure (key.resolve_right same)]

theorem Exact.congr {L : NodeRef → Prop} (known : Exact cfg K map) (same : ∀ n, K n ↔ L n) :
    Exact cfg L map :=
  ⟨fun n => (known.mem n).trans (same n), fun key => known.closure ((same _).mpr key)⟩

/-- Maps with the closures of the same nodes do not differ. -/
theorem Exact.lookup_eq {map' : NodeRefMap} (left : Exact cfg K map) (right : Exact cfg K map')
    (n : NodeRef) : map.lookup n = map'.lookup n := by
  by_cases key : K n
  · rcases FiniteMap.exists_of_mem ((left.mem n).mpr key) with ⟨set, found⟩
    rcases FiniteMap.exists_of_mem ((right.mem n).mpr key) with ⟨set', found'⟩
    have same : set = set' := by
      ext m
      have first := left.closure key m
      have second := right.closure key m
      rw [SetMap.get, found, Option.getD_some] at first
      rw [SetMap.get, found', Option.getD_some] at second
      rw [first, second]
    rw [found, found', same]
  · rw [AList.lookup_eq_none.mpr fun member => key ((left.mem n).mp member),
      AList.lookup_eq_none.mpr fun member => key ((right.mem n).mp member)]

variable {outs : AList (fun _ : NodeRef => NodeRefMap)} {L : NodeRef → NodeRef → Prop}

theorem collectInputs_exact {srcs : List NodeRef}
    (known : ∀ s ∈ srcs, ∃ out, outs.lookup s = some out ∧ Exact cfg (L s) out) :
    ∃ ins, collectInputs outs srcs = some ins ∧ Exact cfg (fun n => ∃ s ∈ srcs, L s n) ins := by
  have general {K : NodeRef → Prop} {ins : NodeRefMap} (start : Exact cfg K ins) :
      ∃ ins', srcs.foldlM (fun ins src => (outs.lookup src).map (Dependencies.plusAssign ins)) ins =
        some ins' ∧ Exact cfg (fun n => K n ∨ ∃ s ∈ srcs, L s n) ins' := by
    induction srcs generalizing K ins with
    | nil => exact ⟨ins, rfl, start.congr fun n => by simp⟩
    | cons src srcs ih =>
      rcases List.forall_mem_cons.mp known with ⟨⟨out, found, first⟩, later⟩
      rcases ih later (start.plusAssign first) with ⟨ins', folded, result⟩
      refine ⟨ins', foldlM_cons_eq_some.mpr ⟨_, by rw [found, Option.map_some], folded⟩, ?_⟩
      exact result.congr fun n => by rw [List.exists_mem_cons_iff, or_assoc]
  rcases general exact_empty with ⟨ins, folded, result⟩
  exact ⟨ins, folded, result.congr fun n => by rw [false_or]⟩

theorem foldl_plusAssign_exact {entries : List (Sigma fun _ : NodeRef => NodeRefMap)}
    (known : ∀ entry ∈ entries, Exact cfg (L entry.1) entry.2) :
    Exact cfg (fun n => ∃ entry ∈ entries, L entry.1 n)
      (entries.foldl (fun res out => plusAssign res out.2) ∅) := by
  have general {K : NodeRef → Prop} {res : NodeRefMap} (start : Exact cfg K res) :
      Exact cfg (fun n => K n ∨ ∃ entry ∈ entries, L entry.1 n)
        (entries.foldl (fun res out => Dependencies.plusAssign res out.2) res) := by
    induction entries generalizing K res with
    | nil => exact start.congr fun n => by simp
    | cons entry entries ih =>
      rcases List.forall_mem_cons.mp known with ⟨first, later⟩
      exact (ih later (start.plusAssign first)).congr fun n => by
        rw [List.exists_mem_cons_iff, or_assoc]
  exact (general exact_empty).congr fun n => by rw [false_or]

variable (wellFormed : cfg.WellFormed) (topological : cfg.Topological) (back : RefersBack cfg)

include topological

theorem lt_of_transGen (path : Relation.TransGen cfg.po.Edge n m) : n < m := by
  induction path with
  | single edge => exact topological.increasing edge
  | tail _ edge ih => exact Nat.lt_trans ih (topological.increasing edge)

theorem le_of_reaches (path : cfg.Reaches n m) : n ≤ m := by
  rcases Relation.reflTransGen_iff_eq_or_transGen.mp path with same | longer
  · exact Nat.le_of_eq same.symm
  · exact Nat.le_of_lt (lt_of_transGen topological longer)

include back

theorem constructDependencies2_exact : ∃ map, constructDependencies2 order cfg = some map ∧
    Exact cfg (· < cfg.size) map := by
  apply Sweep.foldlM_range (motive := fun n map => Exact cfg (· < n) map)
  · intro n map bound known
    rcases known.addRefs bound (Nat.lt_irrefl n) fun r ref => lt_of_transGen topological (back ref) with
      ⟨map', added, result⟩
    exact ⟨map', added, result.congr fun m => Nat.lt_succ_iff_lt_or_eq.symm⟩
  · exact exact_empty.congr fun n => iff_of_false id (Nat.not_lt_zero n)

include wellFormed

/-- What leaves a node are the closures of all nodes that lead to it. -/
theorem dependenciesStep_exact (bound : n < cfg.size)
    (known : ∀ m < n, ∃ out, outs.lookup m = some out ∧ Exact cfg (cfg.Reaches · m) out) :
    ∃ out, dependenciesStep order cfg outs n = some (outs.insert n out) ∧
      Exact cfg (cfg.Reaches · n) out := by
  have earlier : ∀ s ∈ cfg.po.preds n, ∃ out, outs.lookup s = some out ∧ Exact cfg (cfg.Reaches · s) out :=
    fun s pred => known s (topological.increasing (wellFormed.proper.mem_preds.mp pred))
  rcases collectInputs_exact earlier with ⟨ins, collected, inputs⟩
  have fresh : ¬ ∃ s ∈ cfg.po.preds n, cfg.Reaches n s := by
    rintro ⟨s, pred, path⟩
    have less := topological.increasing (wellFormed.proper.mem_preds.mp pred)
    exact Nat.lt_irrefl n (Nat.lt_of_le_of_lt (le_of_reaches topological path) less)
  have listed : ∀ r, Refers cfg n r → ∃ s ∈ cfg.po.preds n, cfg.Reaches r s := by
    intro r ref
    rcases Relation.TransGen.tail'_iff.mp (back ref) with ⟨s, path, edge⟩
    exact ⟨s, wellFormed.proper.mem_preds.mpr edge, path⟩
  rcases inputs.addRefs bound fresh listed with ⟨out, added, result⟩
  refine ⟨out, ?_, result.congr fun m => ?_⟩
  · rw [dependenciesStep, wellFormed.lookup_rev bound]
    change Option.bind (collectInputs outs _) _ = _
    rw [collected]
    change Option.bind (Dependencies.addRefs order cfg n ins) _ = _
    rw [added]
    rfl
  · rw [Cfg.Reaches, Relation.ReflTransGen.cases_tail_iff, or_comm, eq_comm]
    apply or_congr_right
    apply exists_congr
    intro s
    rw [wellFormed.proper.mem_preds, and_comm]
    rfl

theorem constructDependencies_exact : ∃ map, constructDependencies order cfg = some map ∧
    Exact cfg (· < cfg.size) map := by
  have run : ∃ outs, cfg.reversePostorder.foldlM (dependenciesStep order cfg) ∅ = some outs ∧
      (∀ m, m ∈ outs ↔ m < cfg.size) ∧
      ∀ m < cfg.size, ∃ out, outs.lookup m = some out ∧ Exact cfg (cfg.Reaches · m) out := by
    apply Sweep.foldlM_range (motive := fun n (outs : AList fun _ : NodeRef => NodeRefMap) =>
      (∀ m, m ∈ outs ↔ m < n) ∧ ∀ m < n, ∃ out, outs.lookup m = some out ∧ Exact cfg (cfg.Reaches · m) out)
    · rintro n outs bound ⟨keys, known⟩
      rcases dependenciesStep_exact wellFormed topological back bound known with ⟨out, stepped, result⟩
      refine ⟨outs.insert n out, stepped, fun m => ?_, fun m smaller => ?_⟩
      · rw [AList.mem_insert, keys, Nat.lt_succ_iff_lt_or_eq, or_comm]
      · rcases Nat.lt_succ_iff_lt_or_eq.mp smaller with old | rfl
        · rw [AList.lookup_insert_ne (Nat.ne_of_lt old)]
          exact known m old
        · exact ⟨out, AList.lookup_insert outs, result⟩
    · exact ⟨fun m => iff_of_false (AList.notMem_empty m) (Nat.not_lt_zero m),
        fun m smaller => absurd smaller (Nat.not_lt_zero m)⟩
  rcases run with ⟨outs, folded, keys, known⟩
  have entries : ∀ entry ∈ outs.entries, entry.1 < cfg.size ∧ Exact cfg (cfg.Reaches · entry.1) entry.2 := by
    intro entry listed
    have found : outs.lookup entry.1 = some entry.2 := AList.mem_lookup_iff.mpr listed
    have bound := (keys entry.1).mp (FiniteMap.mem_of_lookup found)
    rcases known entry.1 bound with ⟨out, found', result⟩
    cases found.symm.trans found'
    exact ⟨bound, result⟩
  have united := foldl_plusAssign_exact (L := fun s n => cfg.Reaches n s)
    fun entry listed => (entries entry listed).2
  refine ⟨_, by rw [constructDependencies, folded]; rfl, united.congr fun n => ?_⟩
  constructor
  · rintro ⟨entry, listed, path⟩
    exact Nat.lt_of_le_of_lt (le_of_reaches topological path) (entries entry listed).1
  · intro bound
    rcases known n bound with ⟨out, found, -⟩
    exact ⟨⟨n, out⟩, AList.mem_lookup_iff.mp found, .refl⟩

/-- Both computations succeed and give the same map, whatever the order of iteration. It has an entry
for each node, with the nodes that one or more references lead to. -/
theorem dependencies_closure (order order' : Cfg.HashOrder) :
    ∃ map map', constructDependencies order cfg = some map ∧
      constructDependencies2 order' cfg = some map' ∧ (∀ n, map.lookup n = map'.lookup n) ∧
      (∀ n, n ∈ map ↔ n < cfg.size) ∧ ∀ n < cfg.size, ∀ m, m ∈ SetMap.get map n ↔
        Relation.TransGen (Refers cfg) n m := by
  rcases constructDependencies_exact wellFormed topological back with ⟨map, computed, known⟩
  rcases constructDependencies2_exact topological back with ⟨map', computed', known'⟩
  exact ⟨map, map', computed, computed', known.lookup_eq known', known.mem, fun n => known.closure⟩

end Spec

def chained : Cfg :=
  .ofEdges [.makeEntry, ⟨.inst ⟨0, 0, 0⟩, none, ∅⟩, ⟨.inst ⟨0, 0, 1⟩, none, SetMap.add ∅ (.inst ⟨0, 0, 0⟩) {1}⟩,
    ⟨.inst ⟨0, 0, 2⟩, none, SetMap.add ∅ (.inst ⟨0, 0, 1⟩) {2}⟩, .makeExit]
    [(0, 1), (1, 2), (2, 3), (3, 4)] 0 [4]

theorem chained_refersBack : RefersBack chained := by
  intro n m refers
  rcases refers with ⟨node, found, V, member⟩
  match n with
  | 0 | 1 | 4 =>
    cases found
    simp [Cfg.Node.makeEntry, Cfg.Node.makeExit] at member
  | 2 =>
    cases found
    obtain ⟨-, rfl⟩ : V = .inst ⟨0, 0, 0⟩ ∧ m = 1 := by simpa [SetMap.mem_get_add] using member
    exact .single (by decide)
  | 3 =>
    cases found
    obtain ⟨-, rfl⟩ : V = .inst ⟨0, 0, 1⟩ ∧ m = 2 := by simpa [SetMap.mem_get_add] using member
    exact .single (by decide)
  | n + 5 => cases found

theorem chained_closure : ∃ map map', constructDependencies .listed chained = some map ∧
    constructDependencies2 .listed chained = some map' ∧ (∀ n, map.lookup n = map'.lookup n) ∧
    (∀ n, n ∈ map ↔ n < chained.size) ∧ ∀ n < chained.size, ∀ m, m ∈ SetMap.get map n ↔
      Relation.TransGen (Refers chained) n m :=
  dependencies_closure (Cfg.wellFormed_ofEdges (by decide))
    (Cfg.topological_ofEdges (by decide) (by decide)) chained_refersBack .listed .listed

end Clou.Dependencies
