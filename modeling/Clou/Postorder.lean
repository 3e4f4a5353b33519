import Clou.Acyclic
import Clou.OptionFold
import Clou.Prune

/-! The postorder of a control-flow graph: nodes are taken from a heap by the number of their
successors that are not yet in the order. -/

namespace Clou.Cfg

open Labelled

structure PostorderState where
  ref2n : List Nat
  heap : List (Nat × NodeRef)
  order : List NodeRef

/-- The heap is a set of pairs, which begins with the least one. -/
def heapBegin : List (Nat × NodeRef) → Option (Nat × NodeRef)
  | [] => none
  | pair :: heap =>
    match heapBegin heap with
    | none => some pair
    | some least =>
      if pair.1 < least.1 ∨ pair.1 = least.1 ∧ pair.2 < least.2 then some pair else some least

/-- A predecessor has one successor less to wait for; the assertion is that it had one. -/
def decrement (s : PostorderState) (pred : NodeRef) : Option PostorderState := do
  let n ← s.ref2n[pred]?
  if n = 0 then none
  else some { s with
    ref2n := s.ref2n.set pred (n - 1)
    heap := (s.heap.erase (n, pred)).insert (n - 1, pred) }

section

variable (cfg : Cfg)

def postorderStep (s : PostorderState) : Option PostorderState :=
  match heapBegin s.heap with
  | none => some s
  | some (n, ref) => do
    if n ≠ 0 then none
    else
      let m ← s.ref2n[ref]?
      if m ≠ 0 then none
      else
        let preds ← cfg.po.rev.lookup ref
        preds.foldlM decrement
          { s with heap := s.heap.erase (n, ref), order := s.order ++ [ref] }

def postorderLoop : Nat → PostorderState → Option PostorderState
  | 0, _ => none
  | fuel + 1, s => if s.heap = [] then some s else (postorderStep cfg s).bind (postorderLoop fuel)

def computePostorder : Option (List NodeRef) := do
  let ref2n ← (List.range cfg.size).mapM fun ref => (cfg.po.fwd.lookup ref).map List.length
  let s ← postorderLoop cfg (cfg.size + 1) ⟨ref2n, ref2n.zipIdx, []⟩
  some s.order

def sort : Option Cfg := do
  let postorder ← cfg.computePostorder
  let order := postorder.reverse
  let po ← renameEdges order (edges cfg.po.fwd) (Binrel.empty.addNodes (List.range order.length))
  let nodes ← order.mapM (cfg.nodes[·]?)
  let entry ← refmap order cfg.entry
  let exits ← cfg.exits.mapM (refmap order)
  some ⟨nodes, po, entry, exits, cfg.translations⟩

end

/-! The heap -/

section

variable {heap : List (Nat × NodeRef)}

theorem heapBegin_mem {pair : Nat × NodeRef} (first : heapBegin heap = some pair) :
    pair ∈ heap := by
  induction heap generalizing pair with
  | nil => cases first
  | cons other heap ih =>
    unfold heapBegin at first
    split at first
    · cases first
      exact List.mem_cons_self
    · rename_i least found
      split at first
      · cases first
        exact List.mem_cons_self
      · cases first
        exact List.mem_cons_of_mem _ (ih found)

theorem heapBegin_le {pair other : Nat × NodeRef} (first : heapBegin heap = some pair)
    (member : other ∈ heap) : pair.1 ≤ other.1 := by
  induction heap generalizing pair with
  | nil => cases member
  | cons head heap ih =>
    unfold heapBegin at first
    split at first
    · rename_i empty
      cases first
      cases heap with
      | nil => rw [List.mem_singleton.mp member]
      | cons next heap =>
        unfold heapBegin at empty
        split at empty
        · cases empty
        · split at empty <;> cases empty
    · rename_i least found
      rcases List.mem_cons.mp member with rfl | later
      · split at first
        · cases first
          exact le_rfl
        · cases first
          omega
      · have below := ih found later
        split at first
        · cases first
          omega
        · cases first
          exact below

theorem heapBegin_none (first : heapBegin heap = none) : heap = [] := by
  cases heap with
  | nil => rfl
  | cons pair heap =>
    unfold heapBegin at first
    split at first
    · cases first
    · split at first <;> cases first

structure Heaped (s : PostorderState) : Prop where
  nodup : s.heap.Nodup
  mem : ∀ n ref, (n, ref) ∈ s.heap ↔ ref ∉ s.order ∧ s.ref2n[ref]? = some n

theorem Heaped.decrement {s : PostorderState} (heaped : Heaped s) {pred n : Nat}
    (alive : pred ∉ s.order) (found : s.ref2n[pred]? = some (n + 1)) :
    ∃ s', decrement s pred = some s' ∧ Heaped s' ∧ s'.order = s.order ∧
      s'.ref2n = s.ref2n.set pred n := by
  have bound := (List.getElem?_eq_some_iff.mp found).1
  refine ⟨{ s with
    ref2n := s.ref2n.set pred n
    heap := (s.heap.erase (n + 1, pred)).insert (n, pred) }, ?_, ⟨?_, ?_⟩, rfl, rfl⟩
  · simp [Cfg.decrement, found]
  · exact (heaped.nodup.erase _).insert
  · intro m ref
    change (m, ref) ∈ (s.heap.erase (n + 1, pred)).insert (n, pred) ↔
      ref ∉ s.order ∧ (s.ref2n.set pred n)[ref]? = some m
    rw [List.mem_insert_iff, heaped.nodup.mem_erase_iff, heaped.mem, List.getElem?_set]
    by_cases same : pred = ref
    · subst same
      simp only [Prod.mk.injEq, and_true, found, Option.some.injEq, bound, if_true, alive,
        not_false_eq_true, true_and, ne_eq]
      omega
    · simp [same, Ne.symm same]

theorem Heaped.decrements {s : PostorderState} (heaped : Heaped s) {preds : List NodeRef}
    (nodup : preds.Nodup)
    (waiting : ∀ pred ∈ preds, pred ∉ s.order ∧ ∃ n, s.ref2n[pred]? = some (n + 1)) :
    ∃ s', preds.foldlM Cfg.decrement s = some s' ∧ Heaped s' ∧ s'.order = s.order ∧
      s'.ref2n.length = s.ref2n.length ∧ ∀ ref : NodeRef, s'.ref2n[ref]? =
        (s.ref2n[ref]?).map fun n => if ref ∈ preds then n - 1 else n := by
  induction preds generalizing s with
  | nil => exact ⟨s, rfl, heaped, rfl, rfl, by simp⟩
  | cons pred preds ih =>
    rcases waiting pred List.mem_cons_self with ⟨alive, n, found⟩
    rcases heaped.decrement alive found with ⟨r, stepped, heaped', order, numbers⟩
    have fresh := (List.nodup_cons.mp nodup).1
    have waiting' : ∀ other ∈ preds, other ∉ r.order ∧ ∃ n, r.ref2n[other]? = some (n + 1) := by
      intro other later
      have different : pred ≠ other := fun same => fresh (same ▸ later)
      rw [order, numbers, List.getElem?_set_ne different]
      exact waiting other (List.mem_cons_of_mem pred later)
    rcases ih heaped' nodup.of_cons waiting' with ⟨s', folded, after, order', length, numbers'⟩
    refine ⟨s', foldlM_cons_eq_some.mpr ⟨r, stepped, folded⟩, after, order'.trans order, ?_, ?_⟩
    · rw [length, numbers, List.length_set]
    intro ref
    rw [numbers', numbers, List.getElem?_set]
    by_cases same : pred = ref
    · subst same
      have bound := (List.getElem?_eq_some_iff.mp found).1
      rw [found, if_pos rfl, if_pos bound]
      simp [fresh]
    · simp [same, Ne.symm same]

end

/-! The rounds -/

section Rounds

variable {cfg : Cfg} {s : PostorderState}

def waitsFor (cfg : Cfg) (order : List NodeRef) (n : NodeRef) : List NodeRef :=
  (cfg.po.succs n).filter (· ∉ order)

theorem length_waitsFor (proper : cfg.po.Proper) {order : List NodeRef} {ref : NodeRef}
    (fresh : ref ∉ order) (n : NodeRef) :
    (waitsFor cfg (order ++ [ref]) n).length =
      if cfg.po.Edge n ref then (waitsFor cfg order n).length - 1 else (waitsFor cfg order n).length := by
  have split : waitsFor cfg (order ++ [ref]) n = (waitsFor cfg order n).erase ref := by
    rw [waitsFor, waitsFor, ((proper.succs_nodup n).filter _).erase_eq_filter, List.filter_filter]
    congr 1
    funext m
    rw [Bool.eq_iff_iff]
    simp [and_comm]
  rw [split, List.length_erase]
  have member : ref ∈ waitsFor cfg order n ↔ cfg.po.Edge n ref := by
    simp [waitsFor, fresh, Binrel.Edge]
  simp only [member]

structure Sorting (cfg : Cfg) (s : PostorderState) : Prop extends Heaped s where
  length : s.ref2n.length = cfg.size
  number : ∀ n < cfg.size, s.ref2n[n]? = some (waitsFor cfg s.order n).length
  order_nodup : s.order.Nodup
  order_valid : ∀ n ∈ s.order, n < cfg.size
  closed : ∀ n ∈ s.order, waitsFor cfg s.order n = []
  sorted : s.order.Pairwise fun n m => ¬ cfg.po.Edge n m

namespace Sorting

theorem not_edge (sorting : Sorting cfg s) {n m : NodeRef} (done : n ∈ s.order) (alive : m ∉ s.order) :
    ¬ cfg.po.Edge n m := by
  intro edge
  have waits : m ∈ waitsFor cfg s.order n := List.mem_filter.mpr ⟨edge, by simpa using alive⟩
  simp [sorting.closed n done] at waits

variable {ref : NodeRef}

theorem mem_heap (sorting : Sorting cfg s) {n : Nat} :
    (n, ref) ∈ s.heap ↔ ref < cfg.size ∧ ref ∉ s.order ∧ n = (waitsFor cfg s.order ref).length := by
  rw [sorting.mem]
  constructor
  · rintro ⟨alive, found⟩
    have bound : ref < cfg.size := sorting.length ▸ (List.getElem?_eq_some_iff.mp found).1
    rw [sorting.number ref bound] at found
    exact ⟨bound, alive, (Option.some.inj found).symm⟩
  · rintro ⟨bound, alive, rfl⟩
    exact ⟨alive, sorting.number ref bound⟩

/-- Some node that is not in the order waits for no other. -/
theorem exists_ready (sorting : Sorting cfg s) (acyclic : Acyclic cfg.po.Edge)
    (valid : ∀ {n m}, cfg.po.Edge n m → m < cfg.size) (nonempty : s.heap ≠ []) :
    ∃ ref, (0, ref) ∈ s.heap := by
  let among := (Finset.range cfg.size).filter (· ∉ s.order)
  have some' : among.Nonempty := by
    rcases List.exists_mem_of_ne_nil _ nonempty with ⟨⟨n, ref⟩, member⟩
    rcases sorting.mem_heap.mp member with ⟨bound, alive, -⟩
    exact ⟨ref, by simp [among, bound, alive]⟩
  rcases acyclic.exists_sink some' with ⟨ref, member, sink⟩
  simp only [among, Finset.mem_filter, Finset.mem_range] at member
  refine ⟨ref, sorting.mem_heap.mpr ⟨member.1, member.2, ?_⟩⟩
  have none : waitsFor cfg s.order ref = [] := by
    apply List.filter_eq_nil_iff.mpr
    intro m edge open'
    apply sink m _ edge
    simp only [among, Finset.mem_filter, Finset.mem_range]
    exact ⟨valid edge, by simpa using open'⟩
  rw [none, List.length_nil]

theorem pop (sorting : Sorting cfg s) (bound : ref < cfg.size)
    (leaf : waitsFor cfg s.order ref = []) :
    Heaped { s with heap := s.heap.erase (0, ref), order := s.order ++ [ref] } := by
  refine ⟨sorting.nodup.erase _, fun m other => ?_⟩
  change (m, other) ∈ s.heap.erase (0, ref) ↔ other ∉ s.order ++ [ref] ∧ s.ref2n[other]? = some m
  rw [sorting.nodup.mem_erase_iff, sorting.mem, List.mem_append, List.mem_singleton, not_or]
  constructor
  · rintro ⟨differs, open', found⟩
    refine ⟨⟨open', ?_⟩, found⟩
    rintro rfl
    rw [sorting.number other bound, leaf] at found
    cases found
    exact differs rfl
  · rintro ⟨⟨open', other'⟩, found⟩
    exact ⟨fun same => other' (Prod.mk.inj same).2, open', found⟩

theorem waits (wellFormed : cfg.WellFormed) (acyclic : Acyclic cfg.po.Edge)
    (sorting : Sorting cfg s) {pred : NodeRef} (alive : ref ∉ s.order)
    (edge : cfg.po.Edge pred ref) :
    pred ∉ s.order ++ [ref] ∧ ∃ n, s.ref2n[pred]? = some (n + 1) := by
  have waits : ref ∈ waitsFor cfg s.order pred := List.mem_filter.mpr ⟨edge, by simpa using alive⟩
  constructor
  · rw [List.mem_append, List.mem_singleton, not_or]
    constructor
    · exact fun done => sorting.not_edge done alive edge
    · rintro rfl
      exact acyclic pred (.single edge)
  · rw [sorting.number pred (wellFormed.valid edge).1]
    exact ⟨_, congrArg some (Nat.succ_pred_eq_of_pos (List.length_pos_of_mem waits)).symm⟩

theorem add (proper : cfg.po.Proper) (sorting : Sorting cfg s) (bound : ref < cfg.size)
    (alive : ref ∉ s.order) (leaf : waitsFor cfg s.order ref = []) {preds : List NodeRef}
    (mem_preds : ∀ pred, pred ∈ preds ↔ cfg.po.Edge pred ref) {s' : PostorderState}
    (heaped : Heaped s') (order : s'.order = s.order ++ [ref])
    (length : s'.ref2n.length = s.ref2n.length)
    (numbers : ∀ n : NodeRef, s'.ref2n[n]? =
      (s.ref2n[n]?).map fun k => if n ∈ preds then k - 1 else k) : Sorting cfg s' := by
  have fewer (n : NodeRef) (none : waitsFor cfg s.order n = []) : waitsFor cfg s'.order n = [] := by
    have length := length_waitsFor proper alive n
    rw [none, ← order] at length
    exact List.length_eq_zero_iff.mp (by simpa using length)
  refine ⟨heaped, length.trans sorting.length, ?_, ?_, ?_, ?_, ?_⟩
  · intro n valid
    rw [numbers, sorting.number n valid, Option.map_some, order, length_waitsFor proper alive]
    simp only [mem_preds]
  · rw [order]
    simpa using sorting.order_nodup.concat alive
  · rw [order]
    intro n member
    rcases List.mem_append.mp member with old | new
    · exact sorting.order_valid n old
    · rw [List.mem_singleton.mp new]
      exact bound
  · intro n member
    apply fewer
    rw [order] at member
    rcases List.mem_append.mp member with old | new
    · exact sorting.closed n old
    · rw [List.mem_singleton.mp new]
      exact leaf
  · rw [order, List.pairwise_append]
    refine ⟨sorting.sorted, List.pairwise_singleton _ _, fun n done m last => ?_⟩
    rw [List.mem_singleton.mp last]
    exact sorting.not_edge done alive

theorem step (wellFormed : cfg.WellFormed) (acyclic : Acyclic cfg.po.Edge) (sorting : Sorting cfg s)
    (nonempty : s.heap ≠ []) :
    ∃ s', postorderStep cfg s = some s' ∧ Sorting cfg s' ∧ s'.order.length = s.order.length + 1 := by
  rcases sorting.exists_ready acyclic (fun edge => (wellFormed.valid edge).2) nonempty with
    ⟨ready, waitless⟩
  cases first : heapBegin s.heap with
  | none => exact absurd (heapBegin_none first) nonempty
  | some pair =>
    rcases pair with ⟨n, ref⟩
    have least : n = 0 := Nat.le_zero.mp (heapBegin_le first waitless)
    subst least
    rcases sorting.mem_heap.mp (heapBegin_mem first) with ⟨bound, alive, number⟩
    have leaf : waitsFor cfg s.order ref = [] := List.length_eq_zero_iff.mp number.symm
    have found := wellFormed.lookup_rev bound
    have mem_preds (pred : NodeRef) : pred ∈ cfg.po.preds ref ↔ cfg.po.Edge pred ref :=
      wellFormed.proper.mem_preds
    rcases (sorting.pop bound leaf).decrements (wellFormed.proper.preds_nodup ref)
      (fun pred listed => sorting.waits wellFormed acyclic alive ((mem_preds pred).mp listed)) with
      ⟨s', folded, heaped, order, length, numbers⟩
    refine ⟨s', ?_, ?_, ?_⟩
    · simp only [postorderStep, first, sorting.number ref bound, leaf, found, Option.bind_eq_bind,
        Option.bind_some, List.length_nil, ne_eq, not_true_eq_false, if_false]
      exact folded
    · exact sorting.add wellFormed.proper bound alive leaf mem_preds heaped order length numbers
    · rw [order]
      exact List.length_append

theorem run (wellFormed : cfg.WellFormed) (acyclic : Acyclic cfg.po.Edge) {fuel : Nat}
    (sorting : Sorting cfg s) (enough : cfg.size < fuel + s.order.length) :
    ∃ s', postorderLoop cfg fuel s = some s' ∧ Sorting cfg s' ∧ s'.heap = [] := by
  induction fuel generalizing s with
  | zero =>
    have few := length_le_size sorting.order_nodup sorting.order_valid
    omega
  | succ fuel ih =>
    by_cases done : s.heap = []
    · exact ⟨s, by simp [postorderLoop, done], sorting, done⟩
    · rcases sorting.step wellFormed acyclic done with ⟨r, stepped, sorting', longer⟩
      rcases ih sorting' (by omega) with ⟨s', looped, after, empty⟩
      exact ⟨s', by simp [postorderLoop, done, stepped, looped], after, empty⟩

end Sorting

theorem sorting_start (wellFormed : cfg.WellFormed) :
    ∃ ref2n, (List.range cfg.size).mapM (fun ref => (cfg.po.fwd.lookup ref).map List.length) =
      some ref2n ∧ Sorting cfg ⟨ref2n, ref2n.zipIdx, []⟩ := by
  have every : ∀ ref ∈ List.range cfg.size,
      (cfg.po.fwd.lookup ref).map List.length = some (cfg.po.succs ref).length := by
    intro ref member
    rw [wellFormed.lookup_fwd (List.mem_range.mp member)]
    rfl
  let ref2n := (List.range cfg.size).map fun ref => (cfg.po.succs ref).length
  have nodup : ref2n.zipIdx.Nodup := by
    apply List.Nodup.of_map Prod.snd
    rw [List.zipIdx_map_snd]
    exact List.nodup_range'
  refine ⟨ref2n, mapM_eq_some every, ⟨nodup, ?_⟩, by simp [ref2n], ?_, List.nodup_nil, by simp, by simp,
    List.Pairwise.nil⟩
  · intro n ref
    simp [List.mem_zipIdx_iff_getElem?]
  · intro n valid
    simp [ref2n, waitsFor, valid]

/-- Without a cycle, no assertion fails, and every node is in the order once, after its
successors. -/
theorem computePostorder_spec (wellFormed : cfg.WellFormed) (acyclic : Acyclic cfg.po.Edge) :
    ∃ order, cfg.computePostorder = some order ∧ order.Perm (List.range cfg.size) ∧
      order.Pairwise fun n m => ¬ cfg.po.Edge n m := by
  rcases sorting_start wellFormed with ⟨ref2n, mapped, start⟩
  rcases start.run wellFormed acyclic (Nat.lt_add_right _ (Nat.lt_succ_self cfg.size)) with
    ⟨s, looped, sorting, done⟩
  refine ⟨s.order, by simp [computePostorder, mapped, looped], ?_, sorting.sorted⟩
  apply (List.perm_ext_iff_of_nodup sorting.order_nodup List.nodup_range).mpr
  intro n
  rw [List.mem_range]
  refine ⟨sorting.order_valid n, fun valid => ?_⟩
  by_contra open'
  have queued := sorting.mem_heap.mpr ⟨valid, open', rfl⟩
  simp [done] at queued

end Rounds

/-! Sorting -/

section

variable {cfg : Cfg}

/-- In a list in which no edge leads back, an edge leads to a later place. -/
theorem idxOf_lt {order : List NodeRef} (forward : order.Pairwise fun n m => ¬ cfg.po.Edge m n)
    (acyclic : Acyclic cfg.po.Edge) {u v : NodeRef} (here : u ∈ order) (there : v ∈ order)
    (edge : cfg.po.Edge u v) : order.idxOf u < order.idxOf v := by
  have bound := List.idxOf_lt_length_iff.mpr here
  have bound' := List.idxOf_lt_length_iff.mpr there
  rcases Nat.lt_trichotomy (order.idxOf u) (order.idxOf v) with less | same | more
  · exact less
  · have equal : u = v := List.idxOf_inj here |>.mp same
    exact absurd (Relation.TransGen.single (equal ▸ edge)) (acyclic v)
  · have back := List.pairwise_iff_getElem.mp forward _ _ bound' bound more
    simp only [List.getElem_idxOf] at back
    exact absurd edge back

structure Sorted (cfg cfg' : Cfg) (f : NodeRef → NodeRef) : Prop where
  bijective : Set.BijOn f (Set.Iio cfg.size) (Set.Iio cfg'.size)
  edge : ∀ u < cfg.size, ∀ v < cfg.size, (cfg'.po.Edge (f u) (f v) ↔ cfg.po.Edge u v)
  increasing : ∀ {a b}, cfg'.po.Edge a b → a < b ∧ b < cfg'.size
  nodes : ∀ u < cfg.size, cfg'.nodes[f u]? = cfg.nodes[u]?
  exits : cfg'.exits = cfg.exits.map f
  entry : cfg'.entry = f cfg.entry

theorem sort_sorted (wellFormed : cfg.WellFormed) (acyclic : Acyclic cfg.po.Edge)
    (entry : cfg.entry < cfg.size) (exits : ∀ e ∈ cfg.exits, e < cfg.size)
    {postorder : List NodeRef} (computed : cfg.computePostorder = some postorder)
    (perm : postorder.Perm (List.range cfg.size))
    (sorted : postorder.Pairwise fun n m => ¬ cfg.po.Edge n m) :
    ∃ cfg', cfg.sort = some cfg' ∧ Sorted cfg cfg' postorder.reverse.idxOf := by
  let order := postorder.reverse
  have forward : order.Pairwise fun n m => ¬ cfg.po.Edge m n := List.pairwise_reverse.mpr sorted
  have nodup : order.Nodup := List.nodup_reverse.mpr (perm.nodup_iff.mpr List.nodup_range)
  have mem_order (n : NodeRef) : n ∈ order ↔ n < cfg.size := by
    rw [List.mem_reverse, perm.mem_iff, List.mem_range]
  have renamed {n : NodeRef} (valid : n < cfg.size) : refmap order n = some (order.idxOf n) :=
    (refmap_eq_some nodup).mpr (List.getElem?_idxOf ((mem_order n).mpr valid))
  have length : order.length = cfg.size := by simp [order, perm.length_eq]
  rcases Binrel.proper_empty.addNodes (List.range order.length) with ⟨proper, no_edge, -⟩
  have present : ∀ edge ∈ edges cfg.po.fwd, edge.1 ∈ order ∧ edge.2 ∈ order := by
    intro edge member
    have valid := wellFormed.valid (mem_edges.mp member : cfg.po.Edge edge.1 edge.2)
    exact ⟨(mem_order _).mpr valid.1, (mem_order _).mpr valid.2⟩
  rcases renameEdges_spec nodup present proper with ⟨po, renamedPo, -, -, mem⟩
  have edge_iff (i j : NodeRef) : po.Edge i j ↔
      ∃ n m, cfg.po.Edge n m ∧ order[i]? = some n ∧ order[j]? = some m := by
    rw [mem, no_edge]
    simp only [Binrel.not_edge_empty, false_or, mem_edges]
    rfl
  have nodes : order.mapM (cfg.nodes[·]?) =
      some (order.map fun n => cfg.nodes.getD n Node.makeEntry) := by
    apply mapM_eq_some
    intro n member
    have bound : n < cfg.nodes.length := (mem_order n).mp member
    simp [bound]
  have images : cfg.exits.mapM (refmap order) = some (cfg.exits.map order.idxOf) :=
    mapM_eq_some fun e exit => renamed (exits e exit)
  have size : (order.map fun n => cfg.nodes.getD n Node.makeEntry).length = cfg.size := by
    rw [List.length_map, length]
  refine ⟨⟨order.map fun n => cfg.nodes.getD n Node.makeEntry, po, order.idxOf cfg.entry,
    cfg.exits.map order.idxOf, cfg.translations⟩, ?_, ?_⟩
  · simp only [sort, computed, Option.bind_eq_bind, Option.bind_some]
    change (renameEdges order _ _).bind _ = _
    rw [renamedPo, Option.bind_some, nodes, Option.bind_some, renamed entry, Option.bind_some, images,
      Option.bind_some]
  · refine ⟨⟨?_, ?_, ?_⟩, ?_, ?_, ?_, rfl, rfl⟩
    · intro u valid
      rw [Cfg.size, Set.mem_Iio, size, ← length]
      exact List.idxOf_lt_length_iff.mpr ((mem_order u).mpr valid)
    · intro u valid v _ same
      exact (List.idxOf_inj ((mem_order u).mpr valid)).mp same
    · intro a bound
      rw [Cfg.size, Set.mem_Iio, size, ← length] at bound
      refine ⟨order[a], (mem_order _).mp (List.getElem_mem bound), ?_⟩
      exact nodup.idxOf_getElem a bound
    · intro u valid v valid'
      rw [edge_iff, List.getElem?_idxOf ((mem_order u).mpr valid),
        List.getElem?_idxOf ((mem_order v).mpr valid')]
      constructor
      · rintro ⟨n, m, edge, left, right⟩
        cases left
        cases right
        exact edge
      · exact fun edge => ⟨u, v, edge, rfl, rfl⟩
    · intro a b edge
      rcases (edge_iff a b).mp edge with ⟨n, m, edge, left, right⟩
      have here := List.mem_of_getElem? left
      have there := List.mem_of_getElem? right
      have less := idxOf_lt forward acyclic here there edge
      rw [number_unique nodup left (List.getElem?_idxOf here),
        number_unique nodup right (List.getElem?_idxOf there), Cfg.size, size, ← length]
      exact ⟨less, List.idxOf_lt_length_iff.mpr there⟩
    · intro u valid
      change (order.map _)[order.idxOf u]? = _
      have bound : u < cfg.nodes.length := valid
      rw [List.getElem?_map, List.getElem?_idxOf ((mem_order u).mpr valid)]
      simp [bound]

/-- The node that all others are reached from comes first. -/
theorem Sorted.entry_zero {cfg' : Cfg} {f : NodeRef → NodeRef} (sorted : Sorted cfg cfg' f)
    (valid : ∀ {n m}, cfg.po.Edge n m → n < cfg.size ∧ m < cfg.size) (entry : cfg.entry < cfg.size)
    (reached : ∀ n < cfg.size, cfg.Reaches cfg.entry n) : cfg'.entry = 0 := by
  have later {n : NodeRef} (path : cfg.Reaches cfg.entry n) : f cfg.entry ≤ f n := by
    induction path with
    | refl => exact le_rfl
    | tail _ edge ih =>
      have bounds := valid edge
      exact ih.trans (sorted.increasing ((sorted.edge _ bounds.1 _ bounds.2).mpr edge)).1.le
  have positive : 0 < cfg'.size :=
    Nat.lt_of_le_of_lt (Nat.zero_le _) (Set.mem_Iio.mp (sorted.bijective.mapsTo entry))
  rcases sorted.bijective.surjOn positive with ⟨n, bound, first⟩
  have below := later (reached n bound)
  rw [first] at below
  rw [sorted.entry]
  exact Nat.le_zero.mp below

end

/-- Sorting an acyclic graph renumbers it so that program order goes to larger numbers. -/
theorem sort_topological {cfg : Cfg} (wellFormed : cfg.WellFormed) (acyclic : Acyclic cfg.po.Edge)
    (entry : cfg.entry < cfg.size) (exits : ∀ e ∈ cfg.exits, e < cfg.size) :
    ∃ postorder, cfg.computePostorder = some postorder ∧ postorder.Perm (List.range cfg.size) ∧
      (∀ (i j : Nat) n m, postorder[i]? = some n → postorder[j]? = some m → cfg.po.Edge n m → j < i) ∧
      ∃ cfg' f, cfg.sort = some cfg' ∧ Sorted cfg cfg' f ∧
        ((∀ n < cfg.size, cfg.Reaches cfg.entry n) → cfg'.entry = 0) := by
  rcases computePostorder_spec wellFormed acyclic with ⟨postorder, computed, perm, sorted⟩
  rcases sort_sorted wellFormed acyclic entry exits computed perm sorted with ⟨cfg', sorts, spec⟩
  refine ⟨postorder, computed, perm, ?_, cfg', _, sorts, spec, ?_⟩
  · intro i j n m left right edge
    rcases List.getElem?_eq_some_iff.mp left with ⟨bound, rfl⟩
    rcases List.getElem?_eq_some_iff.mp right with ⟨bound', rfl⟩
    rcases Nat.lt_trichotomy i j with less | rfl | more
    · exact absurd edge (List.pairwise_iff_getElem.mp sorted i j bound bound' less)
    · exact absurd (Relation.TransGen.single edge) (acyclic _)
    · exact more
  · exact fun reached => spec.entry_zero (fun edge => wellFormed.valid edge) entry reached

def backwardDiamond : Cfg :=
  ofEdges (List.replicate 4 Node.makeEntry) [(3, 2), (3, 1), (2, 0), (1, 0)] 3 [0]

theorem backwardDiamond_sorted : ∃ postorder, backwardDiamond.computePostorder = some postorder ∧
    postorder.Perm (List.range backwardDiamond.size) ∧
    (∀ (i j : Nat) n m, postorder[i]? = some n → postorder[j]? = some m →
      backwardDiamond.po.Edge n m → j < i) ∧
    ∃ cfg' f, backwardDiamond.sort = some cfg' ∧ Sorted backwardDiamond cfg' f ∧
      ((∀ n < backwardDiamond.size, backwardDiamond.Reaches backwardDiamond.entry n) →
        cfg'.entry = 0) := by
  apply sort_topological
  · exact wellFormed_ofEdges (by decide)
  · have decreasing : ∀ edge ∈ [(3, 2), (3, 1), (2, 0), (1, 0)], edge.2 < edge.1 := by decide
    have swapped : Acyclic (Function.swap backwardDiamond.po.Edge) :=
      Acyclic.of_rank (fun n => n) fun edge => decreasing _ (edge_ofEdges.mp edge)
    exact swapped.swap
  · decide
  · decide

end Clou.Cfg
