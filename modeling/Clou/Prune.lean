import Mathlib.Data.Finset.Lattice.Fold
import Mathlib.Order.Lattice.Nat
import Clou.Cfg
import Clou.Labelled
import Clou.OptionFold

/-! Pruning a control-flow graph: leaves that are no exits are deleted until none is left, and
what remains is renumbered. -/

namespace Clou.Cfg

open Labelled

/-- The order in which a hash set is iterated over. It may be any, and a different one in each
round. -/
structure HashOrder where
  arrange : Nat → List NodeRef → List NodeRef
  perm : ∀ round set, (arrange round set).Perm set

def HashOrder.listed : HashOrder := ⟨fun _ set => set, fun _ _ => .refl _⟩

def HashOrder.elements (order : HashOrder) (round : Nat) (set : Finset NodeRef) : List NodeRef :=
  order.arrange round ((List.range (set.sup id + 1)).filter (· ∈ set))

theorem HashOrder.mem_elements (order : HashOrder) (round : Nat) (set : Finset NodeRef) (n : NodeRef) :
    n ∈ order.elements round set ↔ n ∈ set := by
  rw [HashOrder.elements, (order.perm _ _).mem_iff, List.mem_filter, List.mem_range, decide_eq_true_eq]
  constructor
  · intro both
    exact both.2
  · intro member
    exact ⟨Nat.lt_succ_of_le (Finset.le_sup (f := id) member), member⟩

structure PruneState where
  todo : List NodeRef
  po : Binrel NodeRef
  deleted : List NodeRef

section

variable (order : HashOrder)

/-- One round of the work loop. A leaf is deleted, and its predecessors may have become leaves. -/
def pruneStep (round : Nat) (s : PruneState) : Option PruneState :=
  match order.arrange round s.todo with
  | [] => some s
  | ref :: todo => do
    let succs ← s.po.fwd.lookup ref
    if succs.isEmpty then
      let preds ← s.po.rev.lookup ref
      let po ← s.po.eraseNode ref
      some ⟨preds.foldl (fun todo pred => todo.insert pred) todo, po, ref :: s.deleted⟩
    else some { s with todo := todo }

def pruneLoop : Nat → PruneState → Option PruneState
  | 0, _ => none
  | fuel + 1, s => if s.todo = [] then some s else (pruneStep order fuel s).bind (pruneLoop fuel)

/-- Every deletion may bring all nodes back, which bounds the number of rounds. -/
def pruneRounds (n : Nat) : Nat := (n + 1) * (n + 1)

/-- Survivors are numbered in their old order. -/
def refmap (kept : List NodeRef) (ref : NodeRef) : Option NodeRef :=
  kept.findIdx? (fun old => decide (old = ref))

def edges (fwd : AList (fun _ : NodeRef => List NodeRef)) : List (NodeRef × NodeRef) :=
  fwd.entries.flatMap (fun entry => entry.2.map (fun dst => (entry.1, dst)))

def renameEdges (kept : List NodeRef) (edges : List (NodeRef × NodeRef)) (po : Binrel NodeRef) :
    Option (Binrel NodeRef) :=
  edges.foldlM (fun po edge => do
    let src ← refmap kept edge.1
    let dst ← refmap kept edge.2
    some (po.insert src dst)) po

/-- Survivors move to the front, over nodes that have moved or are deleted. -/
def compactify (kept : List NodeRef) (nodes : List Node) : List Node :=
  let moved := (List.range nodes.length).foldl (fun nodes old =>
    match refmap kept old, nodes[old]? with
    | some new, some node => nodes.set new node
    | _, _ => nodes) nodes
  moved.take kept.length

/-- The entry and the exits keep their numbers. -/
def prune (cfg : Cfg) : Option Cfg := do
  let s ← pruneLoop order (pruneRounds cfg.size)
    ⟨(List.range cfg.size).filter (· ∉ cfg.exits), cfg.po, []⟩
  let kept := (List.range cfg.size).filter (· ∉ s.deleted)
  let po ← renameEdges kept (edges s.po.fwd) (Binrel.empty.addNodes (List.range kept.length))
  some { cfg with nodes := compactify kept cfg.nodes, po := po }

end

structure Prunable (cfg : Cfg) : Prop extends WellFormed cfg where
  exits : ∀ {n m}, n ∈ cfg.exits → ¬ cfg.po.Edge n m

/-! The work loop -/

section Loop

variable {cfg : Cfg}

abbrev Dead (cfg : Cfg) : NodeRef → Prop := DeadEnd cfg.po.Edge (· ∈ cfg.exits)

structure Pruning (cfg : Cfg) (s : PruneState) : Prop where
  proper : s.po.Proper
  edge : ∀ {n m}, s.po.Edge n m ↔ cfg.po.Edge n m ∧ m ∉ s.deleted
  fwd : ∀ n < cfg.size, n ∈ s.po.fwd ↔ n ∉ s.deleted
  rev : ∀ n < cfg.size, n ∈ s.po.rev ↔ n ∉ s.deleted
  dead : ∀ n ∈ s.deleted, n < cfg.size ∧ Dead cfg n
  deleted_nodup : s.deleted.Nodup
  todo : ∀ n ∈ s.todo, n < cfg.size ∧ n ∉ s.deleted ∧ n ∉ cfg.exits
  todo_nodup : s.todo.Nodup
  leaf : ∀ n < cfg.size, n ∉ cfg.exits → n ∉ s.deleted → (∀ m, ¬ s.po.Edge n m) → n ∈ s.todo

def remaining (cfg : Cfg) (s : PruneState) : Nat :=
  (cfg.size - s.deleted.length) * (cfg.size + 1) + s.todo.length

theorem mem_foldl_insert {todo preds : List NodeRef} {n : NodeRef} :
    n ∈ preds.foldl (fun todo pred => todo.insert pred) todo ↔ n ∈ preds ∨ n ∈ todo := by
  induction preds generalizing todo with
  | nil => simp
  | cons pred preds ih =>
    rw [List.foldl_cons, ih, List.mem_insert_iff, List.mem_cons, or_left_comm, or_assoc]

theorem nodup_foldl_insert {todo : List NodeRef} (nodup : todo.Nodup) (preds : List NodeRef) :
    (preds.foldl (fun todo pred => todo.insert pred) todo).Nodup := by
  induction preds generalizing todo with
  | nil => exact nodup
  | cons pred preds ih => exact ih nodup.insert

theorem pruning_start (wellFormed : cfg.WellFormed) :
    Pruning cfg ⟨(List.range cfg.size).filter (· ∉ cfg.exits), cfg.po, []⟩ where
  proper := wellFormed.proper
  edge := by simp
  fwd n bound := by simp [(wellFormed.keys n bound).1]
  rev n bound := by simp [(wellFormed.keys n bound).2]
  dead := by simp
  deleted_nodup := List.nodup_nil
  todo n member := by simpa using member
  todo_nodup := List.nodup_range.filter _
  leaf n bound inner _ _ := by simp [bound, inner]

namespace Pruning

variable {s : PruneState} {ref : NodeRef} {todo : List NodeRef}

theorem skip (pruning : Pruning cfg s) (popped : (ref :: todo).Perm s.todo)
    (inner : ∃ m, s.po.Edge ref m) : Pruning cfg { s with todo := todo } where
  proper := pruning.proper
  edge := pruning.edge
  fwd := pruning.fwd
  rev := pruning.rev
  dead := pruning.dead
  deleted_nodup := pruning.deleted_nodup
  todo n member := pruning.todo n (popped.subset (List.mem_cons_of_mem ref member))
  todo_nodup := (popped.nodup_iff.mpr pruning.todo_nodup).of_cons
  leaf n bound open' alive none := by
    have queued := popped.mem_iff.mpr (pruning.leaf n bound open' alive none)
    rcases List.mem_cons.mp queued with rfl | later
    · rcases inner with ⟨m, edge⟩
      exact absurd edge (none m)
    · exact later

/-- A leaf is deleted. -/
theorem delete (prunable : cfg.Prunable) (pruning : Pruning cfg s)
    (popped : (ref :: todo).Perm s.todo) (leaf : ∀ m, ¬ s.po.Edge ref m) {preds : List NodeRef}
    (mem_preds : ∀ n, n ∈ preds ↔ s.po.Edge n ref) {po : Binrel NodeRef} (proper : po.Proper)
    (edge : ∀ n m, po.Edge n m ↔ s.po.Edge n m ∧ m ≠ ref)
    (fwd : ∀ n, n ∈ po.fwd ↔ n ∈ s.po.fwd ∧ n ≠ ref)
    (rev : ∀ n, n ∈ po.rev ↔ n ∈ s.po.rev ∧ n ≠ ref) :
    Pruning cfg ⟨preds.foldl (fun todo pred => todo.insert pred) todo, po, ref :: s.deleted⟩ := by
  have nodup := popped.nodup_iff.mpr pruning.todo_nodup
  rcases pruning.todo ref (popped.subset List.mem_cons_self) with ⟨bound, alive, open'⟩
  constructor
  · exact proper
  · intro n m
    rw [edge, pruning.edge, List.mem_cons, not_or, and_assoc, and_comm (a := m ∉ s.deleted)]
  · intro n valid
    rw [fwd, pruning.fwd n valid, List.mem_cons, not_or, and_comm]
  · intro n valid
    rw [rev, pruning.rev n valid, List.mem_cons, not_or, and_comm]
  · intro n member
    rcases List.mem_cons.mp member with rfl | old
    · refine ⟨bound, .intro open' fun m edge => ?_⟩
      by_contra living
      exact leaf m (pruning.edge.mpr ⟨edge, fun gone => living (pruning.dead m gone).2⟩)
    · exact pruning.dead n old
  · exact List.nodup_cons.mpr ⟨alive, pruning.deleted_nodup⟩
  · intro n member
    rcases mem_foldl_insert.mp member with pred | old
    · have edge := (mem_preds n).mp pred
      have original := (pruning.edge.mp edge).1
      have other : n ≠ ref := fun same => leaf ref (same ▸ edge)
      refine ⟨(prunable.valid original).1, ?_, fun exit => prunable.exits exit original⟩
      rw [List.mem_cons, not_or]
      refine ⟨other, fun gone => ?_⟩
      -- A deleted node is a leaf of what is left.
      have listed : ref ∈ s.po.succs n := edge
      have absent : s.po.fwd.lookup n = none :=
        AList.lookup_eq_none.mpr fun key => (pruning.fwd n (prunable.valid original).1).mp key gone
      simp [Binrel.succs, Binrel.get, absent] at listed
    · rcases pruning.todo n (popped.subset (List.mem_cons_of_mem ref old)) with ⟨valid, here, inner⟩
      refine ⟨valid, ?_, inner⟩
      rw [List.mem_cons, not_or]
      exact ⟨fun same => (List.nodup_cons.mp nodup).1 (same ▸ old), here⟩
  · exact nodup_foldl_insert nodup.of_cons preds
  · intro n valid inner here none
    rw [List.mem_cons, not_or] at here
    refine mem_foldl_insert.mpr ?_
    by_cases pred : s.po.Edge n ref
    · exact .inl ((mem_preds n).mpr pred)
    · right
      have before (m : NodeRef) : ¬ s.po.Edge n m := by
        intro old
        refine none m ((edge n m).mpr ⟨old, ?_⟩)
        rintro rfl
        exact pred old
      have queued := popped.mem_iff.mpr (pruning.leaf n valid inner here.2 before)
      exact (List.mem_cons.mp queued).resolve_left here.1

theorem step (prunable : cfg.Prunable) (order : HashOrder) (round : Nat) (pruning : Pruning cfg s)
    (nonempty : s.todo ≠ []) :
    ∃ s', pruneStep order round s = some s' ∧ Pruning cfg s' ∧ remaining cfg s' < remaining cfg s := by
  have perm := order.perm round s.todo
  cases arranged : order.arrange round s.todo with
  | nil =>
    rw [arranged] at perm
    exact absurd perm.nil_eq.symm nonempty
  | cons ref todo =>
    rw [arranged] at perm
    have shorter : todo.length + 1 = s.todo.length := by simpa using perm.length_eq
    rcases pruning.todo ref (perm.subset List.mem_cons_self) with ⟨bound, alive, -⟩
    rcases Option.isSome_iff_exists.mp
      (AList.lookup_isSome.mpr ((pruning.fwd ref bound).mpr alive)) with ⟨succs, found⟩
    have mem_succs (m : NodeRef) : m ∈ succs ↔ s.po.Edge ref m := by
      rw [Binrel.Edge, Binrel.succs, Binrel.get, found, Option.getD_some]
    cases succs with
    | cons m rest =>
      refine ⟨{ s with todo := todo }, by simp [pruneStep, arranged, found], ?_, ?_⟩
      · exact pruning.skip perm ⟨m, (mem_succs m).mp List.mem_cons_self⟩
      · simp only [remaining]
        omega
    | nil =>
      have leaf (m : NodeRef) : ¬ s.po.Edge ref m := by simp [← mem_succs]
      have listed := (pruning.rev ref bound).mpr alive
      have sources {n : NodeRef} (edge : s.po.Edge n ref) : n ∈ s.po.fwd := by
        by_contra absent
        simp [Binrel.Edge, Binrel.succs, Binrel.get, AList.lookup_eq_none.mpr absent] at edge
      rcases pruning.proper.lookup_rev listed with ⟨preds, found', mem_preds⟩
      rcases pruning.proper.eraseNode_leaf found listed sources with
        ⟨po, erased, proper, edge, fwd, rev⟩
      have after := pruning.delete prunable perm leaf mem_preds proper edge fwd rev
      refine ⟨_, by simp [pruneStep, arranged, found, found', erased], after, ?_⟩
      have few := length_le_size after.todo_nodup fun n member => (after.todo n member).1
      have fewer := length_le_size after.deleted_nodup fun n member => (after.dead n member).1
      simp only [List.length_cons] at fewer
      simp only [remaining, List.length_cons] at few ⊢
      have split : cfg.size - s.deleted.length = cfg.size - (s.deleted.length + 1) + 1 := by omega
      rw [split, Nat.add_mul, Nat.one_mul]
      omega

theorem run (prunable : cfg.Prunable) (order : HashOrder) {fuel : Nat} (pruning : Pruning cfg s)
    (enough : remaining cfg s < fuel) :
    ∃ s', pruneLoop order fuel s = some s' ∧ Pruning cfg s' ∧ s'.todo = [] := by
  induction fuel generalizing s with
  | zero => omega
  | succ fuel ih =>
    by_cases done : s.todo = []
    · exact ⟨s, by simp [pruneLoop, done], pruning, done⟩
    · rcases pruning.step prunable order fuel done with ⟨r, stepped, pruning', fewer⟩
      rcases ih pruning' (by omega) with ⟨s', looped, after, empty⟩
      exact ⟨s', by simp [pruneLoop, done, stepped, looped], after, empty⟩

theorem mem_deleted (pruning : Pruning cfg s) (done : s.todo = []) {n : NodeRef}
    (valid : n < cfg.size) (inside : ∀ {n m}, cfg.po.Edge n m → m < cfg.size) :
    n ∈ s.deleted ↔ Dead cfg n := by
  refine ⟨fun gone => (pruning.dead n gone).2, fun dead => ?_⟩
  induction dead with
  | @intro n open' succs ih =>
    by_contra alive
    have queued := pruning.leaf n valid open' alive fun m edge =>
      (pruning.edge.mp edge).2 (ih m (pruning.edge.mp edge).1 (inside (pruning.edge.mp edge).1))
    simp [done] at queued

end Pruning

end Loop

/-! Renumbering -/

section Renumber

variable {kept : List NodeRef}

theorem refmap_eq_some (nodup : kept.Nodup) {ref i : NodeRef} :
    refmap kept ref = some i ↔ kept[i]? = some ref := by
  rw [refmap, List.findIdx?_eq_some_iff_getElem, List.getElem?_eq_some_iff]
  constructor
  · rintro ⟨bound, here, -⟩
    exact ⟨bound, by simpa using here⟩
  · rintro ⟨bound, here⟩
    refine ⟨bound, by simpa using here, fun j before => ?_⟩
    have other : kept[j] ≠ kept[i] := fun same => before.ne ((nodup.getElem_inj_iff).mp same)
    simpa [← here] using other

theorem mem_edges {fwd : AList (fun _ : NodeRef => List NodeRef)} {n m : NodeRef} :
    (n, m) ∈ edges fwd ↔ m ∈ Binrel.get fwd n := by
  simp only [edges, List.mem_flatMap, List.mem_map, Prod.mk.injEq]
  constructor
  · rintro ⟨⟨key, set⟩, entry, dst, member, rfl, rfl⟩
    have found : fwd.lookup key = some set := AList.mem_lookup_iff.mpr entry
    simpa [Binrel.get, found] using member
  · intro member
    cases found : fwd.lookup n with
    | none => simp [Binrel.get, found] at member
    | some set =>
      rw [Binrel.get, found, Option.getD_some] at member
      exact ⟨⟨n, set⟩, AList.mem_lookup_iff.mp found, m, member, rfl, rfl⟩

theorem renameEdges_spec (nodup : kept.Nodup) {edges : List (NodeRef × NodeRef)}
    (present : ∀ edge ∈ edges, edge.1 ∈ kept ∧ edge.2 ∈ kept) {po : Binrel NodeRef}
    (proper : po.Proper) :
    ∃ po', renameEdges kept edges po = some po' ∧ po'.Proper ∧
      (∀ k, (k ∈ po.fwd → k ∈ po'.fwd) ∧ (k ∈ po.rev → k ∈ po'.rev)) ∧
      ∀ i j, po'.Edge i j ↔ po.Edge i j ∨
        ∃ n m, (n, m) ∈ edges ∧ kept[i]? = some n ∧ kept[j]? = some m := by
  induction edges generalizing po with
  | nil => exact ⟨po, rfl, proper, fun k => ⟨id, id⟩, by simp⟩
  | cons edge edges ih =>
    rcases List.getElem?_of_mem (present edge List.mem_cons_self).1 with ⟨src, left⟩
    rcases List.getElem?_of_mem (present edge List.mem_cons_self).2 with ⟨dst, right⟩
    rcases ih (fun edge later => present edge (List.mem_cons_of_mem _ later))
      (proper.insert src dst) with ⟨po', renamed, proper', keys, mem⟩
    refine ⟨po', ?_, proper', ?_, ?_⟩
    · simp only [renameEdges, List.foldlM_cons, (refmap_eq_some nodup).mpr left,
        (refmap_eq_some nodup).mpr right, Option.bind_eq_bind, Option.bind_some]
      exact renamed
    · intro k
      constructor
      · exact fun old => (keys k).1 ((AList.mem_insert _).mpr (.inr old))
      · exact fun old => (keys k).2 ((AList.mem_insert _).mpr (.inr old))
    · intro i j
      rw [mem, Binrel.edge_insert, or_assoc]
      refine or_congr_right ?_
      constructor
      · rintro (⟨rfl, rfl⟩ | ⟨n, m, later, here⟩)
        · exact ⟨edge.1, edge.2, List.mem_cons_self, left, right⟩
        · exact ⟨n, m, List.mem_cons_of_mem _ later, here⟩
      · rintro ⟨n, m, member, left', right'⟩
        rcases List.mem_cons.mp member with rfl | later
        · exact .inl ⟨number_unique nodup left' left, number_unique nodup right' right⟩
        · exact .inr ⟨n, m, later, left', right'⟩

theorem index_le {lowest i old : Nat} (sorted : kept.Pairwise (· < ·)) (least : ∀ n ∈ kept, lowest ≤ n)
    (found : kept[i]? = some old) : lowest + i ≤ old := by
  induction kept generalizing lowest i with
  | nil => simp at found
  | cons first kept ih =>
    have from' := least first List.mem_cons_self
    cases i with
    | zero =>
      cases found
      exact from'
    | succ i =>
      rcases List.pairwise_cons.mp sorted with ⟨later, sorted'⟩
      have further := ih sorted' (fun n member => Nat.succ_le_of_lt (later n member)) found
      omega

/-- After some rounds: the survivors seen so far are in place, and what comes later is still
where it was. -/
theorem compactify_round (sorted : kept.Pairwise (· < ·)) (nodes : List Node) (k : Nat) :
    let moved := (List.range k).foldl (fun nodes old =>
      match refmap kept old, nodes[old]? with
      | some new, some node => nodes.set new node
      | _, _ => nodes) nodes
    moved.length = nodes.length ∧ (∀ i : Nat, k ≤ i → moved[i]? = nodes[i]?) ∧
      ∀ i old : Nat, kept[i]? = some old → old < k → old < nodes.length → moved[i]? = nodes[old]? := by
  have nodup : kept.Nodup := sorted.imp fun less => less.ne
  induction k with
  | zero => simp
  | succ k ih =>
    rw [List.range_succ, List.foldl_append]
    rcases ih with ⟨length, later, done⟩
    generalize (List.range k).foldl _ nodes = moved at length later done
    simp only [List.foldl_cons, List.foldl_nil]
    cases renamed : refmap kept k with
    | none =>
      refine ⟨length, fun i further => later i (Nat.le_of_succ_le further), ?_⟩
      intro i old found before
      refine done i old found (Nat.lt_of_le_of_ne (Nat.le_of_lt_succ before) ?_)
      rintro rfl
      rw [(refmap_eq_some nodup).mpr found] at renamed
      cases renamed
    | some new =>
      have place := (refmap_eq_some nodup).mp renamed
      have front : new ≤ k :=
        Nat.zero_add new ▸ index_le sorted (fun n _ => Nat.zero_le n) place
      cases here : moved[k]? with
      | none =>
        refine ⟨length, fun i further => later i (Nat.le_of_succ_le further), ?_⟩
        intro i old found before valid
        refine done i old found (Nat.lt_of_le_of_ne (Nat.le_of_lt_succ before) ?_) valid
        rintro rfl
        rw [List.getElem?_eq_none_iff, length] at here
        exact absurd valid (Nat.not_lt.mpr here)
      | some node =>
        have original : nodes[k]? = some node := (later k le_rfl).symm.trans here
        have bound : new < moved.length :=
          Nat.lt_of_le_of_lt front (List.getElem?_eq_some_iff.mp here).1
        refine ⟨by rw [List.length_set, length], ?_, ?_⟩
        · intro i further
          have behind : new < i := Nat.lt_of_le_of_lt front further
          rw [List.getElem?_set_ne behind.ne]
          exact later i (Nat.le_of_succ_le further)
        · intro i old found before valid
          by_cases same : new = i
          · subst same
            obtain rfl : k = old := Option.some.inj (place.symm.trans found)
            rw [List.getElem?_set_self bound, original]
          · rw [List.getElem?_set_ne same]
            refine done i old found (Nat.lt_of_le_of_ne (Nat.le_of_lt_succ before) ?_) valid
            rintro rfl
            exact same (number_unique nodup place found)

theorem compactify_eq {nodes : List Node} (sublist : kept.Sublist (List.range nodes.length)) :
    compactify kept nodes = kept.filterMap (nodes[·]?) := by
  have sorted : kept.Pairwise (· < ·) := List.pairwise_lt_range.sublist sublist
  have bound {i old : Nat} (found : kept[i]? = some old) : old < nodes.length :=
    List.mem_range.mp (sublist.subset (List.mem_of_getElem? found))
  have picked := forall₂_filterMap (f := (nodes[·]?)) (l := kept) fun old member =>
    ⟨_, List.getElem?_eq_getElem (List.mem_range.mp (sublist.subset member))⟩
  rcases compactify_round sorted nodes nodes.length with ⟨length, -, done⟩
  apply List.ext_getElem?
  intro i
  rw [compactify, List.getElem?_take]
  cases found : kept[i]? with
  | none =>
    have short := List.getElem?_eq_none_iff.mp found
    rw [if_neg (Nat.not_lt.mpr short), List.getElem?_eq_none (picked.length_eq ▸ short)]
  | some old =>
    rw [if_pos (List.getElem?_eq_some_iff.mp found).1]
    rcases lookup_related picked found with ⟨node, here, original⟩
    exact (done i old found (bound found) (bound found)).trans (original.trans here.symm)

end Renumber

/-- What pruning makes of a graph: the nodes that are no dead ends, in their order. -/
structure Pruned (cfg cfg' : Cfg) (kept : List NodeRef) : Prop where
  mem_kept : ∀ n, n ∈ kept ↔ n < cfg.size ∧ ¬ Dead cfg n
  sublist : kept.Sublist (List.range cfg.size)
  nodes : List.Forall₂ (fun n node => cfg.nodes[n]? = some node) kept cfg'.nodes
  denotes : Denotes kept cfg'.po.Edge (fun n m => cfg.po.Edge n m ∧ ¬ Dead cfg m)
  proper : cfg'.po.Proper
  keys : ∀ n < cfg'.size, n ∈ cfg'.po.fwd ∧ n ∈ cfg'.po.rev
  entry : cfg'.entry = cfg.entry
  exits : cfg'.exits = cfg.exits
  translations : cfg'.translations = cfg.translations

theorem prune_spec {cfg : Cfg} (prunable : cfg.Prunable) (order : HashOrder) :
    ∃ cfg' kept, cfg.prune order = some cfg' ∧ Pruned cfg cfg' kept := by
  have start := pruning_start prunable.toWellFormed
  have enough : remaining cfg ⟨(List.range cfg.size).filter (· ∉ cfg.exits), cfg.po, []⟩ <
      pruneRounds cfg.size := by
    have few := length_le_size start.todo_nodup fun n member => (start.todo n member).1
    simp only [remaining, pruneRounds, List.length_nil, Nat.sub_zero, Nat.add_mul, Nat.one_mul] at few ⊢
    omega
  rcases start.run prunable order enough with ⟨s, looped, pruning, done⟩
  have gone {n : NodeRef} (valid : n < cfg.size) : n ∈ s.deleted ↔ Dead cfg n :=
    pruning.mem_deleted done valid fun edge => (prunable.valid edge).2
  let kept := (List.range cfg.size).filter (· ∉ s.deleted)
  have mem_kept (n : NodeRef) : n ∈ kept ↔ n < cfg.size ∧ ¬ Dead cfg n := by
    simp only [kept, List.mem_filter, List.mem_range, decide_eq_true_eq]
    exact and_congr_right fun valid => not_congr (gone valid)
  have nodup : kept.Nodup := List.nodup_range.filter _
  have edge_iff (n m : NodeRef) : (n, m) ∈ edges s.po.fwd ↔ cfg.po.Edge n m ∧ ¬ Dead cfg m := by
    rw [mem_edges]
    change s.po.Edge n m ↔ _
    rw [pruning.edge]
    exact and_congr_right fun edge => not_congr (gone (prunable.valid edge).2)
  have within {n m : NodeRef} (edge : cfg.po.Edge n m ∧ ¬ Dead cfg m) : n ∈ kept ∧ m ∈ kept := by
    have valid := prunable.valid edge.1
    refine ⟨(mem_kept n).mpr ⟨valid.1, ?_⟩, (mem_kept m).mpr ⟨valid.2, edge.2⟩⟩
    rintro ⟨-, succs⟩
    exact edge.2 (succs m edge.1)
  rcases Binrel.proper_empty.addNodes (List.range kept.length) with
    ⟨proper, no_edge, keys⟩
  rcases renameEdges_spec nodup (fun edge member => within ((edge_iff ..).mp member)) proper with
    ⟨po, renamed, proper', keys', mem⟩
  have present : ∀ n ∈ kept, ∃ node, cfg.nodes[n]? = some node :=
    fun n member => ⟨_, List.getElem?_eq_getElem ((mem_kept n).mp member).1⟩
  have nodes := forall₂_filterMap present
  have sublist : kept.Sublist (List.range cfg.size) := List.filter_sublist
  refine ⟨{ cfg with nodes := kept.filterMap (cfg.nodes[·]?), po := po }, kept, ?_, ?_⟩
  · simp only [prune, looped, Option.bind_eq_bind, Option.bind_some]
    rw [renamed, Option.bind_some, compactify_eq sublist]
  · refine ⟨mem_kept, ?_, nodes, ⟨nodup, within, ?_⟩, proper', ?_, rfl, rfl, rfl⟩
    · exact sublist
    · intro i j
      rw [mem, no_edge]
      simp only [Binrel.not_edge_empty, false_or, edge_iff]
      constructor
      · rintro ⟨n, m, edge, left, right⟩
        exact ⟨n, m, left, right, edge⟩
      · rintro ⟨n, m, left, right, edge⟩
        exact ⟨n, m, edge, left, right⟩
    · intro n valid
      rw [size, ← nodes.length_eq] at valid
      have listed : n ∈ List.range kept.length := List.mem_range.mpr valid
      exact ⟨(keys' n).1 ((keys n).1.mpr (.inl listed)), (keys' n).2 ((keys n).2.mpr (.inl listed))⟩

/-! Pruning an acyclic graph -/

section

variable {cfg : Cfg}

theorem Dead.not_reaches {n e : NodeRef} (dead : Dead cfg n) (path : cfg.Reaches n e) :
    e ∉ cfg.exits := by
  induction path using Relation.ReflTransGen.head_induction_on with
  | refl =>
    cases dead with
    | intro open' _ => exact open'
  | head edge _ ih =>
    cases dead with
    | intro _ succs => exact ih (succs _ edge)

theorem dead_iff (valid : ∀ {n m}, cfg.po.Edge n m → m < cfg.size) (acyclic : Acyclic cfg.po.Edge)
    (n : NodeRef) : Dead cfg n ↔ ∀ e ∈ cfg.exits, ¬ cfg.Reaches n e := by
  refine ⟨fun dead e exit path => dead.not_reaches path exit, ?_⟩
  have within {n m : NodeRef} (edge : cfg.po.Edge n m) : m ∈ Finset.range cfg.size :=
    Finset.mem_range.mpr (valid edge)
  induction n using acyclic.induction within with
  | step n ih =>
    intro cut
    refine .intro (fun exit => cut n exit .refl) fun m edge => ih m edge fun e exit path => ?_
    exact cut e exit (.head edge path)

end

/-- In every order of work, pruning an acyclic graph deletes the nodes from which no exit is
reached, and it numbers the others in their order. -/
theorem prune_removes_deadEnds {cfg : Cfg} (prunable : cfg.Prunable) (acyclic : Acyclic cfg.po.Edge)
    (order : HashOrder) :
    ∃ (cfg' : Cfg) (kept : List NodeRef), cfg.prune order = some cfg' ∧
      (∀ n, n ∈ kept ↔ n < cfg.size ∧ ∃ e ∈ cfg.exits, cfg.Reaches n e) ∧
      kept.Pairwise (· < ·) ∧ kept.length = cfg'.size ∧
      (∀ (i : Nat) n, kept[i]? = some n → cfg'.nodes[i]? = cfg.nodes[n]?) ∧
      ∀ i j, cfg'.po.Edge i j ↔ ∃ n m, kept[i]? = some n ∧ kept[j]? = some m ∧ cfg.po.Edge n m := by
  rcases prune_spec prunable order with ⟨cfg', kept, pruned, spec⟩
  have alive (n : NodeRef) : ¬ Dead cfg n ↔ ∃ e ∈ cfg.exits, cfg.Reaches n e := by
    rw [dead_iff (fun edge => (prunable.valid edge).2) acyclic]
    simp only [not_forall, not_not, exists_prop]
  refine ⟨cfg', kept, pruned, ?_, List.pairwise_lt_range.sublist spec.sublist, spec.nodes.length_eq,
    ?_, ?_⟩
  · intro n
    rw [spec.mem_kept, alive]
  · intro i n found
    rcases lookup_related spec.nodes found with ⟨node, here, original⟩
    rw [here, original]
  · intro i j
    rw [spec.denotes.edge_iff]
    constructor
    · rintro ⟨n, m, left, right, edge, -⟩
      exact ⟨n, m, left, right, edge⟩
    · rintro ⟨n, m, left, right, edge⟩
      exact ⟨n, m, left, right, edge, ((spec.mem_kept m).mp (List.mem_of_getElem? right)).2⟩

def deadBranch : Cfg :=
  ofEdges [Node.makeEntry, Node.makeExit, Node.makeEntry] [(0, 1), (0, 2)] 0 [1]

theorem deadBranch_pruned : ∃ (cfg' : Cfg) (kept : List NodeRef),
    deadBranch.prune .listed = some cfg' ∧
    (∀ n, n ∈ kept ↔ n < 3 ∧ ∃ e ∈ [1], deadBranch.Reaches n e) ∧
    kept.Pairwise (· < ·) ∧ kept.length = cfg'.size ∧
    (∀ (i : Nat) n, kept[i]? = some n → cfg'.nodes[i]? = deadBranch.nodes[n]?) ∧
    ∀ i j, cfg'.po.Edge i j ↔
      ∃ n m, kept[i]? = some n ∧ kept[j]? = some m ∧ deadBranch.po.Edge n m := by
  apply prune_removes_deadEnds
  · refine ⟨wellFormed_ofEdges (by decide), ?_⟩
    intro n m exit edge
    have listed := edge_ofEdges.mp edge
    rw [List.mem_singleton.mp exit] at listed
    simp at listed
  · exact acyclic_ofEdges (by decide)

end Clou.Cfg
