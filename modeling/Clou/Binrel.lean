import Mathlib.Data.List.AList
import Mathlib.Data.List.Nodup
import Clou.FiniteMap

/-! The binary relation container: a successor map and a predecessor map kept side
by side. Sets are duplicate-free lists, whose order is the iteration order. -/

namespace Clou

structure Binrel (T : Type) where
  fwd : AList (fun _ : T => List T)
  rev : AList (fun _ : T => List T)

namespace Binrel

variable {T : Type} [DecidableEq T]

def empty : Binrel T := ⟨∅, ∅⟩

/-- The subscript operator creates a missing entry as an empty set. -/
def get (map : AList (fun _ : T => List T)) (key : T) : List T := (map.lookup key).getD []

def succs (rel : Binrel T) (node : T) : List T := get rel.fwd node
def preds (rel : Binrel T) (node : T) : List T := get rel.rev node

def insert (rel : Binrel T) (src dst : T) : Binrel T :=
  ⟨rel.fwd.insert src ((rel.succs src).insert dst), rel.rev.insert dst ((rel.preds dst).insert src)⟩

def addNode (rel : Binrel T) (node : T) : Binrel T :=
  ⟨rel.fwd.insert node (rel.succs node), rel.rev.insert node (rel.preds node)⟩

def addNodes (rel : Binrel T) (nodes : List T) : Binrel T := nodes.foldl addNode rel

def insertAll (rel : Binrel T) (edges : List (T × T)) : Binrel T :=
  edges.foldl (fun rel edge => rel.insert edge.1 edge.2) rel

def converse (rel : Binrel T) : Binrel T := ⟨rel.rev, rel.fwd⟩

def eraseEdge (rel : Binrel T) (src dst : T) : Binrel T :=
  ⟨rel.fwd.insert src ((rel.succs src).erase dst), rel.rev.insert dst ((rel.preds dst).erase src)⟩

/-- One direction of erasing a node: it must have an entry, and so must every
node on the other side of one of its edges. -/
def eraseHalf (node : T) (rel1 rel2 : AList (fun _ : T => List T)) :
    Option (AList (fun _ : T => List T) × AList (fun _ : T => List T)) := do
  let others ← rel1.lookup node
  let rel2 ← others.foldlM (fun rel2 other => do
    let set ← rel2.lookup other
    pure (rel2.insert other (set.erase node))) rel2
  pure (rel1.erase node, rel2)

def eraseNode (rel : Binrel T) (node : T) : Option (Binrel T) := do
  let (fwd, rev) ← eraseHalf node rel.fwd rel.rev
  let (rev, fwd) ← eraseHalf node rev fwd
  pure ⟨fwd, rev⟩

def Edge (rel : Binrel T) (src dst : T) : Prop := dst ∈ rel.succs src

instance (rel : Binrel T) (src dst : T) : Decidable (rel.Edge src dst) :=
  inferInstanceAs (Decidable (dst ∈ rel.succs src))

/-- The two maps list the same edges, each once. -/
structure Consistent (rel : Binrel T) : Prop where
  mem_preds : ∀ {src dst}, src ∈ rel.preds dst ↔ rel.Edge src dst
  preds_nodup : ∀ node, (rel.preds node).Nodup

structure Proper (rel : Binrel T) : Prop extends Consistent rel where
  succs_nodup : ∀ node, (rel.succs node).Nodup

variable {map : AList (fun _ : T => List T)} {key : T}

theorem lookup_of_mem (present : key ∈ map) : map.lookup key = some (get map key) := by
  rcases FiniteMap.exists_of_mem present with ⟨set, found⟩
  rw [get, found, Option.getD_some]

theorem mem_of_mem_get {x : T} (member : x ∈ get map key) : key ∈ map := by
  by_contra absent
  simp [get, AList.lookup_eq_none.mpr absent] at member

@[simp] theorem get_insert_self (map : AList (fun _ : T => List T)) (key : T) (set : List T) :
    get (map.insert key set) key = set := by
  simp [get]

theorem get_insert_ne (map : AList (fun _ : T => List T)) {other : T} (set : List T)
    (different : other ≠ key) : get (map.insert key set) other = get map other := by
  simp [get, AList.lookup_insert_ne different]

theorem mem_get_insert (map : AList (fun _ : T => List T)) (key other x : T) (set : List T) :
    x ∈ get (map.insert key set) other ↔
      if other = key then x ∈ set else x ∈ get map other := by
  split
  · rename_i same
    rw [same, get_insert_self]
  · rename_i different
    rw [get_insert_ne map set different]

@[simp] theorem not_edge_empty (src dst : T) : ¬ (empty : Binrel T).Edge src dst := by
  simp [Edge, succs, empty, get]

theorem edge_insert (rel : Binrel T) (src dst x y : T) :
    (rel.insert src dst).Edge x y ↔ rel.Edge x y ∨ x = src ∧ y = dst := by
  simp only [Edge, succs, insert, mem_get_insert]
  split
  · rename_i same
    subst same
    simp [List.mem_insert_iff, or_comm]
  · rename_i different
    simp [different]

theorem mem_preds_insert (rel : Binrel T) (src dst x y : T) :
    x ∈ (rel.insert src dst).preds y ↔ x ∈ rel.preds y ∨ x = src ∧ y = dst := by
  simp only [preds, insert, mem_get_insert]
  split
  · rename_i same
    subst same
    simp [List.mem_insert_iff, or_comm]
  · rename_i different
    simp [different]

@[simp] theorem edge_addNode (rel : Binrel T) (node x y : T) :
    (rel.addNode node).Edge x y ↔ rel.Edge x y := by
  simp only [Edge, succs, addNode, mem_get_insert]
  split <;> simp_all

@[simp] theorem mem_preds_addNode (rel : Binrel T) (node x y : T) :
    x ∈ (rel.addNode node).preds y ↔ x ∈ rel.preds y := by
  simp only [preds, addNode, mem_get_insert]
  split <;> simp_all

theorem consistent_empty : (empty : Binrel T).Consistent := by
  constructor
  · intro src dst
    simp [preds, empty, get, Edge, succs]
  · intro node
    simp [preds, empty, get]

theorem nodup_get_insert {set : List T} (nodup : ∀ node, (get map node).Nodup) (added : set.Nodup)
    (node : T) : (get (map.insert key set) node).Nodup := by
  by_cases same : node = key
  · rw [same, get_insert_self]
    exact added
  · rw [get_insert_ne map set same]
    exact nodup node

theorem Consistent.insert {rel : Binrel T} (consistent : rel.Consistent) (src dst : T) :
    (rel.insert src dst).Consistent := by
  constructor
  · intro x y
    rw [mem_preds_insert, edge_insert, consistent.mem_preds]
  · exact nodup_get_insert consistent.preds_nodup (consistent.preds_nodup dst).insert

theorem Consistent.addNode {rel : Binrel T} (consistent : rel.Consistent) (added : T) :
    (rel.addNode added).Consistent := by
  constructor
  · intro x y
    rw [mem_preds_addNode, edge_addNode, consistent.mem_preds]
  · exact nodup_get_insert consistent.preds_nodup (consistent.preds_nodup added)

theorem mem_get_erase (nodup : (get map key).Nodup) (x other y : T) :
    x ∈ get (map.insert key ((get map key).erase y)) other ↔
      x ∈ get map other ∧ ¬ (other = key ∧ x = y) := by
  rw [mem_get_insert]
  split
  · rename_i same
    subst same
    rw [nodup.mem_erase_iff, and_comm]
    simp
  · rename_i different
    simp [different]

theorem proper_empty : (empty : Binrel T).Proper :=
  ⟨consistent_empty, fun node => by simp [succs, empty, get]⟩

namespace Proper

variable {rel : Binrel T} {map : AList (fun _ : T => List T)}

section Proper

variable (proper : rel.Proper)

include proper

theorem insert (src dst : T) : (rel.insert src dst).Proper :=
  ⟨proper.toConsistent.insert src dst,
    nodup_get_insert proper.succs_nodup (proper.succs_nodup src).insert⟩

theorem addNode (added : T) : (rel.addNode added).Proper :=
  ⟨proper.toConsistent.addNode added,
    nodup_get_insert proper.succs_nodup (proper.succs_nodup added)⟩

theorem edge_converse {src dst : T} : rel.converse.Edge src dst ↔ rel.Edge dst src :=
  proper.mem_preds

theorem converse : rel.converse.Proper :=
  ⟨⟨proper.edge_converse.symm, proper.succs_nodup⟩, proper.preds_nodup⟩

theorem edge_eraseEdge (src dst x y : T) :
    (rel.eraseEdge src dst).Edge x y ↔ rel.Edge x y ∧ ¬ (x = src ∧ y = dst) :=
  mem_get_erase (proper.succs_nodup src) y x dst

theorem eraseEdge (src dst : T) : (rel.eraseEdge src dst).Proper := by
  constructor
  · constructor
    · intro x y
      have erased : x ∈ (rel.eraseEdge src dst).preds y ↔
          x ∈ rel.preds y ∧ ¬ (y = dst ∧ x = src) :=
        mem_get_erase (proper.preds_nodup dst) x y src
      rw [erased, proper.edge_eraseEdge, proper.mem_preds, and_comm (a := x = src)]
    · exact nodup_get_insert proper.preds_nodup ((proper.preds_nodup dst).erase src)
  · exact nodup_get_insert proper.succs_nodup ((proper.succs_nodup src).erase dst)

theorem addNodes (nodes : List T) :
    (rel.addNodes nodes).Proper ∧ (∀ x y, (rel.addNodes nodes).Edge x y ↔ rel.Edge x y) ∧
      ∀ k, (k ∈ (rel.addNodes nodes).fwd ↔ k ∈ nodes ∨ k ∈ rel.fwd) ∧
        (k ∈ (rel.addNodes nodes).rev ↔ k ∈ nodes ∨ k ∈ rel.rev) := by
  induction nodes generalizing rel with
  | nil => simp [Binrel.addNodes, proper]
  | cons node nodes ih =>
    rcases ih (proper.addNode node) with ⟨proper', edges, keys⟩
    refine ⟨proper', fun x y => (edges x y).trans (edge_addNode ..), fun k => ?_⟩
    have fwd : k ∈ (rel.addNode node).fwd ↔ k = node ∨ k ∈ rel.fwd := AList.mem_insert _
    have rev : k ∈ (rel.addNode node).rev ↔ k = node ∨ k ∈ rel.rev := AList.mem_insert _
    change (k ∈ ((rel.addNode node).addNodes nodes).fwd ↔ _) ∧
      (k ∈ ((rel.addNode node).addNodes nodes).rev ↔ _)
    rw [(keys k).1, (keys k).2, fwd, rev, List.mem_cons]
    exact ⟨by rw [or_left_comm, or_assoc], by rw [or_left_comm, or_assoc]⟩

theorem insertAll (edges : List (T × T)) : (rel.insertAll edges).Proper ∧
      (∀ x y, (rel.insertAll edges).Edge x y ↔ rel.Edge x y ∨ (x, y) ∈ edges) ∧
      ∀ k, (k ∈ rel.fwd → k ∈ (rel.insertAll edges).fwd) ∧
        (k ∈ rel.rev → k ∈ (rel.insertAll edges).rev) := by
  induction edges generalizing rel with
  | nil => exact ⟨proper, by simp [Binrel.insertAll], fun k => ⟨id, id⟩⟩
  | cons edge edges ih =>
    rcases ih (proper.insert edge.1 edge.2) with ⟨proper', mem, keys⟩
    refine ⟨proper', ?_, ?_⟩
    · intro x y
      change ((rel.insert edge.1 edge.2).insertAll edges).Edge x y ↔ _
      rw [mem, edge_insert, List.mem_cons, Prod.ext_iff, or_assoc]
    · intro k
      constructor
      · exact fun old => (keys k).1 ((AList.mem_insert _).mpr (.inr old))
      · exact fun old => (keys k).2 ((AList.mem_insert _).mpr (.inr old))

omit proper in
theorem erase_sets (nodup : ∀ key, (get map key).Nodup) {keys : List T}
    (present : ∀ key ∈ keys, key ∈ map) (node : T) :
    ∃ map', keys.foldlM (fun map key => (map.lookup key).bind fun set =>
        some (map.insert key (set.erase node))) map = some map' ∧
      (∀ key, (get map' key).Nodup) ∧ (∀ key, key ∈ map' ↔ key ∈ map) ∧
      ∀ key x, x ∈ get map' key ↔ x ∈ get map key ∧ ¬ (key ∈ keys ∧ x = node) := by
  induction keys generalizing map with
  | nil => exact ⟨map, rfl, nodup, fun _ => Iff.rfl, by simp⟩
  | cons key keys ih =>
    rcases Option.isSome_iff_exists.mp
      (AList.lookup_isSome.mpr (present key List.mem_cons_self)) with ⟨set, found⟩
    have here : get map key = set := by rw [get, found, Option.getD_some]
    have smaller : (set.erase node).Nodup := here ▸ (nodup key).erase node
    have present' : ∀ other ∈ keys, other ∈ map.insert key (set.erase node) :=
      fun other later => (AList.mem_insert map).mpr (.inr (present other (List.mem_cons_of_mem key later)))
    rcases ih (nodup_get_insert nodup smaller) present' with ⟨map', folded, nodup', keys', mem⟩
    refine ⟨map', ?_, nodup', ?_, ?_⟩
    · rw [List.foldlM_cons, found]
      exact folded
    · intro other
      rw [keys', AList.mem_insert, or_iff_right_iff_imp]
      rintro rfl
      exact present other List.mem_cons_self
    · intro other x
      rw [mem, ← here, mem_get_erase (nodup key), and_assoc, List.mem_cons, or_and_right, not_or]

variable {node : T}

theorem lookup_rev (listed : node ∈ rel.rev) :
    ∃ preds, rel.rev.lookup node = some preds ∧ ∀ src, src ∈ preds ↔ rel.Edge src node := by
  rcases FiniteMap.exists_of_mem listed with ⟨preds, found⟩
  refine ⟨preds, found, fun src => ?_⟩
  rw [← proper.mem_preds, Binrel.preds, get, found, Option.getD_some]

omit proper in
theorem get_erase (map : AList (fun _ : T => List T)) (node key : T) :
    get (map.erase node) key = if key = node then [] else get map key := by
  split
  · rename_i same
    rw [same, get, AList.lookup_erase, Option.getD_none]
  · rename_i other
    rw [get, AList.lookup_erase_ne other, get]

omit proper in
theorem nodup_get_erase (nodup : ∀ key, (get map key).Nodup) (node key : T) :
    (get (map.erase node) key).Nodup := by
  rw [get_erase]
  split
  · exact List.nodup_nil
  · exact nodup key

omit proper in
theorem eraseHalf_spec {map1 map2 : AList (fun _ : T => List T)}
    (nodup : ∀ key, (get map2 key).Nodup) (listed : node ∈ map1)
    (present : ∀ other ∈ get map1 node, other ∈ map2) :
    ∃ map2', eraseHalf node map1 map2 = some (map1.erase node, map2') ∧
      (∀ key, (get map2' key).Nodup) ∧ (∀ key, key ∈ map2' ↔ key ∈ map2) ∧
      ∀ key x, x ∈ get map2' key ↔ x ∈ get map2 key ∧ ¬ (key ∈ get map1 node ∧ x = node) := by
  obtain ⟨map2', folded, facts⟩ := erase_sets nodup present node
  refine ⟨map2', ?_, facts⟩
  simp only [eraseHalf, lookup_of_mem listed, Option.bind_eq_bind, Option.bind_some,
    Option.pure_def, folded]

/-- Erasing a node erases the edges at it in both maps, a loop at the node included: the
first half takes the loop out of the set that the second half goes through. -/
theorem eraseNode (source : node ∈ rel.fwd) (target : node ∈ rel.rev)
    (targets : ∀ {dst}, rel.Edge node dst → dst ∈ rel.rev)
    (sources : ∀ {src}, rel.Edge src node → src ∈ rel.fwd) :
    ∃ rel', rel.eraseNode node = some rel' ∧ rel'.Proper ∧
      (∀ src dst, rel'.Edge src dst ↔ rel.Edge src dst ∧ src ≠ node ∧ dst ≠ node) ∧
      (∀ key, key ∈ rel'.fwd ↔ key ∈ rel.fwd ∧ key ≠ node) ∧
      ∀ key, key ∈ rel'.rev ↔ key ∈ rel.rev ∧ key ≠ node := by
  obtain ⟨rev, first, nodup_rev, keys_rev, mem_rev⟩ :=
    eraseHalf_spec proper.preds_nodup source (fun _ => targets)
  have preds (src dst : T) : src ∈ get rev dst ↔ rel.Edge src dst ∧ src ≠ node := by
    have before : src ∈ get rel.rev dst ↔ rel.Edge src dst := proper.mem_preds
    rw [mem_rev, before]
    constructor
    · intro kept
      exact ⟨kept.1, fun same => kept.2 ⟨same ▸ kept.1, same⟩⟩
    · intro kept
      exact ⟨kept.1, fun both => kept.2 both.2⟩
  have present : ∀ src ∈ get rev node, src ∈ rel.fwd.erase node := by
    intro src member
    have kept := (preds src node).mp member
    exact AList.mem_erase.mpr ⟨kept.2, sources kept.1⟩
  obtain ⟨fwd, second, nodup_fwd, keys_fwd, mem_fwd⟩ :=
    eraseHalf_spec (nodup_get_erase proper.succs_nodup node) ((keys_rev node).mpr target) present
  have succs (src dst : T) : dst ∈ get fwd src ↔ rel.Edge src dst ∧ src ≠ node ∧ dst ≠ node := by
    rw [mem_fwd, get_erase, preds]
    by_cases here : src = node
    · simp [here]
    · rw [if_neg here]
      constructor
      · intro kept
        exact ⟨kept.1, here, fun same => kept.2 ⟨⟨same ▸ kept.1, here⟩, same⟩⟩
      · intro kept
        exact ⟨kept.1, fun both => kept.2.2 both.2⟩
  refine ⟨⟨fwd, rev.erase node⟩, ?_, ⟨⟨?_, nodup_get_erase nodup_rev node⟩, nodup_fwd⟩, succs, ?_, ?_⟩
  · simp only [Binrel.eraseNode, first, second, Option.bind_eq_bind, Option.bind_some, Option.pure_def]
  · intro src dst
    change src ∈ get (rev.erase node) dst ↔ dst ∈ get fwd src
    rw [succs, get_erase]
    by_cases here : dst = node
    · simp [here]
    · rw [if_neg here, preds]
      simp [here]
  · intro key
    rw [keys_fwd, AList.mem_erase, and_comm]
  · intro key
    rw [AList.mem_erase, keys_rev, and_comm]

/-- Erasing a node without successors erases the edges to it. -/
theorem eraseNode_leaf (leaf : rel.fwd.lookup node = some []) (listed : node ∈ rel.rev)
    (sources : ∀ {src}, rel.Edge src node → src ∈ rel.fwd) :
    ∃ rel', rel.eraseNode node = some rel' ∧ rel'.Proper ∧
      (∀ src dst, rel'.Edge src dst ↔ rel.Edge src dst ∧ dst ≠ node) ∧
      (∀ key, key ∈ rel'.fwd ↔ key ∈ rel.fwd ∧ key ≠ node) ∧
      ∀ key, key ∈ rel'.rev ↔ key ∈ rel.rev ∧ key ≠ node := by
  have no_succs {dst : T} : ¬ rel.Edge node dst := by
    simp [Edge, succs, get, leaf]
  have source : node ∈ rel.fwd := AList.lookup_isSome.mp (by rw [leaf, Option.isSome_some])
  obtain ⟨rel', erased, proper', edges, keys⟩ :=
    proper.eraseNode source listed (fun edge => absurd edge no_succs) sources
  refine ⟨rel', erased, proper', fun src dst => ?_, keys⟩
  rw [edges]
  constructor
  · intro kept
    exact ⟨kept.1, kept.2.2⟩
  · intro kept
    exact ⟨kept.1, fun same => no_succs (same ▸ kept.1), kept.2⟩

end Proper

end Proper

end Binrel

end Clou
