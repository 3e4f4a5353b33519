import Clou.Binrel
import Clou.History

/-! What a relation holds after any sequence of operations on it. -/

namespace Clou

namespace Binrel

open History

variable {T : Type} [DecidableEq T]

inductive Op (T : Type) where
  | addNode (node : T)
  | insert (src dst : T)
  | eraseEdge (src dst : T)
  | eraseNode (node : T)
  deriving DecidableEq

def Op.expects : Op T → List T
  | .addNode _ => []
  | .insert src dst => [src, dst]
  | .eraseEdge src dst => [src, dst]
  | .eraseNode node => [node]

def apply (rel : Binrel T) : Op T → Option (Binrel T)
  | .addNode node => some (rel.addNode node)
  | .insert src dst => some (rel.insert src dst)
  | .eraseEdge src dst => some (rel.eraseEdge src dst)
  | .eraseNode node => rel.eraseNode node

def Added (ops : List (Op T)) (node : T) : Prop :=
  Since (· = .addNode node) (· = .eraseNode node) ops

def Inserted (ops : List (Op T)) (src dst : T) : Prop :=
  Since (· = .insert src dst)
    (fun op => op = .eraseEdge src dst ∨ op = .eraseNode src ∨ op = .eraseNode dst) ops

def Allowed (ops : List (Op T)) (op : Op T) : Prop := ∀ node ∈ op.expects, Added ops node

/-- The same sets under the same keys, in whatever order the hash tables list them. -/
structure Rehash (rel rel' : Binrel T) : Prop where
  fwd : ∀ key, key ∈ rel'.fwd ↔ key ∈ rel.fwd
  rev : ∀ key, key ∈ rel'.rev ↔ key ∈ rel.rev
  succs : ∀ node, (rel'.succs node).Perm (rel.succs node)
  preds : ∀ node, (rel'.preds node).Perm (rel.preds node)

/-- The relations that a sequence of operations can leave. Between two operations the
order of any set may change. -/
inductive Run : List (Op T) → Binrel T → Prop
  | empty : Run [] empty
  | apply {ops rel op rel'} : Run ops rel → rel.apply op = some rel' → Run (ops ++ [op]) rel'
  | rehash {ops rel rel'} : Run ops rel → rel.Rehash rel' → Run ops rel'

/-- The relation holds what the operations so far say. -/
structure Tracks (ops : List (Op T)) (rel : Binrel T) : Prop extends Proper rel where
  fwd : ∀ node, node ∈ rel.fwd ↔ Added ops node
  rev : ∀ node, node ∈ rel.rev ↔ Added ops node
  edges : ∀ src dst, rel.Edge src dst ↔ Inserted ops src dst

namespace Tracks

variable {ops : List (Op T)} {rel : Binrel T} {src dst : T}

section

variable (tracks : Tracks ops rel)

include tracks

theorem source (edge : rel.Edge src dst) : Added ops src :=
  (tracks.fwd src).mp (mem_of_mem_get edge)

theorem target (edge : rel.Edge src dst) : Added ops dst :=
  (tracks.rev dst).mp (mem_of_mem_get (tracks.mem_preds.mpr edge))

omit tracks in
theorem empty : Tracks [] (empty : Binrel T) := by
  refine ⟨proper_empty, fun node => ?_, fun node => ?_, fun src dst => ?_⟩
  · simp [Binrel.empty, Added]
  · simp [Binrel.empty, Added]
  · simp [Inserted]

theorem rehash {rel' : Binrel T} (same : rel.Rehash rel') : Tracks ops rel' := by
  have edge (src dst : T) : rel'.Edge src dst ↔ rel.Edge src dst := (same.succs src).mem_iff
  refine ⟨⟨⟨?_, ?_⟩, ?_⟩, ?_, ?_, ?_⟩
  · intro src dst
    rw [(same.preds dst).mem_iff, edge, tracks.mem_preds]
  · intro node
    exact (same.preds node).nodup_iff.mpr (tracks.preds_nodup node)
  · intro node
    exact (same.succs node).nodup_iff.mpr (tracks.succs_nodup node)
  · intro node
    rw [same.fwd, tracks.fwd]
  · intro node
    rw [same.rev, tracks.rev]
  · intro src dst
    rw [edge, tracks.edges]

theorem addNode (node : T) : Tracks (ops ++ [.addNode node]) (rel.addNode node) := by
  refine ⟨tracks.toProper.addNode node, fun other => ?_, fun other => ?_, fun src dst => ?_⟩
  · have keys : other ∈ (rel.addNode node).fwd ↔ other = node ∨ other ∈ rel.fwd := AList.mem_insert _
    rw [keys, tracks.fwd]
    simp [Added, eq_comm]
  · have keys : other ∈ (rel.addNode node).rev ↔ other = node ∨ other ∈ rel.rev := AList.mem_insert _
    rw [keys, tracks.rev]
    simp [Added, eq_comm]
  · rw [edge_addNode, tracks.edges]
    simp [Inserted]

theorem insert (source : Added ops src) (target : Added ops dst) :
    Tracks (ops ++ [.insert src dst]) (rel.insert src dst) := by
  refine ⟨tracks.toProper.insert src dst, fun other => ?_, fun other => ?_, fun x y => ?_⟩
  · have keys : other ∈ (rel.insert src dst).fwd ↔ other = src ∨ other ∈ rel.fwd := AList.mem_insert _
    rw [keys, tracks.fwd, or_iff_right_of_imp (fun same => same ▸ source)]
    simp [Added]
  · have keys : other ∈ (rel.insert src dst).rev ↔ other = dst ∨ other ∈ rel.rev := AList.mem_insert _
    rw [keys, tracks.rev, or_iff_right_of_imp (fun same => same ▸ target)]
    simp [Added]
  · rw [edge_insert, tracks.edges, or_comm]
    simp [Inserted, eq_comm]

theorem eraseEdge (source : Added ops src) (target : Added ops dst) :
    Tracks (ops ++ [.eraseEdge src dst]) (rel.eraseEdge src dst) := by
  refine ⟨tracks.toProper.eraseEdge src dst, fun other => ?_, fun other => ?_, fun x y => ?_⟩
  · have keys : other ∈ (rel.eraseEdge src dst).fwd ↔ other = src ∨ other ∈ rel.fwd :=
      AList.mem_insert _
    rw [keys, tracks.fwd, or_iff_right_of_imp (fun same => same ▸ source)]
    simp [Added]
  · have keys : other ∈ (rel.eraseEdge src dst).rev ↔ other = dst ∨ other ∈ rel.rev :=
      AList.mem_insert _
    rw [keys, tracks.rev, or_iff_right_of_imp (fun same => same ▸ target)]
    simp [Added]
  · rw [tracks.toProper.edge_eraseEdge, tracks.edges]
    simp [Inserted, eq_comm]

/-- Erasing a node that was added succeeds and takes the edges at it away. -/
theorem eraseNode_spec {node : T} (added : Added ops node) :
    ∃ rel', rel.eraseNode node = some rel' ∧ rel'.Proper ∧
      (∀ src dst, rel'.Edge src dst ↔ rel.Edge src dst ∧ src ≠ node ∧ dst ≠ node) ∧
      (∀ key, key ∈ rel'.fwd ↔ key ∈ rel.fwd ∧ key ≠ node) ∧
      ∀ key, key ∈ rel'.rev ↔ key ∈ rel.rev ∧ key ≠ node :=
  tracks.toProper.eraseNode ((tracks.fwd node).mpr added) ((tracks.rev node).mpr added)
    (fun edge => (tracks.rev _).mpr (tracks.target edge))
    (fun edge => (tracks.fwd _).mpr (tracks.source edge))

theorem eraseNode {node : T} (added : Added ops node) :
    ∃ rel', rel.eraseNode node = some rel' ∧ Tracks (ops ++ [.eraseNode node]) rel' := by
  obtain ⟨rel', erased, proper, edges, fwd, rev⟩ := tracks.eraseNode_spec added
  refine ⟨rel', erased, proper, fun other => ?_, fun other => ?_, fun x y => ?_⟩
  · rw [fwd, tracks.fwd]
    simp [Added, eq_comm]
  · rw [rev, tracks.rev]
    simp [Added, eq_comm]
  · rw [edges, tracks.edges]
    simp [Inserted, eq_comm]

theorem apply {op : Op T} (allowed : Allowed ops op) :
    ∃ rel', rel.apply op = some rel' ∧ Tracks (ops ++ [op]) rel' := by
  cases op with
  | addNode node => exact ⟨_, rfl, tracks.addNode node⟩
  | insert src dst =>
    exact ⟨_, rfl, tracks.insert (allowed src (by simp [Op.expects])) (allowed dst (by simp [Op.expects]))⟩
  | eraseEdge src dst =>
    exact ⟨_, rfl, tracks.eraseEdge (allowed src (by simp [Op.expects])) (allowed dst (by simp [Op.expects]))⟩
  | eraseNode node => exact tracks.eraseNode (allowed node (by simp [Op.expects]))

end

end Tracks

theorem Run.tracks {ops : List (Op T)} {rel : Binrel T} (run : Run ops rel)
    (legal : Legal Allowed ops) : Tracks ops rel := by
  induction run with
  | empty => exact Tracks.empty
  | apply before applied ih =>
    rw [legal_snoc] at legal
    obtain ⟨rel', succeeds, tracks⟩ := (ih legal.1).apply legal.2
    obtain rfl : _ = rel' := Option.some.inj (applied.symm.trans succeeds)
    exact tracks
  | rehash before same ih => exact (ih legal).rehash same

theorem exists_run {ops : List (Op T)} (legal : Legal Allowed ops) :
    ∃ rel : Binrel T, Run ops rel := by
  induction ops using List.reverseRecOn with
  | nil => exact ⟨empty, .empty⟩
  | append_singleton ops op ih =>
    rw [legal_snoc] at legal
    obtain ⟨rel, run⟩ := ih legal.1
    obtain ⟨rel', applied, _⟩ := (run.tracks legal.1).apply legal.2
    exact ⟨rel', run.apply applied⟩

/-- After any sequence of operations on added nodes both maps have the added nodes as
keys and list the edges inserted and not erased since. Erasing a node then finds
every entry it asks for, and takes away the edges at the node and nothing else. -/
theorem run_in_step {ops : List (Op T)} (legal : Legal Allowed ops) :
    (∃ rel, Run ops rel) ∧ ∀ rel, Run ops rel →
      (∀ node, (node ∈ rel.fwd ↔ Added ops node) ∧ (node ∈ rel.rev ↔ Added ops node)) ∧
      (∀ src dst, (dst ∈ rel.succs src ↔ Inserted ops src dst) ∧
        (src ∈ rel.preds dst ↔ Inserted ops src dst)) ∧
      (∀ op, Allowed ops op → ∃ rel', rel.apply op = some rel') ∧
      ∀ node, Added ops node → ∃ rel', rel.eraseNode node = some rel' ∧
        (∀ src dst, (dst ∈ rel'.succs src ↔ dst ∈ rel.succs src ∧ src ≠ node ∧ dst ≠ node) ∧
          (src ∈ rel'.preds dst ↔ src ∈ rel.preds dst ∧ src ≠ node ∧ dst ≠ node)) ∧
        (∀ key, (key ∈ rel'.fwd ↔ key ∈ rel.fwd ∧ key ≠ node) ∧
          (key ∈ rel'.rev ↔ key ∈ rel.rev ∧ key ≠ node)) := by
  refine ⟨exists_run legal, fun rel run => ?_⟩
  have tracks := run.tracks legal
  refine ⟨fun node => ⟨tracks.fwd node, tracks.rev node⟩, fun src dst => ?_, fun op allowed => ?_,
    fun node added => ?_⟩
  · exact ⟨tracks.edges src dst, tracks.mem_preds.trans (tracks.edges src dst)⟩
  · obtain ⟨rel', applied, _⟩ := tracks.apply allowed
    exact ⟨rel', applied⟩
  · obtain ⟨rel', erased, proper, edges, fwd, rev⟩ := tracks.eraseNode_spec added
    refine ⟨rel', erased, fun src dst => ⟨edges src dst, ?_⟩, fun key => ⟨fwd key, rev key⟩⟩
    rw [proper.mem_preds, edges, tracks.mem_preds]

def loopRun : List (Op Nat) := [] ++ [.addNode 0] ++ [.addNode 1] ++ [.insert 0 1] ++ [.insert 0 0]

theorem loopRun_legal : Legal Allowed loopRun := by
  simp only [loopRun, legal_snoc, legal_nil, Allowed, Op.expects, Added, since_snoc]
  simp

theorem run_in_step_loopRun : Legal Allowed loopRun ∧ ∀ rel, Run loopRun rel →
    0 ∈ rel.succs 0 ∧ 0 ∈ rel.preds 0 ∧ ∃ rel', rel.eraseNode 0 = some rel' ∧ 0 ∉ rel'.preds 1 := by
  refine ⟨loopRun_legal, fun rel run => ?_⟩
  obtain ⟨_, edges, _, erase⟩ := (run_in_step loopRun_legal).2 rel run
  have loop : Inserted loopRun 0 0 := by
    simp only [loopRun, Inserted, since_snoc]
    simp
  have added : Added loopRun 0 := by
    simp only [loopRun, Added, since_snoc]
    simp
  obtain ⟨rel', erased, kept, _⟩ := erase 0 added
  exact ⟨(edges 0 0).1.mpr loop, (edges 0 0).2.mpr loop, rel', erased, by simp [(kept 0 1).2]⟩

end Binrel

end Clou
