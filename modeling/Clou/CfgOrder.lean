import Clou.BlockCfg

/-! Program order as a relation between nodes: the blocks before each block are collected along a
reverse postorder. -/

namespace Clou

namespace Binrel

variable {T : Type} [DecidableEq T]

structure Visited (T : Type) where
  done : List T
  order : List T

/-- The visit of a node. The result says whether it and all it leads to are done. -/
def postorderRec (rel : Binrel T) : Nat → Visited T → T → Option (Bool × Visited T)
  | 0, _, _ => none
  | fuel + 1, s, val =>
    if val ∈ s.done then some (true, s)
    else do
      let succs ← rel.fwd.lookup val
      let (acc, s) ← succs.foldlM (fun (acc, s) succ =>
        if acc then postorderRec rel fuel s succ else some (false, s)) (true, s)
      if acc then some (true, ⟨s.done.insert val, s.order ++ [val]⟩) else some (false, s)

def reversePostorder (rel : Binrel T) (entry : T) : Option (List T) := do
  let (_, s) ← postorderRec rel (rel.fwd.entries.length + 1) ⟨[], []⟩ entry
  some s.order.reverse

end Binrel

structure CfgOrder where
  bcfg : BlockCfg
  map : AList (fun _ : NodeRef => List NodeRef)

namespace CfgOrder

structure State where
  ins : AList (fun _ : NodeRef => List NodeRef)
  outs : AList (fun _ : NodeRef => List NodeRef)

def orderStep (po : Binrel NodeRef) (s : State) (ref : NodeRef) : Option State := do
  let preds ← po.rev.lookup ref
  let set ← preds.foldlM (fun set pred => (s.outs.lookup pred).map (set ∪ ·)) []
  some ⟨FiniteMap.emplace s.ins ref set, FiniteMap.emplace s.outs ref (set.insert ref)⟩

def construct (cfg : Cfg) : Option CfgOrder := do
  let bcfg ← BlockCfg.construct cfg
  let order ← bcfg.po.reversePostorder bcfg.entry
  let s ← order.foldlM (orderStep bcfg.po) ⟨∅, ∅⟩
  some ⟨bcfg, s.ins⟩

def before (order : CfgOrder) (a b : NodeRef) : Option Bool := do
  let aBlk ← order.bcfg.ref2block.lookup a
  let bBlk ← order.bcfg.ref2block.lookup b
  if aBlk = bBlk then
    let block ← order.bcfg.blocks.lookup aBlk
    some (block.idxOf a < block.idxOf b)
  else
    let preds ← order.map.lookup bBlk
    some (aBlk ∈ preds)

end CfgOrder

namespace Binrel

variable {T : Type} [DecidableEq T] {rel : Binrel T}

structure Ordered (rel : Binrel T) (s : Visited T) : Prop where
  done : ∀ x, x ∈ s.done ↔ x ∈ s.order
  nodup : s.order.Nodup
  closed : ∀ {x y}, x ∈ s.order → rel.Edge x y → y ∈ s.order
  sorted : s.order.Pairwise (fun x y => ¬ rel.Edge x y)

structure Extends (rel : Binrel T) (s s' : Visited T) (starts : List T) : Prop where
  ordered : Ordered rel s'
  kept : ∀ x ∈ s.order, x ∈ s'.order
  added : ∀ x ∈ starts, x ∈ s'.order
  reached : ∀ x ∈ s'.order, x ∈ s.order ∨ ∃ start ∈ starts, Relation.ReflTransGen rel.Edge start x

variable {s : Visited T}

/-- Successors are visited one after the other, if each of them can be. -/
theorem visit_succs {fuel : Nat} {succs : List T}
    (visit : ∀ succ ∈ succs, ∀ s, Ordered rel s →
      ∃ s', postorderRec rel fuel s succ = some (true, s') ∧ Extends rel s s' [succ])
    (ordered : Ordered rel s) :
    ∃ s', succs.foldlM (fun (acc, s) succ =>
        if acc then postorderRec rel fuel s succ else some (false, s)) (true, s) = some (true, s') ∧
      Extends rel s s' succs := by
  induction succs generalizing s with
  | nil => exact ⟨s, rfl, ordered, fun x known => known, by simp, fun x known => .inl known⟩
  | cons succ succs ih =>
    rcases visit succ List.mem_cons_self s ordered with ⟨s₁, visited, first⟩
    rcases ih (fun succ later => visit succ (List.mem_cons_of_mem _ later)) first.ordered with
      ⟨s', folded, rest⟩
    refine ⟨s', ?_, rest.ordered, fun x known => rest.kept x (first.kept x known), ?_, ?_⟩
    · rw [List.foldlM_cons]
      change (postorderRec rel fuel s succ).bind _ = _
      rw [visited]
      exact folded
    · intro x start
      rcases List.mem_cons.mp start with rfl | later
      · exact rest.kept x (first.added x List.mem_cons_self)
      · exact rest.added x later
    · intro x known
      rcases rest.reached x known with old | ⟨start, later, path⟩
      · rcases first.reached x old with older | ⟨start, here, path⟩
        · exact .inl older
        · exact .inr ⟨start, List.mem_cons.mpr (.inl (List.mem_singleton.mp here)), path⟩
      · exact .inr ⟨start, List.mem_cons_of_mem _ later, path⟩

theorem Extends.finish (acyclic : Acyclic rel.Edge) {val : T} {s' : Visited T}
    (extended : Extends rel s s' (rel.succs val)) (new : val ∉ s.order) :
    Extends rel s ⟨s'.done.insert val, s'.order ++ [val]⟩ [val] := by
  have fresh : val ∉ s'.order := fun known => by
    rcases extended.reached val known with old | ⟨start, edge, path⟩
    · exact new old
    · exact acyclic val (.head' edge path)
  have mem {x : T} : x ∈ s'.order ++ [val] ↔ x ∈ s'.order ∨ x = val := by
    rw [List.mem_append, List.mem_singleton]
  have old := extended.ordered
  refine ⟨⟨?_, ?_, ?_, ?_⟩, ?_, ?_, ?_⟩
  · intro x
    rw [List.mem_insert_iff, mem, old.done, or_comm]
  · exact List.nodup_append'.mpr ⟨old.nodup, List.nodup_singleton val, by simpa using fresh⟩
  · intro x y known edge
    rcases mem.mp known with earlier | rfl
    · exact mem.mpr (.inl (old.closed earlier edge))
    · exact mem.mpr (.inl (extended.added y edge))
  · refine List.pairwise_append.mpr ⟨old.sorted, List.pairwise_singleton .., ?_⟩
    intro x known y last edge
    rw [List.mem_singleton.mp last] at edge
    exact fresh (old.closed known edge)
  · exact fun x known => mem.mpr (.inl (extended.kept x known))
  · exact fun x start => mem.mpr (.inr (List.mem_singleton.mp start))
  · intro x known
    rcases mem.mp known with earlier | rfl
    · rcases extended.reached x earlier with before | ⟨start, edge, path⟩
      · exact .inl before
      · exact .inr ⟨val, List.mem_singleton_self val, .head edge path⟩
    · exact .inr ⟨x, List.mem_singleton_self x, .refl⟩

theorem postorderRec_spec (acyclic : Acyclic rel.Edge) {among : Finset T}
    (present : ∀ x ∈ among, x ∈ rel.fwd) (within : ∀ {x y}, rel.Edge x y → y ∈ among) {fuel : Nat}
    (ordered : Ordered rel s) {val : T} (inside : val ∈ among)
    (enough : (ancestors (Function.swap rel.Edge) among val).card < fuel) :
    ∃ s', postorderRec rel fuel s val = some (true, s') ∧ Extends rel s s' [val] := by
  induction fuel generalizing s val with
  | zero => cases enough
  | succ fuel ih =>
    unfold postorderRec
    split
    · rename_i known
      refine ⟨s, rfl, ordered, fun x old => old, ?_, fun x old => .inl old⟩
      intro x start
      rw [List.mem_singleton.mp start]
      exact (ordered.done val).mp known
    · rename_i new
      have new' : val ∉ s.order := fun old => new ((ordered.done val).mpr old)
      have visit : ∀ succ ∈ rel.succs val, ∀ s, Ordered rel s →
          ∃ s', postorderRec rel fuel s succ = some (true, s') ∧ Extends rel s s' [succ] := by
        intro succ edge s ordered
        have deeper := acyclic.swap.ancestors_lt (within edge) edge
        exact ih ordered (within edge) (by omega)
      rcases visit_succs visit ordered with ⟨s', folded, extended⟩
      refine ⟨_, ?_, extended.finish acyclic new'⟩
      rw [lookup_of_mem (present val inside)]
      change Option.bind (List.foldlM _ (true, s) (rel.succs val)) _ = _
      rw [folded]
      rfl

theorem reversePostorder_spec (acyclic : Acyclic rel.Edge)
    (within : ∀ {x y}, rel.Edge x y → y ∈ rel.fwd) {entry : T} (present : entry ∈ rel.fwd) :
    ∃ order, rel.reversePostorder entry = some order ∧ order.Nodup ∧
      order.Pairwise (fun x y => ¬ rel.Edge y x) ∧
      ∀ x, x ∈ order ↔ Relation.ReflTransGen rel.Edge entry x := by
  have mem_keys {x : T} : x ∈ rel.fwd.keys.toFinset ↔ x ∈ rel.fwd := by
    rw [List.mem_toFinset, AList.mem_keys]
  have few : (ancestors (Function.swap rel.Edge) rel.fwd.keys.toFinset entry).card <
      rel.fwd.entries.length + 1 := by
    apply Nat.lt_succ_of_le
    calc
      _ ≤ rel.fwd.keys.toFinset.card := Finset.card_le_card fun x inside => (mem_ancestors.mp inside).1
      _ ≤ rel.fwd.keys.length := List.toFinset_card_le _
      _ = rel.fwd.entries.length := by rw [AList.keys, List.keys, List.length_map]
  have start : Ordered rel ⟨[], []⟩ := ⟨by simp, List.nodup_nil, by simp, .nil⟩
  rcases postorderRec_spec acyclic (fun x inside => mem_keys.mp inside)
    (fun edge => mem_keys.mpr (within edge)) start (mem_keys.mpr present) few with
    ⟨s, visited, extended⟩
  refine ⟨s.order.reverse, ?_, List.nodup_reverse.mpr extended.ordered.nodup,
    List.pairwise_reverse.mpr extended.ordered.sorted, fun x => ?_⟩
  · rw [reversePostorder, visited]
    rfl
  · rw [List.mem_reverse]
    constructor
    · intro known
      rcases extended.reached x known with none' | ⟨_, here, path⟩
      · cases none'
      · exact List.mem_singleton.mp here ▸ path
    · intro path
      induction path with
      | refl => exact extended.added entry (List.mem_singleton_self entry)
      | tail _ edge ih => exact extended.ordered.closed ih edge

end Binrel

namespace BlockCfg

variable {cfg : Cfg} {bcfg : BlockCfg}

variable {m n b a : NodeRef} {A : List NodeRef}

/-- An edge stays in a block or is one between blocks, which leads to the head of the second. -/
theorem Cut.project_edge (rooted : cfg.Rooted) (cut : Cut cfg bcfg) (edge : cfg.po.Edge n m)
    (here : bcfg.ref2block.lookup n = some a) (there : bcfg.ref2block.lookup m = some b) :
    a = b ∨ bcfg.po.Edge a b ∧ m = b := by
  rcases cut.ref2block.mp here with ⟨A, listed, member⟩
  rcases cut.ref2block.mp there with ⟨B, listed', member'⟩
  have onward := (cut.pieces.piece listed).2.2
  by_cases stuck : ∀ k, ¬ Straight cfg.po.Edge n k
  · rcases cut.pieces.piece listed' with ⟨-, head, onward'⟩
    cases head.unique (head_after stuck edge) (onward'.path member') .refl
    cases (onward.eq_last_iff rooted.acyclic member).mpr stuck
    exact .inr ⟨cut.edge.mpr ⟨A, B, listed, listed', edge⟩, rfl⟩
  · rcases not_forall_not.mp stuck with ⟨k, step⟩
    cases step.next.mp edge
    exact .inl (cut.pieces.unique listed listed' (onward.mem_next member step) member')

theorem Cut.known (cut : Cut cfg bcfg) (bound : n < cfg.size) :
    ∃ id, bcfg.ref2block.lookup n = some id := by
  rcases cut.cover n bound with ⟨id, rest, listed, member⟩
  exact ⟨id, cut.ref2block.mpr ⟨rest, listed, member⟩⟩

theorem Cut.self (cut : Cut cfg bcfg) (listed : bcfg.blocks.lookup a = some (a :: A)) :
    bcfg.ref2block.lookup a = some a :=
  cut.ref2block.mpr ⟨A, listed, List.mem_cons_self⟩

theorem Cut.project_path (rooted : cfg.Rooted) (cut : Cut cfg bcfg) (path : cfg.Reaches n m)
    (here : bcfg.ref2block.lookup n = some a) (there : bcfg.ref2block.lookup m = some b) :
    Relation.ReflTransGen bcfg.po.Edge a b := by
  induction path generalizing b with
  | refl =>
    cases here.symm.trans there
    exact .refl
  | tail _ edge ih =>
    rcases cut.known (rooted.valid edge).1 with ⟨c, between⟩
    rcases cut.project_edge rooted edge between there with rfl | ⟨step, -⟩
    · exact ih between
    · exact (ih between).tail step

theorem Cut.through_block (cut : Cut cfg bcfg) (listed : bcfg.blocks.lookup a = some (a :: A))
    (member : n ∈ a :: A) : cfg.Reaches a n ∧ cfg.Reaches n (A.getLastD a) := by
  have onward := (cut.pieces.piece listed).2.2
  exact ⟨Straight.reaches (onward.path member), Straight.reaches (onward.path_last member)⟩

theorem Cut.lift_edge (cut : Cut cfg bcfg) (here : bcfg.ref2block.lookup n = some a)
    (there : bcfg.ref2block.lookup m = some b) (edge : bcfg.po.Edge a b) :
    Relation.TransGen cfg.po.Edge n m := by
  rcases cut.edge.mp edge with ⟨A, B, listed, listed', step⟩
  rcases cut.ref2block.mp here with ⟨_, found, member⟩
  cases listed.symm.trans found
  rcases cut.ref2block.mp there with ⟨_, found', member'⟩
  cases listed'.symm.trans found'
  exact .trans_right (cut.through_block listed member).2 (.head' step (cut.through_block listed' member').1)

theorem Cut.lift_path (cut : Cut cfg bcfg) (here : bcfg.ref2block.lookup n = some a)
    (there : bcfg.ref2block.lookup m = some b) (path : Relation.TransGen bcfg.po.Edge a b) :
    Relation.TransGen cfg.po.Edge n m := by
  induction path generalizing m with
  | single edge => exact cut.lift_edge here there edge
  | tail _ edge ih =>
    rcases cut.edge.mp edge with ⟨C, _, listed, -⟩
    have between := cut.self listed
    exact (ih between).trans (cut.lift_edge between there edge)

theorem Cut.acyclic (rooted : cfg.Rooted) (cut : Cut cfg bcfg) : Acyclic bcfg.po.Edge := by
  intro a cycle
  rcases Relation.TransGen.head'_iff.mp cycle with ⟨b, edge, -⟩
  rcases cut.edge.mp edge with ⟨A, _, listed, -⟩
  have self := cut.self listed
  exact rooted.acyclic a (cut.lift_path self self cycle)

/-- Between nodes of different blocks, paths are those between the blocks. -/
theorem Cut.path_iff (rooted : cfg.Rooted) (cut : Cut cfg bcfg)
    (here : bcfg.ref2block.lookup n = some a) (there : bcfg.ref2block.lookup m = some b)
    (different : a ≠ b) :
    Relation.TransGen cfg.po.Edge n m ↔ Relation.TransGen bcfg.po.Edge a b := by
  refine ⟨fun path => ?_, cut.lift_path here there⟩
  rcases Relation.reflTransGen_iff_eq_or_transGen.mp
    (cut.project_path rooted path.to_reflTransGen here there) with same | path
  · exact absurd same.symm different
  · exact path

theorem Cut.entry_block (rooted : cfg.Rooted) (cut : Cut cfg bcfg) :
    ∃ rest, bcfg.blocks.lookup cfg.entry = some (cfg.entry :: rest) := by
  rcases cut.piece rooted.entry_lt with ⟨id, rest, listed, member, -, head, onward⟩
  cases head.unique rooted.entry_head (onward.path member) .refl
  exact ⟨rest, listed⟩

theorem Cut.reachable (rooted : cfg.Rooted) (cut : Cut cfg bcfg)
    (listed : bcfg.blocks.lookup a = some (a :: A)) :
    Relation.ReflTransGen bcfg.po.Edge bcfg.entry a := by
  rcases cut.entry_block rooted with ⟨rest, first⟩
  rcases cut.pieces.block listed with ⟨_, -, bound, -⟩
  rw [cut.entry]
  exact cut.project_path rooted (rooted.reachable a bound) (cut.self first) (cut.self listed)

end BlockCfg

namespace CfgOrder

open BlockCfg

structure Collected (po : Binrel NodeRef) (finished : List NodeRef) (s : State) : Prop where
  ins : ∀ ref ∈ finished, ∃ set, s.ins.lookup ref = some set ∧
    ∀ x, x ∈ set ↔ Relation.TransGen po.Edge x ref
  outs : ∀ ref ∈ finished, ∃ set, s.outs.lookup ref = some set ∧
    ∀ x, x ∈ set ↔ Relation.ReflTransGen po.Edge x ref
  keys : ∀ ref ∉ finished, ref ∉ s.ins ∧ ref ∉ s.outs

theorem union_preds {outs : AList (fun _ : NodeRef => List NodeRef)} {po : Binrel NodeRef}
    {preds : List NodeRef}
    (known : ∀ pred ∈ preds, ∃ set, outs.lookup pred = some set ∧
      ∀ x, x ∈ set ↔ Relation.ReflTransGen po.Edge x pred) (set : List NodeRef) :
    ∃ set', preds.foldlM (fun set pred => (outs.lookup pred).map (set ∪ ·)) set = some set' ∧
      ∀ x, x ∈ set' ↔ x ∈ set ∨ ∃ pred ∈ preds, Relation.ReflTransGen po.Edge x pred := by
  induction preds generalizing set with
  | nil => exact ⟨set, rfl, by simp⟩
  | cons pred preds ih =>
    rcases known pred List.mem_cons_self with ⟨out, found, mem_out⟩
    rcases ih (fun pred later => known pred (List.mem_cons_of_mem _ later)) (set ∪ out) with
      ⟨set', folded, mem⟩
    refine ⟨set', ?_, fun x => ?_⟩
    · rw [List.foldlM_cons, found]
      exact folded
    · rw [mem, List.mem_union_iff, mem_out, List.exists_mem_cons_iff, or_assoc]

theorem Collected.orderStep {po : Binrel NodeRef} (proper : po.Proper) {finished : List NodeRef}
    {s : State} (collected : Collected po finished s) {ref : NodeRef} (present : ref ∈ po.rev)
    (new : ref ∉ finished) (ready : ∀ pred, po.Edge pred ref → pred ∈ finished) :
    ∃ s', orderStep po s ref = some s' ∧ Collected po (finished ++ [ref]) s' := by
  have known : ∀ pred ∈ po.preds ref, ∃ set, s.outs.lookup pred = some set ∧
      ∀ x, x ∈ set ↔ Relation.ReflTransGen po.Edge x pred := fun pred edge =>
    collected.outs pred (ready pred (proper.mem_preds.mp edge))
  rcases union_preds known [] with ⟨set, folded, mem⟩
  have mem_set (x : NodeRef) : x ∈ set ↔ Relation.TransGen po.Edge x ref := by
    rw [mem, Relation.TransGen.tail'_iff]
    simp only [List.not_mem_nil, false_or, proper.mem_preds, and_comm]
  have mem_out (x : NodeRef) : x ∈ set.insert ref ↔ Relation.ReflTransGen po.Edge x ref := by
    rw [List.mem_insert_iff, mem_set, Relation.reflTransGen_iff_eq_or_transGen, eq_comm]
  rcases collected.keys ref new with ⟨new_in, new_out⟩
  have entered {good : NodeRef → List NodeRef → Prop} {map : AList (fun _ : NodeRef => List NodeRef)}
      {new : List NodeRef} (old : ∀ ref ∈ finished, ∃ set, map.lookup ref = some set ∧ good ref set)
      (added : good ref new) :
      ∀ other ∈ finished ++ [ref], ∃ set, (map.insert ref new).lookup other = some set ∧ good other set := by
    intro other member
    rw [FiniteMap.lookup_insert]
    split
    · rename_i same
      exact ⟨new, rfl, same ▸ added⟩
    · rename_i different
      exact old other ((List.mem_append.mp member).resolve_right
        fun last => different (List.mem_singleton.mp last))
  refine ⟨⟨s.ins.insert ref set, s.outs.insert ref (set.insert ref)⟩, ?_,
    entered collected.ins mem_set, entered collected.outs mem_out, ?_⟩
  · rw [CfgOrder.orderStep, Binrel.lookup_of_mem present]
    change Option.bind (List.foldlM _ _ (po.preds ref)) _ = _
    rw [folded, Option.bind_some, FiniteMap.emplace_of_not_mem new_in, FiniteMap.emplace_of_not_mem new_out]
  · intro other missing
    rw [List.mem_append, List.mem_singleton, not_or] at missing
    rcases collected.keys other missing.1 with ⟨absent_in, absent_out⟩
    simp only [AList.mem_insert, not_or]
    exact ⟨⟨missing.2, absent_in⟩, missing.2, absent_out⟩

theorem construct_spec {cfg : Cfg} (rooted : cfg.Rooted) :
    ∃ order, construct cfg = some order ∧ Cut cfg order.bcfg ∧
      ∀ {a A}, order.bcfg.blocks.lookup a = some (a :: A) → ∃ set, order.map.lookup a = some set ∧
        ∀ x, x ∈ set ↔ Relation.TransGen order.bcfg.po.Edge x a := by
  rcases BlockCfg.construct_spec rooted with ⟨bcfg, built, cut⟩
  have keys {a : NodeRef} {A : List NodeRef} (listed : bcfg.blocks.lookup a = some (a :: A)) :=
    cut.keys (FiniteMap.mem_of_lookup listed)
  rcases cut.entry_block rooted with ⟨rest, first⟩
  have entry_key : bcfg.entry ∈ bcfg.po.fwd := by
    rw [cut.entry]
    exact (keys first).1
  have within {x y : NodeRef} (edge : bcfg.po.Edge x y) : y ∈ bcfg.po.fwd := by
    rcases cut.edge.mp edge with ⟨_, B, -, listed, -⟩
    exact (keys listed).1
  rcases Binrel.reversePostorder_spec (cut.acyclic rooted) within entry_key with
    ⟨order, ordered, nodup, sorted, mem⟩
  have present : ∀ ref ∈ order, ref ∈ bcfg.po.rev := by
    intro ref member
    rcases ((mem ref).mp member).cases_tail with same | ⟨_, -, edge⟩
    · rw [same, cut.entry]
      exact (keys first).2
    · rcases cut.edge.mp edge with ⟨_, B, -, listed, -⟩
      exact (keys listed).2
  have closed {x y : NodeRef} (edge : bcfg.po.Edge x y) (_ : y ∈ order) : x ∈ [] ++ order := by
    rcases cut.edge.mp edge with ⟨A, _, listed, -⟩
    exact (mem x).mpr (cut.reachable rooted listed)
  have start : Collected bcfg.po [] ⟨∅, ∅⟩ := ⟨by simp, by simp, by simp⟩
  rcases foldlM_sorted (cut.acyclic rooted) (by rwa [List.nil_append]) sorted closed
    (fun member collected new ready => collected.orderStep cut.proper (present _ member) new ready)
    start with ⟨s, folded, collected⟩
  refine ⟨⟨bcfg, s.ins⟩, ?_, cut, ?_⟩
  · rw [construct, built]
    change (bcfg.po.reversePostorder bcfg.entry).bind _ = _
    rw [ordered]
    change (List.foldlM (orderStep bcfg.po) ⟨∅, ∅⟩ order).bind _ = _
    rw [folded]
    rfl
  · intro a A listed
    exact collected.ins a ((mem a).mpr (cut.reachable rooted listed))

/-- The comparison is program order. -/
theorem construct_before {cfg : Cfg} (rooted : cfg.Rooted) :
    ∃ order, construct cfg = some order ∧ ∀ a < cfg.size, ∀ b < cfg.size,
      ∃ result, order.before a b = some result ∧
        (result = true ↔ Relation.TransGen cfg.po.Edge a b) := by
  rcases construct_spec rooted with ⟨order, built, cut, map⟩
  refine ⟨order, built, fun a a_lt b b_lt => ?_⟩
  rcases cut.known a_lt with ⟨aBlk, here⟩
  rcases cut.known b_lt with ⟨bBlk, there⟩
  rcases cut.ref2block.mp here with ⟨A, listed, member⟩
  rcases cut.ref2block.mp there with ⟨B, listed', member'⟩
  unfold before
  rw [here, there]
  by_cases same : aBlk = bBlk
  · subst same
    cases listed.symm.trans listed'
    have onward := (cut.pieces.piece listed).2.2
    refine ⟨decide ((aBlk :: A).idxOf a < (aBlk :: A).idxOf b), ?_, ?_⟩
    · simp [listed]
    · rw [decide_eq_true_iff, onward.idxOf_lt_iff rooted.acyclic member member']
  · rcases map listed' with ⟨set, found, mem⟩
    refine ⟨decide (aBlk ∈ set), ?_, ?_⟩
    · simp [same, found]
    · rw [decide_eq_true_iff, mem, cut.path_iff rooted here there same]

theorem diamond_before : diamond.Rooted ∧ ∃ order, construct diamond = some order ∧
    ∀ a < diamond.size, ∀ b < diamond.size, ∃ result, order.before a b = some result ∧
      (result = true ↔ Relation.TransGen diamond.po.Edge a b) :=
  ⟨diamond_rooted, construct_before diamond_rooted⟩

end CfgOrder

end Clou
