import Clou.Blocks
import Clou.FiniteMap
import Clou.OptionFold

/-! The graph of basic blocks, found by a work list from the entry. -/

namespace Clou

structure BlockCfg where
  po : Binrel NodeRef
  entry : NodeRef
  exits : List NodeRef
  blocks : AList (fun _ : NodeRef => List NodeRef)
  ref2block : AList (fun _ : NodeRef => NodeRef)

namespace BlockCfg

section

variable (cfg : Cfg)

def constructBlock : Nat → NodeRef → Option (List NodeRef × Bool × List NodeRef)
  | 0, _ => none
  | fuel + 1, cur => do
    match ← cfg.po.fwd.lookup cur with
    | [] => some ([cur], true, [])
    | [next] =>
      let preds ← cfg.po.rev.lookup next
      if preds.length ≠ 1 then some ([cur], false, [next])
      else (constructBlock fuel next).map fun (block, exit, out) => (cur :: block, exit, out)
    | succs => some ([cur], false, succs)

structure State where
  todo : List NodeRef
  done : List NodeRef
  blocks : AList (fun _ : NodeRef => List NodeRef)
  exits : List NodeRef

def constructStep (s : State) (cur : NodeRef) (todo : List NodeRef) : Option State :=
  if cur ∈ s.done then some { s with todo }
  else do
    let (block, exit, out) ← constructBlock cfg (cfg.size + 1) cur
    some ⟨out.reverse ++ todo, s.done.insert cur, FiniteMap.emplace s.blocks cur block,
      if exit then s.exits.insert cur else s.exits⟩

def constructLoop : Nat → State → Option State
  | 0, _ => none
  | fuel + 1, s =>
    match s.todo with
    | [] => some s
    | cur :: todo => (constructStep cfg s cur todo).bind (constructLoop fuel)

def refs (blocks : AList (fun _ : NodeRef => List NodeRef)) : List (NodeRef × NodeRef) :=
  blocks.entries.flatMap fun pair => pair.2.map fun ref => (ref, pair.1)

def project (ref2block : AList (fun _ : NodeRef => NodeRef)) (refs out : List NodeRef) :
    Option (List NodeRef) :=
  refs.foldlM (fun out ref => (ref2block.lookup ref).map out.insert) out

def constructRel (ref2block : AList (fun _ : NodeRef => NodeRef)) (po : Binrel NodeRef)
    (block : List NodeRef) : Option (Binrel NodeRef) := do
  let first ← block.head?
  let last ← block.getLast?
  let po := po.addNode first
  let fwd ← project ref2block (← cfg.po.fwd.lookup last) (po.succs first)
  let rev ← project ref2block (← cfg.po.rev.lookup first) (po.preds first)
  some ⟨po.fwd.insert first fwd, po.rev.insert first rev⟩

/-- A new block brings at most as many nodes as there are, which bounds the number of rounds. -/
def rounds : Nat := cfg.size * (cfg.size + 1) + 2

def construct : Option BlockCfg := do
  let s ← constructLoop cfg (rounds cfg) ⟨[cfg.entry], [], ∅, []⟩
  let ref2block := FiniteMap.emplaceAll ∅ (refs s.blocks)
  let po ← s.blocks.entries.foldlM (fun po pair => constructRel cfg ref2block po pair.2) .empty
  some ⟨po, cfg.entry, s.exits, s.blocks, ref2block⟩

end

open Cfg

variable {cfg : Cfg}

variable {n id : NodeRef} {rest : List NodeRef} {ref2block : AList (fun _ : NodeRef => NodeRef)}
variable {bcfg : BlockCfg}

theorem constructBlock_eq (wellFormed : cfg.WellFormed) (onward : Onward cfg.po.Edge n rest)
    (bound : n < cfg.size) {fuel : Nat} (enough : rest.length < fuel) :
    constructBlock cfg fuel n = some (n :: rest, decide (cfg.po.succs (rest.getLastD n) = []),
      cfg.po.succs (rest.getLastD n)) := by
  have proper := wellFormed.proper
  induction onward generalizing fuel with
  | @stop n last =>
    cases fuel with
    | zero => cases enough
    | succ fuel =>
      rw [constructBlock, wellFormed.lookup_fwd bound]
      change (match cfg.po.succs n with | [] => _ | [next] => _ | succs => _) =
        some ([n], decide (cfg.po.succs n = []), cfg.po.succs n)
      split
      · rename_i none'
        simp [none']
      · rename_i next single
        have edge : cfg.po.Edge n next := by
          rw [Binrel.Edge, single]
          exact List.mem_singleton_self next
        have several : (cfg.po.preds next).length ≠ 1 := fun one =>
          last next (proper.straight_of_length edge (by rw [single]; rfl) one)
        rw [wellFormed.lookup_rev (wellFormed.valid edge).2, single]
        exact if_pos several
      · rename_i some' _
        rw [decide_eq_false some']
  | @step n next rest step onward ih =>
    cases fuel with
    | zero => cases enough
    | succ fuel =>
      rcases proper.straight_iff.mp step with ⟨succs, preds⟩
      have bound' := (wellFormed.valid step.related).2
      rw [constructBlock, wellFormed.lookup_fwd bound, List.getLastD_cons]
      change (match cfg.po.succs n with | [] => _ | [next] => _ | succs => _) = _
      rw [succs]
      change (cfg.po.rev.lookup next).bind _ = _
      rw [wellFormed.lookup_rev bound', preds]
      change (constructBlock cfg fuel next).map _ = _
      rw [ih bound' (Nat.lt_of_succ_lt_succ enough)]
      rfl

structure Pieces (cfg : Cfg) (blocks : AList (fun _ : NodeRef => List NodeRef)) : Prop where
  block : ∀ {id block}, blocks.lookup id = some block →
    ∃ rest, block = id :: rest ∧ id < cfg.size ∧ Head cfg.po.Edge id ∧ Onward cfg.po.Edge id rest

namespace Pieces

variable {blocks : AList (fun _ : NodeRef => List NodeRef)} (pieces : Pieces cfg blocks)

include pieces

variable {id : NodeRef}

theorem piece {rest : List NodeRef} (listed : blocks.lookup id = some (id :: rest)) :
    id < cfg.size ∧ Head cfg.po.Edge id ∧ Onward cfg.po.Edge id rest := by
  rcases pieces.block listed with ⟨_, same, piece⟩
  cases same
  exact piece

theorem of_mem (present : id ∈ blocks) :
    id < cfg.size ∧ ∃ rest, blocks.lookup id = some (id :: rest) := by
  rcases FiniteMap.exists_of_mem present with ⟨block, listed⟩
  rcases pieces.block listed with ⟨rest, rfl, bound, -⟩
  exact ⟨bound, rest, listed⟩

theorem unique {other n : NodeRef} {block block' : List NodeRef}
    (listed : blocks.lookup id = some block) (listed' : blocks.lookup other = some block')
    (member : n ∈ block) (member' : n ∈ block') : id = other := by
  rcases pieces.block listed with ⟨rest, rfl, -, head, onward⟩
  rcases pieces.block listed' with ⟨rest', rfl, -, head', onward'⟩
  exact head.unique head' (onward.path member) (onward'.path member')

end Pieces

structure Found (cfg : Cfg) (s : State) : Prop where
  nodup : s.done.Nodup
  keys : ∀ n, n ∈ s.blocks ↔ n ∈ s.done
  pieces : Pieces cfg s.blocks
  todo : ∀ n ∈ s.todo, n < cfg.size ∧ Head cfg.po.Edge n
  entry : cfg.entry ∈ s.todo ∨ cfg.entry ∈ s.done
  closed : ∀ {id rest n}, s.blocks.lookup id = some (id :: rest) → cfg.po.Edge (rest.getLastD id) n →
    n ∈ s.todo ∨ n ∈ s.done
  exits : ∀ n, n ∈ s.exits ↔
    ∃ rest, s.blocks.lookup n = some (n :: rest) ∧ cfg.po.succs (rest.getLastD n) = []

theorem head_after {m : NodeRef} (last : ∀ m, ¬ Straight cfg.po.Edge n m) (edge : cfg.po.Edge n m) :
    Head cfg.po.Edge m := by
  intro k step
  cases step.previous.mp edge
  exact last m step

theorem onward_valid (wellFormed : cfg.WellFormed) (bound : n < cfg.size)
    (onward : Onward cfg.po.Edge n rest) : ∀ m ∈ n :: rest, m < cfg.size := by
  intro m member
  rcases (onward.path member).cases_tail with rfl | ⟨k, -, step⟩
  · exact bound
  · exact (wellFormed.valid step.related).2

def remaining (cfg : Cfg) (s : State) : Nat :=
  (cfg.size - s.done.length) * (cfg.size + 1) + s.todo.length

def State.addBlock (cfg : Cfg) (s : State) (cur : NodeRef) (todo rest : List NodeRef) : State :=
  ⟨(cfg.po.succs (rest.getLastD cur)).reverse ++ todo, cur :: s.done, s.blocks.insert cur (cur :: rest),
    if cfg.po.succs (rest.getLastD cur) = [] then s.exits.insert cur else s.exits⟩

namespace Found

section

variable {s : State} (found : Found cfg s) {cur : NodeRef} {todo : List NodeRef} (here : s.todo = cur :: todo)

include found here

theorem todo_valid : ∀ n ∈ todo, n < cfg.size ∧ Head cfg.po.Edge n := fun n member =>
  found.todo n (here ▸ List.mem_cons_of_mem cur member)

omit found in
theorem mem_popped {n : NodeRef} (old : n ∈ s.todo ∨ n ∈ s.done) : n ∈ todo ∨ n ∈ cur :: s.done := by
  rw [here, List.mem_cons] at old
  rw [List.mem_cons]
  rcases old with (same | later) | done
  · exact .inr (.inl same)
  · exact .inl later
  · exact .inr (.inr done)

theorem skip (known : cur ∈ s.done) : Found cfg { s with todo } := by
  have known' {n : NodeRef} (old : n ∈ s.todo ∨ n ∈ s.done) : n ∈ todo ∨ n ∈ s.done := by
    refine (mem_popped here old).imp_right fun done => ?_
    rcases List.mem_cons.mp done with rfl | done
    · exact known
    · exact done
  exact ⟨found.nodup, found.keys, found.pieces, found.todo_valid here, known' found.entry,
    fun block edge => known' (found.closed block edge), found.exits⟩

variable (new : cur ∉ s.done) {rest : List NodeRef}

include new

omit here in
theorem absent : cur ∉ s.blocks := fun old => new ((found.keys cur).mp old)

omit here in
theorem exits_addBlock (n : NodeRef) :
    n ∈ (s.addBlock cfg cur todo rest).exits ↔ ∃ rest', (s.addBlock cfg cur todo rest).blocks.lookup n =
      some (n :: rest') ∧ cfg.po.succs (rest'.getLastD n) = [] := by
  change n ∈ (if cfg.po.succs (rest.getLastD cur) = [] then s.exits.insert cur else s.exits) ↔
    ∃ rest', (s.blocks.insert cur (cur :: rest)).lookup n = some (n :: rest') ∧ _
  by_cases same : n = cur
  · subst same
    have fresh : n ∉ s.exits := by
      intro old
      rcases (found.exits n).mp old with ⟨_, listed, -⟩
      exact found.absent new (FiniteMap.mem_of_lookup listed)
    simp only [AList.lookup_insert, Option.some.injEq, List.cons.injEq, true_and, exists_eq_left']
    split <;> simp_all
  · rw [AList.lookup_insert_ne same, ← found.exits]
    split <;> simp [same]

variable (rooted : cfg.Rooted) (onward : Onward cfg.po.Edge cur rest)

include rooted onward

theorem addBlock : Found cfg (s.addBlock cfg cur todo rest) := by
  rcases found.todo cur (here ▸ List.mem_cons_self) with ⟨bound, head⟩
  have last_stuck : ∀ m, ¬ Straight cfg.po.Edge (rest.getLastD cur) m :=
    (onward.eq_last_iff rooted.acyclic Onward.getLastD_mem).mp rfl
  have known {n : NodeRef} (old : n ∈ s.todo ∨ n ∈ s.done) :
      n ∈ (cfg.po.succs (rest.getLastD cur)).reverse ++ todo ∨ n ∈ cur :: s.done :=
    (mem_popped here old).imp_left (List.mem_append_right _)
  have lookup {id : NodeRef} {block : List NodeRef}
      (listed : (s.blocks.insert cur (cur :: rest)).lookup id = some block) :
      id = cur ∧ block = cur :: rest ∨ s.blocks.lookup id = some block := by
    rw [FiniteMap.lookup_insert] at listed
    split at listed
    · rename_i same
      exact .inl ⟨same, (Option.some.inj listed).symm⟩
    · exact .inr listed
  refine ⟨List.nodup_cons.mpr ⟨new, found.nodup⟩, ?_, ⟨?_⟩, ?_, known found.entry, ?_, found.exits_addBlock new⟩
  · intro n
    rw [State.addBlock, AList.mem_insert, found.keys, List.mem_cons]
  · intro id block listed
    rcases lookup listed with ⟨rfl, rfl⟩ | old
    · exact ⟨rest, rfl, bound, head, onward⟩
    · exact found.pieces.block old
  · intro n member
    rcases List.mem_append.mp member with after | waiting
    · have edge : cfg.po.Edge (rest.getLastD cur) n := List.mem_reverse.mp after
      exact ⟨(rooted.valid edge).2, head_after last_stuck edge⟩
    · exact found.todo_valid here n waiting
  · intro id rest' n listed edge
    rcases lookup listed with ⟨rfl, same⟩ | old
    · cases same
      exact .inl (List.mem_append_left _ (List.mem_reverse.mpr edge))
    · exact known (found.closed old edge)

omit onward in
theorem remaining_addBlock : remaining cfg (s.addBlock cfg cur todo rest) < remaining cfg s := by
  have done_valid : ∀ n ∈ cur :: s.done, n < cfg.size := by
    intro n member
    rcases List.mem_cons.mp member with rfl | old
    · exact (found.todo n (here ▸ List.mem_cons_self)).1
    · exact (found.pieces.of_mem ((found.keys n).mpr old)).1
  have fewer := Cfg.length_le_size (List.nodup_cons.mpr ⟨new, found.nodup⟩) done_valid
  have few := Cfg.length_le_size (rooted.proper.succs_nodup (rest.getLastD cur)) fun n edge => (rooted.valid edge).2
  rw [List.length_cons] at fewer
  have split : cfg.size - s.done.length = cfg.size - (s.done.length + 1) + 1 := by omega
  simp only [remaining, State.addBlock, here, List.length_cons, List.length_append, List.length_reverse, split,
    Nat.succ_mul]
  omega

end

theorem constructStep (rooted : cfg.Rooted) {s : State} (found : Found cfg s) {cur : NodeRef}
    {todo : List NodeRef} (here : s.todo = cur :: todo) :
    ∃ s', constructStep cfg s cur todo = some s' ∧ Found cfg s' ∧ remaining cfg s' < remaining cfg s := by
  unfold BlockCfg.constructStep
  split
  · rename_i known
    exact ⟨{ s with todo }, rfl, found.skip here known, by simp [remaining, here]⟩
  · rename_i new
    have bound := (found.todo cur (here ▸ List.mem_cons_self)).1
    rcases Onward.exists_of_acyclic rooted.acyclic
      (fun edge => (rooted.toWellFormed.mem_range edge).2) cur with ⟨rest, onward⟩
    have short := Cfg.length_le_size (onward.nodup rooted.acyclic) (onward_valid rooted.toWellFormed bound onward)
    have built := constructBlock_eq rooted.toWellFormed onward bound (Nat.lt_succ_of_lt short)
    refine ⟨s.addBlock cfg cur todo rest, ?_, found.addBlock here new rooted onward,
      found.remaining_addBlock here new rooted⟩
    simp [built, State.addBlock, List.insert_of_not_mem new,
      FiniteMap.emplace_of_not_mem (found.absent new)]

end Found

theorem constructLoop_spec (rooted : cfg.Rooted) {s : State} (found : Found cfg s) {fuel : Nat}
    (enough : remaining cfg s < fuel) :
    ∃ s', constructLoop cfg fuel s = some s' ∧ Found cfg s' ∧ s'.todo = [] := by
  induction fuel generalizing s with
  | zero => cases enough
  | succ fuel ih =>
    unfold constructLoop
    split
    · rename_i finished
      exact ⟨s, rfl, found, finished⟩
    · rename_i cur todo here
      rcases found.constructStep rooted here with ⟨s', stepped, found', less⟩
      rw [stepped]
      exact ih found' (by omega)

/-- All nodes are in blocks once the stack is empty: an edge stays in a block or leads to a head. -/
theorem Found.cover (rooted : cfg.Rooted) {s : State} (found : Found cfg s) (finished : s.todo = [])
    (path : cfg.Reaches cfg.entry n) :
    ∃ id rest, s.blocks.lookup id = some (id :: rest) ∧ n ∈ id :: rest := by
  have listed {id : NodeRef} (known : id ∈ s.todo ∨ id ∈ s.done) :
      ∃ rest, s.blocks.lookup id = some (id :: rest) := by
    have done : id ∈ s.done := known.resolve_left (by rw [finished]; exact List.not_mem_nil)
    exact (found.pieces.of_mem ((found.keys id).mpr done)).2
  induction path with
  | refl =>
    rcases listed found.entry with ⟨rest, listed⟩
    exact ⟨cfg.entry, rest, listed, List.mem_cons_self⟩
  | @tail n m _ edge ih =>
    rcases ih with ⟨id, rest, block, member⟩
    have onward := (found.pieces.piece block).2.2
    by_cases stuck : ∀ k, ¬ Straight cfg.po.Edge n k
    · have last := (onward.eq_last_iff rooted.acyclic member).mpr stuck
      rcases listed (found.closed block (last ▸ edge)) with ⟨rest', listed⟩
      exact ⟨m, rest', listed, List.mem_cons_self⟩
    · rcases not_forall_not.mp stuck with ⟨k, step⟩
      cases step.next.mp edge
      exact ⟨id, rest, block, onward.mem_next member step⟩

theorem mem_refs {blocks : AList (fun _ : NodeRef => List NodeRef)} {ref : NodeRef} :
    (ref, id) ∈ refs blocks ↔ ∃ block, blocks.lookup id = some block ∧ ref ∈ block := by
  simp only [refs, List.mem_flatMap, List.mem_map, Prod.mk.injEq]
  constructor
  · rintro ⟨⟨_, block⟩, entry, _, member, rfl, rfl⟩
    exact ⟨block, AList.mem_lookup_iff.mpr entry, member⟩
  · rintro ⟨block, found, member⟩
    exact ⟨⟨id, block⟩, AList.mem_lookup_iff.mp found, ref, member, rfl, rfl⟩

theorem project_spec {refs out : List NodeRef} (known : ∀ ref ∈ refs, ref ∈ ref2block)
    (nodup : out.Nodup) :
    ∃ out', project ref2block refs out = some out' ∧ out'.Nodup ∧
      ∀ id, id ∈ out' ↔ id ∈ out ∨ ∃ ref ∈ refs, ref2block.lookup ref = some id := by
  induction refs generalizing out with
  | nil => exact ⟨out, rfl, nodup, by simp⟩
  | cons ref refs ih =>
    rcases FiniteMap.exists_of_mem (known ref List.mem_cons_self) with ⟨id, found⟩
    rcases ih (fun ref later => known ref (List.mem_cons_of_mem _ later)) (nodup.insert (a := id)) with
      ⟨out', projected, nodup', mem⟩
    refine ⟨out', ?_, nodup', fun other => ?_⟩
    · rw [project, List.foldlM_cons, found]
      exact projected
    · rw [mem, List.mem_insert_iff, List.exists_mem_cons_iff, found, Option.some.injEq, or_assoc,
        or_left_comm, eq_comm]

structure Related (cfg : Cfg) (ref2block : AList (fun _ : NodeRef => NodeRef))
    (blocks : List (List NodeRef)) (po : Binrel NodeRef) : Prop where
  edge : ∀ {a b}, po.Edge a b ↔ ∃ rest, a :: rest ∈ blocks ∧
    ∃ n, cfg.po.Edge (rest.getLastD a) n ∧ ref2block.lookup n = some b
  preds : ∀ {a b}, a ∈ po.preds b ↔ ∃ rest, b :: rest ∈ blocks ∧
    ∃ n, cfg.po.Edge n b ∧ ref2block.lookup n = some a
  succs_nodup : ∀ a, (po.succs a).Nodup
  preds_nodup : ∀ a, (po.preds a).Nodup
  keys : ∀ {id rest}, id :: rest ∈ blocks → id ∈ po.fwd ∧ id ∈ po.rev

theorem mem_written {map : AList (fun _ : NodeRef => List NodeRef)} {set : List NodeRef}
    {new : NodeRef → Prop} (mem : ∀ x, x ∈ set ↔ x ∈ Binrel.get map id ∨ new x) {key x : NodeRef} :
    x ∈ Binrel.get ((map.insert id (Binrel.get map id)).insert id set) key ↔
      x ∈ Binrel.get map key ∨ key = id ∧ new x := by
  rw [Binrel.mem_get_insert, Binrel.mem_get_insert]
  by_cases same : key = id
  · simp [same, mem]
  · simp [same]

variable {blocks : List (List NodeRef)}

theorem Related.constructRel (wellFormed : cfg.WellFormed) (known : ∀ n < cfg.size, n ∈ ref2block)
    {po : Binrel NodeRef} (related : Related cfg ref2block blocks po) (first : id < cfg.size)
    (last : rest.getLastD id < cfg.size) :
    ∃ po', constructRel cfg ref2block po (id :: rest) = some po' ∧
      Related cfg ref2block (blocks ++ [id :: rest]) po' := by
  have cons_mem {a : NodeRef} {rest' : List NodeRef} :
      a :: rest' ∈ blocks ++ [id :: rest] ↔ a :: rest' ∈ blocks ∨ a = id ∧ rest' = rest := by
    rw [List.mem_append, List.mem_singleton, List.cons.injEq]
  have succs_known : ∀ n ∈ cfg.po.succs (rest.getLastD id), n ∈ ref2block := fun n edge =>
    known n (wellFormed.valid edge).2
  have preds_known : ∀ n ∈ cfg.po.preds id, n ∈ ref2block := fun n edge =>
    known n (wellFormed.valid (wellFormed.proper.mem_preds.mp edge)).1
  rcases project_spec succs_known (related.succs_nodup id) with ⟨fwd, projected, fwd_nodup, mem_fwd⟩
  rcases project_spec preds_known (related.preds_nodup id) with ⟨rev, projected', rev_nodup, mem_rev⟩
  have succs : (po.addNode id).succs id = po.succs id := Binrel.get_insert_self ..
  have preds : (po.addNode id).preds id = po.preds id := Binrel.get_insert_self ..
  have ending : (id :: rest).getLast? = some (rest.getLastD id) := by
    rw [List.getLast?_cons, List.getLastD_eq_getLast?]
  refine ⟨⟨(po.addNode id).fwd.insert id fwd, (po.addNode id).rev.insert id rev⟩, ?_, ?_, ?_, ?_, ?_, ?_⟩
  · simp only [BlockCfg.constructRel, List.head?_cons, ending, wellFormed.lookup_fwd last,
      wellFormed.lookup_rev first, succs, preds, projected, projected', Option.bind_eq_bind,
      Option.bind_some]
  · intro a b
    refine (mem_written mem_fwd).trans ((or_congr_left related.edge).trans ?_)
    simp only [cons_mem, or_and_right, exists_or, and_assoc, exists_and_left, exists_eq_left]
    refine or_congr_right (and_congr_right fun same => ?_)
    rw [same]
    rfl
  · intro a b
    refine (mem_written mem_rev).trans ((or_congr_left related.preds).trans ?_)
    simp only [cons_mem, or_and_right, exists_or, and_assoc, exists_and_left, exists_eq_left]
    refine or_congr_right (and_congr_right fun same => ?_)
    rw [same]
    simp only [wellFormed.proper.mem_preds]
  · exact Binrel.nodup_get_insert
      (Binrel.nodup_get_insert related.succs_nodup (related.succs_nodup id)) fwd_nodup
  · exact Binrel.nodup_get_insert
      (Binrel.nodup_get_insert related.preds_nodup (related.preds_nodup id)) rev_nodup
  · intro a rest' member
    simp only [AList.mem_insert, Binrel.addNode]
    rcases cons_mem.mp member with old | ⟨rfl, -⟩
    · exact ⟨.inr (.inr (related.keys old).1), .inr (.inr (related.keys old).2)⟩
    · exact ⟨.inl rfl, .inl rfl⟩

theorem related_fold (wellFormed : cfg.WellFormed) (known : ∀ n < cfg.size, n ∈ ref2block)
    (pairs : List (Sigma fun _ : NodeRef => List NodeRef))
    (valid : ∀ pair ∈ pairs, ∃ id rest, pair.2 = id :: rest ∧ ∀ n ∈ id :: rest, n < cfg.size)
    {po : Binrel NodeRef} (related : Related cfg ref2block blocks po) :
    ∃ po', pairs.foldlM (fun po pair => constructRel cfg ref2block po pair.2) po = some po' ∧
      Related cfg ref2block (blocks ++ pairs.map (·.2)) po' := by
  induction pairs generalizing blocks po with
  | nil => exact ⟨po, rfl, by simpa using related⟩
  | cons pair pairs ih =>
    rcases valid pair List.mem_cons_self with ⟨id, rest, block, members⟩
    rcases related.constructRel wellFormed known (members id List.mem_cons_self)
      (members _ Onward.getLastD_mem) with ⟨po₁, built, related₁⟩
    rcases ih (fun pair later => valid pair (List.mem_cons_of_mem _ later)) related₁ with
      ⟨po', folded, related'⟩
    refine ⟨po', ?_, ?_⟩
    · rw [List.foldlM_cons, block, built]
      exact folded
    · rwa [List.map_cons, block, List.append_cons]

structure Cut (cfg : Cfg) (bcfg : BlockCfg) : Prop where
  entry : bcfg.entry = cfg.entry
  pieces : Pieces cfg bcfg.blocks
  cover : ∀ n < cfg.size, ∃ id rest, bcfg.blocks.lookup id = some (id :: rest) ∧ n ∈ id :: rest
  ref2block : ∀ {n id}, bcfg.ref2block.lookup n = some id ↔
    ∃ rest, bcfg.blocks.lookup id = some (id :: rest) ∧ n ∈ id :: rest
  exits : ∀ n, n ∈ bcfg.exits ↔
    ∃ rest, bcfg.blocks.lookup n = some (n :: rest) ∧ cfg.po.succs (rest.getLastD n) = []
  proper : bcfg.po.Proper
  keys : ∀ {id}, id ∈ bcfg.blocks → id ∈ bcfg.po.fwd ∧ id ∈ bcfg.po.rev
  edge : ∀ {a b}, bcfg.po.Edge a b ↔ ∃ A B, bcfg.blocks.lookup a = some (a :: A) ∧
    bcfg.blocks.lookup b = some (b :: B) ∧ cfg.po.Edge (A.getLastD a) b

theorem found_start (rooted : cfg.Rooted) : Found cfg ⟨[cfg.entry], [], ∅, []⟩ := by
  refine ⟨List.nodup_nil, by simp, ⟨by simp⟩, ?_, .inl List.mem_cons_self, by simp, by simp⟩
  intro n member
  rw [List.mem_singleton.mp member]
  exact ⟨rooted.entry_lt, rooted.entry_head⟩

theorem related_empty (ref2block : AList (fun _ : NodeRef => NodeRef)) : Related cfg ref2block [] .empty := by
  refine ⟨by simp, ?_, ?_, ?_, by simp⟩
  · simp [Binrel.preds, Binrel.empty, Binrel.get]
  · simp [Binrel.succs, Binrel.empty, Binrel.get]
  · simp [Binrel.preds, Binrel.empty, Binrel.get]

section

variable {blocks : AList (fun _ : NodeRef => List NodeRef)} (pieces : Pieces cfg blocks)

include pieces

theorem lookup_ref2block {n id : NodeRef} : (FiniteMap.emplaceAll ∅ (refs blocks)).lookup n = some id ↔
    ∃ rest, blocks.lookup id = some (id :: rest) ∧ n ∈ id :: rest := by
  rw [FiniteMap.lookup_emplaceAll (by simp), mem_refs, AList.lookup_empty]
  · constructor
    · rintro (wrong | ⟨block, listed, member⟩)
      · cases wrong
      · rcases pieces.block listed with ⟨rest, rfl, -⟩
        exact ⟨rest, listed, member⟩
    · rintro ⟨rest, listed, member⟩
      exact .inr ⟨id :: rest, listed, member⟩
  · intro n id other here there
    rcases mem_refs.mp here with ⟨block, listed, member⟩
    rcases mem_refs.mp there with ⟨block', listed', member'⟩
    exact pieces.unique listed' listed member' member

theorem mem_blocks {id : NodeRef} {rest : List NodeRef} :
    id :: rest ∈ blocks.entries.map (·.2) ↔ blocks.lookup id = some (id :: rest) := by
  rw [List.mem_map]
  constructor
  · rintro ⟨⟨key, block⟩, entry, rfl⟩
    have listed : blocks.lookup key = some (id :: rest) := AList.mem_lookup_iff.mpr entry
    rcases pieces.block listed with ⟨_, same, -⟩
    rw [(List.cons.inj same).1]
    exact (List.cons.inj same).1 ▸ listed
  · intro listed
    exact ⟨⟨id, id :: rest⟩, AList.mem_lookup_iff.mp listed, rfl⟩

variable (rooted : cfg.Rooted) {po : Binrel NodeRef}
  (related : Related cfg (FiniteMap.emplaceAll ∅ (refs blocks)) (blocks.entries.map (·.2)) po)

include rooted related

/-- Blocks are joined by the edges from the end of one to the head of another. -/
theorem edge_blocks {a b : NodeRef} : po.Edge a b ↔ ∃ A B, blocks.lookup a = some (a :: A) ∧
    blocks.lookup b = some (b :: B) ∧ cfg.po.Edge (A.getLastD a) b := by
  rw [related.edge]
  simp only [mem_blocks pieces, lookup_ref2block pieces]
  constructor
  · rintro ⟨A, here, n, edge, B, there, member⟩
    have onward := (pieces.piece here).2.2
    rcases pieces.piece there with ⟨-, head, onward'⟩
    have stuck := (onward.eq_last_iff rooted.acyclic Onward.getLastD_mem).mp rfl
    cases head.unique (head_after stuck edge) (onward'.path member) .refl
    exact ⟨A, B, here, there, edge⟩
  · rintro ⟨A, B, here, there, edge⟩
    exact ⟨A, here, b, edge, B, there, List.mem_cons_self⟩

theorem mem_preds_blocks {a b : NodeRef} : a ∈ po.preds b ↔ po.Edge a b := by
  rw [related.preds, edge_blocks pieces rooted related]
  simp only [mem_blocks pieces, lookup_ref2block pieces]
  constructor
  · rintro ⟨B, there, n, edge, A, here, member⟩
    have onward := (pieces.piece here).2.2
    have head := (pieces.piece there).2.1
    have stuck : ∀ k, ¬ Straight cfg.po.Edge n k := by
      intro k step
      cases step.next.mp edge
      exact head n step
    cases (onward.eq_last_iff rooted.acyclic member).mpr stuck
    exact ⟨A, B, here, there, edge⟩
  · rintro ⟨A, B, here, there, edge⟩
    exact ⟨B, there, A.getLastD a, edge, A, here, Onward.getLastD_mem⟩

end

theorem construct_spec (rooted : cfg.Rooted) : ∃ bcfg, construct cfg = some bcfg ∧ Cut cfg bcfg := by
  have enough : remaining cfg ⟨[cfg.entry], [], ∅, []⟩ < rounds cfg := by simp [remaining, rounds]
  rcases constructLoop_spec rooted (found_start rooted) enough with ⟨s, looped, found, finished⟩
  have pieces := found.pieces
  have cover (n : NodeRef) (bound : n < cfg.size) := found.cover rooted finished (rooted.reachable n bound)
  have known : ∀ n < cfg.size, n ∈ FiniteMap.emplaceAll ∅ (refs s.blocks) := by
    intro n bound
    rcases cover n bound with ⟨id, rest, listed, member⟩
    exact FiniteMap.mem_of_lookup ((lookup_ref2block pieces).mpr ⟨rest, listed, member⟩)
  have valid : ∀ pair ∈ s.blocks.entries,
      ∃ id rest, pair.2 = id :: rest ∧ ∀ n ∈ id :: rest, n < cfg.size := by
    intro pair entry
    rcases pieces.block (AList.mem_lookup_iff.mpr entry) with ⟨rest, same, bound, -, onward⟩
    exact ⟨pair.1, rest, same, onward_valid rooted.toWellFormed bound onward⟩
  rcases related_fold rooted.toWellFormed known s.blocks.entries valid (related_empty _) with
    ⟨po, folded, related⟩
  rw [List.nil_append] at related
  refine ⟨⟨po, cfg.entry, s.exits, s.blocks, FiniteMap.emplaceAll ∅ (refs s.blocks)⟩, ?_, rfl, pieces, cover,
    lookup_ref2block pieces, found.exits,
    ⟨⟨mem_preds_blocks pieces rooted related, related.preds_nodup⟩, related.succs_nodup⟩, ?_,
    edge_blocks pieces rooted related⟩
  · rw [construct, looped]
    change (s.blocks.entries.foldlM (fun po pair =>
      constructRel cfg (FiniteMap.emplaceAll ∅ (refs s.blocks)) po pair.2) .empty).bind _ = _
    rw [folded]
    rfl
  · intro id present
    rcases (pieces.of_mem present).2 with ⟨rest, listed⟩
    exact related.keys ((mem_blocks pieces).mpr listed)

theorem Cut.piece (cut : Cut cfg bcfg) (bound : n < cfg.size) :
    ∃ id rest, bcfg.blocks.lookup id = some (id :: rest) ∧ n ∈ id :: rest ∧ id < cfg.size ∧
      Head cfg.po.Edge id ∧ Onward cfg.po.Edge id rest := by
  rcases cut.cover n bound with ⟨id, rest, listed, member⟩
  exact ⟨id, rest, listed, member, cut.pieces.piece listed⟩

theorem getLast?_cons_eq (id : NodeRef) (rest : List NodeRef) :
    (id :: rest).getLast? = some (rest.getLastD id) := by
  rw [List.getLast?_cons, List.getLastD_eq_getLast?]

theorem Cut.first_iff (cut : Cut cfg bcfg) (bound : n < cfg.size) :
    Head cfg.po.Edge n ↔ ∃ id block, bcfg.blocks.lookup id = some block ∧ block.head? = some n := by
  constructor
  · intro head
    rcases cut.piece bound with ⟨id, rest, listed, member, -, head', onward⟩
    cases head.unique head' .refl (onward.path member)
    exact ⟨n, n :: rest, listed, rfl⟩
  · rintro ⟨id, block, listed, first⟩
    rcases cut.pieces.block listed with ⟨rest, rfl, -, head, -⟩
    cases first
    exact head

theorem Cut.last_iff (rooted : cfg.Rooted) (cut : Cut cfg bcfg) (bound : n < cfg.size) :
    (∀ m, ¬ Straight cfg.po.Edge n m) ↔
      ∃ id block, bcfg.blocks.lookup id = some block ∧ block.getLast? = some n := by
  constructor
  · intro stuck
    rcases cut.piece bound with ⟨id, rest, listed, member, -, -, onward⟩
    refine ⟨id, id :: rest, listed, ?_⟩
    rw [getLast?_cons_eq, ← (onward.eq_last_iff rooted.acyclic member).mpr stuck]
  · rintro ⟨id, block, listed, last⟩
    rcases cut.pieces.block listed with ⟨rest, rfl, -, -, onward⟩
    rw [getLast?_cons_eq, Option.some.injEq] at last
    subst last
    exact (onward.eq_last_iff rooted.acyclic Onward.getLastD_mem).mp rfl

/-- The definitions of a basic block agree. -/
theorem construct_blocks (rooted : cfg.Rooted) : ∃ bcfg, construct cfg = some bcfg ∧
    (∀ n < cfg.size, ∃! id, ∃ block, bcfg.blocks.lookup id = some block ∧ n ∈ block) ∧
    (∀ {id block}, bcfg.blocks.lookup id = some block →
      block.head? = some id ∧ block.Nodup ∧ (∀ n ∈ block, n < cfg.size) ∧
      (∀ (i : Nat) {a b}, block[i]? = some a → block[i + 1]? = some b →
        (∀ c, cfg.po.Edge a c ↔ c = b) ∧ (∀ c, cfg.po.Edge c b ↔ c = a)) ∧
      (∀ n, ¬ Straight cfg.po.Edge n id) ∧
      (∀ {last} n, block.getLast? = some last → ¬ Straight cfg.po.Edge last n)) ∧
    (∀ n < cfg.size, ∃ first, cfg.isBlockEntry n = some first ∧
      (first = true ↔ ∃ id block, bcfg.blocks.lookup id = some block ∧ block.head? = some n)) ∧
    (∀ n < cfg.size, ∃ last, cfg.isBlockExit n = some last ∧
      (last = true ↔ ∃ id block, bcfg.blocks.lookup id = some block ∧ block.getLast? = some n)) ∧
    (∀ {id block n} (i : Nat), bcfg.blocks.lookup id = some block → block[i]? = some n →
      cfg.getBlockSuccessor n = some block[i + 1]? ∧ cfg.po.getGroup n = some block) ∧
    (∀ {a b}, bcfg.po.Edge a b ↔ ∃ A B last first, bcfg.blocks.lookup a = some A ∧
      bcfg.blocks.lookup b = some B ∧ A.getLast? = some last ∧ B.head? = some first ∧
      cfg.po.Edge last first) ∧
    (∀ {a b}, a ∈ bcfg.po.preds b ↔ bcfg.po.Edge a b) := by
  have wellFormed := rooted.toWellFormed
  rcases construct_spec rooted with ⟨bcfg, built, cut⟩
  refine ⟨bcfg, built, ?_, ?_, ?_, ?_, ?_, ?_, cut.proper.mem_preds⟩
  · intro n bound
    rcases cut.cover n bound with ⟨id, rest, listed, member⟩
    refine ⟨id, ⟨_, listed, member⟩, ?_⟩
    rintro other ⟨block, listed', member'⟩
    exact cut.pieces.unique listed' listed member' member
  · intro id block listed
    rcases cut.pieces.block listed with ⟨rest, rfl, bound, head, onward⟩
    refine ⟨rfl, onward.nodup rooted.acyclic, onward_valid wellFormed bound onward, ?_, head, ?_⟩
    · intro i a b here there
      have step := (onward.getElem?_succ here).mp there
      exact ⟨fun c => step.next, fun c => step.previous⟩
    · intro last n ending
      rw [getLast?_cons_eq, Option.some.injEq] at ending
      subst ending
      exact (onward.eq_last_iff rooted.acyclic Onward.getLastD_mem).mp rfl n
  · intro n bound
    rcases isBlockEntry_eq wellFormed bound with ⟨first, found, head⟩
    exact ⟨first, found, head.trans (cut.first_iff bound)⟩
  · intro n bound
    rcases isBlockExit_eq wellFormed bound with ⟨last, found, stuck⟩
    exact ⟨last, found, stuck.trans (cut.last_iff rooted bound)⟩
  · intro id block n i listed here
    rcases cut.pieces.block listed with ⟨rest, rfl, bound, head, onward⟩
    have valid := onward_valid wellFormed bound onward
    have member := List.mem_of_getElem? here
    constructor
    · rcases getBlockSuccessor_eq wellFormed (valid n member) with ⟨next, found, straight⟩
      rw [found]
      refine congrArg some (Option.ext fun m => ?_)
      rw [straight, onward.getElem?_succ here]
    · exact Binrel.getGroup_eq wellFormed.proper rooted.acyclic wellFormed.mem_range
        (fun m inside => wellFormed.keys m (Finset.mem_range.mp inside)) head onward member
        fun m inside => Finset.mem_range.mpr (valid m inside)
  · intro a b
    rw [cut.edge]
    constructor
    · rintro ⟨A, B, here, there, edge⟩
      exact ⟨_, _, _, _, here, there, getLast?_cons_eq a A, rfl, edge⟩
    · rintro ⟨A, B, last, first, here, there, ending, start, edge⟩
      rcases cut.pieces.block here with ⟨A, rfl, -⟩
      rcases cut.pieces.block there with ⟨B, rfl, -⟩
      rw [getLast?_cons_eq, Option.some.injEq] at ending
      cases start
      exact ⟨A, B, here, there, ending ▸ edge⟩

def diamond : Cfg :=
  ofEdges [Node.makeEntry, Node.makeExit, Node.makeExit, Node.makeExit, Node.makeExit]
    [(0, 1), (0, 2), (1, 3), (2, 3), (3, 4)] 0 [4]

theorem diamond_rooted : diamond.Rooted :=
  rooted_ofEdges (by decide) (by decide) (by decide) (by decide)

theorem diamond_topological : diamond.Topological :=
  topological_ofEdges (by decide) (by decide)

theorem diamond_blocks : diamond.Rooted ∧ ∃ bcfg, construct diamond = some bcfg ∧
    ∀ n < diamond.size, ∃! id, ∃ block, bcfg.blocks.lookup id = some block ∧ n ∈ block := by
  rcases construct_blocks diamond_rooted with ⟨bcfg, built, partition, -⟩
  exact ⟨diamond_rooted, bcfg, built, partition⟩

end BlockCfg

end Clou
