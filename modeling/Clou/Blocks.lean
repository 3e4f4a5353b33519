import Clou.Cfg
import Clou.Straight

/-! Basic blocks around a node: whether it begins or ends one, and the group it belongs to. -/

namespace Clou

namespace Cfg

variable (cfg : Cfg)

def isBlockBoundary (ref : NodeRef) (fwd rev : AList (fun _ : NodeRef => List NodeRef)) :
    Option Bool := do
  match ← rev.lookup ref with
  | [pred] =>
    let predSuccs ← fwd.lookup pred
    some (predSuccs.length ≠ 1)
  | _ => some true

def isBlockEntry (ref : NodeRef) : Option Bool := isBlockBoundary ref cfg.po.fwd cfg.po.rev

def isBlockExit (ref : NodeRef) : Option Bool := isBlockBoundary ref cfg.po.rev cfg.po.fwd

def getBlockSuccessor (ref : NodeRef) : Option (Option NodeRef) := do
  if ← cfg.isBlockExit ref then some none
  else (← cfg.po.fwd.lookup ref).head?.map some

end Cfg

namespace Binrel

variable {T : Type} [DecidableEq T] (rel : Binrel T)

/-- Walks back to the first node of a group. What is remembered are addresses: that of the argument,
and that of the only member of the predecessor set of a node. -/
def groupEntry : Nat → List (Option T) → Option T → T → Option (Option T)
  | 0, _, _, _ => none
  | fuel + 1, seen, address, node => do
    if address ∈ seen then some none
    else
      match ← rel.rev.lookup node with
      | [pred] =>
        let succs ← rel.fwd.lookup pred
        if succs.length ≠ 1 then some (some node)
        else groupEntry fuel (address :: seen) (some node) pred
      | _ => some (some node)

def groupFrom : Nat → T → Option (List T)
  | 0, _ => none
  | fuel + 1, node => do
    match ← rel.fwd.lookup node with
    | [succ] =>
      let preds ← rel.rev.lookup succ
      if preds.length ≠ 1 then some [node]
      else (groupFrom fuel succ).map (node :: ·)
    | _ => some [node]

def getGroup (node : T) : Option (List T) := do
  match ← groupEntry rel (rel.rev.entries.length + 2) [] none node with
  | none => some [node]
  | some first => groupFrom rel (rel.fwd.entries.length + 1) first

/-! Degrees and straight steps -/

section Straight

variable {rel : Binrel T}

section Proper

variable (proper : rel.Proper)

include proper

theorem Proper.succs_eq_singleton {x y : T} : rel.succs x = [y] ↔ ∀ {z}, rel.Edge x z ↔ z = y := by
  constructor
  · intro single z
    rw [Edge, single, List.mem_singleton]
  · intro only
    apply List.perm_singleton.mp
    apply (List.perm_ext_iff_of_nodup (proper.succs_nodup x) (List.nodup_singleton y)).mpr
    intro z
    rw [List.mem_singleton]
    exact only

theorem Proper.straight_iff {x y : T} :
    Straight rel.Edge x y ↔ rel.succs x = [y] ∧ rel.preds y = [x] := by
  have preds : rel.preds y = [x] ↔ ∀ {z}, rel.Edge z y ↔ z = x := by
    have single := proper.converse.succs_eq_singleton (x := y) (y := x)
    simp only [proper.edge_converse] at single
    exact single
  rw [proper.succs_eq_singleton, preds]
  exact ⟨fun straight => ⟨straight.next, straight.previous⟩, fun both => ⟨both.1, both.2⟩⟩

/-- An edge is straight if it is the only one on both sides. -/
theorem Proper.straight_of_length {x y : T} (edge : rel.Edge x y) (succs : (rel.succs x).length = 1)
    (preds : (rel.preds y).length = 1) : Straight rel.Edge x y := by
  rcases List.length_eq_one_iff.mp succs with ⟨z, succs⟩
  rcases List.length_eq_one_iff.mp preds with ⟨w, preds⟩
  have here : y ∈ rel.succs x := edge
  have there : x ∈ rel.preds y := proper.mem_preds.mpr edge
  rw [succs, List.mem_singleton] at here
  rw [preds, List.mem_singleton] at there
  exact proper.straight_iff.mpr ⟨here ▸ succs, there ▸ preds⟩

theorem groupFrom_eq {x : T} {rest : List T} (onward : Onward rel.Edge x rest)
    (present : ∀ y ∈ x :: rest, y ∈ rel.fwd) {fuel : Nat} (enough : rest.length < fuel) :
    groupFrom rel fuel x = some (x :: rest) := by
  induction onward generalizing fuel with
  | @stop x last =>
    cases fuel with
    | zero => cases enough
    | succ fuel =>
      rw [groupFrom, lookup_of_mem (present x List.mem_cons_self)]
      change (match rel.succs x with | [succ] => _ | _ => _) = _
      split
      · rename_i succ single
        have edge : rel.Edge x succ := by rw [Edge, single]; exact List.mem_singleton_self succ
        rw [lookup_of_mem (mem_of_mem_get (proper.mem_preds.mpr edge))]
        have several : (rel.preds succ).length ≠ 1 := fun one =>
          last succ (proper.straight_of_length edge (by rw [single]; rfl) one)
        exact if_pos several
      · rfl
  | @step x y rest next onward ih =>
    cases fuel with
    | zero => cases enough
    | succ fuel =>
      rcases proper.straight_iff.mp next with ⟨succs, preds⟩
      have later : ∀ z ∈ y :: rest, z ∈ rel.fwd := fun z member =>
        present z (List.mem_cons_of_mem x member)
      have back : y ∈ rel.rev := mem_of_mem_get (proper.mem_preds.mpr next.related)
      rw [groupFrom, lookup_of_mem (present x List.mem_cons_self)]
      change (match rel.succs x with | [succ] => _ | _ => _) = _
      rw [succs]
      change (rel.rev.lookup y).bind _ = _
      rw [lookup_of_mem back]
      change (if (rel.preds y).length ≠ 1 then _ else _) = _
      rw [preds, if_neg (fun other => other rfl), ih later (Nat.lt_of_succ_lt_succ enough)]
      rfl

/-- Walking back from a node ends at the head of its piece: no address comes twice, since no node
does. -/
theorem groupEntry_eq (acyclic : Acyclic rel.Edge) {x : T} {before : List T}
    (back : Onward (Function.swap rel.Edge) x before) (present : ∀ y ∈ x :: before, y ∈ rel.rev)
    {seen : List (Option T)} {address : Option T} (new : address ∉ seen)
    (fresh : ∀ y ∈ x :: before, some y ∉ address :: seen) {fuel : Nat}
    (enough : before.length < fuel) :
    groupEntry rel fuel seen address x = some (some (before.getLastD x)) := by
  induction back generalizing seen address fuel with
  | @stop x first =>
    cases fuel with
    | zero => cases enough
    | succ fuel =>
      rw [groupEntry, if_neg new, lookup_of_mem (present x List.mem_cons_self)]
      change (match rel.preds x with | [pred] => _ | _ => _) = _
      split
      · rename_i pred single
        have edge : rel.Edge pred x := by
          rw [← proper.mem_preds, single]
          exact List.mem_singleton_self pred
        rw [lookup_of_mem (mem_of_mem_get edge)]
        have several : (rel.succs pred).length ≠ 1 := fun one =>
          first pred (Straight.swap_iff.mpr (proper.straight_of_length edge one (by rw [single]; rfl)))
        exact if_pos several
      · rfl
  | @step x y before next back ih =>
    cases fuel with
    | zero => cases enough
    | succ fuel =>
      have next := Straight.swap_iff.mp next
      rcases proper.straight_iff.mp next with ⟨succs, preds⟩
      have earlier : ∀ z ∈ y :: before, z ∈ rel.rev := fun z member =>
        present z (List.mem_cons_of_mem x member)
      have other := (List.nodup_cons.mp ((back.step (Straight.swap_iff.mpr next)).nodup acyclic.swap)).1
      have fresh' : ∀ z ∈ y :: before, some z ∉ some x :: address :: seen := by
        intro z member
        apply List.not_mem_cons_of_ne_of_not_mem ?_ (fresh z (List.mem_cons_of_mem x member))
        intro same
        exact other (Option.some.inj same ▸ member)
      rw [groupEntry, if_neg new, lookup_of_mem (present x List.mem_cons_self)]
      change (match rel.preds x with | [pred] => _ | _ => _) = _
      rw [preds]
      change (rel.fwd.lookup y).bind _ = _
      rw [lookup_of_mem (mem_of_mem_get next.related)]
      change (if (rel.succs y).length ≠ 1 then _ else _) = _
      rw [succs, if_neg (fun other => other rfl), List.getLastD_cons]
      exact ih earlier (fresh x List.mem_cons_self) fresh' (Nat.lt_of_succ_lt_succ enough)

omit proper [DecidableEq T] in
theorem length_le_entries {map : AList (fun _ : T => List T)} {l : List T} (nodup : l.Nodup)
    (present : ∀ x ∈ l, x ∈ map) : l.length ≤ map.entries.length := by
  have within := (nodup.subperm fun x member => present x member).length_le
  rwa [AList.keys, List.keys, List.length_map] at within

theorem getGroup_eq (acyclic : Acyclic rel.Edge) {among : Finset T}
    (within : ∀ {x y}, rel.Edge x y → x ∈ among ∧ y ∈ among)
    (present : ∀ x ∈ among, x ∈ rel.fwd ∧ x ∈ rel.rev) {head x : T} {rest : List T}
    (start : Head rel.Edge head) (onward : Onward rel.Edge head rest) (member : x ∈ head :: rest)
    (known : ∀ y ∈ head :: rest, y ∈ among) : rel.getGroup x = some (head :: rest) := by
  rcases Onward.exists_of_acyclic acyclic.swap (fun edge => (within edge).1) x with ⟨before, back⟩
  have known' : ∀ y ∈ x :: before, y ∈ among := by
    intro y here
    rcases (back.path_back here).cases_head with rfl | ⟨z, step, -⟩
    · exact known y member
    · exact (within step.related).1
  have start' : Head rel.Edge (before.getLastD x) := fun y step =>
    (back.eq_last_iff acyclic.swap Onward.getLastD_mem).mp rfl y (Straight.swap_iff.mpr step)
  have first : head = before.getLastD x :=
    start.unique start' (onward.path member) (back.path_back Onward.getLastD_mem)
  have nodup := (List.nodup_cons.mp (back.nodup acyclic.swap)).2
  have short : before.length < rel.rev.entries.length + 2 := by
    have bound := length_le_entries nodup fun y here =>
      (present y (known' y (List.mem_cons_of_mem x here))).2
    omega
  have short' : rest.length < rel.fwd.entries.length + 1 := by
    have bound := length_le_entries (List.nodup_cons.mp (onward.nodup acyclic)).2 fun y here =>
      (present y (known y (List.mem_cons_of_mem head here))).1
    omega
  rw [getGroup, groupEntry_eq proper acyclic back (fun y here => (present y (known' y here)).2)
    List.not_mem_nil (by simp) short, ← first]
  exact groupFrom_eq proper onward (fun y here => (present y (known y here)).1) short'

end Proper

end Straight

end Binrel

namespace Cfg

/-- Every node is reachable from the entry, and none twice. -/
structure Rooted (cfg : Cfg) : Prop extends WellFormed cfg where
  acyclic : Acyclic cfg.po.Edge
  entry_lt : cfg.entry < cfg.size
  reachable : ∀ n < cfg.size, cfg.Reaches cfg.entry n

theorem Rooted.entry_first {cfg : Cfg} (rooted : cfg.Rooted) (n : NodeRef) : ¬ cfg.po.Edge n cfg.entry := by
  intro edge
  exact rooted.acyclic n (.head' edge (rooted.reachable n (rooted.valid edge).1))

theorem Rooted.entry_head {cfg : Cfg} (rooted : cfg.Rooted) : Head cfg.po.Edge cfg.entry :=
  fun n step => rooted.entry_first n step.related

theorem rooted_ofEdges {nodes : List Node} {edges : List (NodeRef × NodeRef)} {entry : NodeRef}
    {exits : List NodeRef}
    (valid : ∀ edge ∈ edges, edge.1 < nodes.length ∧ edge.2 < nodes.length)
    (increasing : ∀ edge ∈ edges, edge.1 < edge.2) (entry_lt : entry < nodes.length)
    (entered : ∀ n < nodes.length, n = entry ∨ ∃ edge ∈ edges, edge.2 = n) :
    (ofEdges nodes edges entry exits).Rooted := by
  refine ⟨wellFormed_ofEdges valid, acyclic_ofEdges increasing, entry_lt, fun n bound => ?_⟩
  induction n using Nat.strong_induction_on with
  | _ n ih =>
    rcases entered n bound with rfl | ⟨⟨m, n⟩, listed, rfl⟩
    · exact .refl
    · exact (ih m (increasing _ listed) (valid _ listed).1).tail (edge_ofEdges.mpr listed)

variable {cfg : Cfg} {n m : NodeRef}

theorem WellFormed.mem_range (wellFormed : cfg.WellFormed) (edge : cfg.po.Edge n m) :
    n ∈ Finset.range cfg.size ∧ m ∈ Finset.range cfg.size := by
  rw [Finset.mem_range, Finset.mem_range]
  exact wellFormed.valid edge

theorem isBlockBoundary_eq {rel : Binrel NodeRef} (proper : rel.Proper) (present : n ∈ rel.rev) :
    ∃ boundary, isBlockBoundary n rel.fwd rel.rev = some boundary ∧
      (boundary = true ↔ Head rel.Edge n) := by
  unfold isBlockBoundary
  rw [Binrel.lookup_of_mem present]
  change ∃ boundary, (match rel.preds n with | [pred] => _ | _ => _) = some boundary ∧ _
  split
  · rename_i pred single
    have edge : rel.Edge pred n := by
      rw [← proper.mem_preds, single]
      exact List.mem_singleton_self pred
    rw [Binrel.lookup_of_mem (Binrel.mem_of_mem_get edge)]
    refine ⟨_, rfl, ?_⟩
    rw [decide_eq_true_iff]
    constructor
    · intro several other step
      cases step.previous.mp edge
      exact several (by rw [← Binrel.succs, (proper.straight_iff.mp step).1]; rfl)
    · intro head one
      exact head pred (proper.straight_of_length edge one (by rw [single]; rfl))
  · rename_i other
    exact ⟨true, rfl, fun _ y step => other y (proper.straight_iff.mp step).2, fun _ => rfl⟩

theorem isBlockEntry_eq (wellFormed : cfg.WellFormed) (bound : n < cfg.size) :
    ∃ boundary, cfg.isBlockEntry n = some boundary ∧ (boundary = true ↔ Head cfg.po.Edge n) :=
  isBlockBoundary_eq wellFormed.proper (wellFormed.keys n bound).2

theorem isBlockExit_eq (wellFormed : cfg.WellFormed) (bound : n < cfg.size) :
    ∃ boundary, cfg.isBlockExit n = some boundary ∧
      (boundary = true ↔ ∀ m, ¬ Straight cfg.po.Edge n m) := by
  have proper := wellFormed.proper
  rcases isBlockBoundary_eq proper.converse (wellFormed.keys n bound).1 with ⟨boundary, found, head⟩
  refine ⟨boundary, found, head.trans (forall_congr' fun m => not_congr ?_)⟩
  rw [proper.straight_iff, proper.converse.straight_iff, and_comm]
  rfl

theorem getBlockSuccessor_eq (wellFormed : cfg.WellFormed) (bound : n < cfg.size) :
    ∃ next, cfg.getBlockSuccessor n = some next ∧
      ∀ m, next = some m ↔ Straight cfg.po.Edge n m := by
  rcases isBlockExit_eq wellFormed bound with ⟨boundary, found, last⟩
  unfold getBlockSuccessor
  rw [found]
  cases boundary with
  | true => exact ⟨none, rfl, fun m => ⟨nofun, fun step => absurd step (last.mp rfl m)⟩⟩
  | false =>
    have inner : ¬ ∀ m, ¬ Straight cfg.po.Edge n m := fun stuck => nomatch last.mpr stuck
    rcases not_forall_not.mp inner with ⟨next, step⟩
    refine ⟨some next, ?_, fun m => ?_⟩
    · change (cfg.po.fwd.lookup n).bind _ = _
      rw [wellFormed.lookup_fwd bound, (wellFormed.proper.straight_iff.mp step).1]
      rfl
    · constructor
      · intro same
        exact Option.some.inj same ▸ step
      · intro step'
        rw [step.right_unique step']

end Cfg

end Clou
