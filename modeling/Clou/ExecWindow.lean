import Clou.Aeg
import Clou.SharedPrefix
import Clou.Sweep

/-! Execution windows: the nodes that lead to a transmitter in few steps, and what is left of a window
when the nodes are pruned that do not lead to the main function. -/

namespace Clou

def Cfg.Steps (cfg : Cfg) : Nat → NodeRef → NodeRef → Prop
  | 0, n, m => n = m
  | k + 1, n, m => ∃ s, cfg.po.Edge n s ∧ cfg.Steps k s m

def Cfg.postorder (cfg : Cfg) : List NodeRef := cfg.reversePostorder.reverse

namespace ExecWindow

def max : Nat := 2 ^ 32 - 1

abbrev Distances := AList (fun _ : NodeRef => Nat)

inductive Call where
  | is (ref : NodeRef)
  | isnt (ref : NodeRef)
  deriving DecidableEq, Repr

def Call.ref : Call → NodeRef
  | .is ref => ref
  | .isnt ref => ref

section

variable (aeg : Aeg)

/-- The least distance of some nodes. A node without an entry counts as the greatest integer. -/
def transformMin (map : Distances) (refs : List NodeRef) : Nat :=
  refs.foldl (fun acc ref => min acc ((map.lookup ref).getD max)) max

/-- One node of the sweep. Its own entry is there, with the value 0, while its successors are read. -/
def distanceStep (map : Distances) (ref : NodeRef) : Option Distances :=
  if ref ∈ map then some map
  else (aeg.po.po.fwd.lookup ref).map fun succs =>
    let acc := transformMin (map.insert ref 0) succs
    map.insert ref (if acc < max then (acc + 1) % 2 ^ 32 else acc)

def distances (ref : NodeRef) : Option Distances :=
  aeg.po.postorder.foldlM (distanceStep aeg) (AList.insert ref 0 ∅)

def forEachPredInWindow (ref : NodeRef) (window : Nat) : Option (List Call) :=
  (distances aeg ref).map fun map => aeg.po.postorder.map fun ref =>
    if ref = aeg.entry ∨ ref ∈ aeg.exits ∨ (map.lookup ref).any (· ≤ window) then .is ref else .isnt ref

abbrev Prefixes := AList (fun _ : NodeRef => List Cfg.FuncID)

variable (cfg : Cfg) (window : List NodeRef)

/-- The function instance of a node. The entry and the exit have none. -/
def getId (ref : NodeRef) : List Cfg.FuncID :=
  ((cfg.nodes[ref]?.bind (·.id)).map (·.func)).getD []

def forwardStep (map : Prefixes) (ref : NodeRef) : Option Prefixes :=
  if ref ∈ window then
    (cfg.po.fwd.lookup ref).map fun succs =>
      FiniteMap.emplace map ref ((succs.filter (· ∈ window)).foldl
        (fun acc succ => sharedPrefix acc (getId cfg succ)) (getId cfg ref))
  else some map

/-- The reverse pass: what that shares with the results of the predecessors in the window. -/
def reverseStep (map : Prefixes) (ref : NodeRef) : Option Prefixes :=
  if ref ∈ window then do
    let preds ← cfg.po.rev.lookup ref
    let own ← map.lookup ref
    let out ← (preds.filter (· ∈ window)).foldlM
      (fun acc pred => (map.lookup pred).map (sharedPrefix acc)) own
    some (map.insert ref out)
  else some map

def newWindow (map : Prefixes) : Option (List NodeRef) :=
  window.foldlM (fun newwindow ref => (map.lookup ref).map fun id =>
    if id.isEmpty then newwindow.insert ref else newwindow) []

def pruneExecWindow : Option (List NodeRef) := do
  let map ← cfg.postorder.foldlM (forwardStep cfg window) ∅
  let map ← cfg.reversePostorder.foldlM (reverseStep cfg window) map
  newWindow window map

end

/-! Distances -/

variable {done rest : List NodeRef}

section

variable {aeg : Aeg} {r : NodeRef}

theorem transformMin_le_iff {map : Distances} {refs : List NodeRef} {k : Nat} (small : k < max) :
    transformMin map refs ≤ k ↔ ∃ ref ∈ refs, (map.lookup ref).getD max ≤ k := by
  have general : ∀ first, refs.foldl (fun acc ref => min acc ((map.lookup ref).getD max)) first ≤ k ↔
      first ≤ k ∨ ∃ ref ∈ refs, (map.lookup ref).getD max ≤ k := by
    induction refs with
    | nil => simp
    | cons ref refs ih =>
      intro first
      rw [List.foldl_cons, ih, List.exists_mem_cons_iff, min_le_iff, or_assoc]
  rw [transformMin, general, or_iff_right (Nat.not_le_of_lt small)]

theorem transformMin_le_max (map : Distances) (refs : List NodeRef) : transformMin map refs ≤ max := by
  have general : ∀ first, refs.foldl (fun acc ref => min acc ((map.lookup ref).getD max)) first ≤ first := by
    induction refs with
    | nil => exact Nat.le_refl
    | cons ref refs ih =>
      intro first
      exact Nat.le_trans (ih _) (min_le_left _ _)
  exact general max

def IsDistance (aeg : Aeg) (r n : NodeRef) (d : Nat) : Prop :=
  d ≤ max ∧ ∀ k < max, d ≤ k ↔ ∃ j ≤ k, aeg.po.Steps j n r

theorem isDistance_self (r : NodeRef) : IsDistance aeg r r 0 :=
  ⟨Nat.zero_le _, fun k _ => ⟨fun _ => ⟨0, Nat.zero_le k, rfl⟩, fun _ => Nat.zero_le k⟩⟩

/-- Another node is one step farther away than the nearest of its successors. -/
theorem isDistance_succ {n : NodeRef} {acc : Nat} (different : n ≠ r) (least : acc ≤ max)
    (nearest : ∀ k < max, acc ≤ k ↔ ∃ s, aeg.po.po.Edge n s ∧ ∃ j ≤ k, aeg.po.Steps j s r) :
    IsDistance aeg r n (if acc < max then (acc + 1) % 2 ^ 32 else acc) := by
  have value : (if acc < max then (acc + 1) % 2 ^ 32 else acc) = min (acc + 1) max := by
    unfold max at least ⊢
    split <;> omega
  rw [value]
  refine ⟨min_le_right _ _, fun k small => ?_⟩
  constructor
  · intro near
    have positive : acc ≤ k - 1 ∧ 1 ≤ k := by omega
    rcases (nearest (k - 1) (by omega)).mp positive.1 with ⟨s, edge, j, short, steps⟩
    exact ⟨j + 1, by omega, s, edge, steps⟩
  · rintro ⟨j, short, steps⟩
    cases j with
    | zero => exact absurd steps different
    | succ j =>
      rcases steps with ⟨s, edge, steps⟩
      have near := (nearest j (by omega)).mpr ⟨s, edge, j, Nat.le_refl j, steps⟩
      omega

variable (wellFormed : aeg.po.WellFormed) (topological : aeg.po.Topological)

include wellFormed topological

/-- Once the nodes after it are done, a node gets its distance. -/
theorem distanceStep_sets {n : NodeRef} {map : Distances}
    (split : aeg.po.postorder = done ++ n :: rest)
    (set : ∀ m ∈ done, ∃ d, map.lookup m = some d ∧ IsDistance aeg r m d)
    (unset : ∀ m ∉ done, map.lookup m = if m = r then some 0 else none) :
    ∃ map', distanceStep aeg map n = some map' ∧
      Sweep.Sets n (fun o => ∃ d, o = some d ∧ IsDistance aeg r n d) map map' := by
  rcases Sweep.mem_done_range_reverse split with ⟨bound, greater⟩
  have here := unset n fun member => Nat.lt_irrefl n ((greater n).mp member).1
  by_cases same : n = r
  · rw [if_pos same] at here
    subst same
    exact ⟨map, if_pos (FiniteMap.mem_of_lookup here),
      Sweep.sets_self ⟨0, here, isDistance_self n⟩⟩
  · rw [if_neg same] at here
    have nearest : ∀ k < max, transformMin (map.insert n 0) (aeg.po.po.succs n) ≤ k ↔
        ∃ s, aeg.po.po.Edge n s ∧ ∃ j ≤ k, aeg.po.Steps j s r := by
      intro k small
      rw [transformMin_le_iff small]
      apply exists_congr
      intro s
      apply and_congr_right
      intro edge
      have later := topological.increasing edge
      rcases set s ((greater s).mpr ⟨later, topological.valid edge⟩) with ⟨d, found, distance⟩
      rw [AList.lookup_insert_ne (Nat.ne_of_gt later), found, Option.getD_some]
      exact distance.2 k small
    have absent : n ∉ map := AList.lookup_eq_none.mp here
    refine ⟨_, ?_, Sweep.sets_insert ⟨_, rfl, isDistance_succ same (transformMin_le_max _ _) nearest⟩⟩
    rw [distanceStep, if_neg absent, wellFormed.lookup_fwd bound, Option.map_some]

theorem distances_spec (r : NodeRef) :
    ∃ map, distances aeg r = some map ∧
      ∀ n < aeg.po.size, ∃ d, map.lookup n = some d ∧ IsDistance aeg r n d := by
  have start : ∀ m, (AList.insert r 0 ∅ : Distances).lookup m = if m = r then some 0 else none := by
    intro m
    rw [FiniteMap.lookup_insert, AList.lookup_empty]
  rcases Sweep.foldlM_sets (fun n o => o = if n = r then some 0 else none) (fun n o => ∃ d, o = some d ∧ IsDistance aeg r n d)
    (List.nodup_reverse.mpr List.nodup_range)
    (fun split set unset => distanceStep_sets wellFormed topological split set unset) start with
    ⟨map, folded, every, -⟩
  exact ⟨map, folded, fun n bound => every n (List.mem_reverse.mpr (List.mem_range.mpr bound))⟩

/-- The walk over the predecessors calls one function for each node, and it is the first one for the
entry, the exits, and the nodes in the ball around the given one. -/
theorem forEachPredInWindow_ball {r : NodeRef} {window : Nat} (small : window < max) :
    ∃ map calls, distances aeg r = some map ∧ forEachPredInWindow aeg r window = some calls ∧
      calls.map Call.ref = aeg.po.postorder ∧
      (∀ n < aeg.po.size, Call.is n ∈ calls ↔
        n = aeg.entry ∨ n ∈ aeg.exits ∨ ∃ k ≤ window, aeg.po.Steps k n r) ∧
      ∀ n < aeg.po.size, ∃ d, map.lookup n = some d ∧ IsDistance aeg r n d := by
  rcases distances_spec wellFormed topological r with ⟨map, swept, distance⟩
  refine ⟨map, _, swept, by rw [forEachPredInWindow, swept, Option.map_some], ?_, ?_, distance⟩
  · rw [List.map_map]
    apply List.map_id''
    intro n
    change Call.ref (if _ then _ else _) = n
    split <;> rfl
  · intro n bound
    have listed : n ∈ aeg.po.postorder := List.mem_reverse.mpr (List.mem_range.mpr bound)
    have near : (map.lookup n).any (· ≤ window) = true ↔ ∃ k ≤ window, aeg.po.Steps k n r := by
      rcases distance n bound with ⟨d, found, isDistance⟩
      rw [found, Option.any_some, decide_eq_true_eq, isDistance.2 window small]
    rw [← near]
    constructor
    · intro called
      rcases List.mem_map.mp called with ⟨m, -, chosen⟩
      split at chosen
      · cases chosen
        assumption
      · cases chosen
    · intro inside
      exact List.mem_map.mpr ⟨n, listed, if_pos inside⟩

end

def branch : Aeg where
  po := .ofEdges [.makeEntry, ⟨.inst ⟨0, 0, 0⟩, some ⟨[0], []⟩, ∅⟩, ⟨.inst ⟨0, 1, 0⟩, some ⟨[0], []⟩, ∅⟩,
    .makeExit] [(0, 1), (1, 2), (1, 3), (2, 3)] 0 [3]
  deref I := ⟨if I.block = 0 then .br else .load, [], [], [], false, false, I.block == 1⟩
  leakageClass := .spectreV1
  specDepth := 2
  lsqSize := none

theorem branch_ball : ∃ map calls, distances branch 2 = some map ∧
    forEachPredInWindow branch 2 1 = some calls ∧ calls.map Call.ref = branch.po.postorder ∧
    (∀ n < branch.po.size, Call.is n ∈ calls ↔
      n = branch.entry ∨ n ∈ branch.exits ∨ ∃ k ≤ 1, branch.po.Steps k n 2) ∧
    ∀ n < branch.po.size, ∃ d, map.lookup n = some d ∧ IsDistance branch 2 n d :=
  forEachPredInWindow_ball (Cfg.wellFormed_ofEdges (by decide))
    (Cfg.topological_ofEdges (by decide) (by decide)) (by decide)

/-! Pruning -/

section Prune

variable {cfg : Cfg} {window : List NodeRef}

def WindowEdge (cfg : Cfg) (window : List NodeRef) (n m : NodeRef) : Prop :=
  n ∈ window ∧ m ∈ window ∧ cfg.po.Edge n m

def Within (cfg : Cfg) (window : List NodeRef) : NodeRef → NodeRef → Prop :=
  Relation.ReflTransGen (WindowEdge cfg window)

def Begins (cfg : Cfg) (window : List NodeRef) (p : List Cfg.FuncID) (n : NodeRef) : Prop :=
  p <+: getId cfg n ∧ ∀ s, WindowEdge cfg window n s → p <+: getId cfg s

def Entry (window : List NodeRef) (X : NodeRef → List Cfg.FuncID → Prop) (n : NodeRef)
    (entry : Option (List Cfg.FuncID)) : Prop :=
  n ∈ window → ∃ id, entry = some id ∧ ∀ p, p <+: id ↔ X n p

def Forward (cfg : Cfg) (window : List NodeRef) : NodeRef → Option (List Cfg.FuncID) → Prop :=
  Entry window fun n p => Begins cfg window p n

def Reverse (cfg : Cfg) (window : List NodeRef) : NodeRef → Option (List Cfg.FuncID) → Prop :=
  Entry window fun n p => ∀ a, Within cfg window a n → Begins cfg window p a

variable {n : NodeRef} {map : Prefixes}

/-- The reverse pass spreads a property of the nodes along the paths in the window. -/
theorem within_forall_iff {X : NodeRef → Prop} :
    (∀ a, Within cfg window a n → X a) ↔
      X n ∧ ∀ m, WindowEdge cfg window m n → ∀ a, Within cfg window a m → X a := by
  constructor
  · intro every
    exact ⟨every n .refl, fun m edge a path => every a (path.tail edge)⟩
  · intro both a path
    rcases path.cases_tail with same | ⟨m, before, edge⟩
    · exact same ▸ both.1
    · exact both.2 m edge a before

variable (wellFormed : cfg.WellFormed)

include wellFormed

theorem forwardStep_sets (split : cfg.postorder = done ++ n :: rest)
    (unset : ∀ m ∉ done, map.lookup m = none) : ∃ map', forwardStep cfg window map n = some map' ∧
      Sweep.Sets n (Forward cfg window n) map map' := by
  rcases Sweep.mem_done_range_reverse split with ⟨bound, greater⟩
  have absent : n ∉ map :=
    AList.lookup_eq_none.mp (unset n fun member => Nat.lt_irrefl n ((greater n).mp member).1)
  by_cases inside : n ∈ window
  · rw [forwardStep, if_pos inside, wellFormed.lookup_fwd bound, Option.map_some,
      FiniteMap.emplace_of_not_mem absent]
    refine ⟨_, rfl, Sweep.sets_insert fun _ => ⟨_, rfl, fun p => ?_⟩⟩
    rw [prefix_foldl_sharedPrefix_iff]
    apply and_congr_right
    intro _
    apply forall_congr'
    intro s
    rw [List.mem_filter, decide_eq_true_eq]
    exact ⟨fun every edge => every ⟨edge.2.2, edge.2.1⟩, fun every both => every ⟨inside, both.2, both.1⟩⟩
  · exact ⟨map, if_neg inside, Sweep.sets_self fun member => absurd member inside⟩

omit wellFormed in
theorem foldlM_lookup {refs : List NodeRef} {X : NodeRef → List Cfg.FuncID → Prop}
    (every : ∀ m ∈ refs, ∃ id, map.lookup m = some id ∧ ∀ p, p <+: id ↔ X m p)
    (own : List Cfg.FuncID) :
    ∃ out, refs.foldlM (fun acc m => (map.lookup m).map (sharedPrefix acc)) own = some out ∧
      ∀ p, p <+: out ↔ p <+: own ∧ ∀ m ∈ refs, X m p := by
  induction refs generalizing own with
  | nil => exact ⟨own, rfl, fun p => by simp⟩
  | cons m refs ih =>
    rcases List.forall_mem_cons.mp every with ⟨⟨id, found, begins⟩, later⟩
    rcases ih later (sharedPrefix own id) with ⟨out, folded, result⟩
    refine ⟨out, foldlM_cons_eq_some.mpr ⟨_, by rw [found, Option.map_some], folded⟩, fun p => ?_⟩
    rw [result, prefix_sharedPrefix_iff, begins, List.forall_mem_cons, and_assoc]

variable (topological : cfg.Topological)

include topological

theorem reverseStep_sets (split : cfg.reversePostorder = done ++ n :: rest)
    (set : ∀ m ∈ done, Reverse cfg window m (map.lookup m))
    (unset : ∀ m ∉ done, Forward cfg window m (map.lookup m)) :
    ∃ map', reverseStep cfg window map n = some map' ∧
      Sweep.Sets n (Reverse cfg window n) map map' := by
  rcases Sweep.mem_done_range split with ⟨bound, smaller⟩
  by_cases inside : n ∈ window
  · rcases unset n (fun member => Nat.lt_irrefl n ((smaller n).mp member)) inside with ⟨own, found, begins⟩
    have pred (m : NodeRef) : m ∈ (cfg.po.preds n).filter (· ∈ window) ↔ WindowEdge cfg window m n := by
      rw [List.mem_filter, decide_eq_true_eq, wellFormed.proper.mem_preds]
      exact ⟨fun both => ⟨both.2, inside, both.1⟩, fun edge => ⟨edge.2.2, edge.1⟩⟩
    have every : ∀ m ∈ (cfg.po.preds n).filter (· ∈ window), ∃ id, map.lookup m = some id ∧
        ∀ p, p <+: id ↔ ∀ a, Within cfg window a m → Begins cfg window p a := by
      intro m member
      have edge := (pred m).mp member
      exact set m ((smaller m).mpr (topological.increasing edge.2.2)) edge.1
    rcases foldlM_lookup every own with ⟨out, folded, result⟩
    refine ⟨map.insert n out, ?_, Sweep.sets_insert fun _ => ⟨out, rfl, fun p => ?_⟩⟩
    · rw [reverseStep, if_pos inside, wellFormed.lookup_rev bound, found]
      change Option.bind (List.foldlM _ own _) _ = _
      rw [folded, Option.bind_some]
    · change p <+: out ↔ ∀ a, Within cfg window a n → Begins cfg window p a
      rw [result, begins, within_forall_iff]
      simp only [pred]
  · exact ⟨map, if_neg inside, Sweep.sets_self fun member => absurd member inside⟩

omit wellFormed topological in
theorem newWindow_spec (known : ∀ n ∈ window, ∃ id, map.lookup n = some id) :
    ∃ kept, newWindow window map = some kept ∧ ∀ n, n ∈ kept ↔ n ∈ window ∧ map.lookup n = some [] := by
  have general : ∀ first : List NodeRef, ∃ kept,
      window.foldlM (fun newwindow ref => (map.lookup ref).map fun id =>
        if id.isEmpty then newwindow.insert ref else newwindow) first = some kept ∧
      ∀ n, n ∈ kept ↔ n ∈ first ∨ n ∈ window ∧ map.lookup n = some [] := by
    induction window with
    | nil => exact fun first => ⟨first, rfl, fun n => by simp⟩
    | cons ref window ih =>
      intro first
      rcases List.forall_mem_cons.mp known with ⟨⟨id, found⟩, later⟩
      rcases ih later (if id.isEmpty then first.insert ref else first) with ⟨kept, folded, result⟩
      refine ⟨kept, foldlM_cons_eq_some.mpr ⟨_, by rw [found, Option.map_some], folded⟩, fun n => ?_⟩
      rw [result, List.mem_cons]
      cases id with
      | nil =>
        rw [List.isEmpty_nil, if_pos rfl, List.mem_insert_iff]
        constructor
        · rintro ((rfl | old) | new)
          · exact .inr ⟨.inl rfl, found⟩
          · exact .inl old
          · exact .inr ⟨.inr new.1, new.2⟩
        · rintro (old | ⟨rfl | new, empty⟩)
          · exact .inl (.inr old)
          · exact .inl (.inl rfl)
          · exact .inr ⟨new, empty⟩
      | cons f id =>
        rw [List.isEmpty_cons, if_neg Bool.false_ne_true]
        constructor
        · rintro (old | new)
          · exact .inl old
          · exact .inr ⟨.inr new.1, new.2⟩
        · rintro (old | ⟨rfl | new, empty⟩)
          · exact .inl old
          · cases found.symm.trans empty
          · exact .inr ⟨new, empty⟩
  rcases general [] with ⟨kept, folded, result⟩
  exact ⟨kept, folded, fun n => by rw [result, or_iff_right List.not_mem_nil]⟩

/-- A node is kept unless the nodes that lead to it in the window, and their successors there, are all
in instances that begin with the same function. -/
theorem pruneExecWindow_spec (valid : ∀ n ∈ window, n < cfg.size) :
    ∃ kept, pruneExecWindow cfg window = some kept ∧ ∀ n, n ∈ kept ↔ n ∈ window ∧
      ¬ ∃ f, ∀ a, Within cfg window a n → Begins cfg window [f] a := by
  have nodup : cfg.reversePostorder.Nodup := List.nodup_range
  have nodup' : cfg.postorder.Nodup := List.nodup_reverse.mpr nodup
  rcases Sweep.foldlM_sets (fun _ o => o = none) (Forward cfg window) nodup'
    (fun split _ unset => forwardStep_sets wellFormed split unset) (fun n => AList.lookup_empty n) with
    ⟨map, forward, begins, -⟩
  have start (n : NodeRef) : Forward cfg window n (map.lookup n) :=
    fun inside => begins n (List.mem_reverse.mpr (List.mem_range.mpr (valid n inside))) inside
  rcases Sweep.foldlM_sets (Forward cfg window) (Reverse cfg window) nodup
    (fun split set unset => reverseStep_sets wellFormed topological split set unset) start with
    ⟨map', reverse, result, -⟩
  have every (n : NodeRef) (inside : n ∈ window) :=
    result n (List.mem_range.mpr (valid n inside)) inside
  rcases newWindow_spec (fun n inside => (every n inside).imp fun _ found => found.1) with
    ⟨kept, collected, member⟩
  refine ⟨kept, ?_, fun n => ?_⟩
  · rw [pruneExecWindow, forward]
    change Option.bind (List.foldlM _ _ _) _ = _
    rw [reverse, Option.bind_some, collected]
  · rw [member]
    apply and_congr_right
    intro inside
    rcases every n inside with ⟨id, found, begins⟩
    rw [found, Option.some.injEq, eq_nil_iff_forall_not_prefix, not_exists]
    simp only [begins]

/-- Pruning keeps the nodes that a node of the main function leads to. It keeps those that lead to one
if and only if they, the nodes that lead to them, and the successors of these, are not all in
instances that begin with the same function. -/
theorem pruneExecWindow_connected_iff (valid : ∀ n ∈ window, n < cfg.size) :
    ∃ kept, pruneExecWindow cfg window = some kept ∧ kept ⊆ window ∧
      ((∀ n ∈ window, (∃ m ∈ window, getId cfg m = [] ∧
          (Within cfg window n m ∨ Within cfg window m n)) → n ∈ kept) ↔
        ∀ n ∈ window, (∃ m ∈ window, getId cfg m = [] ∧ Within cfg window n m) →
          ¬ ∃ f, ∀ a, Within cfg window a n → Begins cfg window [f] a) := by
  rcases pruneExecWindow_spec wellFormed topological valid with ⟨kept, pruned, member⟩
  refine ⟨kept, pruned, fun n inside => ((member n).mp inside).1, ?_⟩
  constructor
  · rintro keeps n inside ⟨m, main, empty, path⟩
    exact ((member n).mp (keeps n inside ⟨m, main, empty, .inl path⟩)).2
  · rintro spread n inside ⟨m, main, empty, forward | backward⟩
    · exact (member n).mpr ⟨inside, spread n inside ⟨m, main, empty, forward⟩⟩
    · refine (member n).mpr ⟨inside, ?_⟩
      rintro ⟨f, begins⟩
      have first := (begins m backward).1
      rw [empty] at first
      cases List.prefix_nil.mp first

end Prune

/-- A call, two nodes of which are in the window, and the return to the main function. The window is
that around the node after the return. -/
def returning : Cfg :=
  .ofEdges [.makeEntry, ⟨.inst ⟨0, 0, 0⟩, some ⟨[], []⟩, ∅⟩, ⟨.inst ⟨1, 0, 0⟩, some ⟨[0], []⟩, ∅⟩,
    ⟨.inst ⟨1, 0, 1⟩, some ⟨[0], []⟩, ∅⟩, ⟨.inst ⟨0, 0, 1⟩, some ⟨[], []⟩, ∅⟩, .makeExit]
    [(0, 1), (1, 2), (2, 3), (3, 4), (4, 5)] 0 [5]

theorem returning_pruned : getId returning 4 = [] ∧ Within returning [0, 2, 3, 4, 5] 2 4 ∧
    pruneExecWindow returning [0, 2, 3, 4, 5] = some [5, 4, 3, 0] := by
  have first : WindowEdge returning [0, 2, 3, 4, 5] 2 3 := by
    refine ⟨?_, ?_, ?_⟩ <;> decide
  have second : WindowEdge returning [0, 2, 3, 4, 5] 3 4 := by
    refine ⟨?_, ?_, ?_⟩ <;> decide
  exact ⟨by decide, .tail (.single first) second, by decide⟩

theorem returning_connected_iff : ∃ kept, pruneExecWindow returning [0, 3, 4, 5] = some kept ∧
    kept ⊆ [0, 3, 4, 5] ∧
    ((∀ n ∈ [0, 3, 4, 5], (∃ m ∈ [0, 3, 4, 5], getId returning m = [] ∧
        (Within returning [0, 3, 4, 5] n m ∨ Within returning [0, 3, 4, 5] m n)) → n ∈ kept) ↔
      ∀ n ∈ [0, 3, 4, 5], (∃ m ∈ [0, 3, 4, 5], getId returning m = [] ∧
        Within returning [0, 3, 4, 5] n m) →
        ¬ ∃ f, ∀ a, Within returning [0, 3, 4, 5] a n → Begins returning [0, 3, 4, 5] [f] a) :=
  pruneExecWindow_connected_iff (Cfg.wellFormed_ofEdges (by decide))
    (Cfg.topological_ofEdges (by decide) (by decide)) (by decide)

end ExecWindow

end Clou
