import Mathlib.Data.List.Chain
import Clou.Postorder

/-! The graph in which a call is split into one node for each pointer argument. -/

namespace Clou.Cfg

open Labelled

namespace Calls

structure State where
  nodes : List Node
  po : Binrel NodeRef
  map : List (List NodeRef)

section

variable (deref : InstRef → Inst) (isPointerTy : Value → Bool)

def callNodes (node : Node) : List Node :=
  match node.v with
  | .inst I =>
    if (deref I).isCall ∧ ¬ (deref I).isDebug then
      ((deref I).args.filter isPointerTy).map (fun arg => ⟨.call I arg, node.id, ∅⟩)
    else []
  | _ => []

/-- What a node becomes. Without a pointer argument it is copied. -/
def copies (node : Node) : List Node :=
  if callNodes deref isPointerTy node = [] then [node] else callNodes deref isPointerTy node

def copyNode (s : State) (node : Node) : State :=
  let new := copies deref isPointerTy node
  let set := List.range' s.nodes.length new.length
  ⟨s.nodes ++ new, s.po.addNodes set, s.map ++ [set]⟩

def copyNodes (nodes : List Node) : State :=
  nodes.foldl (copyNode deref isPointerTy) ⟨[], .empty, []⟩

def product (srcs dsts : List NodeRef) : List (NodeRef × NodeRef) :=
  srcs.flatMap (fun src => dsts.map (fun dst => (src, dst)))

def connections (cfg : Cfg) (map : List (List NodeRef)) (src : NodeRef) :
    Option (List (List (NodeRef × NodeRef))) := do
  let srcs ← map[src]?
  let dsts ← cfg.po.fwd.lookup src
  dsts.mapM fun dst => (map[dst]?).map (product srcs)

/-- The exits are not set. -/
def construct (cfg : Cfg) : Option Cfg := do
  let s := copyNodes deref isPointerTy cfg.nodes
  let edges ← (List.range cfg.size).mapM (connections cfg s.map)
  some ⟨s.nodes, s.po.insertAll edges.flatten.flatten, 0, [], cfg.translations⟩

end

section Copies

variable {deref : InstRef → Inst} {isPointerTy : Value → Bool}

/-- A call that is split: it is not for debugging and has pointer arguments. -/
structure IsSplit (deref : InstRef → Inst) (isPointerTy : Value → Bool) (node : Node) (I : InstRef) :
    Prop where
  inst : node.v = .inst I
  call : (deref I).isCall = true
  debug : (deref I).isDebug = false
  pointer : ∃ arg ∈ (deref I).args, isPointerTy arg = true

variable {node copy : Node} {I : InstRef}

theorem copies_split (split : IsSplit deref isPointerTy node I) : copies deref isPointerTy node =
    ((deref I).args.filter isPointerTy).map fun arg => ⟨.call I arg, node.id, ∅⟩ := by
  obtain ⟨arg, member, pointer⟩ := split.pointer
  have nodes : callNodes deref isPointerTy node =
      ((deref I).args.filter isPointerTy).map fun arg => ⟨.call I arg, node.id, ∅⟩ := by
    simp [callNodes, split.inst, split.call, split.debug]
  have some : callNodes deref isPointerTy node ≠ [] := by
    rw [nodes, ne_eq, List.map_eq_nil_iff]
    exact List.ne_nil_of_mem (List.mem_filter.mpr ⟨member, pointer⟩)
  rw [copies, if_neg some, nodes]

theorem copies_whole (whole : ∀ I, ¬ IsSplit deref isPointerTy node I) :
    copies deref isPointerTy node = [node] := by
  have none : callNodes deref isPointerTy node = [] := by
    unfold callNodes
    split
    · rename_i I inst
      split
      · rename_i call
        rw [List.map_eq_nil_iff, List.filter_eq_nil_iff]
        intro arg member pointer
        exact whole I ⟨inst, call.1, by simpa using call.2, arg, member, pointer⟩
      · rfl
    · rfl
  rw [copies, if_pos none]

/-- A copy is the node itself, or stands for one argument of it. -/
theorem mem_copies (member : copy ∈ copies deref isPointerTy node) :
    copy = node ∨ ∃ I arg, node.v = .inst I ∧ copy = ⟨.call I arg, node.id, ∅⟩ := by
  by_cases split : ∃ I, IsSplit deref isPointerTy node I
  · obtain ⟨I, split⟩ := split
    rw [copies_split split] at member
    obtain ⟨arg, -, rfl⟩ := List.mem_map.mp member
    exact .inr ⟨I, arg, split.inst, rfl⟩
  · rw [copies_whole (not_exists.mp split)] at member
    exact .inl (List.mem_singleton.mp member)

theorem copies_ne_nil (node : Node) : copies deref isPointerTy node ≠ [] := by
  unfold copies
  split
  · simp
  · assumption

theorem copies_special (special : ∀ I, node.v ≠ .inst I) : copies deref isPointerTy node = [node] :=
  copies_whole fun I split => special I split.inst

structure Copied (deref : InstRef → Inst) (isPointerTy : Value → Bool) (nodes : List Node) (s : State) :
    Prop where
  length : s.map.length = nodes.length
  nodup : ∀ {i : Nat} {set}, s.map[i]? = some set → set.Nodup
  content : ∀ {i : Nat} {set node}, s.map[i]? = some set → nodes[i]? = some node →
    List.Forall₂ (fun a copy => s.nodes[a]? = some copy) set (copies deref isPointerTy node)
  cover : ∀ a < s.nodes.length, ∃ (i : Nat) (set : List NodeRef), s.map[i]? = some set ∧ a ∈ set
  valid : ∀ {i : Nat} {set a}, s.map[i]? = some set → a ∈ set → a < s.nodes.length
  owner : ∀ {i j : Nat} {set set' a}, s.map[i]? = some set → s.map[j]? = some set' →
    a ∈ set → a ∈ set' → i = j
  front : ∀ {set}, s.map[0]? = some set → 0 ∈ set
  proper : s.po.Proper
  keys : ∀ a < s.nodes.length, a ∈ s.po.fwd ∧ a ∈ s.po.rev
  edge : ∀ {a b}, ¬ s.po.Edge a b

theorem getElem?_concat {A : Type} {l : List A} {x y : A} {i : Nat} (found : (l ++ [x])[i]? = some y) :
    l[i]? = some y ∨ i = l.length ∧ y = x := by
  rw [List.getElem?_append] at found
  split at found
  · exact .inl found
  · rename_i last
    rcases List.getElem?_eq_some_iff.mp found with ⟨bound, same⟩
    simp only [List.length_singleton, Nat.lt_one_iff] at bound
    refine .inr ⟨by omega, ?_⟩
    simpa [bound] using same.symm

theorem range_content (old new : List Node) :
    List.Forall₂ (fun a copy => (old ++ new)[a]? = some copy) (List.range' old.length new.length) new := by
  induction new generalizing old with
  | nil => exact .nil
  | cons node new ih =>
    rw [List.length_cons, List.range'_succ]
    refine .cons (by simp) ?_
    have later := ih (old ++ [node])
    rw [List.length_append, List.length_singleton, List.append_assoc, List.singleton_append] at later
    exact later

theorem Copied.copyNode {s : State} {nodes : List Node}
    (copied : Copied deref isPointerTy nodes s) (node : Node) :
    Copied deref isPointerTy (nodes ++ [node]) (copyNode deref isPointerTy s node) := by
  let new := copies deref isPointerTy node
  let set := List.range' s.nodes.length new.length
  have mem_set (a : NodeRef) : a ∈ set ↔ s.nodes.length ≤ a ∧ a < (s.nodes ++ new).length := by
    simp only [set, List.mem_range'_1, List.length_append]
  rcases copied.proper.addNodes set with ⟨proper, edges, keys⟩
  have found {i : Nat} {set' : List NodeRef} (here : (s.map ++ [set])[i]? = some set') :
      s.map[i]? = some set' ∨ i = nodes.length ∧ set' = set := by
    rw [← copied.length]
    exact getElem?_concat here
  refine ⟨?_, ?_, ?_, ?_, ?_, ?_, ?_, proper, ?_, fun edge => copied.edge ((edges _ _).mp edge)⟩
  · change (s.map ++ [set]).length = (nodes ++ [node]).length
    rw [List.length_append, copied.length, List.length_append, List.length_singleton,
      List.length_singleton]
  · intro i set' here
    rcases found here with old | ⟨-, rfl⟩
    · exact copied.nodup old
    · exact List.nodup_range'
  · intro i set' node' here original
    change List.Forall₂ (fun a copy => (s.nodes ++ new)[a]? = some copy) _ _
    rcases found here with old | ⟨rfl, rfl⟩
    · have bound : i < nodes.length := copied.length ▸ (List.getElem?_eq_some_iff.mp old).1
      rw [List.getElem?_append_left bound] at original
      exact (copied.content old original).imp fun a copy here =>
        lookup_extend (List.prefix_append _ _) here
    · rw [List.getElem?_concat_length] at original
      cases original
      exact range_content s.nodes new
  · intro a bound
    change ∃ (i : Nat) (set' : List NodeRef), (s.map ++ [set])[i]? = some set' ∧ a ∈ set'
    by_cases old : a < s.nodes.length
    · rcases copied.cover a old with ⟨i, set', here, member⟩
      exact ⟨i, set', lookup_extend (List.prefix_append _ _) here, member⟩
    · exact ⟨s.map.length, set, List.getElem?_concat_length, (mem_set a).mpr ⟨Nat.le_of_not_lt old, bound⟩⟩
  · intro i set' a here member
    change a < (s.nodes ++ new).length
    rcases found here with old | ⟨-, rfl⟩
    · rw [List.length_append]
      exact Nat.lt_add_right _ (copied.valid old member)
    · exact ((mem_set a).mp member).2
  · intro i j left right a here there member member'
    rcases found here with old | ⟨rfl, rfl⟩
    · rcases found there with old' | ⟨-, rfl⟩
      · exact copied.owner old old' member member'
      · exact absurd (copied.valid old member) (Nat.not_lt.mpr ((mem_set a).mp member').1)
    · rcases found there with old' | ⟨rfl, -⟩
      · exact absurd (copied.valid old' member') (Nat.not_lt.mpr ((mem_set a).mp member).1)
      · rfl
  · intro set' here
    rcases found here with old | ⟨empty, rfl⟩
    · exact copied.front old
    · have no_nodes : s.nodes.length = 0 := by
        by_contra some'
        rcases copied.cover 0 (Nat.pos_of_ne_zero some') with ⟨i, _, here, -⟩
        have bound := (List.getElem?_eq_some_iff.mp here).1
        rw [copied.length, ← empty] at bound
        exact absurd bound (Nat.not_lt_zero i)
      refine (mem_set 0).mpr ⟨Nat.le_of_eq no_nodes, ?_⟩
      rw [List.length_append, no_nodes, Nat.zero_add]
      exact List.length_pos_iff.mpr (copies_ne_nil node)
  · intro a bound
    change a ∈ (s.po.addNodes set).fwd ∧ a ∈ (s.po.addNodes set).rev
    rw [(keys a).1, (keys a).2, mem_set]
    by_cases old : a < s.nodes.length
    · exact ⟨.inr (copied.keys a old).1, .inr (copied.keys a old).2⟩
    · exact ⟨.inl ⟨Nat.le_of_not_lt old, bound⟩, .inl ⟨Nat.le_of_not_lt old, bound⟩⟩

theorem copied_copyNodes (nodes : List Node) :
    Copied deref isPointerTy nodes (copyNodes deref isPointerTy nodes) := by
  have run (s : State) (before : List Node) (copied : Copied deref isPointerTy before s) :
      Copied deref isPointerTy (before ++ nodes) (nodes.foldl (Calls.copyNode deref isPointerTy) s) := by
    induction nodes generalizing s before with
    | nil =>
      rw [List.append_nil]
      exact copied
    | cons node nodes ih =>
      rw [List.append_cons]
      exact ih _ (before ++ [node]) (copied.copyNode node)
  exact run _ []
    ⟨rfl, by simp, by simp, by simp, by simp, by simp, by simp, Binrel.proper_empty, by simp, by simp⟩

end Copies

section

theorem mem_product {srcs dsts : List NodeRef} {a b : NodeRef} :
    (a, b) ∈ product srcs dsts ↔ a ∈ srcs ∧ b ∈ dsts := by
  simp [product]

theorem connections_eq {cfg : Cfg} (wellFormed : cfg.WellFormed) {map : List (List NodeRef)}
    (length : map.length = cfg.size) {src : NodeRef} (valid : src < cfg.size) :
    connections cfg map src =
      some ((cfg.po.succs src).map fun dst => product (map.getD src []) (map.getD dst [])) := by
  have lookup {n : NodeRef} (bound : n < cfg.size) : map[n]? = some (map.getD n []) := by
    have present : n < map.length := length ▸ bound
    simp [present]
  rw [connections, lookup valid, wellFormed.lookup_fwd valid]
  apply mapM_eq_some
  intro dst edge
  rw [lookup (wellFormed.valid edge).2]
  rfl

def copiedEdges (cfg : Cfg) (map : List (List NodeRef)) : List (List (List (NodeRef × NodeRef))) :=
  (List.range cfg.size).map fun src =>
    (cfg.po.succs src).map fun dst => product (map.getD src []) (map.getD dst [])

theorem mem_copiedEdges {cfg : Cfg} (wellFormed : cfg.WellFormed) {map : List (List NodeRef)}
    {a b : NodeRef} : (a, b) ∈ (copiedEdges cfg map).flatten.flatten ↔
      ∃ n m, cfg.po.Edge n m ∧ a ∈ map.getD n [] ∧ b ∈ map.getD m [] := by
  simp only [copiedEdges, List.mem_flatten, List.mem_map, List.mem_range]
  constructor
  · rintro ⟨_, ⟨_, ⟨n, -, rfl⟩, inner⟩, pair⟩
    rcases List.mem_map.mp inner with ⟨m, succ, rfl⟩
    exact ⟨n, m, succ, mem_product.mp pair⟩
  · rintro ⟨n, m, step, copies⟩
    exact ⟨_, ⟨_, ⟨n, (wellFormed.valid step).1, rfl⟩, List.mem_map.mpr ⟨m, step, rfl⟩⟩,
      mem_product.mpr copies⟩

end

def source (map : List (List NodeRef)) (a : NodeRef) : NodeRef := map.findIdx (fun set => decide (a ∈ set))

variable {a : NodeRef}

theorem source_eq {deref : InstRef → Inst} {isPointerTy : Value → Bool} {nodes : List Node}
    {s : State} (copied : Copied deref isPointerTy nodes s) {i : Nat} {set : List NodeRef}
    (found : s.map[i]? = some set) (member : a ∈ set) : source s.map a = i := by
  have some' : s.map.findIdx (fun set => decide (a ∈ set)) < s.map.length :=
    List.findIdx_lt_length_of_exists ⟨set, List.mem_of_getElem? found, by simpa using member⟩
  have here : a ∈ s.map[s.map.findIdx (fun set => decide (a ∈ set))] := by
    simpa using List.findIdx_getElem (w := some')
  exact copied.owner (List.getElem?_eq_getElem some') found here member

/-- What splitting makes of a graph: the edges are those between the nodes that are copied. -/
structure Constructed (deref : InstRef → Inst) (isPointerTy : Value → Bool) (cfg cfg' : Cfg)
    (source : NodeRef → NodeRef) : Prop where
  wellFormed : cfg'.WellFormed
  edge : ∀ {a b}, cfg'.po.Edge a b ↔ a < cfg'.size ∧ b < cfg'.size ∧ cfg.po.Edge (source a) (source b)
  source_lt : ∀ a < cfg'.size, source a < cfg.size
  copies : ∀ {n node}, cfg.nodes[n]? = some node → ∃ set : List NodeRef, set ≠ [] ∧ set.Nodup ∧
    (∀ a, a ∈ set ↔ a < cfg'.size ∧ source a = n) ∧
    List.Forall₂ (fun a copy => cfg'.nodes[a]? = some copy) set (Calls.copies deref isPointerTy node)
  entry : cfg'.entry = 0
  front : 0 < cfg.size → source 0 = 0

theorem construct_spec (deref : InstRef → Inst) (isPointerTy : Value → Bool) {cfg : Cfg}
    (wellFormed : cfg.WellFormed) : ∃ cfg' source, construct deref isPointerTy cfg = some cfg' ∧
      Constructed deref isPointerTy cfg cfg' source := by
  let s := copyNodes deref isPointerTy cfg.nodes
  have copied : Copied deref isPointerTy cfg.nodes s := copied_copyNodes cfg.nodes
  have listed : (List.range cfg.size).mapM (connections cfg s.map) = some (copiedEdges cfg s.map) :=
    mapM_eq_some fun src member => connections_eq wellFormed copied.length (List.mem_range.mp member)
  have mem_map {n : Nat} {a : NodeRef} :
      a ∈ s.map.getD n [] ↔ a < s.nodes.length ∧ source s.map a = n := by
    constructor
    · intro member
      cases found : s.map[n]? with
      | none => simp [found] at member
      | some set =>
        have here : a ∈ set := by simpa [found] using member
        exact ⟨copied.valid found here, source_eq copied found here⟩
    · rintro ⟨bound, rfl⟩
      rcases copied.cover a bound with ⟨i, set, found, member⟩
      rw [source_eq copied found member]
      simpa [found] using member
  rcases copied.proper.insertAll (copiedEdges cfg s.map).flatten.flatten with ⟨proper, mem, keys⟩
  have edge {a b : NodeRef} : (s.po.insertAll (copiedEdges cfg s.map).flatten.flatten).Edge a b ↔
      a < s.nodes.length ∧ b < s.nodes.length ∧ cfg.po.Edge (source s.map a) (source s.map b) := by
    rw [mem, mem_copiedEdges wellFormed]
    simp only [mem_map, copied.edge, false_or]
    constructor
    · rintro ⟨n, m, step, ⟨here, rfl⟩, there, rfl⟩
      exact ⟨here, there, step⟩
    · rintro ⟨here, there, step⟩
      exact ⟨_, _, step, ⟨here, rfl⟩, there, rfl⟩
  refine ⟨_, source s.map, by rw [construct, listed]; rfl, ?_⟩
  refine ⟨⟨proper, ?_, fun step => ⟨(edge.mp step).1, (edge.mp step).2.1⟩⟩, edge, ?_, ?_, rfl, ?_⟩
  · exact fun a bound => ⟨(keys a).1 (copied.keys a bound).1, (keys a).2 (copied.keys a bound).2⟩
  · intro a bound
    rcases copied.cover a bound with ⟨i, set, found, member⟩
    rw [source_eq copied found member, Cfg.size, ← copied.length]
    exact (List.getElem?_eq_some_iff.mp found).1
  · intro n node found
    have bound : n < s.map.length := copied.length ▸ (List.getElem?_eq_some_iff.mp found).1
    have here := List.getElem?_eq_getElem bound
    have content := copied.content here found
    refine ⟨s.map[n], ?_, copied.nodup here, fun a => ?_, content⟩
    · intro empty
      have length := content.length_eq
      rw [empty] at length
      exact copies_ne_nil node (List.length_eq_zero_iff.mp length.symm)
    · have same : s.map.getD n [] = s.map[n] := by simp [bound]
      rw [← same]
      exact mem_map
  · intro positive
    have bound : 0 < s.map.length := copied.length ▸ positive
    have here := List.getElem?_eq_getElem bound
    exact source_eq copied here (copied.front here)

section

variable {deref : InstRef → Inst} {isPointerTy : Value → Bool} {cfg cfg' : Cfg}
  {source : NodeRef → NodeRef} {path : List NodeRef}

section

variable (constructed : Constructed deref isPointerTy cfg cfg' source)

include constructed

theorem Constructed.acyclic (acyclic : Acyclic cfg.po.Edge) : Acyclic cfg'.po.Edge :=
  fun a cycle => acyclic (source a) (cycle.lift source fun _ _ step => (constructed.edge.mp step).2.2)

theorem Constructed.isChain_iff (valid : ∀ a ∈ path, a < cfg'.size) :
    path.IsChain cfg'.po.Edge ↔ (path.map source).IsChain cfg.po.Edge := by
  rw [List.isChain_map]
  apply List.IsChain.iff_of_mem_imp
  intro a b here there
  rw [constructed.edge]
  exact ⟨fun step => step.2.2, fun step => ⟨valid a here, valid b there, step⟩⟩

theorem Constructed.copy {copy : Node} (found : cfg'.nodes[a]? = some copy) :
    ∃ node, cfg.nodes[source a]? = some node ∧ copy ∈ Calls.copies deref isPointerTy node := by
  have bound : a < cfg'.size := (List.getElem?_eq_some_iff.mp found).1
  have original := List.getElem?_eq_getElem (constructed.source_lt a bound)
  rcases constructed.copies original with ⟨set, -, -, mem_set, content⟩
  rcases List.getElem?_of_mem ((mem_set a).mpr ⟨bound, rfl⟩) with ⟨i, here⟩
  rcases lookup_related content here with ⟨copy', listed, found'⟩
  rw [found] at found'
  cases found'
  exact ⟨_, original, List.mem_of_getElem? listed⟩

def Complete (cfg : Cfg) (path : List NodeRef) : Prop :=
  path.IsChain cfg.po.Edge ∧ path.head? = some cfg.entry ∧
    ∃ e, path.getLast? = some e ∧ cfg.variant e = some .exit

theorem Constructed.variant_exit (valid : a < cfg'.size) :
    cfg'.variant a = some .exit ↔ cfg.variant (source a) = some .exit := by
  have found := List.getElem?_eq_getElem valid
  rcases constructed.copy found with ⟨node, original, member⟩
  simp only [variant, found, original, Option.map_some, Option.some.injEq]
  obtain same | ⟨I, arg, inst, same⟩ := mem_copies member
  · rw [same]
  · rw [same, inst]
    exact ⟨nofun, nofun⟩

theorem Constructed.source_zero (first : cfg.variant 0 = some .entry) (valid : a < cfg'.size) :
    source a = 0 ↔ a = 0 := by
  rcases Option.map_eq_some_iff.mp first with ⟨node, found, entry⟩
  have positive : 0 < cfg.size := (List.getElem?_eq_some_iff.mp found).1
  rcases constructed.copies found with ⟨set, -, -, mem_set, content⟩
  rw [copies_special fun I same => nomatch entry.symm.trans same] at content
  have zero := constructed.front positive
  constructor
  · intro same
    have here := (mem_set a).mpr ⟨valid, same⟩
    have there := (mem_set 0).mpr ⟨Nat.lt_of_le_of_lt (Nat.zero_le a) valid, zero⟩
    rcases List.length_eq_one_iff.mp content.length_eq with ⟨b, rfl⟩
    rw [List.mem_singleton.mp here, List.mem_singleton.mp there]
  · rintro rfl
    exact zero

theorem Constructed.complete_iff (first : cfg.variant 0 = some .entry) (entry : cfg.entry = 0)
    (valid : ∀ a ∈ path, a < cfg'.size) : Complete cfg' path ↔ Complete cfg (path.map source) := by
  unfold Complete
  rw [constructed.isChain_iff valid, constructed.entry, entry, List.head?_map, List.getLast?_map]
  refine and_congr_right fun _ => and_congr ?_ ?_
  · cases path with
    | nil => simp
    | cons a path =>
      simp only [List.head?_cons, Option.map_some, Option.some.injEq]
      exact (constructed.source_zero first (valid a List.mem_cons_self)).symm
  · cases last : path.getLast? with
    | none => simp
    | some e =>
      have exit := constructed.variant_exit (valid e (List.mem_of_getLast? last))
      simp only [Option.some.injEq, Option.map_some, exists_eq_left', exit]

end

end

/-- The nodes that a node becomes: one for each pointer argument of a call, in their order, if it
is split, and otherwise one copy. -/
structure Becomes (deref : InstRef → Inst) (isPointerTy : Value → Bool) (cfg' : Cfg) (node : Node)
    (set : List NodeRef) : Prop where
  split : ∀ {I}, IsSplit deref isPointerTy node I → List.Forall₂ (fun a arg =>
    cfg'.nodes[a]? = some ⟨.call I arg, node.id, ∅⟩) set ((deref I).args.filter isPointerTy)
  whole : (∀ I, ¬ IsSplit deref isPointerTy node I) → ∃ a, set = [a] ∧ cfg'.nodes[a]? = some node

theorem Becomes.of_copies {deref : InstRef → Inst} {isPointerTy : Value → Bool} {cfg' : Cfg}
    {node : Node} {set : List NodeRef} (content : List.Forall₂
      (fun a copy => cfg'.nodes[a]? = some copy) set (copies deref isPointerTy node)) :
    Becomes deref isPointerTy cfg' node set := by
  constructor
  · intro I split
    rw [copies_split split, List.forall₂_map_right_iff] at content
    exact content
  · intro whole
    rw [copies_whole whole] at content
    obtain ⟨a, here⟩ := List.length_eq_one_iff.mp content.length_eq
    rw [here, List.forall₂_cons] at content
    exact ⟨a, here, content.1⟩

/-- Splitting calls keeps the paths: those of the new graph are those of the old one with a choice
of one copy for every node. -/
theorem construct_paths (deref : InstRef → Inst) (isPointerTy : Value → Bool) {cfg : Cfg}
    (wellFormed : cfg.WellFormed) (first : cfg.variant 0 = some .entry) (entry : cfg.entry = 0) :
    ∃ cfg' source, construct deref isPointerTy cfg = some cfg' ∧
      (∀ {n node}, cfg.nodes[n]? = some node → ∃ set : List NodeRef, set ≠ [] ∧ set.Nodup ∧
        (∀ a, a ∈ set ↔ a < cfg'.size ∧ source a = n) ∧ Becomes deref isPointerTy cfg' node set) ∧
      (∀ {a copy}, cfg'.nodes[a]? = some copy →
        ∃ node, cfg.nodes[source a]? = some node ∧ copy.id = node.id) ∧
      (∀ path : List NodeRef, (∀ a ∈ path, a < cfg'.size) →
        (path.IsChain cfg'.po.Edge ↔ (path.map source).IsChain cfg.po.Edge) ∧
        (Complete cfg' path ↔ Complete cfg (path.map source))) ∧
      (Acyclic cfg.po.Edge → Acyclic cfg'.po.Edge) := by
  rcases construct_spec deref isPointerTy wellFormed with ⟨cfg', source, made, constructed⟩
  refine ⟨cfg', source, made, ?_, ?_, ?_, constructed.acyclic⟩
  · intro n node found
    obtain ⟨set, nonempty, nodup, mem_set, content⟩ := constructed.copies found
    exact ⟨set, nonempty, nodup, mem_set, .of_copies content⟩
  · intro a copy found
    rcases constructed.copy found with ⟨node, original, member⟩
    refine ⟨node, original, ?_⟩
    obtain rfl | ⟨I, arg, -, rfl⟩ := mem_copies member <;> rfl
  · intro path valid
    exact ⟨constructed.isChain_iff valid, constructed.complete_iff first entry valid⟩

def twoPointers : Cfg :=
  ofEdges [Node.makeEntry, Node.makeExit, ⟨.inst ⟨0, 0, 0⟩, some ⟨[], []⟩, ∅⟩] [(0, 2), (2, 1)] 0 [1]

def twoPointersCall (_ : InstRef) : Inst :=
  ⟨.call none false false, [], [.argument 0 0, .constant 0, .argument 0 1], [], true, false, true⟩

/-- The call has a node for its first argument and one for its third. -/
theorem twoPointers_paths : ∃ cfg' source,
    construct twoPointersCall (fun V => V ≠ .constant 0) twoPointers = some cfg' ∧
    (∃ a b, (∀ c, c ∈ [a, b] ↔ c < cfg'.size ∧ source c = 2) ∧
      cfg'.nodes[a]? = some ⟨.call ⟨0, 0, 0⟩ (.argument 0 0), some ⟨[], []⟩, ∅⟩ ∧
      cfg'.nodes[b]? = some ⟨.call ⟨0, 0, 0⟩ (.argument 0 1), some ⟨[], []⟩, ∅⟩) ∧
    ∀ path : List NodeRef, (∀ a ∈ path, a < cfg'.size) →
      (path.IsChain cfg'.po.Edge ↔ (path.map source).IsChain twoPointers.po.Edge) ∧
      (Complete cfg' path ↔ Complete twoPointers (path.map source)) := by
  have wellFormed : twoPointers.WellFormed := wellFormed_ofEdges (by decide)
  obtain ⟨cfg', source, made, copied, -, paths, -⟩ :=
    construct_paths twoPointersCall (fun V => V ≠ .constant 0) wellFormed rfl rfl
  refine ⟨cfg', source, made, ?_, paths⟩
  obtain ⟨set, -, -, mem_set, becomes⟩ := copied (n := 2) rfl
  have content := becomes.split (I := ⟨0, 0, 0⟩) ⟨rfl, rfl, rfl, .argument 0 0, by decide, by decide⟩
  cases content with
  | cons here content =>
    cases content with
    | cons there content =>
      cases content
      exact ⟨_, _, mem_set, here, there⟩

end Calls

end Clou.Cfg
