import Clou.Expanded
import Clou.OptionFold

/-! Which definitions reference resolution finds, and which of those that reach a node
it loses where predecessors are joined. -/

namespace Clou.Expanded

open Cfg Translations

def Defines (cfg : Cfg) (m : NodeRef) (K : Key) : Prop :=
  ∃ node, cfg.nodes[m]? = some node ∧ keyOf node = some K

/-- A definition of the key reaches the node, or is the node itself. -/
def HasDef (cfg : Cfg) (K : Key) (n : NodeRef) : Prop := ∃ m, cfg.Reaches m n ∧ Defines cfg m K

/-- What a predecessor knows of a key survives the join at `n` if the predecessor still
has a later successor, or if none of the predecessors joined before it has any
definition of that key. -/
def Kept (cfg : Cfg) (K : Key) (n : NodeRef) (front : List NodeRef) (p : NodeRef) : Prop :=
  (∃ succ ∈ cfg.po.succs p, n < succ) ∨ ∀ q ∈ front, ¬ HasDef cfg K q

/-- A definition of `K` at `m` that is carried to a node along kept edges only. -/
inductive Survives (cfg : Cfg) (K : Key) (m : NodeRef) : NodeRef → Prop
  | self : Defines cfg m K → Survives cfg K m m
  | step {front back : List NodeRef} {p n : NodeRef} :
      cfg.po.preds n = front ++ p :: back → Kept cfg K n front p → Survives cfg K m p →
      Survives cfg K m n

structure MapSpec (cfg : Cfg) (n : NodeRef) (map : RefMap) : Prop where
  keys : ∀ K, K ∈ map ↔ HasDef cfg K n
  refs : ∀ K m, m ∈ map.get K ↔ Survives cfg K m n

/-- The map at `n` after the predecessors in `front` have been joined. -/
structure JoinSpec (cfg : Cfg) (n : NodeRef) (front : List NodeRef) (map : RefMap) : Prop where
  keys : ∀ K, K ∈ map ↔ ∃ q ∈ front, HasDef cfg K q
  refs : ∀ K m, m ∈ map.get K ↔
    ∃ before p after, front = before ++ p :: after ∧ Kept cfg K n before p ∧ Survives cfg K m p

variable {cfg : Cfg}

theorem hasDef_iff (consistent : cfg.po.Consistent) (K : Key) (n : NodeRef) :
    HasDef cfg K n ↔ Defines cfg n K ∨ ∃ p ∈ cfg.po.preds n, HasDef cfg K p := by
  constructor
  · rintro ⟨m, reaches, defines⟩
    rcases Relation.ReflTransGen.cases_tail reaches with same | ⟨p, before, edge⟩
    · exact .inl (same ▸ defines)
    · exact .inr ⟨p, consistent.mem_preds.mpr edge, m, before, defines⟩
  · rintro (defines | ⟨p, pred, m, reaches, defines⟩)
    · exact ⟨n, .refl, defines⟩
    · exact ⟨m, reaches.tail (consistent.mem_preds.mp pred), defines⟩

theorem survives_iff (K : Key) (m n : NodeRef) : Survives cfg K m n ↔
    (m = n ∧ Defines cfg n K) ∨ ∃ front p back, cfg.po.preds n = front ++ p :: back ∧
      Kept cfg K n front p ∧ Survives cfg K m p := by
  constructor
  · intro survives
    cases survives with
    | self defines => exact .inl ⟨rfl, defines⟩
    | step split kept before => exact .inr ⟨_, _, _, split, kept, before⟩
  · rintro (⟨rfl, defines⟩ | ⟨front, p, back, split, kept, before⟩)
    · exact .self defines
    · exact .step split kept before

variable {n : NodeRef} {map : RefMap} {front : List NodeRef}

theorem Survives.sound (consistent : cfg.po.Consistent) {K : Key} {m : NodeRef}
    (survives : Survives cfg K m n) : cfg.Reaches m n ∧ Defines cfg m K := by
  induction survives with
  | self defines => exact ⟨.refl, defines⟩
  | @step front back p n split kept before ih =>
    have pred : p ∈ cfg.po.preds n := by simp [split]
    exact ⟨ih.1.tail (consistent.mem_preds.mp pred), ih.2⟩

theorem joinSpec_nil (n : NodeRef) : JoinSpec cfg n [] ∅ := by
  constructor <;> intros <;> simp

theorem JoinSpec.append {p : NodeRef} {joined : RefMap} (spec : JoinSpec cfg n front map)
    (keys : ∀ K, K ∈ joined ↔ K ∈ map ∨ HasDef cfg K p)
    (refs : ∀ K m, m ∈ joined.get K ↔ m ∈ map.get K ∨ Kept cfg K n front p ∧ Survives cfg K m p) :
    JoinSpec cfg n (front ++ [p]) joined := by
  constructor
  · intro K
    rw [keys, spec.keys]
    simp [or_and_right, exists_or]
  · intro K m
    rw [refs, spec.refs]
    constructor
    · rintro (⟨before, q, after, split, kept, survives⟩ | ⟨kept, survives⟩)
      · exact ⟨before, q, after ++ [p], by simp [split], kept, survives⟩
      · exact ⟨front, p, [], rfl, kept, survives⟩
    · rintro ⟨before, q, after, split, kept, survives⟩
      rcases List.eq_nil_or_concat after with rfl | ⟨after, last, rfl⟩
      · obtain ⟨rfl, same⟩ := List.append_inj' split rfl
        obtain ⟨rfl, -⟩ := List.cons.inj same
        exact .inr ⟨kept, survives⟩
      · have shifted : front ++ [p] = (before ++ q :: after) ++ [last] := by simp [split]
        exact .inl ⟨before, q, after, (List.append_inj' shifted rfl).1, kept, survives⟩

/-- Taking over a map counts like a merge also when there was nothing to merge with. -/
theorem mem_takeOver (map a : RefMap) (K : Key) (m : NodeRef) :
    (K ∈ (if map.entries.isEmpty then a else map.merge a) ↔ K ∈ map ∨ K ∈ a) ∧
    (m ∈ SetMap.get (if map.entries.isEmpty then a else map.merge a) K ↔
      m ∈ map.get K ∨ K ∉ map ∧ m ∈ a.get K) := by
  split
  · rename_i empty
    have absent := (SetMap.entries_eq_nil_iff map).mp (List.isEmpty_iff.mp empty) K
    simp [absent, SetMap.get_of_notMem absent]
  · simp [SetMap.mem_get_merge]

theorem mem_copyOver (map a : RefMap) (K : Key) (m : NodeRef) :
    (K ∈ (if map.entries.isEmpty then a else map.unite a) ↔ K ∈ map ∨ K ∈ a) ∧
    (m ∈ SetMap.get (if map.entries.isEmpty then a else map.unite a) K ↔
      m ∈ map.get K ∨ m ∈ a.get K) := by
  split
  · rename_i empty
    have absent := (SetMap.entries_eq_nil_iff map).mp (List.isEmpty_iff.mp empty) K
    simp [absent, SetMap.get_of_notMem absent]
  · simp [SetMap.mem_get_unite]

theorem predDone_iff (n p : NodeRef) :
    (cfg.po.succs p).all (· ∈ List.range (n + 1)) = true ↔ ∀ succ ∈ cfg.po.succs p, succ ≤ n := by
  simp only [List.all_eq_true, decide_eq_true_eq, List.mem_range, Nat.lt_succ_iff]

theorem joinPred_spec {p : NodeRef} {maps : Maps} {a : RefMap} (spec : JoinSpec cfg n front map)
    (present : maps[p]? = some (some a)) (incoming : MapSpec cfg p a) :
    ∃ maps' map', joinPred cfg.po n (maps, map) p = some (maps', map') ∧
      JoinSpec cfg n (front ++ [p]) map' ∧
      (maps' = maps ∨ maps' = maps.set p none ∧ ∀ succ ∈ cfg.po.succs p, succ ≤ n) := by
  simp only [joinPred, present, Option.join_some, Option.bind_eq_bind, Option.bind_some]
  by_cases done : (cfg.po.succs p).all (· ∈ List.range (n + 1)) = true
  · rw [if_pos done]
    have below := (predDone_iff n p).mp done
    refine ⟨_, _, rfl, ?_, .inr ⟨rfl, below⟩⟩
    refine spec.append (fun K => ?_) (fun K m => ?_)
    · rw [(mem_takeOver map a K 0).1, incoming.keys]
    · rw [(mem_takeOver map a K m).2, incoming.refs, spec.keys]
      have kept : Kept cfg K n front p ↔ ¬ ∃ q ∈ front, HasDef cfg K q := by
        constructor
        · rintro (⟨succ, member, late⟩ | none)
          · exact absurd (below succ member) (Nat.not_le.mpr late)
          · rintro ⟨q, member, found⟩
            exact none q member found
        · exact fun none => .inr fun q member found => none ⟨q, member, found⟩
      rw [kept]
  · rw [if_neg done]
    refine ⟨_, _, rfl, ?_, .inl rfl⟩
    have later : ∃ succ ∈ cfg.po.succs p, n < succ := by
      by_contra none
      apply done
      apply (predDone_iff n p).mpr
      intro succ member
      exact Nat.le_of_not_lt fun late => none ⟨succ, member, late⟩
    refine spec.append (fun K => ?_) (fun K m => ?_)
    · rw [(mem_copyOver map a K 0).1, incoming.keys]
    · rw [(mem_copyOver map a K m).2, incoming.refs]
      simp [Kept, later]

/-- A map that a later node, or one of the predecessors still to be joined, needs. -/
def Live (cfg : Cfg) (n : NodeRef) (back : List NodeRef) (maps : Maps) : Prop :=
  ∀ x < n, (x ∈ back ∨ ∃ succ ∈ cfg.po.succs x, n < succ) →
    ∃ map, maps[x]? = some (some map) ∧ MapSpec cfg x map

theorem joinPreds_spec {back : List NodeRef} {maps : Maps} (distinct : back.Nodup)
    (below : ∀ p ∈ back, p < n) (live : Live cfg n back maps) (spec : JoinSpec cfg n front map) :
    ∃ maps' map', back.foldlM (joinPred cfg.po n) (maps, map) = some (maps', map') ∧
      JoinSpec cfg n (front ++ back) map' ∧ Live cfg n [] maps' ∧ maps'.length = maps.length := by
  induction back generalizing front maps map with
  | nil => exact ⟨maps, map, rfl, by simpa using spec, live, rfl⟩
  | cons p back ih =>
    obtain ⟨fresh, distinct⟩ := List.nodup_cons.mp distinct
    obtain ⟨a, present, incoming⟩ := live p (below p (by simp)) (.inl (by simp))
    obtain ⟨maps₁, map₁, join, spec₁, change⟩ := joinPred_spec spec present incoming
    have live₁ : Live cfg n back maps₁ := by
      intro x small needed
      obtain ⟨kept, found, correct⟩ := live x small (needed.imp_left (List.mem_cons_of_mem p))
      refine ⟨kept, ?_, correct⟩
      rcases change with rfl | ⟨rfl, done⟩
      · exact found
      · -- The map taken over was that of `p`, which nobody needs any more.
        have different : p ≠ x := by
          rintro rfl
          rcases needed with later | ⟨succ, member, late⟩
          · exact fresh later
          · exact Nat.not_le.mpr late (done succ member)
        rw [List.getElem?_set_ne different, found]
    obtain ⟨maps', map', rest, spec', live', length⟩ :=
      ih distinct (fun q member => below q (List.mem_cons_of_mem p member)) live₁ spec₁
    refine ⟨maps', map', ?_, by simpa using spec', live', ?_⟩
    · rw [List.foldlM_cons, join]
      exact rest
    · rw [length]
      rcases change with rfl | ⟨rfl, -⟩
      · rfl
      · exact List.length_set

/-- Nodes other than the entry and the exits say which function instance they are of. -/
def isIdentified (node : Node) : Bool :=
  match node.v with
  | .entry | .exit => true
  | _ => node.id.isSome

theorem define_eq (node : Node) (n : NodeRef) (map : RefMap) :
    define node n map =
      if isIdentified node then
        some (match keyOf node with | some K => map.add K {n} | none => map)
      else none := by
  rcases node with ⟨v, id, refs⟩
  cases v <;> cases id <;> rfl

theorem MapSpec.of_join (consistent : cfg.po.Consistent) {node : Node}
    (present : cfg.nodes[n]? = some node) (spec : JoinSpec cfg n (cfg.po.preds n) map) :
    MapSpec cfg n (match keyOf node with | some K => map.add K {n} | none => map) := by
  have defines (K : Key) : Defines cfg n K ↔ keyOf node = some K := by
    simp [Defines, present]
  constructor
  · intro K
    rw [hasDef_iff consistent, defines, ← spec.keys]
    cases keyOf node with
    | none => simp
    | some own => simp [eq_comm]
  · intro K m
    rw [survives_iff, defines, ← spec.refs]
    cases keyOf node with
    | none => simp
    | some own =>
      simp only [SetMap.mem_get_add, Finset.mem_singleton, Option.some.injEq]
      rw [or_comm, and_comm, eq_comm (a := K)]

section Resolve

variable (assertions : Bool) (deref : InstRef → Inst) (translations : Map)

def Bound (I : Inst) (V : Value) (func : List FuncID) (map : RefMap) (source : Key) : Prop :=
  source ∈ map ∨ mayMiss assertions I V func source = true

instance (I : Inst) (V : Value) (func : List FuncID) (map : RefMap) :
    DecidablePred (Bound assertions I V func map) :=
  fun _ => inferInstanceAs (Decidable (_ ∨ _))

def bindSource (V : Value) (map : RefMap) (refs : SetMap Value NodeRef) (source : Key) :
    SetMap Value NodeRef :=
  match AList.lookup source map with
  | some set => refs.add V set
  | none => refs

theorem resolveSource_eq (I : Inst) (V : Value) (func : List FuncID) (map : RefMap)
    (refs : SetMap Value NodeRef) (source : Key) :
    resolveSource assertions I V func map refs source =
      if Bound assertions I V func map source then some (bindSource V map refs source)
      else none := by
  unfold resolveSource bindSource Bound
  cases found : AList.lookup source map with
  | none => simp [AList.lookup_eq_none.mp found]
  | some set =>
    have member : source ∈ map := AList.lookup_isSome.mp (by simp [found])
    simp [member]

theorem mem_get_bindSource (V W : Value) (map : RefMap) (refs : SetMap Value NodeRef)
    (source : Key) (m : NodeRef) : m ∈ (bindSource V map refs source).get W ↔
      m ∈ refs.get W ∨ W = V ∧ m ∈ map.get source := by
  unfold bindSource
  cases found : AList.lookup source map with
  | none => simp [SetMap.get, found]
  | some set =>
    have value : map.get source = set := by simp [SetMap.get, found]
    rw [SetMap.mem_get_add, value]

theorem mem_get_bindSources (V W : Value) (map : RefMap) (refs : SetMap Value NodeRef)
    (sources : List Key) (m : NodeRef) :
    m ∈ SetMap.get (sources.foldl (bindSource V map) refs) W ↔
      m ∈ refs.get W ∨ W = V ∧ ∃ source ∈ sources, m ∈ map.get source := by
  induction sources generalizing refs with
  | nil => simp
  | cons source sources ih =>
    rw [List.foldl_cons, ih, mem_get_bindSource, or_assoc, ← and_or_left]
    simp

/-- The sources of an operand are all bound; a value of unknown kind never is. -/
def Resolvable (I : Inst) (func : List FuncID) (map : RefMap) (V : Value) : Prop :=
  (∀ id, V ≠ .unknown id) ∧
    (isBindable V = true → ∀ source ∈ lookup translations ⟨func, V⟩,
      Bound assertions I V func map source)

open Classical in
theorem resolveSingleRef_eq (I : Inst) (func : List FuncID) (map : RefMap)
    (refs : SetMap Value NodeRef) (V : Value) :
    resolveSingleRef assertions translations I func map refs V =
      if Resolvable assertions translations I func map V then
        some (if isBindable V then (lookup translations ⟨func, V⟩).foldl (bindSource V map) refs
          else refs)
      else none := by
  have fold : (lookup translations ⟨func, V⟩).foldlM (resolveSource assertions I V func map) refs =
      if ∀ source ∈ lookup translations ⟨func, V⟩, Bound assertions I V func map source then
        some ((lookup translations ⟨func, V⟩).foldl (bindSource V map) refs) else none := by
    rw [← foldlM_guard (Bound assertions I V func map) (bindSource V map)]
    congr
    funext refs source
    exact resolveSource_eq assertions I V func map refs source
  cases V <;> simp [resolveSingleRef, Resolvable, isBindable, fold]

/-- An operand is bound to the nodes in the sets of its sources, and nothing else is. -/
theorem mem_get_bindOperands (func : List FuncID) (map : RefMap) (operands : List Value)
    (refs : SetMap Value NodeRef) (W : Value) (m : NodeRef) :
    m ∈ SetMap.get (operands.foldl (fun refs V =>
        if isBindable V then (lookup translations ⟨func, V⟩).foldl (bindSource V map) refs
        else refs) refs) W ↔
      m ∈ refs.get W ∨ (W ∈ operands ∧ isBindable W = true ∧
        ∃ source ∈ lookup translations ⟨func, W⟩, m ∈ map.get source) := by
  induction operands generalizing refs with
  | nil => simp
  | cons V operands ih =>
    rw [List.foldl_cons, ih]
    by_cases bindable : isBindable V = true
    · rw [if_pos bindable, mem_get_bindSources, List.mem_cons]
      constructor
      · rintro ((old | ⟨rfl, found⟩) | ⟨later, rest⟩)
        · exact .inl old
        · exact .inr ⟨.inl rfl, bindable, found⟩
        · exact .inr ⟨.inr later, rest⟩
      · rintro (old | ⟨rfl | later, rest⟩)
        · exact .inl (.inl old)
        · exact .inl (.inr ⟨rfl, rest.2⟩)
        · exact .inr ⟨later, rest⟩
    · rw [if_neg bindable, List.mem_cons]
      constructor
      · rintro (old | ⟨later, rest⟩)
        · exact .inl old
        · exact .inr ⟨.inr later, rest⟩
      · rintro (old | ⟨rfl | later, rest⟩)
        · exact .inl old
        · exact absurd rest.1 bindable
        · exact .inr ⟨later, rest⟩

def boundOperands (node : Node) : List Value :=
  ((operandsOf deref node.v).map Prod.snd).getD []

def funcOf (node : Node) : List FuncID := (node.id.map ID.func).getD []

def NodeResolvable (node : Node) (map : RefMap) : Prop :=
  isIdentified node = true ∧ ∀ I operands, operandsOf deref node.v = some (I, operands) →
    ∀ V ∈ operands, Resolvable assertions translations I (funcOf node) map V

variable {node : Node} {map : RefMap} {n : Nat}

theorem resolveNode_isSome_iff (identified : isIdentified node = true) :
    (resolveNode assertions deref translations node map).isSome ↔
      NodeResolvable assertions deref translations node map := by
  classical
  rcases node with ⟨v, id, refs⟩
  cases operands : operandsOf deref v with
  | none => simp [resolveNode, NodeResolvable, operands, identified]
  | some pair =>
    rcases pair with ⟨I, operands'⟩
    obtain ⟨id, rfl⟩ : ∃ some', id = some some' := by
      cases v <;> simp_all [operandsOf, isIdentified, Option.isSome_iff_exists]
    simp only [resolveNode, operands, Option.bind_some, NodeResolvable, identified, true_and,
      Option.some.injEq, Prod.mk.injEq, funcOf, Option.map_some, Option.getD_some]
    rw [show resolveSingleRef assertions translations I id.func map = _ from
      funext₂ (resolveSingleRef_eq assertions translations I id.func map), foldlM_guard]
    simp

theorem mem_get_resolveNode {refs : SetMap Value NodeRef}
    (resolved : resolveNode assertions deref translations node map = some refs) (W : Value)
    (m : NodeRef) : m ∈ refs.get W ↔ W ∈ boundOperands deref node ∧ isBindable W = true ∧
      ∃ source ∈ lookup translations ⟨funcOf node, W⟩, m ∈ map.get source := by
  classical
  rcases node with ⟨v, id, old⟩
  cases operands : operandsOf deref v with
  | none =>
    simp only [resolveNode, operands, Option.some.injEq] at resolved
    simp [← resolved, boundOperands, operands]
  | some pair =>
    rcases pair with ⟨I, operands'⟩
    simp only [resolveNode, operands, Option.bind_eq_some_iff] at resolved
    obtain ⟨id', rfl, fold⟩ := resolved
    rw [show resolveSingleRef assertions translations I id'.func map = _ from
      funext₂ (resolveSingleRef_eq assertions translations I id'.func map), foldlM_guard] at fold
    split at fold
    · obtain rfl := Option.some.inj fold
      rw [mem_get_bindOperands]
      simp [boundOperands, operands, funcOf]
    · cases fold

/-- What keeps the resolution of a node from aborting, told by the paths that reach it. -/
def Binds (cfg : Cfg) (n : NodeRef) (node : Node) : Prop :=
  isIdentified node = true ∧ ∀ I operands, operandsOf deref node.v = some (I, operands) →
    ∀ V ∈ operands, (∀ id, V ≠ .unknown id) ∧
      (isBindable V = true → ∀ source ∈ lookup translations ⟨funcOf node, V⟩,
        HasDef cfg source n ∨ mayMiss assertions I V (funcOf node) source = true)

theorem nodeResolvable_iff_binds {n : NodeRef} (spec : MapSpec cfg n map) :
    NodeResolvable assertions deref translations node map ↔
      Binds assertions deref translations cfg n node := by
  simp only [NodeResolvable, Binds, Resolvable, Bound, spec.keys]

/-- The references of a node are the surviving definitions of its operands' sources. -/
def Resolved (cfg : Cfg) (n : NodeRef) (node out : Node) : Prop :=
  out = { node with refs := out.refs } ∧ ∀ V m, m ∈ out.refs.get V ↔
    V ∈ boundOperands deref node ∧ isBindable V = true ∧
      ∃ source ∈ lookup translations ⟨funcOf node, V⟩, Survives cfg source m n

structure RunSpec (cfg : Cfg) (n : Nat) (state : State) : Prop where
  maps_length : state.maps.length = cfg.size
  nodes_length : state.nodes.length = cfg.size
  live : ∀ x < n, (∃ succ ∈ cfg.po.succs x, n ≤ succ) →
    ∃ map, state.maps[x]? = some (some map) ∧ MapSpec cfg x map
  resolved : ∀ x < n, ∀ node, cfg.nodes[x]? = some node →
    ∃ out, state.nodes[x]? = some out ∧ Resolved deref translations cfg x node out

variable (topological : cfg.Topological) (consistent : cfg.po.Consistent)

include topological consistent

theorem RunSpec.joins {state : State} (run : RunSpec deref translations cfg n state) :
    ∃ maps map, (cfg.po.preds n).foldlM (joinPred cfg.po n) (state.maps, ∅) = some (maps, map) ∧
      JoinSpec cfg n (cfg.po.preds n) map ∧ Live cfg n [] maps ∧ maps.length = cfg.size := by
  have below : ∀ p ∈ cfg.po.preds n, p < n := fun p pred =>
    topological.increasing (consistent.mem_preds.mp pred)
  have live : Live cfg n (cfg.po.preds n) state.maps := by
    rintro x small (pred | ⟨succ, member, late⟩)
    · exact run.live x small ⟨n, consistent.mem_preds.mp pred, Nat.le_refl n⟩
    · exact run.live x small ⟨succ, member, Nat.le_of_lt late⟩
  obtain ⟨maps, map, join, spec, live, length⟩ :=
    joinPreds_spec (consistent.preds_nodup n) below live (joinSpec_nil n)
  exact ⟨maps, map, join, by simpa using spec, live, by rw [length, run.maps_length]⟩

/-- One node: it is resolved as its paths say, or the run aborts there. -/
theorem resolveStep_spec {state : State} (run : RunSpec deref translations cfg n state)
    (present : cfg.nodes[n]? = some node) :
    (Binds assertions deref translations cfg n node ∧
      ∃ next, resolveStep assertions deref translations cfg n state = some next ∧
        RunSpec deref translations cfg (n + 1) next) ∨
    (¬ Binds assertions deref translations cfg n node ∧
      resolveStep assertions deref translations cfg n state = none) := by
  obtain ⟨maps, map, join, spec, live, length⟩ := run.joins deref translations topological consistent
  have bound : n < cfg.size := (List.getElem?_eq_some_iff.mp present).1
  simp only [resolveStep, join, Option.bind_eq_bind, Option.bind_some, present, define_eq]
  by_cases identified : isIdentified node = true
  · rw [if_pos identified, Option.bind_some]
    have correct := MapSpec.of_join consistent present spec
    generalize (match keyOf node with | some K => map.add K {n} | none => map) = here at correct
    have some_iff := (resolveNode_isSome_iff assertions deref translations identified).trans
      (nodeResolvable_iff_binds assertions deref translations correct)
    cases result : resolveNode assertions deref translations node here with
    | none => exact .inr ⟨by simpa [result] using some_iff.not, rfl⟩
    | some refs =>
      refine .inl ⟨some_iff.mp (by simp [result]), _, rfl, ?_⟩
      constructor
      · simp [length]
      · simp [run.nodes_length]
      · rintro x small ⟨succ, member, late⟩
        rcases Nat.lt_succ_iff_lt_or_eq.mp small with before | rfl
        · obtain ⟨old, found, correct⟩ := live x before (.inr ⟨succ, member, late⟩)
          exact ⟨old, by rw [List.getElem?_set_ne (Nat.ne_of_gt before), found], correct⟩
        · exact ⟨here, by rw [List.getElem?_set_self (by omega)], correct⟩
      · intro x small node' present'
        rcases Nat.lt_succ_iff_lt_or_eq.mp small with before | rfl
        · obtain ⟨out, found, resolved⟩ := run.resolved x before node' present'
          exact ⟨out, by rw [List.getElem?_set_ne (Nat.ne_of_gt before), found], resolved⟩
        · obtain rfl := Option.some.inj (present.symm.trans present')
          have inside : x < state.nodes.length := by rw [run.nodes_length]; exact bound
          refine ⟨_, List.getElem?_set_self inside, rfl, ?_⟩
          intro V m
          rw [mem_get_resolveNode assertions deref translations result]
          simp only [correct.refs]
  · rw [if_neg identified]
    exact .inr ⟨fun binds => identified binds.1, rfl⟩

theorem resolveUpTo_spec (bound : n ≤ cfg.size) :
    ((∀ x < n, ∀ node, cfg.nodes[x]? = some node → Binds assertions deref translations cfg x node) ∧
      ∃ state, resolveUpTo assertions deref translations cfg n = some state ∧
        RunSpec deref translations cfg n state) ∨
    ((∃ x < n, ∃ node, cfg.nodes[x]? = some node ∧
        ¬ Binds assertions deref translations cfg x node) ∧
      resolveUpTo assertions deref translations cfg n = none) := by
  induction n with
  | zero =>
    refine .inl ⟨by simp, _, rfl, ?_⟩
    constructor <;> simp [Cfg.size]
  | succ n ih =>
    rcases ih (by omega) with ⟨before, state, reached, run⟩ | ⟨⟨x, small, rest⟩, aborted⟩
    · have present : cfg.nodes[n]? = some (cfg.nodes.get ⟨n, bound⟩) := by simp
      rcases resolveStep_spec assertions deref translations topological consistent run present
        with ⟨binds, next, step, run⟩ | ⟨fails, step⟩
      · refine .inl ⟨?_, next, by rw [resolveUpTo, reached]; exact step, run⟩
        intro x small node found
        rcases Nat.lt_succ_iff_lt_or_eq.mp small with earlier | rfl
        · exact before x earlier node found
        · exact Option.some.inj (present.symm.trans found) ▸ binds
      · exact .inr ⟨⟨n, by omega, _, present, fails⟩, by rw [resolveUpTo, reached]; exact step⟩
    · exact .inr ⟨⟨x, by omega, rest⟩, by rw [resolveUpTo, aborted]; rfl⟩

/-- The resolution returns exactly when every node can be bound. -/
theorem resolveRefs_isSome_iff : (resolveRefs assertions deref translations cfg).isSome ↔
    ∀ n node, cfg.nodes[n]? = some node → Binds assertions deref translations cfg n node := by
  have inside {n : NodeRef} {node : Node} (present : cfg.nodes[n]? = some node) : n < cfg.size :=
    (List.getElem?_eq_some_iff.mp present).1
  rcases resolveUpTo_spec assertions deref translations topological consistent (Nat.le_refl _)
    with ⟨binds, state, reached, -⟩ | ⟨⟨x, -, node, present, fails⟩, aborted⟩
  · simp only [resolveRefs, reached, Option.map_some, Option.isSome_some, true_iff]
    exact fun n node present => binds n (inside present) node present
  · simp only [resolveRefs, aborted, Option.map_none, Option.isSome_none, Bool.false_eq_true,
      false_iff]
    exact fun binds => fails (binds x node present)

end Resolve

/-- Every operand is bound to exactly the definitions of its sources that reach the node. -/
def RefsExact (deref : InstRef → Inst) (translations : Map) (cfg : Cfg) (out : List Node) : Prop :=
  ∀ n node, cfg.nodes[n]? = some node → ∀ V ∈ boundOperands deref node, isBindable V = true →
    ∀ m, (∃ result, out[n]? = some result ∧ m ∈ result.refs.get V) ↔
      cfg.Reaches m n ∧ ∃ K ∈ lookup translations ⟨funcOf node, V⟩, Defines cfg m K

/-- Each definition of an operand's source that reaches a node does so along kept edges. -/
def AllSurvive (deref : InstRef → Inst) (translations : Map) (cfg : Cfg) : Prop :=
  ∀ n node, cfg.nodes[n]? = some node → ∀ V ∈ boundOperands deref node, isBindable V = true →
    ∀ K ∈ lookup translations ⟨funcOf node, V⟩, ∀ m, cfg.Reaches m n → Defines cfg m K →
      Survives cfg K m n

theorem refsExact_iff_allSurvive (assertions : Bool) (deref : InstRef → Inst) (translations : Map)
    (cfg : Cfg) (topological : cfg.Topological) (consistent : cfg.po.Consistent)
    (binds : ∀ n node, cfg.nodes[n]? = some node →
      Binds assertions deref translations cfg n node) :
    ∃ out, resolveRefs assertions deref translations cfg = some out ∧
      (RefsExact deref translations cfg out ↔ AllSurvive deref translations cfg) := by
  rcases resolveUpTo_spec assertions deref translations topological consistent (Nat.le_refl _)
    with ⟨-, state, reached, run⟩ | ⟨⟨x, -, node, present, fails⟩, -⟩
  · refine ⟨state.nodes, by simp [resolveRefs, reached], ?_⟩
    have refs {n : NodeRef} {node : Node} (present : cfg.nodes[n]? = some node) {V : Value}
        (operand : V ∈ boundOperands deref node) (bindable : isBindable V = true) (m : NodeRef) :
        (∃ result, state.nodes[n]? = some result ∧ m ∈ result.refs.get V) ↔
          ∃ K ∈ lookup translations ⟨funcOf node, V⟩, Survives cfg K m n := by
      have inside : n < cfg.size := (List.getElem?_eq_some_iff.mp present).1
      obtain ⟨out, found, -, members⟩ := run.resolved n inside node present
      simp [found, members, operand, bindable]
    constructor
    · intro exact' n node present V operand bindable K source m reaches defines
      obtain ⟨K', source', survives⟩ := (refs present operand bindable m).mp
        ((exact' n node present V operand bindable m).mpr ⟨reaches, K, source, defines⟩)
      -- A node defines one key only, so the surviving definition is of the same source.
      have same : K' = K := by
        obtain ⟨node', found', key'⟩ := (survives.sound consistent).2
        obtain ⟨node'', found'', key''⟩ := defines
        obtain rfl := Option.some.inj (found'.symm.trans found'')
        exact Option.some.inj (key'.symm.trans key'')
      exact same ▸ survives
    · intro survive n node present V operand bindable m
      rw [refs present operand bindable m]
      constructor
      · rintro ⟨K, source, survives⟩
        have sound := survives.sound consistent
        exact ⟨sound.1, K, source, sound.2⟩
      · rintro ⟨reaches, K, source, defines⟩
        exact ⟨K, source, survive n node present V operand bindable K source m reaches defines⟩
  · exact absurd (binds x node present) fails

/-- A load in a loop that is unrolled twice and left after either iteration; the last
node uses the loaded value. The exit of the first iteration is joined first. -/
def unrolledLoad : Cfg where
  nodes := [Node.makeEntry, ⟨.inst ⟨0, 0, 0⟩, some ⟨[], [0]⟩, ∅⟩,
    ⟨.inst ⟨0, 0, 1⟩, some ⟨[], [0]⟩, ∅⟩, ⟨.inst ⟨0, 0, 0⟩, some ⟨[], [1]⟩, ∅⟩,
    ⟨.inst ⟨0, 0, 1⟩, some ⟨[], [1]⟩, ∅⟩, ⟨.inst ⟨0, 1, 0⟩, some ⟨[], []⟩, ∅⟩]
  po := (((((Binrel.empty.insert 0 1).insert 1 2).insert 2 3).insert 3 4).insert 4 5).insert 2 5
  entry := 0
  exits := [5]
  translations := ∅

def unrolledLoadInst (I : InstRef) : Inst :=
  ⟨if I = ⟨0, 0, 0⟩ then .load else if I = ⟨0, 0, 1⟩ then .br else .ret,
    if I = ⟨0, 1, 0⟩ then [.inst ⟨0, 0, 0⟩] else [], [], [], false, false, false⟩

theorem unrolledLoad_topological : unrolledLoad.Topological := by
  constructor <;> intro src dst edge <;>
    simp only [unrolledLoad, Binrel.edge_insert, Binrel.not_edge_empty, false_or] at edge <;>
    rcases edge with (((((⟨rfl, rfl⟩ | ⟨rfl, rfl⟩) | ⟨rfl, rfl⟩) | ⟨rfl, rfl⟩) | ⟨rfl, rfl⟩) |
      ⟨rfl, rfl⟩) <;>
    decide

theorem unrolledLoad_consistent : unrolledLoad.po.Consistent :=
  (((((Binrel.consistent_empty.insert 0 1).insert 1 2).insert 2 3).insert 3 4).insert 4 5).insert
    2 5

theorem unrolledLoad_binds (n : NodeRef) (node : Node)
    (present : unrolledLoad.nodes[n]? = some node) :
    Binds false unrolledLoadInst ∅ unrolledLoad n node := by
  have member : node ∈ unrolledLoad.nodes := List.mem_of_getElem? present
  have identified : ∀ node ∈ unrolledLoad.nodes, isIdentified node = true := by decide
  refine ⟨identified node member, ?_⟩
  intro I operands bound V operand
  have loads : ∀ node ∈ unrolledLoad.nodes, ∀ V ∈ boundOperands unrolledLoadInst node,
      V = .inst ⟨0, 0, 0⟩ := by decide
  obtain rfl := loads node member V (by simpa [boundOperands, bound] using operand)
  exact ⟨by simp, fun _ source _ => .inr (by simp [mayMiss])⟩

theorem unrolledLoad_resolved : (resolveRefs false unrolledLoadInst ∅ unrolledLoad).isSome :=
  (resolveRefs_isSome_iff false unrolledLoadInst ∅ unrolledLoad_topological unrolledLoad_consistent).mpr
    unrolledLoad_binds

theorem unrolledLoad_exactness :
    ∃ out, resolveRefs false unrolledLoadInst ∅ unrolledLoad = some out ∧
      (RefsExact unrolledLoadInst ∅ unrolledLoad out ↔
        AllSurvive unrolledLoadInst ∅ unrolledLoad) :=
  refsExact_iff_allSurvive false unrolledLoadInst ∅ unrolledLoad unrolledLoad_topological
    unrolledLoad_consistent unrolledLoad_binds

/-- The load of the second iteration reaches the use and is not among its references. -/
theorem unrolledLoad_loses_definition :
    ∃ out, resolveRefs true unrolledLoadInst ∅ unrolledLoad = some out ∧
      ¬ RefsExact unrolledLoadInst ∅ unrolledLoad out := by
  have refs : (resolveRefs true unrolledLoadInst ∅ unrolledLoad).map
      (·.map fun node => node.refs.get (.inst ⟨0, 0, 0⟩)) = some [∅, ∅, ∅, ∅, ∅, {1}] := by decide
  obtain ⟨out, returned, values⟩ := Option.map_eq_some_iff.mp refs
  refine ⟨out, returned, fun exact' => ?_⟩
  have reaches : unrolledLoad.Reaches 3 5 :=
    .tail (.tail .refl (by decide : unrolledLoad.po.Edge 3 4)) (by decide)
  obtain ⟨result, found, member⟩ := (exact' 5 _ rfl (.inst ⟨0, 0, 0⟩) (by decide) rfl 3).mpr
    ⟨reaches, ⟨[], .inst ⟨0, 0, 0⟩⟩, by decide, _, rfl, rfl⟩
  have value : (out.map fun node => node.refs.get (.inst ⟨0, 0, 0⟩))[5]? = some {1} := by
    rw [values]
    rfl
  simp only [List.getElem?_map, found, Option.map_some, Option.some.injEq] at value
  rw [value] at member
  exact absurd member (by decide)

end Clou.Expanded
