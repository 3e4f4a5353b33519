import Clou.FiniteMap

/-! Graphs with any number of edges between two nodes, kept once by source and once by target. -/

namespace Clou

abbrev NEMap (N E : Type) := AList (fun _ : N => List E)

abbrev NNEMap (N E : Type) := AList (fun _ : N => NEMap N E)

structure Multigraph (N E : Type) where
  fwd : NNEMap N E
  rev : NNEMap N E

namespace Multigraph

variable {N E : Type} [DecidableEq N]

section

variable (map : NNEMap N E)

def row (a : N) : NEMap N E := (map.lookup a).getD ∅

def edges (a b : N) : List E := ((row map a).lookup b).getD []

def touch (a : N) : NNEMap N E := map.insert a (row map a)

def pushBack (a b : N) (edge : E) : NNEMap N E :=
  map.insert a ((row map a).insert b (edges map a b ++ [edge]))

variable {map}

theorem row_insert (a x : N) (r : NEMap N E) :
    row (map.insert a r) x = if x = a then r else row map x := by
  rw [row, FiniteMap.lookup_insert]
  split <;> rfl

theorem edges_touch (a x y : N) : edges (touch map a) x y = edges map x y := by
  rw [edges, touch, row_insert]
  split
  · rename_i same
    rw [same, edges]
  · rfl

theorem edges_pushBack (a b x y : N) (edge : E) :
    edges (pushBack map a b edge) x y = edges map x y ++ if a = x ∧ b = y then [edge] else [] := by
  rw [edges, pushBack, row_insert]
  by_cases first : x = a
  · subst first
    rw [if_pos rfl, FiniteMap.lookup_insert]
    by_cases second : y = b
    · subst second
      rw [if_pos rfl, if_pos ⟨rfl, rfl⟩, Option.getD_some]
    · rw [if_neg second, if_neg fun both => second both.2.symm, List.append_nil, edges]
  · rw [if_neg first, if_neg fun both => first both.1.symm, List.append_nil, edges]

end

section

variable (graph : Multigraph N E)

def insert (src dst : N) (edge : E) : Multigraph N E :=
  ⟨pushBack graph.fwd src dst edge, pushBack graph.rev dst src edge⟩

def addNode (node : N) : Multigraph N E := ⟨touch graph.fwd node, touch graph.rev node⟩

def empty : Multigraph N E := ⟨∅, ∅⟩

/-- The edges from one node to another, in the order in which they were inserted, and the nodes. -/
structure Holds (graph : Multigraph N E) (nodes : N → Prop) (between : N → N → List E) : Prop where
  fwd_mem : ∀ n, nodes n → n ∈ graph.fwd
  rev_mem : ∀ n, nodes n → n ∈ graph.rev
  fwd_edges : ∀ a b, edges graph.fwd a b = between a b
  rev_edges : ∀ a b, edges graph.rev b a = between a b

variable {graph} {nodes : N → Prop} {between : N → N → List E}

theorem holds_empty : Holds (empty : Multigraph N E) (fun _ => False) fun _ _ => [] :=
  ⟨fun _ none => none.elim, fun _ none => none.elim, fun _ _ => rfl, fun _ _ => rfl⟩

theorem Holds.addNode (holds : Holds graph nodes between) (node : N) :
    Holds (graph.addNode node) (fun n => n = node ∨ nodes n) between where
  fwd_mem n listed := AList.mem_insert .. |>.mpr (listed.imp_right (holds.fwd_mem n))
  rev_mem n listed := AList.mem_insert .. |>.mpr (listed.imp_right (holds.rev_mem n))
  fwd_edges a b := (edges_touch node a b).trans (holds.fwd_edges a b)
  rev_edges a b := (edges_touch node b a).trans (holds.rev_edges a b)

theorem Holds.insert (holds : Holds graph nodes between) (src dst : N) (edge : E) :
    Holds (graph.insert src dst edge) nodes
      fun a b => between a b ++ if src = a ∧ dst = b then [edge] else [] where
  fwd_mem n listed := AList.mem_insert .. |>.mpr (.inr (holds.fwd_mem n listed))
  rev_mem n listed := AList.mem_insert .. |>.mpr (.inr (holds.rev_mem n listed))
  fwd_edges a b := by rw [← holds.fwd_edges, ← edges_pushBack, Multigraph.insert]
  rev_edges a b := by
    rw [← holds.rev_edges, Multigraph.insert, edges_pushBack]
    simp only [and_comm]

theorem holds_addNodes (refs : List N) (holds : Holds graph nodes between) :
    Holds (refs.foldl addNode graph) (fun n => n ∈ refs ∨ nodes n) between := by
  induction refs generalizing graph nodes with
  | nil => exact ⟨fun n listed => holds.fwd_mem n (listed.resolve_left List.not_mem_nil),
      fun n listed => holds.rev_mem n (listed.resolve_left List.not_mem_nil), holds.fwd_edges,
      holds.rev_edges⟩
  | cons ref refs ih =>
    have later := ih (holds.addNode ref)
    simp only [List.mem_cons, or_assoc, or_left_comm] at later ⊢
    exact later

theorem holds_foldl_insert {A : Type} (src dst : A → N) (edge : A → E) (items : List A)
    (holds : Holds graph nodes between) :
    Holds (items.foldl (fun graph item => graph.insert (src item) (dst item) (edge item)) graph) nodes
      fun a b => between a b ++ (items.filter fun item => src item = a ∧ dst item = b).map edge := by
  induction items generalizing graph between with
  | nil => simpa using holds
  | cons item items ih =>
    have later := ih (holds.insert (src item) (dst item) (edge item))
    have together (a b : N) : (between a b ++ if src item = a ∧ dst item = b then [edge item] else []) ++
        (items.filter fun item => src item = a ∧ dst item = b).map edge =
        between a b ++ ((item :: items).filter fun item => src item = a ∧ dst item = b).map edge := by
      rw [List.filter_cons, List.append_assoc]
      by_cases here : src item = a ∧ dst item = b
      · rw [if_pos here, if_pos (decide_eq_true here), List.map_cons, List.singleton_append]
      · rw [if_neg here, if_neg fun yes => here (of_decide_eq_true yes), List.nil_append]
    simp only [together] at later
    exact later

end

section

/-- For each neighbour, the first edge of those that are asked for. -/
def select (p : E → Bool) (neighbours : NEMap N E) : List (N × E) :=
  neighbours.entries.filterMap fun entry => (entry.2.find? p).map (entry.1, ·)

variable {p : E → Bool} {neighbours : NEMap N E}

theorem mem_select {b : N} {edge : E} :
    (b, edge) ∈ select p neighbours ↔ ((neighbours.lookup b).getD []).find? p = some edge := by
  rw [select, List.mem_filterMap]
  constructor
  · rintro ⟨⟨other, list⟩, listed, found⟩
    rcases Option.map_eq_some_iff.mp found with ⟨_, found, same⟩
    cases same
    rwa [AList.mem_lookup_iff.mpr listed, Option.getD_some]
  · intro found
    cases here : neighbours.lookup b with
    | none =>
      rw [here] at found
      cases found
    | some list =>
      rw [here, Option.getD_some] at found
      exact ⟨⟨b, list⟩, AList.mem_lookup_iff.mp here, by rw [found, Option.map_some]⟩

omit [DecidableEq N] in
theorem nodup_select : ((select p neighbours).map Prod.fst).Nodup := by
  rw [List.Nodup, List.pairwise_map]
  refine (List.nodupKeys_iff_pairwise.mp neighbours.nodupKeys).filterMap _ ?_
  intro entry entry' different b found b' found'
  rcases Option.map_eq_some_iff.mp found with ⟨_, -, rfl⟩
  rcases Option.map_eq_some_iff.mp found' with ⟨_, -, rfl⟩
  exact different

end

end Multigraph

end Clou
