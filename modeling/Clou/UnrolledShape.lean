import Clou.TracePaths

/-! Whether the entry and the exits of an unrolled graph are where its fields say, and whether all
of the graph lies between them. -/

namespace Clou

namespace Cfg

/-- The fields name the entry and the exits, and every node is on a path between them. -/
structure Traversable (cfg : Cfg) : Prop where
  entry : ∀ n, cfg.variant n = some .entry ↔ n = cfg.entry
  exits : ∀ n, cfg.variant n = some .exit ↔ n ∈ cfg.exits
  through : ∀ n < cfg.size, Relation.ReflTransGen cfg.po.Edge cfg.entry n ∧
    ∃ e ∈ cfg.exits, Relation.ReflTransGen cfg.po.Edge n e

end Cfg

/-! Paths as lists -/

section

variable {X : Type} {edge : X → X → Prop} {a b n : X}

theorem path_cons {c : X} {path : List X} (step : edge a c) (chain : path.IsChain edge)
    (head : path.head? = some c) (last : path.getLast? = some b) :
    (a :: path).IsChain edge ∧ (a :: path).getLast? = some b := by
  cases path with
  | nil => cases head
  | cons d path =>
    cases head
    exact ⟨List.isChain_cons_cons.mpr ⟨step, chain⟩, by rwa [List.getLast?_cons_cons]⟩

theorem exists_path_through (before : Relation.ReflTransGen edge a n)
    (after : Relation.ReflTransGen edge n b) : ∃ path : List X, path.IsChain edge ∧
      path.head? = some a ∧ path.getLast? = some b ∧ n ∈ path := by
  induction before using Relation.ReflTransGen.head_induction_on with
  | refl =>
    induction after using Relation.ReflTransGen.head_induction_on with
    | refl => exact ⟨[b], .singleton b, rfl, rfl, List.mem_cons_self⟩
    | @head a _ step _ ih =>
      rcases ih with ⟨path, chain, head, last, -⟩
      rcases path_cons step chain head last with ⟨chain, last⟩
      exact ⟨a :: path, chain, rfl, last, List.mem_cons_self⟩
  | @head a _ step _ ih =>
    rcases ih with ⟨path, chain, head, last, member⟩
    rcases path_cons step chain head last with ⟨chain, last⟩
    exact ⟨a :: path, chain, rfl, last, List.mem_cons_of_mem a member⟩

theorem reaches_through {path : List X} (chain : path.IsChain edge) (head : path.head? = some a)
    (last : path.getLast? = some b) (member : n ∈ path) :
    Relation.ReflTransGen edge a n ∧ Relation.ReflTransGen edge n b := by
  induction path generalizing a n with
  | nil => cases head
  | cons c path ih =>
    cases head
    cases path with
    | nil =>
      cases last
      obtain rfl := List.mem_singleton.mp member
      exact ⟨.refl, .refl⟩
    | cons d path =>
      rw [List.isChain_cons_cons] at chain
      rw [List.getLast?_cons_cons] at last
      rcases List.mem_cons.mp member with rfl | later
      · have onward := ih chain.2 rfl last List.mem_cons_self
        exact ⟨.refl, .head chain.1 onward.2⟩
      · have onward := ih chain.2 rfl last later
        exact ⟨.head chain.1 onward.1, onward.2⟩

end

namespace Unrolled

open Cfg Labelled

/-- Control can get from the start of a function to its end, and through every instance that is
laid out and not pointless. As in the source, any end of an inlined callee leads on behind its
call: an `unreachable` there counts as a return. -/
structure Completes (P : Program) (F : FuncRef) : Prop where
  ends : ∃ d l, Lands P [.start F] d ∧ Course P F d l
  through : ∀ c, Placed P F (.inst c) → ¬ Pointless P F (.inst c) →
    ∃ d l, Lands P [.start F] d ∧ Course P F d l ∧ c ∈ l

section

variable {P : Program} {F : FuncRef} {cfg : Cfg} {labels : List Label} {n : NodeRef}

theorem Unrolls.reaches_through (okay : P.Ok) (defined : (P.M.func F).isDeclaration = false)
    (unrolls : Unrolls P F cfg labels) {d c : Config} {l : List Config}
    (lands : Lands P [.start F] d) (course : Course P F d l) (member : c ∈ l)
    (label : labels[n]? = some (.inst c)) : Relation.ReflTransGen cfg.po.Edge cfg.entry n ∧
      ∃ e, cfg.variant e = some .exit ∧ Relation.ReflTransGen cfg.po.Edge n e := by
  rcases unrolls.complete okay defined lands course with ⟨-, path, ⟨chain, head, e, last, exit⟩, passes⟩
  rcases passes.mem_iff.mp member with ⟨m, listed, found⟩
  obtain rfl := number_unique unrolls.denotes.nodup found label
  rcases Clou.reaches_through chain head last listed with ⟨before, after⟩
  exact ⟨before, e, exit, after⟩

/-- A node between the entry and the exit is on a complete path, which is a run of the function. -/
theorem Unrolls.course_through (unrolls : Unrolls P F cfg labels) (traversable : cfg.Traversable)
    (valid : n < cfg.size) :
    ∃ path d l, n ∈ path ∧ Lands P [.start F] d ∧ Course P F d l ∧ Passes labels path l := by
  rcases traversable.through n valid with ⟨before, e, exit, after⟩
  rcases exists_path_through before after with ⟨path, chain, head, last, member⟩
  have begins : cfg.variant cfg.entry = some .entry := (traversable.entry _).mpr rfl
  have complete : Calls.Complete cfg path := ⟨chain, head, e, last, (traversable.exits e).mpr exit⟩
  rcases unrolls.passes begins complete with ⟨d, l, lands, course, passes⟩
  exact ⟨path, d, l, member, lands, course, passes⟩

theorem Unrolls.valid (unrolls : Unrolls P F cfg labels) {x : Label} (found : labels[n]? = some x) :
    n < cfg.size := by
  rw [Cfg.size, ← unrolls.nodes.length_eq]
  exact (List.getElem?_eq_some_iff.mp found).1

theorem Unrolls.completes (unrolls : Unrolls P F cfg labels) (traversable : cfg.Traversable) :
    Completes P F := by
  constructor
  · have begins : cfg.variant cfg.entry = some .entry := (traversable.entry _).mpr rfl
    have valid := unrolls.valid (unrolls.variant_entry.mp begins)
    rcases unrolls.course_through traversable valid with ⟨_, d, l, -, lands, course, -⟩
    exact ⟨d, l, lands, course⟩
  · intro c placed live
    rcases List.getElem?_of_mem ((unrolls.mem_labels _).mpr ⟨placed, live⟩) with ⟨n, label⟩
    rcases unrolls.course_through traversable (unrolls.valid label) with
      ⟨path, d, l, member, lands, course, passes⟩
    exact ⟨d, l, lands, course, passes.mem_iff.mpr ⟨n, member, label⟩⟩

theorem Unrolls.traversable (okay : P.Ok) (defined : (P.M.func F).isDeclaration = false)
    (unrolls : Unrolls P F cfg labels) (completes : Completes P F) : cfg.Traversable := by
  rcases completes.ends with ⟨d, l, lands, course⟩
  rcases unrolls.complete okay defined lands course with ⟨begins, path, ⟨chain, head, e, last, exit⟩, -⟩
  have kept : Label.entry ∈ labels := List.mem_of_getElem? (unrolls.variant_entry.mp begins)
  have unique {n m : NodeRef} {x : Label} (here : labels[m]? = some x) :
      labels[n]? = some x ↔ n = m :=
    ⟨fun found => number_unique unrolls.denotes.nodup found here, fun same => same ▸ here⟩
  have entry (n : NodeRef) : cfg.variant n = some .entry ↔ n = cfg.entry := by
    rw [unrolls.variant_entry, unique (unrolls.entry_label kept), unrolls.entry]
  have exits (n : NodeRef) : cfg.variant n = some .exit ↔ n ∈ cfg.exits := by
    rw [unrolls.variant_exit, unique (unrolls.exit_label kept), unrolls.exits, List.mem_singleton]
  refine ⟨entry, exits, fun n valid => ?_⟩
  have whole := Clou.reaches_through chain head last (List.mem_of_getLast? last)
  rw [Cfg.size, ← unrolls.nodes.length_eq] at valid
  have label := List.getElem?_eq_getElem valid
  generalize labels[n] = x at label
  cases x with
  | entry =>
    obtain rfl := (entry n).mp (unrolls.variant_entry.mpr label)
    exact ⟨.refl, e, (exits e).mp exit, whole.1⟩
  | exit =>
    have here := unrolls.variant_exit.mpr label
    obtain rfl : n = e := number_unique unrolls.denotes.nodup label (unrolls.variant_exit.mp exit)
    exact ⟨whole.1, n, (exits n).mp here, .refl⟩
  | inst c =>
    rcases (unrolls.mem_labels _).mp (List.mem_of_getElem? label) with ⟨placed, live⟩
    rcases completes.through c placed live with ⟨d, l, lands, course, member⟩
    rcases unrolls.reaches_through okay defined lands course member label with ⟨before, e, exit, after⟩
    exact ⟨before, e, (exits e).mp exit, after⟩

end

/-- The unrolled graph of a function is well formed if and only if the function completes. -/
theorem unrolled_traversable_iff {P : Program} {F : FuncRef} (okay : P.Ok)
    (defined : (P.M.func F).isDeclaration = false) {order : HashOrder} {cfg : Cfg}
    (constructed : constructCfg order P F = some cfg) : cfg.Traversable ↔ Completes P F := by
  rcases (constructCfg_yields okay defined order).result constructed with ⟨labels, -, -, unrolls, -⟩
  exact ⟨unrolls.completes, unrolls.traversable okay defined⟩

theorem callInLoop_traversable_iff : ∃ cfg, constructCfg .listed callInLoop 0 = some cfg ∧
    (cfg.Traversable ↔ Completes callInLoop 0) := by
  rcases callInLoop_constructed with ⟨cfg, constructed⟩
  exact ⟨cfg, constructed, unrolled_traversable_iff callInLoop_ok rfl constructed⟩

def spins : Program where
  M := ⟨[⟨[[⟨.br, [], [], [1], true, false, false⟩], [⟨.br, [], [], [1], true, false, false⟩]],
    [[], [0, 1]], []⟩]⟩
  loopInfo _ := ⟨[.mk 1 [1] []]⟩
  numUnrolls := 1
  recursiveCallLimit := 2

theorem spins_ok : spins.Ok := by
  intro f defined
  match f with
  | 0 =>
    have flow : (spins.M.func 0).Flow 0 1 := by decide
    have correct : (spins.loopInfo 0).Correct (spins.M.func 0) :=
      LoopInfo.Correct.single (by decide) (by decide) (fun _ flow =>
        Function.forall_flow (p := fun P B => B ∈ [1] → P ∉ [1] → B = 1) flow (by decide)) (by decide)
    refine ⟨Function.wellFormed_of_test (by decide), ?_, by decide⟩
    refine LoopInfo.Natural.single correct (by decide) ?_ (by decide) (by decide)
    intro B inside
    rw [List.mem_singleton.mp inside]
    exact .single flow
  | f + 1 => cases defined

/-- Only the exit is left of its graph, at the number that the entry had. -/
theorem spins_not_traversable : spins.Ok ∧ ∃ cfg, constructCfg .listed spins 0 = some cfg ∧
    cfg.nodes.map (·.v) = [.exit] ∧ cfg.entry = 0 ∧ cfg.exits = [1] ∧ ¬ cfg.Traversable := by
  have built : ∃ cfg ∈ constructCfg .listed spins 0,
      cfg.nodes.map (·.v) = [.exit] ∧ cfg.entry = 0 ∧ cfg.exits = [1] := by decide +kernel
  rcases built with ⟨cfg, made, nodes, entry, exits⟩
  refine ⟨spins_ok, cfg, made, nodes, entry, exits, fun traversable => ?_⟩
  have first := (traversable.entry 0).mpr entry.symm
  have other : cfg.variant 0 = some .exit := by
    rw [variant, ← List.getElem?_map, nodes]
    rfl
  rw [first] at other
  cases other

end Unrolled

end Clou
