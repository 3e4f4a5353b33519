import Clou.ControlEdges
import Clou.Multigraph

/-! The event graph with the edges of all passes, and what a query for the neighbours of a node returns
of them. -/

namespace Clou.EdgeQueries

open Z3 Com Dependencies Edges Dominators BlockCfg ControlEdges

abbrev EdgeGraph := Multigraph NodeRef Edge

/-- What is known before edges are added for dependencies. -/
structure Analyses where
  dependencies : NodeRefMap
  dominators : DominatorMap
  postdominators : DominatorMap

section

variable (order hash : Cfg.HashOrder) (aeg : Aeg)

def analyses : Option Analyses := do
  let dependencies ← constructDependencies2 order aeg.po
  let dominators ← constructDominatorsShared2 hash .OUT aeg.po
  let postdominators ← constructDominatorsShared2 hash .IN aeg.po
  some ⟨dependencies, dominators, postdominators⟩

def possible (e : Edge) : Bool := !(and e.existsCond e.constraints).isFalse

def addUnidirEdge (graph : EdgeGraph) (e : Insertion) : EdgeGraph :=
  if possible e.edge then graph.insert e.src e.dst e.edge else graph

/-- Whether an optional edge exists is a variable, and its condition a constraint. -/
def tfoEdge (src dst : NodeRef) : Edge :=
  ⟨.tfo, (Aeg.tfo src dst).comap (·.toValuation),
    (implies (Aeg.tfo src dst) (aeg.tfoCond src dst)).comap (·.toValuation)⟩

def constructTfo : List Insertion :=
  aeg.tfoEdges.map fun pair => ⟨pair.1, pair.2, tfoEdge aeg pair.1 pair.2⟩

/-- The edges of all passes, in the order in which they are added. -/
def insertions (known : Analyses) : Option (List Insertion) := do
  let addr ← constructAddr order aeg known.dependencies
  let addrGep ← constructAddrGep order aeg known.dependencies
  let data ← constructData order aeg known.dependencies
  let ctrl ← constructCtrl order aeg known.dependencies known.dominators known.postdominators
  some (constructTfo aeg ++ addr ++ addrGep ++ data ++ ctrl)

def construct : Option EdgeGraph := do
  let known ← analyses order hash aeg
  let edges ← insertions order aeg known
  some (edges.foldl addUnidirEdge (aeg.nodeRange.foldl Multigraph.addNode Multigraph.empty))

def inDirection (graph : EdgeGraph) : Direction → NNEMap NodeRef Edge
  | .IN => graph.rev
  | .OUT => graph.fwd

def getNodes (graph : EdgeGraph) (dir : Direction) (ref : NodeRef) (kind : Leakage.EdgeKind) :
    Option (List (NodeRef × BoolExpr ComValuation)) :=
  ((inDirection graph dir).lookup ref).map fun neighbours =>
    (Multigraph.select (fun edge => edge.kind = kind) neighbours).map fun found =>
      (found.1, found.2.existsCond)

end

def ends (dir : Direction) (ref neighbour : NodeRef) : NodeRef × NodeRef :=
  match dir with
  | .IN => (neighbour, ref)
  | .OUT => (ref, neighbour)

def stored (graph : EdgeGraph) (pair : NodeRef × NodeRef) : List Edge :=
  Multigraph.edges graph.fwd pair.1 pair.2

section

variable {graph : EdgeGraph} {nodes : NodeRef → Prop} {between : NodeRef → NodeRef → List Edge}
  {ref : NodeRef}

/-- A query returns the condition of the first edge to each neighbour. -/
theorem getNodes_spec (dir : Direction) (kind : Leakage.EdgeKind) (holds : graph.Holds nodes between)
    (listed : nodes ref) : ∃ found, getNodes graph dir ref kind = some found ∧ (found.map Prod.fst).Nodup ∧
      ∀ m cond, (m, cond) ∈ found ↔ ∃ e, (stored graph (ends dir ref m)).find? (·.kind = kind) = some e ∧
        e.existsCond = cond := by
  have present : ref ∈ inDirection graph dir := by
    cases dir with
    | IN => exact holds.rev_mem ref listed
    | OUT => exact holds.fwd_mem ref listed
  have same (m : NodeRef) : Multigraph.edges (inDirection graph dir) ref m = stored graph (ends dir ref m) := by
    cases dir with
    | IN => exact (holds.rev_edges m ref).trans (holds.fwd_edges m ref).symm
    | OUT => rfl
  rcases FiniteMap.exists_of_mem present with ⟨neighbours, lookup⟩
  refine ⟨_, by rw [getNodes, lookup, Option.map_some], ?_, fun m cond => ?_⟩
  · rw [List.map_map]
    exact Multigraph.nodup_select
  · rw [← same, Multigraph.edges, Multigraph.row, lookup, Option.getD_some, List.mem_map]
    constructor
    · rintro ⟨⟨other, e⟩, selected, equal⟩
      cases equal
      exact ⟨e, Multigraph.mem_select.mp selected, rfl⟩
    · rintro ⟨e, first, rfl⟩
      exact ⟨(m, e), Multigraph.mem_select.mpr first, rfl⟩

end

section

variable {order hash : Cfg.HashOrder} {aeg : Aeg} {graph : EdgeGraph} {known : Analyses}
  {edges : List Insertion}

theorem addUnidirEdge_eq (graph : EdgeGraph) (e : Insertion) :
    addUnidirEdge graph e = graph.insert e.src e.dst e.edge := rfl

/-- Every edge that a pass adds is stored, in both directions. -/
theorem construct_holds (built : construct order hash aeg = some graph) :
    ∃ known edges, analyses order hash aeg = some known ∧ insertions order aeg known = some edges ∧
      graph.Holds (· < aeg.size)
        fun a b => (edges.filter fun e => e.src = a ∧ e.dst = b).map (·.edge) := by
  rcases Option.bind_eq_some_iff.mp built with ⟨known, analysed, built⟩
  rcases Option.bind_eq_some_iff.mp built with ⟨edges, computed, built⟩
  cases built
  have start := Multigraph.holds_addNodes aeg.nodeRange (Multigraph.holds_empty (N := NodeRef) (E := Edge))
  have all := Multigraph.holds_foldl_insert (·.src) (·.dst) (·.edge) edges start
  simp only [← addUnidirEdge_eq] at all
  refine ⟨known, edges, analysed, computed, ?_, ?_, all.fwd_edges, all.rev_edges⟩
  · intro n bound
    exact all.fwd_mem n (.inl (List.mem_range.mpr bound))
  · intro n bound
    exact all.rev_mem n (.inl (List.mem_range.mpr bound))

theorem mem_stored (holds : graph.Holds (· < aeg.size)
      fun a b => (edges.filter fun e => e.src = a ∧ e.dst = b).map (·.edge)) {pair : NodeRef × NodeRef}
    {e : Edge} : e ∈ stored graph pair ↔ ⟨pair.1, pair.2, e⟩ ∈ edges := by
  rw [stored, holds.fwd_edges, List.mem_map]
  constructor
  · rintro ⟨⟨src, dst, edge⟩, listed, rfl⟩
    rcases List.mem_filter.mp listed with ⟨member, here⟩
    rcases of_decide_eq_true here with ⟨rfl, rfl⟩
    exact member
  · intro member
    exact ⟨_, List.mem_filter.mpr ⟨member, decide_eq_true ⟨rfl, rfl⟩⟩, rfl⟩

end

/-! Conditions of the edges of one kind -/

section

variable {order hash : Cfg.HashOrder} {aeg : Aeg} {known : Analyses} {edges : List Insertion}

/-- Between two nodes there is one edge for address computations. -/
theorem gepEdges_unique {paths : List GepPath} {src dst : NodeRef} {edge edge' : Edge}
    (member : ⟨src, dst, edge⟩ ∈ gepEdges aeg paths) (member' : ⟨src, dst, edge'⟩ ∈ gepEdges aeg paths) :
    edge = edge' := by
  rcases List.mem_map.mp member with ⟨⟨⟨_, _⟩, cond⟩, entry, same⟩
  rcases List.mem_map.mp member' with ⟨⟨⟨_, _⟩, cond'⟩, entry', same'⟩
  cases same
  cases same'
  cases (AList.mem_lookup_iff.mpr entry).symm.trans (AList.mem_lookup_iff.mpr entry')
  rfl

def Controlled (aeg : Aeg) (bcfg : BlockCfg) (known : Analyses) (pair : NodeRef × NodeRef) (br : NodeRef) :
    Prop :=
  Controls aeg bcfg known.dependencies known.dominators known.postdominators ⟨pair.1, br, pair.2⟩

/-- The pass that adds an edge determines its condition from its ends, except for control dependencies
where the branch enters as well. -/
inductive Made (aeg : Aeg) (bcfg : BlockCfg) (known : Analyses) (gepPaths : List GepPath) :
    Insertion → Prop
  | tfo (src dst : NodeRef) : Made aeg bcfg known gepPaths ⟨src, dst, tfoEdge aeg src dst⟩
  | addr (src dst : NodeRef) : Made aeg bcfg known gepPaths ⟨src, dst, addrEdge aeg src dst⟩
  | addrGep {e : Insertion} : e ∈ gepEdges aeg gepPaths → Made aeg bcfg known gepPaths e
  | data (src dst : NodeRef) : Made aeg bcfg known gepPaths ⟨src, dst, dataEdge aeg src dst⟩
  | ctrl {path : CtrlPath} :
      Controls aeg bcfg known.dependencies known.dominators known.postdominators path →
      Made aeg bcfg known gepPaths ⟨path.load, path.access, ctrlEdge aeg path⟩

theorem eq_of_mem_collect {deps : NodeRef → Option (List NodeRef)} {edge : NodeRef → NodeRef → Edge}
    {dsts : List NodeRef} (collected : collect (fun dst => (deps dst).map fun srcs =>
      (srcs.filter (mayRead aeg)).map fun src => Insertion.mk src dst (edge src dst)) dsts = some edges)
    {e : Insertion} (member : e ∈ edges) : ∃ src dst, e = ⟨src, dst, edge src dst⟩ := by
  rcases (mem_collect collected).mp member with ⟨dst, -, part, ofDst, listed⟩
  rcases Option.map_eq_some_iff.mp ofDst with ⟨srcs, -, rfl⟩
  rcases List.mem_map.mp listed with ⟨src, -, rfl⟩
  exact ⟨src, dst, rfl⟩

theorem mem_insertions (computed : insertions order aeg known = some edges) :
    ∃ bcfg gepPaths, BlockCfg.construct aeg.po = some bcfg ∧
      (∀ e ∈ edges, Made aeg bcfg known gepPaths e) ∧
      ∀ path, Controls aeg bcfg known.dependencies known.dominators known.postdominators path →
        ⟨path.load, path.access, ctrlEdge aeg path⟩ ∈ edges := by
  rcases Option.bind_eq_some_iff.mp computed with ⟨addr, ofAddr, computed⟩
  rcases Option.bind_eq_some_iff.mp computed with ⟨addrGep, ofAddrGep, computed⟩
  rcases Option.bind_eq_some_iff.mp computed with ⟨data, ofData, computed⟩
  rcases Option.bind_eq_some_iff.mp computed with ⟨ctrl, ofCtrl, computed⟩
  cases computed
  rcases Option.map_eq_some_iff.mp ofAddrGep with ⟨gepPaths, -, rfl⟩
  rcases Option.map_eq_some_iff.mp ofCtrl with ⟨paths, found, rfl⟩
  rcases mem_ctrlPaths found with ⟨bcfg, built, through⟩
  refine ⟨bcfg, gepPaths, built, fun e member => ?_, fun path controls => ?_⟩
  · simp only [List.mem_append] at member
    rcases member with (((ofTfo | listed) | listed) | listed) | listed
    · rcases List.mem_map.mp ofTfo with ⟨pair, -, rfl⟩
      exact .tfo pair.1 pair.2
    · rcases eq_of_mem_collect ofAddr listed with ⟨src, dst, rfl⟩
      exact .addr src dst
    · exact .addrGep listed
    · rcases eq_of_mem_collect ofData listed with ⟨src, dst, rfl⟩
      exact .data src dst
    · rcases List.mem_map.mp listed with ⟨path, member, rfl⟩
      exact .ctrl ((through path).mp member)
  · exact List.mem_append_right _ (List.mem_map_of_mem ((through path).mpr controls))

variable {bcfg : BlockCfg} {gepPaths : List GepPath} {src dst : NodeRef} {edge edge' : Edge}

section

variable (made : Made aeg bcfg known gepPaths ⟨src, dst, edge⟩)

include made

theorem made_ctrl (kind : edge.kind = .ctrl) :
    ∃ br, Controlled aeg bcfg known (src, dst) br ∧ edge = ctrlEdge aeg ⟨src, br, dst⟩ := by
  cases made with
  | tfo => cases kind
  | addr => cases kind
  | addrGep listed => cases kind.symm.trans (mem_gepEdges listed).1
  | data => cases kind
  | ctrl controls => exact ⟨_, controls, rfl⟩

theorem made_addrGep (kind : edge.kind = .addrGep) : ⟨src, dst, edge⟩ ∈ gepEdges aeg gepPaths := by
  cases made with
  | addrGep listed => exact listed
  | _ => cases kind

def edgeOf (aeg : Aeg) (kind : Leakage.EdgeKind) (src dst : NodeRef) : Option Edge :=
  match kind with
  | .tfo => some (tfoEdge aeg src dst)
  | .addr => some (addrEdge aeg src dst)
  | .data => some (dataEdge aeg src dst)
  | _ => none

theorem made_edgeOf (gep : edge.kind ≠ .addrGep) (ctrl : edge.kind ≠ .ctrl) :
    edgeOf aeg edge.kind src dst = some edge := by
  cases made with
  | tfo => rfl
  | addr => rfl
  | addrGep listed => exact absurd (mem_gepEdges listed).1 gep
  | data => rfl
  | ctrl => exact absurd rfl ctrl

/-- Edges of one kind between the same nodes are the same, except for control dependencies. -/
theorem made_unique (made' : Made aeg bcfg known gepPaths ⟨src, dst, edge'⟩)
    (kind : edge.kind = edge'.kind) (ctrl : edge.kind ≠ .ctrl) : edge = edge' := by
  by_cases gep : edge.kind = .addrGep
  · exact gepEdges_unique (made_addrGep made gep) (made_addrGep made' (kind ▸ gep))
  · have first := made_edgeOf made gep ctrl
    have second := made_edgeOf made' (kind ▸ gep) (kind ▸ ctrl)
    rw [← kind, first] at second
    exact Option.some.inj second

end

end

section

variable {aeg : Aeg} {bcfg : BlockCfg} {known : Analyses} {gepPaths : List GepPath} {edges : List Edge}
  {first : Edge} {src dst : NodeRef} {kind : Leakage.EdgeKind}

/-- One condition stands for those of all edges of its kind. -/
def Covers (edges : List Edge) (kind : Leakage.EdgeKind) (cond : BoolExpr ComValuation) : Prop :=
  ∀ v, cond.eval v = true ↔ ∃ e ∈ edges, e.kind = kind ∧ e.existsCond.eval v = true

theorem find_kind (found : edges.find? (·.kind = kind) = some first) : first ∈ edges ∧ first.kind = kind := by
  have own := List.find?_some found
  exact ⟨List.mem_of_find?_eq_some found, of_decide_eq_true own⟩

theorem covers_of_unique (found : edges.find? (·.kind = kind) = some first)
    (unique : ∀ e ∈ edges, e.kind = kind → e = first) : Covers edges kind first.existsCond := by
  rcases find_kind found with ⟨inside, own⟩
  intro v
  constructor
  · intro holds
    exact ⟨first, inside, own, holds⟩
  · rintro ⟨e, member, same, holds⟩
    rwa [← unique e member same]

/-- The condition of the first edge covers the others if and only if these are not control dependencies
that differ in the branch. -/
theorem covers_iff (entered : aeg.po.variant aeg.entry = some .entry)
    (made : ∀ e ∈ edges, Made aeg bcfg known gepPaths ⟨src, dst, e⟩)
    (listed : ∀ br, Controlled aeg bcfg known (src, dst) br → ctrlEdge aeg ⟨src, br, dst⟩ ∈ edges)
    (found : edges.find? (·.kind = kind) = some first) :
    Covers edges kind first.existsCond ↔ (kind = .ctrl → ∀ br br',
      Controlled aeg bcfg known (src, dst) br → Controlled aeg bcfg known (src, dst) br' → br = br') := by
  rcases find_kind found with ⟨member, own⟩
  constructor
  · rintro covers rfl
    rcases made_ctrl (made first member) own with ⟨br₀, ⟨-, branch, -⟩, rfl⟩
    -- the first edge does not exist without its branch, but those of other branches do
    have same (br : NodeRef) (controls : Controlled aeg bcfg known (src, dst) br) : br = br₀ := by
      by_contra different
      rcases controls with ⟨bound, branch', depends, load, access, rest⟩
      rcases ends_without branch load access with ⟨reading, accessing⟩
      have other : (ctrlEdge aeg ⟨src, br, dst⟩).existsCond.eval (without br₀) = true :=
        ctrlEdge_iff.mpr ⟨reading, exec_without different, accessing⟩
      have holds := (covers (without br₀)).mpr
        ⟨_, listed br ⟨bound, branch', depends, load, access, rest⟩, rfl, other⟩
      have executed := (ctrlEdge_iff.mp holds).2.1
      rw [not_exec_without (branch_ne_entry entered branch)] at executed
      cases executed
    intro br br' controls controls'
    rw [same br controls, same br' controls']
  · intro one
    apply covers_of_unique found
    intro e inside same
    by_cases ctrl : kind = .ctrl
    · subst ctrl
      rcases made_ctrl (made first member) own with ⟨br, controls, rfl⟩
      rcases made_ctrl (made e inside) same with ⟨br', controls', rfl⟩
      rw [one rfl br br' controls controls']
    · exact made_unique (made e inside) (made first member) (same.trans own.symm) (same ▸ ctrl)

end

/-- A query finds the neighbours to which edges are stored, each once. Its condition is that of any of
the edges if and only if these are not control dependencies that differ in the branch. -/
theorem getNodes_covers_iff {order hash : Cfg.HashOrder} {aeg : Aeg} {graph : EdgeGraph}
    (entered : aeg.po.variant aeg.entry = some .entry) (built : construct order hash aeg = some graph) :
    ∃ bcfg known, BlockCfg.construct aeg.po = some bcfg ∧ analyses order hash aeg = some known ∧
      (∀ n < aeg.size, ∀ dir kind, ∃ found, getNodes graph dir n kind = some found ∧
        (found.map Prod.fst).Nodup ∧
        (∀ m, (∃ cond, (m, cond) ∈ found) ↔ ∃ e ∈ stored graph (ends dir n m), e.kind = kind) ∧
        ∀ m cond, (m, cond) ∈ found → (Covers (stored graph (ends dir n m)) kind cond ↔
          (kind = .ctrl → ∀ br br', Controlled aeg bcfg known (ends dir n m) br →
            Controlled aeg bcfg known (ends dir n m) br' → br = br'))) ∧
      (aeg.po.Rooted → aeg.po.Topological → RefersBack aeg.po → ∀ exit,
        (∀ n < aeg.po.size, aeg.po.Reaches n exit) → ∀ src dst br,
        (Controlled aeg bcfg known (src, dst) br ↔ br < aeg.size ∧ dst < aeg.size ∧
          isBranch aeg br = true ∧ Relation.TransGen (Refers aeg.po) br src ∧ mayRead aeg src = true ∧
          Edges.mayAccess aeg dst = true ∧ BlockDominates aeg.po (blockOf bcfg br) (blockOf bcfg dst) ∧
          ¬ Postdominates aeg.po bcfg exit (blockOf bcfg dst) (blockOf bcfg br))) := by
  rcases construct_holds built with ⟨known, edges, analysed, computed, holds⟩
  rcases mem_insertions computed with ⟨bcfg, gepPaths, blocks, made, listed⟩
  refine ⟨bcfg, known, blocks, analysed, fun n bound dir kind => ?_, ?_⟩
  · rcases getNodes_spec dir kind holds bound with ⟨found, query, nodup, member⟩
    refine ⟨found, query, nodup, fun m => ?_, fun m cond returned => ?_⟩
    · simp only [member]
      constructor
      · rintro ⟨_, e, first, -⟩
        exact ⟨e, find_kind first⟩
      · rintro ⟨e, inside, own⟩
        have some' : ((stored graph (ends dir n m)).find? (·.kind = kind)).isSome :=
          List.find?_isSome.mpr ⟨e, inside, decide_eq_true own⟩
        rcases Option.isSome_iff_exists.mp some' with ⟨e', first⟩
        exact ⟨_, e', first, rfl⟩
    · rcases (member m cond).mp returned with ⟨first, isFirst, rfl⟩
      exact covers_iff entered (fun e inside => made _ ((mem_stored holds).mp inside))
        (fun br controls => (mem_stored holds).mpr (listed _ controls)) isFirst
  · intro rooted topological back exit leads src dst br
    rcases Option.bind_eq_some_iff.mp analysed with ⟨dependencies, ofDeps, analysed⟩
    rcases Option.bind_eq_some_iff.mp analysed with ⟨dominators, ofDoms, analysed⟩
    rcases Option.bind_eq_some_iff.mp analysed with ⟨postdominators, ofPostdoms, analysed⟩
    cases analysed
    have closures : ∃ map, constructDependencies2 order aeg.po = some map ∧
        Exact aeg.po (· < aeg.po.size) map := constructDependencies2_exact topological back
    rcases closures with ⟨_, ofDeps', exact'⟩
    cases ofDeps.symm.trans ofDeps'
    rcases dominators_spec hash rooted topological with
      ⟨_, _, _, blocks', cut, ofDoms', ofPostdoms', dominated, postdominated⟩
    cases blocks.symm.trans blocks'
    cases ofDoms.symm.trans ofDoms'
    cases ofPostdoms.symm.trans ofPostdoms'
    rw [Controlled, controls_iff rooted cut dominated postdominated leads]
    apply and_congr_right
    intro bound
    rw [exact'.closure bound]

/-- An access that two branches guard, one after the other, which depend on the same load. -/
def guarded : Aeg :=
  { sharedTarget with
    po := .ofEdges [.makeEntry, ⟨.inst ⟨0, 0, 0⟩, none, ∅⟩,
      ⟨.inst ⟨0, 0, 1⟩, none, SetMap.add ∅ (.inst ⟨0, 0, 0⟩) {1}⟩,
      ⟨.inst ⟨0, 1, 0⟩, none, SetMap.add ∅ (.inst ⟨0, 0, 0⟩) {1}⟩, ⟨.inst ⟨0, 2, 0⟩, none, ∅⟩, .makeExit]
      [(0, 1), (1, 2), (2, 3), (2, 5), (3, 4), (3, 5), (4, 5)] 0 [5] }

/-- Of the edges for the two branches the query returns the first, which does not exist without the
first branch. -/
theorem guarded_loses_branch : ∃ graph cond, construct .listed .listed guarded = some graph ∧
    getNodes graph .OUT 1 .ctrl = some [(4, cond)] ∧ cond.eval (without 2) = false ∧
    ∃ e ∈ stored graph (ends .OUT 1 4), e.kind = .ctrl ∧ e.existsCond.eval (without 2) = true := by
  have computed : ((construct .listed .listed guarded).bind fun graph =>
      (getNodes graph .OUT 1 .ctrl).map fun found =>
        (found.map fun pair => (pair.1, pair.2.eval (without 2)),
          (stored graph (ends .OUT 1 4)).map fun e => (e.kind, e.existsCond.eval (without 2)))) =
      some ([(4, false)], [(.ctrl, false), (.ctrl, true)]) := by decide
  rcases Option.bind_eq_some_iff.mp computed with ⟨graph, built, queried⟩
  rcases Option.map_eq_some_iff.mp queried with ⟨found, returned, same⟩
  rcases Prod.mk.inj same with ⟨conds, kinds⟩
  rcases List.map_eq_singleton_iff.mp conds with ⟨⟨m, cond⟩, rfl, ofCond⟩
  rcases Prod.mk.inj ofCond with ⟨rfl, fails⟩
  rcases List.map_eq_cons_iff.mp kinds with ⟨_, rest, split, -, later⟩
  rcases List.map_eq_singleton_iff.mp later with ⟨e, rfl, ofEdge⟩
  rcases Prod.mk.inj ofEdge with ⟨kind, holds⟩
  refine ⟨graph, cond, built, returned, fails, e, ?_, kind, holds⟩
  rw [split]
  exact List.mem_cons_of_mem _ List.mem_cons_self

theorem guarded_covers_iff : ∃ graph, construct .listed .listed guarded = some graph ∧
    ∃ bcfg known, BlockCfg.construct guarded.po = some bcfg ∧
      analyses .listed .listed guarded = some known ∧
      (∀ n < guarded.size, ∀ dir kind, ∃ found, getNodes graph dir n kind = some found ∧
        (found.map Prod.fst).Nodup ∧
        (∀ m, (∃ cond, (m, cond) ∈ found) ↔ ∃ e ∈ stored graph (ends dir n m), e.kind = kind) ∧
        ∀ m cond, (m, cond) ∈ found → (Covers (stored graph (ends dir n m)) kind cond ↔
          (kind = .ctrl → ∀ br br', Controlled guarded bcfg known (ends dir n m) br →
            Controlled guarded bcfg known (ends dir n m) br' → br = br'))) ∧
      (guarded.po.Rooted → guarded.po.Topological → RefersBack guarded.po → ∀ exit,
        (∀ n < guarded.po.size, guarded.po.Reaches n exit) → ∀ src dst br,
        (Controlled guarded bcfg known (src, dst) br ↔ br < guarded.size ∧ dst < guarded.size ∧
          isBranch guarded br = true ∧ Relation.TransGen (Refers guarded.po) br src ∧ mayRead guarded src = true ∧
          Edges.mayAccess guarded dst = true ∧ BlockDominates guarded.po (blockOf bcfg br) (blockOf bcfg dst) ∧
          ¬ Postdominates guarded.po bcfg exit (blockOf bcfg dst) (blockOf bcfg br))) := by
  rcases Option.isSome_iff_exists.mp (by decide : (construct .listed .listed guarded).isSome) with
    ⟨graph, built⟩
  exact ⟨graph, built, getNodes_covers_iff (by decide) built⟩

end Clou.EdgeQueries
