import Clou.Prune
import Clou.Unrolling

/-! The unrolled graph of a function, as it is after pruning: its nodes are instances of
instructions, and its edges are the steps between them. -/

namespace Clou.Unrolled

open Cfg Labelled

/-- The exits are set before anything is pruned. -/
def State.cfg (s : State) : Cfg := ⟨s.nodes, s.po, 0, [1], s.translations⟩

def constructCfg (order : HashOrder) (P : Program) (F : FuncRef) : Option Cfg :=
  (construct P F).bind fun s => s.cfg.prune order

section

variable (P : Program) (F : FuncRef)

inductive Placed : Label → Prop
  | entry : Placed .entry
  | exit : Placed .exit
  | inst {fr d} : FrameIn P F fr → Laid P [fr] d → Placed (.inst d)

inductive Arc : Label → Label → Prop
  | first {d} : Lands P [.start F] d → Arc .entry (.inst d)
  | step {c d} : Placed P F (.inst c) → Step P c d → Arc (.inst c) (.inst d)
  | last {c} : Ends P F [] c → Arc (.inst c) .exit

/-- Control goes on to a dead end before it leaves the function. -/
abbrev Pointless : Label → Prop := DeadEnd (Arc P F) (· = .exit)

inductive Stands : Label → Node → Prop
  | entry : Stands .entry Node.makeEntry
  | exit : Stands .exit Node.makeExit
  | inst {fr σ id} : Stands (.inst (fr :: σ)) ⟨.inst fr.inst, some id, ∅⟩

/-- A graph is the unrolled one of a function, its nodes being those with the labels listed. -/
structure Unrolls (cfg : Cfg) (labels : List Label) : Prop where
  nodes : List.Forall₂ Stands labels cfg.nodes
  denotes : Denotes labels cfg.po.Edge (fun x y => Arc P F x y ∧ ¬ Pointless P F y)
  mem_labels : ∀ x, x ∈ labels ↔ Placed P F x ∧ ¬ Pointless P F x
  front : ∃ rest, labels.Sublist (.entry :: .exit :: rest) ∧ .entry ∉ rest ∧ .exit ∉ rest
  proper : cfg.po.Proper
  keys : ∀ n < cfg.size, n ∈ cfg.po.fwd ∧ n ∈ cfg.po.rev
  entry : cfg.entry = 0
  exits : cfg.exits = [1]

end

section

variable {P : Program} {F : FuncRef}

variable {p c σ d : Config} {fr : Frame}

theorem Leaves.laid (okay : P.Ok) (leaves : Leaves P p c) : Laid P p c := by
  cases leaves with
  | here none => exact .here none
  | callee call inside last _ =>
    have ok := okay _ (entered_defined call)
    exact .call call inside (.here (entered_atEnd ok inside.func inside.laid last _))

/-- A frame with more laid out above it is at a call, which is no terminator. -/
theorem Laid.further {f : FuncRef} (ok : FunctionOk P f) (inside : FrameIn P f fr)
    (laid : Laid P (fr :: σ) c) (inner : c ≠ fr :: σ) : fr.index + 1 < blockLength P fr := by
  cases laid with
  | here _ => exact absurd rfl inner
  | call call _ _ => exact not_atEnd ok inside call

theorem Leaves.step {f : FuncRef} (ok : FunctionOk P f) {fr' : Frame} (inside : FrameIn P f fr)
    (leaves : Leaves P (fr :: p) c) (link : Link P fr fr') (lands : Lands P (fr' :: p) d) :
    Step P c d := by
  cases leaves with
  | here _ => exact ⟨fr' :: p, .link link, lands⟩
  | callee call _ last ends =>
    have further := not_atEnd ok inside call
    cases link with
    | seq _ => exact ⟨fr.next :: p, .leave last ends, lands⟩
    | jump last' _ _ _ =>
      unfold AtEnd at last'
      omega

theorem Inner.source (okay : P.Ok) (inner : Inner P p c d) : Laid P p c := by
  induction inner with
  | link call inside _ leaves _ => exact .call call inside (leaves.laid okay)
  | deeper call inside _ ih => exact .call call inside ih

theorem Inner.step (okay : P.Ok) (inner : Inner P p c d) : Step P c d := by
  induction inner with
  | link call inside link leaves lands =>
    exact leaves.step (okay _ (entered_defined call)) inside link lands
  | deeper _ _ _ ih => exact ih

/-- A step from what is laid out for a call is one of its edges, or it leads out of the call. -/
theorem Laid.step (okay : P.Ok) {e : Config} (laid : Laid P p c) (inner : c ≠ p)
    (moves : Move P c e) (lands : Lands P e d) : Inner P p c d ∨
      ∃ fr σ, p = fr :: σ ∧ Leaves P p c ∧ e = fr.next :: σ := by
  induction laid with
  | here _ => exact absurd rfl inner
  | @call p fr g c call inside below ih =>
    by_cases same : c = fr :: p
    · subst same
      cases moves with
      | link link => exact .inl (.link call inside link (.here below.entered) lands)
      | leave last ends => exact .inr ⟨_, _, rfl, .callee call inside last ends, rfl⟩
    · left
      rcases ih same moves with inner' | ⟨_, _, here, leaves, rfl⟩
      · exact .deeper call inside inner'
      · cases here
        have further := below.further (okay g (entered_defined call)) inside same
        exact .link call inside (.seq further) leaves lands

/-- The edges that are drawn for a function are the steps from what is laid out for it. -/
theorem drawn_iff (okay : P.Ok) (defined : (P.M.func F).isDeclaration = false) :
    Drawn P [] (FrameIn P F) (fun fr fr' => FrameIn P F fr ∧ Link P fr fr') c d ↔
      Placed P F (.inst c) ∧ Step P c d := by
  constructor
  · rintro (⟨fr, inside, inner⟩ | ⟨fr, fr', ⟨inside, link⟩, leaves, lands⟩)
    · exact ⟨.inst inside (inner.source okay), inner.step okay⟩
    · exact ⟨.inst inside (leaves.laid okay), leaves.step (okay F defined) inside link lands⟩
  · rintro ⟨placed, e, moves, lands⟩
    cases placed with
    | @inst fr _ inside laid =>
      by_cases same : c = [fr]
      · subst same
        cases moves with
        | link link => exact .inr ⟨fr, _, ⟨inside, link⟩, .here laid.entered, lands⟩
      · rcases laid.step okay same moves lands with inner | ⟨_, _, here, leaves, rfl⟩
        · exact .inl ⟨fr, inside, inner⟩
        · cases here
          have further := laid.further (okay F defined) inside same
          exact .inr ⟨fr, fr.next, ⟨inside, .seq further⟩, leaves, lands⟩

/-- Every frame of what is laid out is one of its function. -/
theorem Laid.frames (laid : Laid P p c)
    (below : ∀ fr ∈ p, (P.M.func fr.func).isDeclaration = false ∧ FrameIn P fr.func fr) :
    ∀ fr ∈ c, (P.M.func fr.func).isDeclaration = false ∧ FrameIn P fr.func fr := by
  induction laid with
  | here _ => exact below
  | call call inside _ ih =>
    have func := inside.func
    subst func
    exact ih (List.forall_mem_cons.mpr ⟨⟨entered_defined call, inside⟩, below⟩)

theorem Placed.frames (defined : (P.M.func F).isDeclaration = false)
    (placed : Placed P F (.inst c)) :
    ∀ fr ∈ c, (P.M.func fr.func).isDeclaration = false ∧ FrameIn P fr.func fr := by
  cases placed with
  | inst inside laid =>
    have func := inside.func
    subst func
    exact laid.frames (List.forall_mem_singleton.mpr ⟨defined, inside⟩)

theorem Laid.func (laid : Laid P p c) (top : c = fr :: σ) :
    p = fr :: σ ∨ Unrolled.entered P σ = some fr.func := by
  induction laid with
  | here _ => exact .inl top
  | call call inside _ ih =>
    rcases ih top with same | found
    · cases same
      rw [call, inside.func]
      exact .inr rfl
    · exact .inr found

/-- The function of an instance is told by the call that it was entered at. -/
theorem Placed.func_eq {fr' : Frame} (left : Placed P F (.inst (fr :: σ)))
    (right : Placed P F (.inst (fr' :: σ))) : fr.func = fr'.func := by
  have func {fr : Frame} (placed : Placed P F (.inst (fr :: σ))) :
      (σ = [] ∧ fr.func = F) ∨ entered P σ = some fr.func := by
    cases placed with
    | inst inside laid =>
      rcases laid.func rfl with same | found
      · cases same
        exact .inl ⟨rfl, inside.func⟩
      · exact .inr found
  rcases func left with ⟨rfl, here⟩ | here
  · rcases func right with ⟨-, there⟩ | there
    · exact here.trans there.symm
    · cases there
  · rcases func right with ⟨rfl, -⟩ | there
    · cases here
    · exact Option.some.inj (here.symm.trans there)

end

section

variable {P : Program} {F : FuncRef}

variable {G : Drawing}

theorem Draws.edge_iff (okay : P.Ok) (defined : (P.M.func F).isDeclaration = false)
    (draws : Draws P F G) (x y : Label) : G.edge x y ↔ Arc P F x y := by
  rw [draws.edge]
  constructor
  · rintro (⟨rfl, d, lands, rfl⟩ | ⟨rfl, c, ends, rfl⟩ | ⟨c, d, drawn, rfl, rfl⟩)
    · exact .first lands
    · exact .last ends
    · exact .step ((drawn_iff okay defined).mp drawn).1 ((drawn_iff okay defined).mp drawn).2
  · intro arc
    cases arc with
    | first lands => exact .inl ⟨rfl, _, lands, rfl⟩
    | step placed step => exact .inr (.inr ⟨_, _, (drawn_iff okay defined).mpr ⟨placed, step⟩, rfl, rfl⟩)
    | last ends => exact .inr (.inl ⟨rfl, _, ends, rfl⟩)

theorem Draws.mem_labels (draws : Draws P F G) (x : Label) : x ∈ G.labels ↔ Placed P F x := by
  rcases draws.labels with ⟨new, labels, mem_new⟩
  rw [labels, List.mem_cons, List.mem_cons, mem_new]
  constructor
  · rintro (rfl | rfl | ⟨fr, d, inside, laid, rfl⟩)
    · exact .entry
    · exact .exit
    · exact .inst inside laid
  · intro placed
    cases placed with
    | entry => exact .inl rfl
    | exit => exact .inr (.inl rfl)
    | inst inside laid => exact .inr (.inr ⟨_, _, inside, laid, rfl⟩)

theorem Depicts.stands {calls loops : List Config} {x : Label} {node : Node}
    (depicts : Depicts calls loops x node) : Stands x node := by
  cases depicts with
  | entry => exact .entry
  | exit => exact .exit
  | inst _ => exact .inst

theorem arc_exit {y : Label} : ¬ Arc P F .exit y := nofun

theorem prunable_cfg (okay : P.Ok) (defined : (P.M.func F).isDeclaration = false) {s : State}
    (shows : Shows s G) (draws : Draws P F G) : s.cfg.Prunable where
  proper := shows.proper
  keys n bound := shows.keys n (by rw [← shows.size]; exact bound)
  valid := by
    intro n m edge
    rcases shows.denotes.edge_iff.mp edge with ⟨x, y, left, right, -⟩
    rw [Cfg.size, State.cfg, shows.size]
    exact ⟨(List.getElem?_eq_some_iff.mp left).1, (List.getElem?_eq_some_iff.mp right).1⟩
  exits := by
    intro n m exit edge
    rcases draws.labels with ⟨new, labels, -⟩
    rcases shows.denotes.edge_iff.mp edge with ⟨x, y, left, -, related⟩
    rw [List.mem_singleton.mp exit, labels] at left
    cases left
    exact arc_exit ((draws.edge_iff okay defined ..).mp related)

theorem Unrolls.wellFormed {cfg : Cfg} {labels : List Label} (unrolls : Unrolls P F cfg labels) :
    cfg.WellFormed where
  proper := unrolls.proper
  keys := unrolls.keys
  valid := by
    intro n m edge
    rcases unrolls.denotes.edge_iff.mp edge with ⟨x, y, left, right, -⟩
    rw [Cfg.size, ← unrolls.nodes.length_eq]
    exact ⟨(List.getElem?_eq_some_iff.mp left).1, (List.getElem?_eq_some_iff.mp right).1⟩

theorem constructCfg_yields (okay : P.Ok) (defined : (P.M.func F).isDeclaration = false)
    (order : HashOrder) : Yields (Broken P) (constructCfg order P F) fun cfg =>
      ∃ labels calls loops, Unrolls P F cfg labels ∧
        List.Forall₂ (Depicts calls loops) labels cfg.nodes := by
  refine (construct_yields okay defined).bind ?_
  rintro s ⟨G, shows, draws⟩
  rcases prune_spec (prunable_cfg okay defined shows draws) order with ⟨cfg, kept, pruned, spec⟩
  have size : s.cfg.size = G.labels.length := shows.size
  have edges := shows.denotes.congr (draws.edge_iff okay defined)
  have exit_iff {n : NodeRef} {x : Label} (found : G.labels[n]? = some x) :
      n ∈ s.cfg.exits ↔ x = .exit := by
    rcases draws.labels with ⟨new, labels, -⟩
    have last : G.labels[1]? = some .exit := by simp [labels]
    change n ∈ [1] ↔ _
    rw [List.mem_singleton]
    constructor
    · rintro rfl
      exact Option.some.inj (found.symm.trans last)
    · rintro rfl
      exact number_unique shows.denotes.nodup found last
  have dead_iff {n : NodeRef} {x : Label} (found : G.labels[n]? = some x) :
      ¬ Dead s.cfg n ↔ ¬ Pointless P F x :=
    not_congr (edges.deadEnd_iff exit_iff found)
  have picked : List.Forall₂ (fun n x => G.labels[n]? = some x) kept (kept.filterMap (G.labels[·]?)) :=
    forall₂_filterMap fun n member => ⟨_, List.getElem?_eq_getElem (size ▸ ((spec.mem_kept n).mp member).1)⟩
  have depicted : List.Forall₂ (Depicts G.calls G.loops) (kept.filterMap (G.labels[·]?)) cfg.nodes := by
    refine forall₂_meet picked spec.nodes fun n x node label found => ?_
    rcases lookup_related shows.nodes label with ⟨node', found', depicts⟩
    rw [← Option.some.inj (found'.symm.trans found)]
    exact depicts
  refine .inr ⟨cfg, pruned, kept.filterMap (G.labels[·]?), G.calls, G.loops, ?_, depicted⟩
  constructor
  · exact depicted.imp fun _ _ depicts => depicts.stands
  · exact edges.select dead_iff spec.denotes picked
  · intro x
    rw [List.mem_filterMap, ← draws.mem_labels]
    constructor
    · rintro ⟨n, member, found⟩
      exact ⟨List.mem_of_getElem? found, (dead_iff found).mp ((spec.mem_kept n).mp member).2⟩
    · rintro ⟨present, alive⟩
      rcases List.getElem?_of_mem present with ⟨n, found⟩
      refine ⟨n, (spec.mem_kept n).mpr ⟨?_, (dead_iff found).mpr alive⟩, found⟩
      rw [size]
      exact (List.getElem?_eq_some_iff.mp found).1
  · rcases draws.labels with ⟨new, labels, mem_new⟩
    refine ⟨new, ?_, by simp [mem_new], by simp [mem_new]⟩
    have whole := spec.sublist.filterMap (G.labels[·]?)
    rw [size, filterMap_range, labels] at whole
    rw [labels]
    exact whole
  · exact spec.proper
  · exact spec.keys
  · exact spec.entry
  · exact spec.exits

end

/-! A function that calls another one in a loop -/

def callInLoop : Program where
  M := ⟨[
    ⟨[[⟨.br, [], [], [1], true, false, false⟩],
      [⟨.call (some 1) false false, [.constant 0], [.constant 0], [], false, false, true⟩,
        ⟨.br, [], [], [1, 2], true, false, false⟩],
      [⟨.ret, [], [], [], true, false, false⟩]], [[], [0, 1], [1]], []⟩,
    ⟨[[⟨.load, [.argument 1 0], [], [], false, false, true⟩,
      ⟨.ret, [.inst ⟨1, 0, 0⟩], [], [], true, false, false⟩]], [[]], [true]⟩]⟩
  loopInfo f := if f = 0 then ⟨[.mk 1 [1] []]⟩ else ⟨[]⟩
  numUnrolls := 1
  recursiveCallLimit := 2

theorem callInLoop_ok : callInLoop.Ok := by
  intro f defined
  match f with
  | 0 =>
    have flow : (callInLoop.M.func 0).Flow 0 1 := by decide
    have correct : (callInLoop.loopInfo 0).Correct (callInLoop.M.func 0) :=
      LoopInfo.Correct.single (by decide) (by decide) (fun _ flow =>
        Function.forall_flow (p := fun P B => B ∈ [1] → P ∉ [1] → B = 1) flow (by decide)) (by decide)
    refine ⟨Function.wellFormed_of_test (by decide), ?_, by decide⟩
    refine LoopInfo.Natural.single correct (by decide) ?_ (by decide) (by decide)
    intro B inside
    rw [List.mem_singleton.mp inside]
    exact .single flow
  | 1 => exact ⟨Function.wellFormed_of_test (by decide), LoopInfo.Natural.none, by decide⟩
  | f + 2 => cases defined

theorem callInLoop_constructed : ∃ cfg, constructCfg .listed callInLoop 0 = some cfg :=
  Option.isSome_iff_exists.mp (by decide +kernel)

end Clou.Unrolled
