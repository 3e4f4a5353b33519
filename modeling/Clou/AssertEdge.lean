import Clou.Execution
import Clou.Leakage
import Clou.SameBlock

/-! What the search asserts along with an edge, and that every execution of the window satisfies
it. -/

namespace Clou

open Z3

def Leakage.EdgeKind.kindTostr : Leakage.EdgeKind → String
  | .po => "PO"
  | .tfo => "TFO"
  | .rf => "RF"
  | .co => "CO"
  | .fr => "FR"
  | .rfx => "RFX"
  | .cox => "COX"
  | .frx => "FRX"
  | .addr => "ADDR"
  | .addrGep => "ADDR_GEP"
  | .ctrl => "CTRL"
  | .data => "DATA"

namespace Aeg

section

variable {V : Type} (view : V → Valuation) (aeg : Aeg)

def desc (src dst : NodeRef) (name : String) : String :=
  name ++ "-" ++ toString src ++ "-" ++ toString dst

def blockPath (dst : NodeRef) : Nat → NodeRef → Option (List NodeRef)
  | 0, _ => none
  | fuel + 1, ref =>
    if ref = dst then some []
    else do
      let next ← (← aeg.po.po.fwd.lookup ref).head?
      (blockPath dst fuel next).map (ref :: ·)

/-- The constraints of an edge whose ends the nodes of `path` connect; those of the path have no
name. The solver model holds more than execution, and `view` is what execution reads. -/
def edgeConstraints (src dst : NodeRef) (edge : BoolExpr V) (kind : Leakage.EdgeKind)
    (path : List NodeRef) : List (Constraint V) :=
  [(edge, desc src dst kind.kindTostr),
    (implies ((aeg.trans src).comap view) ((aeg.trans dst).comap view), desc src dst "trans->trans"),
    (implies ((aeg.arch dst).comap view) ((aeg.arch src).comap view), desc src dst "arch<-arch")] ++
  path.map fun ref => ((aeg.exec ref).comap view, "")

def assertEdge (src dst : NodeRef) (edge : BoolExpr V) (kind : Leakage.EdgeKind) :
    Option (List (Constraint V)) := do
  let path ←
    if ← aeg.po.sameBasicBlock src dst then aeg.blockPath dst (aeg.size + 1) src else some []
  some (aeg.edgeConstraints view src dst edge kind path)

end

section

open BlockCfg

variable {aeg : Aeg} (window : aeg.Window) {v : Valuation}
  (satisfied : Satisfies v (aeg.assertions window.refs))

include satisfied

variable {dst src : NodeRef}

/-- Of two executed nodes the smaller leads to the larger. -/
theorem executed_path (ordered : aeg.Ordered) (order : src ≤ dst) (first : aeg.Executed v src)
    (last : aeg.Executed v dst) :
    Relation.ReflTransGen (fun a b => aeg.Executed v a ∧ Fetched aeg window.refs v a b) src dst := by
  rcases executed_single window satisfied ordered with ⟨start, -, single⟩
  exact Orbit.comparable single order (Orbit.reached single first) (Orbit.reached single last)

theorem path_arch
    (path : Relation.ReflTransGen (fun a b => aeg.Executed v a ∧ Fetched aeg window.refs v a b) src dst)
    (arch : (aeg.arch dst).eval v = true) : (aeg.arch src).eval v = true := by
  induction path using Relation.ReflTransGen.head_induction_on with
  | refl => exact arch
  | head step _ ih => exact fetched_arch window satisfied step.2 ih

theorem path_trans (first : aeg.Executed v src) (last : aeg.Executed v dst)
    (path : Relation.ReflTransGen (fun a b => aeg.Executed v a ∧ Fetched aeg window.refs v a b) src dst)
    (trans : (aeg.trans src).eval v = true) : (aeg.trans dst).eval v = true := by
  have executed := last.2.2
  simp only [exec, eval_or, Bool.or_eq_true] at executed
  rcases executed with arch | trans'
  · have member := executed_mem_window window satisfied first
    have exclusive := arch_exclusive window satisfied member (path_arch window satisfied path arch)
    rw [trans] at exclusive
    cases exclusive
  · exact trans'

omit satisfied in
/-- An execution from `src` to `dst` has no choice where successors are unique. -/
theorem only_executed (topological : aeg.po.Topological) {ref : NodeRef}
    (path : Relation.ReflTransGen (fun a b => aeg.Executed v a ∧ Fetched aeg window.refs v a b) src dst)
    (first : aeg.Executed v src) (last : aeg.Executed v dst)
    (before : Relation.ReflTransGen (Only aeg.po) src ref)
    (after : Relation.ReflTransGen (Only aeg.po) ref dst) : aeg.Executed v ref := by
  induction before using Relation.ReflTransGen.head_induction_on with
  | refl => exact first
  | @head src next step rest ih =>
    rcases path.cases_head with rfl | ⟨other, fetched, further⟩
    · exact absurd (step.lt topological (rest.trans after)) (Nat.lt_irrefl src)
    · have same : other = next := (step other).mp (fetched_edge fetched.2)
      subst same
      have executed : aeg.Executed v other := by
        rcases further.cases_head with rfl | ⟨_, step, -⟩
        · exact last
        · exact step.1
      exact ih further executed

omit satisfied in
theorem blockPath_spec (wellFormed : aeg.po.WellFormed) (topological : aeg.po.Topological)
    (chain : Relation.ReflTransGen (Only aeg.po) src dst) {fuel : Nat} (enough : dst - src < fuel) :
    ∃ path, aeg.blockPath dst fuel src = some path ∧
      ∀ ref ∈ path, Relation.ReflTransGen (Only aeg.po) src ref ∧
        Relation.ReflTransGen (Only aeg.po) ref dst := by
  induction chain using Relation.ReflTransGen.head_induction_on generalizing fuel with
  | refl =>
    cases fuel with
    | zero => cases enough
    | succ fuel => exact ⟨[], if_pos rfl, by simp⟩
  | @head src next step rest ih =>
    cases fuel with
    | zero => cases enough
    | succ fuel =>
      have further := topological.increasing step.related
      have before := step.lt topological rest
      have closer (a b d f : Nat) (further : a < b) (before : a < d) (enough : d - a < f + 1) :
          d - b < f := by omega
      rcases ih (closer src next dst fuel further before enough) with ⟨path, found, between⟩
      refine ⟨src :: path, ?_, ?_⟩
      · have single : aeg.po.po.succs src = [next] :=
          wellFormed.proper.succs_eq_singleton.mpr fun {c} => step c
        rw [blockPath, if_neg (Nat.ne_of_lt before),
          wellFormed.lookup_fwd (wellFormed.valid step.related).1, single]
        change (aeg.blockPath dst fuel next).map _ = _
        rw [found]
        rfl
      · intro ref member
        rcases List.mem_cons.mp member with rfl | later
        · exact ⟨.refl, .head step rest⟩
        · exact ⟨.head step (between ref later).1, (between ref later).2⟩

end

section

open BlockCfg

variable {aeg : Aeg} {V : Type}

theorem edgeConstraints_eval (view : V → Valuation) (src dst : NodeRef) (edge : BoolExpr V)
    (kind : Leakage.EdgeKind) (path : List NodeRef) (w : V) :
    (∀ constraint ∈ aeg.edgeConstraints view src dst edge kind path, constraint.1.eval w = true) ↔
      edge.eval w = true ∧
      ((aeg.trans src).eval (view w) = true → (aeg.trans dst).eval (view w) = true) ∧
      ((aeg.arch dst).eval (view w) = true → (aeg.arch src).eval (view w) = true) ∧
      ∀ ref ∈ path, (aeg.exec ref).eval (view w) = true := by
  have implied (p q : Bool) : (!p || q) = true ↔ (p = true → q = true) := by
    cases p <;> simp
  rw [edgeConstraints, List.cons_append, List.cons_append, List.cons_append, List.nil_append]
  simp only [List.forall_mem_cons, List.forall_mem_map, eval_implies, eval_comap, implied]

/-- The nodes whose execution is asserted lie on the chain from one end of the edge to the other. -/
theorem assertEdge_spec (view : V → Valuation) (ordered : aeg.Ordered) (wellFormed : aeg.po.WellFormed)
    {src dst : NodeRef} (src_lt : src < aeg.size) (dst_lt : dst < aeg.size) (edge : BoolExpr V)
    (kind : Leakage.EdgeKind) : ∃ path : List NodeRef,
      aeg.assertEdge view src dst edge kind =
        some (aeg.edgeConstraints view src dst edge kind path) ∧
      ∀ ref ∈ path, Relation.ReflTransGen (Only aeg.po) src ref ∧
        Relation.ReflTransGen (Only aeg.po) ref dst := by
  have topological := ordered.topological
  rcases sameBasicBlock_eq wellFormed topological src_lt dst_lt with ⟨same, found, chain⟩
  have walked : ∃ path, (if same then aeg.blockPath dst (aeg.size + 1) src else some []) = some path ∧
      ∀ ref ∈ path, Relation.ReflTransGen (Only aeg.po) src ref ∧
        Relation.ReflTransGen (Only aeg.po) ref dst := by
    cases same with
    | false => exact ⟨[], rfl, by simp⟩
    | true =>
      have enough : dst - src < aeg.size + 1 :=
        Nat.lt_succ_of_lt (Nat.lt_of_le_of_lt (Nat.sub_le dst src) dst_lt)
      exact blockPath_spec wellFormed topological (chain.mp rfl) enough
  rcases walked with ⟨path, walked, between⟩
  refine ⟨path, ?_, between⟩
  rw [assertEdge, found]
  cases same with
  | false =>
    cases walked
    rfl
  | true =>
    change Option.bind (aeg.blockPath dst (aeg.size + 1) src) _ = _
    rw [show aeg.blockPath dst (aeg.size + 1) src = some path from walked]
    rfl

/-- In an execution that contains both ends of an edge, what is asserted along with the edge holds. -/
theorem assertEdge_adds_nothing (aeg : Aeg) (ordered : aeg.Ordered) (wellFormed : aeg.po.WellFormed)
    (window : aeg.Window) (view : V → Valuation) (w : V)
    (satisfied : Satisfies (view w) (aeg.assertions window.refs)) {src dst : NodeRef} (less : src < dst)
    (first : aeg.Executed (view w) src) (last : aeg.Executed (view w) dst) (edge : BoolExpr V)
    (kind : Leakage.EdgeKind) :
    ((aeg.trans src).eval (view w) = true → (aeg.trans dst).eval (view w) = true) ∧
    ((aeg.arch dst).eval (view w) = true → (aeg.arch src).eval (view w) = true) ∧
    (aeg.po.sameBasicBlock src dst = some true → ∀ ref,
      Relation.ReflTransGen (Only aeg.po) src ref → Relation.ReflTransGen (Only aeg.po) ref dst →
        aeg.Executed (view w) ref) ∧
    ∃ constraints, aeg.assertEdge view src dst edge kind = some constraints ∧
      ((∀ constraint ∈ constraints, constraint.1.eval w = true) ↔ edge.eval w = true) := by
  have path := executed_path window satisfied ordered (Nat.le_of_lt less) first last
  have trans := path_trans window satisfied first last path
  have arch := path_arch window satisfied path
  have between (ref : NodeRef) (before : Relation.ReflTransGen (Only aeg.po) src ref)
      (after : Relation.ReflTransGen (Only aeg.po) ref dst) : aeg.Executed (view w) ref :=
    only_executed window ordered.topological path first last before after
  refine ⟨trans, arch, fun _ => between, ?_⟩
  rcases assertEdge_spec view ordered wellFormed first.1 last.1 edge kind with ⟨path, asserted, inside⟩
  refine ⟨_, asserted, (edgeConstraints_eval view src dst edge kind path w).trans ⟨And.left, ?_⟩⟩
  intro holds
  refine ⟨holds, trans, arch, fun ref member => ?_⟩
  exact (between ref (inside ref member).1 (inside ref member).2).2.2

end

/-- A branch that leaves the function or enters a block of two loads. -/
def branchToLoads : Aeg where
  po := Cfg.ofEdges
    [Cfg.Node.makeEntry, ⟨.inst ⟨0, 0, 0⟩, none, ∅⟩, ⟨.inst ⟨0, 1, 0⟩, none, ∅⟩,
      ⟨.inst ⟨0, 1, 1⟩, none, ∅⟩, Cfg.Node.makeExit]
    [(0, 1), (1, 2), (2, 3), (3, 4), (1, 4)] 0 [4]
  deref := fun I => ⟨if I.block = 0 then .br else .load, [], [], [], false, false, I.block == 1⟩
  leakageClass := .spectreV1
  specDepth := 2
  lsqSize := none

def branchToLoadsWindow : branchToLoads.Window where
  refs := List.range 5
  valid := by decide
  entry_mem := by decide
  exit := 4
  exits_eq := by decide
  exit_mem := by decide

theorem branchToLoads_ordered : branchToLoads.Ordered :=
  ordered_of_listed (Cfg.topological_ofEdges (by decide) (by decide)) (by decide) (by decide)

def loadsTransiently : Valuation where
  arch := fun ref => ref == 1 || ref == 4
  trans := fun ref => ref == 2 || ref == 3
  read := fun ref => ref == 2 || ref == 3
  write := fun _ => false
  tfo := fun src dst => src == 1 && dst == 2 || src == 2 && dst == 3

theorem branchToLoads_edge : branchToLoads.po.sameBasicBlock 2 3 = some true ∧
    ∃ constraints, branchToLoads.assertEdge id 2 3 (boolVal true) .data = some constraints ∧
      ∀ constraint ∈ constraints, constraint.1.eval loadsTransiently = true := by
  have holds := assertEdge_adds_nothing branchToLoads branchToLoads_ordered
    (Cfg.wellFormed_ofEdges (by decide)) branchToLoadsWindow id loadsTransiently (by decide)
    (show 2 < 3 by decide) (by decide) (by decide) (boolVal true) .data
  rcases holds with ⟨-, -, -, constraints, asserted, exact'⟩
  exact ⟨by decide +kernel, constraints, asserted, exact'.mpr rfl⟩

end Aeg

end Clou
