import Clou.Aeg
import Clou.Orbit
import Mathlib.Data.List.Perm.Subperm

/-! The executions that the constraints of one window admit. -/

namespace Clou.Aeg

open Z3

/-- The graphs that reach this stage: numbered topologically, with the only entry first. -/
structure Ordered (aeg : Aeg) : Prop where
  topological : aeg.po.Topological
  entry_iff : ∀ ref, aeg.po.variant ref = some .entry ↔ ref = aeg.entry

theorem ordered_of_listed {aeg : Aeg} (topological : aeg.po.Topological) (entry_lt : aeg.entry < aeg.size)
    (first : ∀ ref < aeg.size, aeg.po.variant ref = some .entry ↔ ref = aeg.entry) : aeg.Ordered where
  topological := topological
  entry_iff ref := by
    by_cases bound : ref < aeg.size
    · exact first ref bound
    · refine iff_of_false (fun entry => ?_) fun same => bound (same ▸ entry_lt)
      rw [Cfg.variant, List.getElem?_eq_none (Nat.le_of_not_lt bound)] at entry
      cases entry

def Executed (aeg : Aeg) (v : Valuation) (ref : NodeRef) : Prop :=
  ref < aeg.size ∧ aeg.isSpecial ref = false ∧ (aeg.exec ref).eval v = true

instance (aeg : Aeg) (v : Valuation) : DecidablePred (aeg.Executed v) :=
  fun _ => inferInstanceAs (Decidable (_ ∧ _ ∧ _))

structure ExecutionShape (aeg : Aeg) (v : Valuation) (archs transs : List NodeRef) : Prop where
  path : (archs ++ transs).IsChain aeg.po.po.Edge
  executed : ∀ ref, ref ∈ archs ++ transs ↔ aeg.Executed v ref
  started : archs ≠ []
  architectural : ∀ ref ∈ archs, (aeg.arch ref).eval v = true ∧ (aeg.trans ref).eval v = false
  transient : ∀ ref ∈ transs, (aeg.trans ref).eval v = true ∧ (aeg.arch ref).eval v = false
  introduced : transs ≠ [] → ∀ last ∈ archs.getLast?, aeg.mayIntroduceSpeculation last = true
  depth : transs.length ≤ aeg.specDepth

section Window

variable {aeg : Aeg} (window : aeg.Window) {v : Valuation}
  (satisfied : Satisfies v (aeg.assertions window.refs))

def Fetched (aeg : Aeg) (refs : List NodeRef) (v : Valuation) (src dst : NodeRef) : Prop :=
  src ∈ refs ∧ dst ∈ refs ∧ dst ∈ aeg.tfoDsts src ∧ v.tfo src dst = true

variable {ref dst src : NodeRef}

theorem isSpecial_eq_false_iff (ordered : aeg.Ordered) (valid : ref < aeg.size) :
    aeg.isSpecial ref = false ↔ ref ≠ aeg.entry ∧ ref ∉ aeg.exits := by
  have entry := ordered.entry_iff ref
  have exit : ref ∈ aeg.exits ↔ aeg.po.variant ref = some .exit := by
    simp [exits, nodeRange, isExit, valid]
  rw [Ne, ← entry, exit]
  unfold isSpecial
  split <;> simp_all

theorem fetched_edge {refs : List NodeRef} (fetched : Fetched aeg refs v src dst) :
    aeg.po.po.Edge src dst := by
  have target := fetched.2.2.1
  unfold tfoDsts at target
  split at target
  · cases target
  · exact target

include satisfied

theorem outside_not_executed (valid : ref < aeg.size) (outside : ref ∉ window.refs) :
    (aeg.exec ref).eval v = false := by
  have present : (not (aeg.exec ref), "window") ∈ aeg.assertions window.refs := by
    simp only [assertions, execNotWindow, List.mem_append, List.mem_map]
    have visited : ref ∈ aeg.po.reversePostorder := List.mem_range.mpr valid
    exact .inl (.inl (.inl (.inl ⟨ref, by simp [visited, outside], rfl⟩)))
  simpa using satisfied _ present

theorem executed_mem_window (executed : aeg.Executed v ref) : ref ∈ window.refs := by
  by_contra outside
  have none := outside_not_executed window satisfied executed.1 outside
  simp [executed.2.2] at none

theorem arch_exclusive (member : ref ∈ window.refs) (arch : (aeg.arch ref).eval v = true) :
    (aeg.trans ref).eval v = false := by
  have present : (not (and (aeg.arch ref) (aeg.trans ref)), "excl-exec:" ++ toString ref) ∈
      aeg.assertions window.refs := by
    simp only [assertions, constrainExec, List.mem_append, List.mem_map]
    exact .inl (.inl (.inr (.inl ⟨ref, member, rfl⟩)))
  simpa [arch] using satisfied _ present

theorem fetched_cond (fetched : Fetched aeg window.refs v src dst) :
    ((aeg.arch src).eval v = true ∧ (aeg.arch dst).eval v = true) ∨
    (aeg.mayIntroduceSpeculation src = true ∧ (aeg.arch src).eval v = true ∧
      (aeg.trans dst).eval v = true) ∨
    ((aeg.trans src).eval v = true ∧ (aeg.trans dst).eval v = true) := by
  obtain ⟨inside, -, edge, selected⟩ := fetched
  have present : (implies (tfo src dst) (aeg.tfoCond src dst), "tfo") ∈
      aeg.assertions window.refs := by
    simp only [assertions, constructTfo, List.mem_append, List.mem_map]
    refine .inr ⟨(src, dst), ?_, rfl⟩
    simpa [tfoEdges, nodeRange] using ⟨window.valid src inside, edge⟩
  have cond : (aeg.tfoCond src dst).eval v = true := by
    simpa [tfo, selected] using satisfied _ present
  by_cases intro : aeg.mayIntroduceSpeculation src = true
  · simpa [tfoCond, intro] using cond
  · simpa [tfoCond, intro] using cond

theorem trans_has_fetch (member : ref ∈ window.refs) (trans : (aeg.trans ref).eval v = true) :
    ∃ src, Fetched aeg window.refs v src ref := by
  have present : (implies (aeg.trans ref) (exactly (aeg.tfoIns window.refs ref) 1),
      "trans-tfo:" ++ toString ref) ∈ aeg.assertions window.refs := by
    simp only [assertions, constrainExec, constrainTrans, List.mem_append, List.mem_map]
    exact .inl (.inl (.inr (.inr (.inl (.inl ⟨ref, member, rfl⟩)))))
  have one : trueCount (aeg.tfoIns window.refs ref) v = 1 := by
    simpa [trans, eval_exactly] using satisfied _ present
  obtain ⟨src, source, selected⟩ := exists_true (tfo · ref) (Nat.le_of_eq one.symm)
  simp only [tfoSrcs, List.mem_filter, decide_eq_true_eq] at source
  exact ⟨src, source.2, member, source.1.2, selected⟩

theorem fetched_functional {other : NodeRef} (regular : src ∉ aeg.exits)
    (executed : (aeg.exec src).eval v = true) (left : Fetched aeg window.refs v src dst)
    (right : Fetched aeg window.refs v src other) : dst = other := by
  have present : (implies (aeg.exec src) (atmost2 (aeg.tfoOuts window.refs src) 1),
      "tfo-succ:" ++ toString src) ∈ aeg.assertions window.refs := by
    simp only [assertions, constrainTfo, List.mem_append, List.mem_flatMap]
    exact .inl (.inr (.inl ⟨src, left.1, .inl (by simp [tfoSucc, regular])⟩))
  have few : trueCount (aeg.tfoOuts window.refs src) v ≤ 1 := by
    simpa [executed, eval_atmost2] using satisfied _ present
  have target {ref : NodeRef} (fetched : Fetched aeg window.refs v src ref) :
      ref ∈ (aeg.tfoDsts src).filter (· ∈ window.refs) := by
    simpa using ⟨fetched.2.2.1, fetched.2.1⟩
  exact eq_of_trueCount_le_one (tfo src ·) few (target left) (target right) left.2.2.2 right.2.2.2

/-- One architectural node is fetched from nowhere, and only that one. -/
theorem cold_start : ∃ start ∈ aeg.coldRefs window.refs, (aeg.arch start).eval v = true ∧
    ∀ ref ∈ aeg.coldRefs window.refs, (aeg.arch ref).eval v = true → ref ≠ start →
      ∃ src, Fetched aeg window.refs v src ref := by
  have present : (exactly ((aeg.coldRefs window.refs).map (aeg.coldStart window.refs)) 1,
      "one-cold-start") ∈ aeg.assertions window.refs := by
    simp [assertions, constrainTfo]
  have one : trueCount ((aeg.coldRefs window.refs).map (aeg.coldStart window.refs)) v = 1 := by
    simpa [eval_exactly] using satisfied _ present
  obtain ⟨start, member, cold⟩ := exists_true _ (Nat.le_of_eq one.symm)
  have arch : (aeg.arch start).eval v = true := by
    simp only [coldStart, eval_and, Bool.and_eq_true] at cold
    exact cold.1
  refine ⟨start, member, arch, ?_⟩
  intro ref other archRef different
  by_contra none
  have coldRef : (aeg.coldStart window.refs ref).eval v = true := by
    simp only [coldStart, eval_and, archRef, Bool.true_and, eval_not, eval_mkOr, tfoIns,
      Bool.not_eq_true', List.any_eq_false, List.mem_map]
    rintro _ ⟨src, source, rfl⟩ selected
    simp only [tfoSrcs, List.mem_filter, decide_eq_true_eq] at source
    simp only [coldRefs, List.mem_filter, decide_eq_true_eq] at other
    exact none ⟨src, source.2, other.2.2.2, source.1.2, selected⟩
  exact different (eq_of_trueCount_le_one _ (Nat.le_of_eq one) other member coldRef cold)

theorem trans_count : trueCount (window.refs.map aeg.trans) v ≤ aeg.specDepth := by
  have present : (atmost2 (window.refs.map aeg.trans) aeg.specDepth, "trans-limit-max") ∈
      aeg.assertions window.refs := by
    simp [assertions, constrainExec, constrainTrans]
  simpa [eval_atmost2] using satisfied _ present

theorem fetched_executed (ordered : aeg.Ordered) (fetched : Fetched aeg window.refs v src dst) :
    aeg.Executed v src := by
  have valid := window.valid src fetched.1
  have regular : src ≠ aeg.entry ∧ src ∉ aeg.exits := by
    by_contra special
    have none : aeg.tfoDsts src = [] := if_pos (by tauto)
    simpa [none] using fetched.2.2.1
  refine ⟨valid, (isSpecial_eq_false_iff ordered valid).mpr regular, ?_⟩
  rcases fetched_cond window satisfied fetched with ⟨arch, -⟩ | ⟨-, arch, -⟩ | ⟨trans, -⟩
  · simp [exec, arch]
  · simp [exec, arch]
  · simp [exec, trans]

/-- The executed nodes are linked by the selected fetch order edges, from one start. -/
theorem executed_single (ordered : aeg.Ordered) : ∃ start, (aeg.arch start).eval v = true ∧
    Orbit.Single (Fetched aeg window.refs v) (aeg.Executed v) start := by
  obtain ⟨start, member, arch, warm⟩ := cold_start window satisfied
  simp only [coldRefs, List.mem_filter, Cfg.reversePostorder, List.mem_range,
    decide_eq_true_eq] at member warm
  refine ⟨start, arch, ?_, ?_, ?_, ?_⟩
  · intro src dst fetched
    exact ordered.topological.increasing (fetched_edge fetched)
  · intro src dst other executed left right
    have regular := ((isSpecial_eq_false_iff ordered executed.1).mp executed.2.1).2
    exact fetched_functional window satisfied regular executed.2.2 left right
  · have regular := (isSpecial_eq_false_iff ordered member.1).mpr ⟨member.2.1, member.2.2.1⟩
    exact ⟨member.1, regular, by simp [exec, arch]⟩
  · intro ref executed different
    have inside := executed_mem_window window satisfied executed
    have regular := (isSpecial_eq_false_iff ordered executed.1).mp executed.2.1
    have fetch : ∃ src, Fetched aeg window.refs v src ref := by
      have exec := executed.2.2
      simp only [Aeg.exec, eval_or, Bool.or_eq_true] at exec
      rcases exec with archRef | trans
      · exact warm ref ⟨executed.1, regular.1, regular.2, inside⟩ archRef different
      · exact trans_has_fetch window satisfied inside trans
    obtain ⟨src, fetched⟩ := fetch
    exact ⟨src, fetched_executed window satisfied ordered fetched, fetched⟩

/-- Along a selected edge execution never returns from transient to architectural. -/
theorem fetched_arch (fetched : Fetched aeg window.refs v src dst)
    (arch : (aeg.arch dst).eval v = true) : (aeg.arch src).eval v = true := by
  have exclusive := arch_exclusive window satisfied fetched.2.1 arch
  rcases fetched_cond window satisfied fetched with ⟨source, -⟩ | ⟨-, source, -⟩ | ⟨-, trans⟩
  · exact source
  · exact source
  · simp [exclusive] at trans

theorem fetched_introduces (fetched : Fetched aeg window.refs v src dst)
    (arch : (aeg.arch src).eval v = true) (stays : (aeg.arch dst).eval v = false) :
    aeg.mayIntroduceSpeculation src = true := by
  have exclusive := arch_exclusive window satisfied fetched.1 arch
  rcases fetched_cond window satisfied fetched with ⟨-, target⟩ | ⟨introduces, -⟩ | ⟨trans, -⟩
  · simp [stays] at target
  · exact introduces
  · simp [exclusive] at trans

end Window

/-- A list along whose links a property is never gained is split by it. -/
theorem filter_append_filter_not {A : Type} {R : A → A → Prop} {p : A → Bool}
    (closed : ∀ a b, R a b → p b = true → p a = true) {l : List A} (chain : l.IsChain R) :
    l.filter p ++ l.filter (fun a => !p a) = l := by
  induction l with
  | nil => rfl
  | cons head tail ih =>
    have rest := ih chain.tail
    by_cases holds : p head = true
    · simp [holds, rest]
    · -- The property fails at the head, hence everywhere after it.
      have never : tail.filter p = [] := by
        cases tail with
        | nil => rfl
        | cons next tail =>
          have step : R head next := (List.isChain_cons_cons.mp chain).1
          have fails : p next ≠ true := fun here => holds (closed _ _ step here)
          have empty : (next :: tail).filter p = [] := by
            by_contra nonempty
            obtain ⟨a, front, split⟩ := List.exists_cons_of_ne_nil nonempty
            have same : a = next := by
              rw [split] at rest
              exact (List.cons.inj rest).1
            have member : a ∈ (next :: tail).filter p := by simp [split]
            exact fails (same ▸ (List.mem_filter.mp member).2)
          exact empty
      rw [never] at rest
      simpa [holds, never] using rest

/-- Every valuation that satisfies the constraints of a window describes one bounded
speculative execution. -/
theorem execution_shape (aeg : Aeg) (ordered : aeg.Ordered) (window : aeg.Window) (v : Valuation)
    (satisfied : Satisfies v (aeg.assertions window.refs)) :
    ∃ archs transs, aeg.ExecutionShape v archs transs := by
  obtain ⟨start, arch, single⟩ := executed_single window satisfied ordered
  let nodes := aeg.nodeRange.filter (aeg.Executed v ·)
  let isArch : NodeRef → Bool := fun ref => (aeg.arch ref).eval v
  have member (ref : NodeRef) : ref ∈ nodes ↔ aeg.Executed v ref := by
    simp only [nodes, nodeRange, List.mem_filter, List.mem_range, decide_eq_true_eq]
    exact ⟨fun h => h.2, fun h => ⟨h.1, h⟩⟩
  have chain : nodes.IsChain (Fetched aeg window.refs v) := Orbit.isChain_filter single aeg.size
  have split : nodes.filter isArch ++ nodes.filter (fun ref => !isArch ref) = nodes :=
    filter_append_filter_not (fun _ _ fetched => fetched_arch window satisfied fetched) chain
  have links := chain
  rw [← split, List.isChain_append] at links
  have transient {ref : NodeRef} (here : ref ∈ nodes.filter (fun ref => !isArch ref)) :
      ref ∈ window.refs ∧ (aeg.trans ref).eval v = true ∧ (aeg.arch ref).eval v = false := by
    obtain ⟨present, stays⟩ := List.mem_filter.mp here
    have executed := (member ref).mp present
    have stays : (aeg.arch ref).eval v = false := by simpa [isArch] using stays
    refine ⟨executed_mem_window window satisfied executed, ?_, stays⟩
    simpa [exec, stays] using executed.2.2
  refine ⟨nodes.filter isArch, nodes.filter (fun ref => !isArch ref), ?_⟩
  constructor
  · rw [split]
    exact chain.imp fun _ _ fetched => fetched_edge fetched
  · intro ref
    rw [split]
    exact member ref
  · exact List.ne_nil_of_mem (List.mem_filter.mpr ⟨(member start).mpr single.start_mem, arch⟩)
  · intro ref here
    obtain ⟨present, archRef⟩ := List.mem_filter.mp here
    have inside := executed_mem_window window satisfied ((member ref).mp present)
    exact ⟨archRef, arch_exclusive window satisfied inside archRef⟩
  · exact fun ref here => (transient here).2
  · intro nonempty last isLast
    obtain ⟨first, rest, cons⟩ := List.exists_cons_of_ne_nil nonempty
    have fetched := links.2.2 last isLast first (by simp [cons])
    have archLast := (List.mem_filter.mp (List.mem_of_getLast? isLast)).2
    have here : first ∈ nodes.filter (fun ref => !isArch ref) := by simp [cons]
    have stays := (transient here).2.2
    exact fetched_introduces window satisfied fetched archLast stays
  · -- The transient nodes are distinct members of the window, of which few are transient.
    have distinct : (nodes.filter (fun ref => !isArch ref)).Nodup :=
      (List.nodup_range.filter _).filter _
    have inside : nodes.filter (fun ref => !isArch ref) ⊆
        window.refs.filter (fun ref => (aeg.trans ref).eval v) := by
      intro ref here
      obtain ⟨present, trans, -⟩ := transient here
      exact List.mem_filter.mpr ⟨present, trans⟩
    calc (nodes.filter (fun ref => !isArch ref)).length
        ≤ (window.refs.filter (fun ref => (aeg.trans ref).eval v)).length :=
          (List.subperm_of_subset distinct inside).length_le
      _ = trueCount (window.refs.map aeg.trans) v := by
          rw [trueCount, List.countP_map, List.countP_eq_length_filter]
          rfl
      _ ≤ aeg.specDepth := trans_count window satisfied

def branchToLoad : Aeg where
  po :=
    { nodes := [Cfg.Node.makeEntry, ⟨.inst ⟨0, 0, 0⟩, none, ∅⟩, ⟨.inst ⟨0, 1, 0⟩, none, ∅⟩,
        ⟨.inst ⟨0, 2, 0⟩, none, ∅⟩, Cfg.Node.makeExit]
      po := ((((Binrel.empty.insert 0 1).insert 1 2).insert 1 3).insert 2 4).insert 3 4
      entry := 0
      exits := [4]
      translations := ∅ }
  deref := fun I =>
    ⟨if I.block = 0 then .br else if I.block = 1 then .load else .other, [], [], [], false, false,
      I.block == 1⟩
  leakageClass := .spectreV1
  specDepth := 2
  lsqSize := none

def branchToLoadWindow : branchToLoad.Window where
  refs := [0, 1, 2, 3, 4]
  valid := by decide
  entry_mem := by decide
  exit := 4
  exits_eq := by decide
  exit_mem := by decide

theorem branchToLoad_ordered : branchToLoad.Ordered := by
  refine ordered_of_listed ?_ (by decide) (by decide)
  constructor <;> intro src dst edge <;>
    simp only [branchToLoad, Binrel.edge_insert, Binrel.not_edge_empty, false_or] at edge <;>
    rcases edge with ((((⟨rfl, rfl⟩ | ⟨rfl, rfl⟩) | ⟨rfl, rfl⟩) | ⟨rfl, rfl⟩) | ⟨rfl, rfl⟩) <;>
    decide

def loadTransiently : Valuation where
  arch := fun ref => ref == 1 || ref == 4
  trans := fun ref => ref == 2
  read := fun ref => ref == 2
  write := fun _ => false
  tfo := fun src dst => src == 1 && dst == 2

theorem branchToLoad_execution :
    ∃ archs transs, branchToLoad.ExecutionShape loadTransiently archs transs :=
  execution_shape branchToLoad branchToLoad_ordered branchToLoadWindow loadTransiently (by decide)

end Clou.Aeg
