import Clou.DataflowMinimum

/-! The three granularities of a dataflow pass compute the same: the greatest solution of the
equations between the instructions of a function. -/

namespace Clou.Dataflow

open FiniteMap Descent

variable {V : Type} [SemilatticeInf V] [OrderTop V] {tr : InstRef → V → V} {M : Module}
  {f : FuncRef} {LI : LoopInfo}

def cfgPreds (M : Module) (f : FuncRef) (I : InstRef) : List InstRef :=
  if I.index = 0 then ((M.func f).preds I.block).map fun P => M.terminator ⟨f, P⟩
  else [⟨f, I.block, I.index - 1⟩]

/-- The value before an instruction is the meet of those after its predecessors, and of the
entry value at the first instruction. -/
def Equations (tr : InstRef → V → V) (M : Module) (f : FuncRef) (e : V) (φ : InstRef → V) : Prop :=
  ∀ I ∈ M.insts f, φ I = meetOver (fun J => tr J (φ J)) (cfgPreds M f I)
    (if I = ⟨f, 0, 0⟩ then e else ⊤)

structure GreatestSolution (tr : InstRef → V → V) (M : Module) (f : FuncRef) (e : V)
    (φ : InstRef → V) : Prop where
  solves : Equations tr M f e φ
  greatest : ∀ ψ, Equations tr M f e ψ → ∀ I ∈ M.insts f, ψ I ≤ φ I

/-! Flat components -/

structure Component.Flat (tr : InstRef → V → V) (c : Component V)
    (edge : InstRef → InstRef → Prop) : Prop where
  edge_mem : ∀ {I J}, edge I J → I ∈ c.insts ∧ J ∈ c.insts
  below : ∀ e {I J}, edge I J → c.val e J ≤ tr I (c.val e I)
  greatest : ∀ e (φ : InstRef → V), φ c.entry ≤ e → (∀ I J, edge I J → φ J ≤ tr I (φ I)) →
    ∀ I ∈ c.insts, φ I ≤ c.val e I
  ext : ∀ e, ∀ X ∈ c.exits, c.ext e X = tr X (c.val e X)

structure Graph.Flat (tr : InstRef → V → V) (M : Module) (f : FuncRef) (G : Graph V)
    (region : InstRef → InstRef → Prop) : Prop where
  component : ∀ c ∈ G.components, ∃ edge, c.Flat tr edge ∧ (∀ I J, edge I J → region I J) ∧
    ∀ I ∈ c.insts, ∀ J, region I J → edge I J ∨
      (I ∈ c.exits ∧ ∃ d ∈ G.components, d.entry = J ∧ I ∈ G.sources M f J)
  link : ∀ c ∈ G.components, ∀ X ∈ G.sources M f c.entry, region X c.entry

variable {I J : InstRef}

section

variable [Finite V] {G : Graph V} {region : InstRef → InstRef → Prop}
  (monotone : ∀ I, Monotone (tr I)) (exact : G.Exact tr M f) (flat : G.Flat tr M f region)

include exact flat

theorem Graph.Flat.below (e : V) {c d : Component V} (member : c ∈ G.components)
    (other : d ∈ G.components) (here : I ∈ c.insts) (there : J ∈ d.insts) (edge : region I J) :
    d.val (G.best M f e d.entry) J ≤ tr I (c.val (G.best M f e c.entry) I) := by
  rcases flat.component c member with ⟨inner, own, -, divides⟩
  rcases divides I here J edge with inside | ⟨exit, d', target, rfl, source⟩
  · obtain rfl := exact.disjoint member other (own.edge_mem inside).2 there
    exact own.below _ inside
  · obtain rfl := exact.disjoint target other (exact.component d' target).entry_mem there
    rw [← own.ext _ I exit]
    exact ((exact.component d' target).entry_le _).trans
      (exact.best_edge e target member exit source)

include monotone

theorem Graph.Flat.greatest (e : V) {φ : InstRef → V} (entry : φ G.entry ≤ e)
    (edges : ∀ I J, region I J → φ J ≤ tr I (φ I)) {c : Component V} (member : c ∈ G.components)
    (here : I ∈ c.insts) : φ I ≤ c.val (G.best M f e c.entry) I := by
  have inside {d : Component V} (other : d ∈ G.components) {J : InstRef} (there : J ∈ d.insts) :
      φ J ≤ d.val (φ d.entry) J := by
    rcases flat.component d other with ⟨inner, own, within, -⟩
    exact own.greatest _ φ le_rfl (fun I J edge => edges I J (within I J edge)) J there
  have solves : G.Solves M f e φ := by
    refine ⟨entry, ?_⟩
    intro c member d other X exit source
    rcases flat.component d other with ⟨inner, own, -, -⟩
    rw [own.ext _ X exit]
    exact (edges X c.entry (flat.link c member X source)).trans
      (monotone X (inside other ((exact.component d other).exits_mem exit)))
  exact (inside member here).trans
    ((exact.component c member).val_mono here (exact.le_best solves member))

end

theorem instruction_flat (I : InstRef) :
    (instruction (latticeContext tr) I).Flat tr (fun _ _ => False) := by
  refine ⟨False.elim, fun _ _ _ => False.elim, ?_, ?_⟩
  · intro e φ entry _ J here
    obtain rfl := List.mem_singleton.mp here
    rw [instruction_val]
    exact entry
  · intro e X exit
    obtain rfl := List.mem_singleton.mp exit
    rw [instruction_ext, instruction_val]

structure InnerEdge (M : Module) (f : FuncRef) (blocks : List Nat) (I J : InstRef) : Prop where
  next : M.Next I J
  member : I ∈ M.insts f
  source : I.block ∈ blocks
  target : J.block ∈ blocks

section

variable [DecidableEq V] {fuel : Nat} {minIterations : Loop → Nat} {blocks : List Nat}
  {Ls : List Loop} {header : Nat}

end

section

variable [DecidableEq V] [Finite V] {fuel : Nat} {L : Loop}

theorem Setting.flat (setting : Setting tr M f fuel (fun _ => 0) L)
    (enough : setting.components.length * Nat.card V + 3 ≤ fuel)
    (flat : setting.graph.Flat tr M f (InnerEdge M f L.blocks)) :
    setting.whole.Flat tr (InnerEdge M f L.blocks) := by
  have exact := setting.loopGraph_exact []
  have edge_mem {I J : InstRef} (edge : InnerEdge M f L.blocks I J) :
      I ∈ setting.whole.insts ∧ J ∈ setting.whole.insts := by
    have inside {K : InstRef} (member : K ∈ M.insts f) (here : K.block ∈ L.blocks) :
        K ∈ setting.whole.insts := by
      obtain ⟨func, -, bound⟩ := (Module.mem_insts ..).mp member
      exact mem_loop_insts.mpr ⟨here, mem_blockInsts.mpr ⟨func, rfl, bound⟩⟩
    exact ⟨inside edge.member edge.source,
      inside (edge.next.mem_insts setting.wellFormed edge.member) edge.target⟩
  constructor
  · exact edge_mem
  · intro e I J edge
    obtain ⟨c, member, here, before⟩ := setting.inside enough (edge_mem edge).1
    obtain ⟨d, other, there, after⟩ := setting.inside enough (edge_mem edge).2
    rw [before, after]
    exact flat.below exact e member other here there edge
  · intro e φ entry edges I inside
    obtain ⟨c, member, here, value⟩ := setting.inside enough inside
    rw [loop_entry] at entry
    rw [value]
    exact flat.greatest setting.monotone exact e entry edges member here
  · intro e X exit
    obtain ⟨c, member, leaves, value⟩ := setting.exit enough exit
    obtain ⟨inner, own, -, -⟩ := flat.component c member
    rw [value, setting.val_eq enough e member ((exact.component c member).exits_mem leaves)]
    exact own.ext _ X leaves

variable (wellFormed : (M.func f).WellFormed) (monotone : ∀ I, Monotone (tr I))
  (correct : LI.Correct (M.func f)) (closed : ∀ L, LoopInfo.Mem L LI → L.Closed (M.func f))
  (enough : Enough V M f LI fuel)

include wellFormed monotone correct closed enough

end

/-! The equations of a function -/

section

structure Allowed (tr : InstRef → V → V) (M : Module) (f : FuncRef) (e : V) (φ : InstRef → V) :
    Prop where
  entry : φ ⟨f, 0, 0⟩ ≤ e
  edge : ∀ I ∈ M.insts f, ∀ J, M.Next I J → φ J ≤ tr I (φ I)

structure Highest (tr : InstRef → V → V) (M : Module) (f : FuncRef) (e : V) (φ : InstRef → V) :
    Prop where
  allowed : Allowed tr M f e φ
  greatest : ∀ ψ, Allowed tr M f e ψ → ∀ I ∈ M.insts f, ψ I ≤ φ I

variable {e : V} {φ ψ : InstRef → V}

omit [OrderTop V] in
theorem Highest.unique (first : Highest tr M f e φ) (second : Highest tr M f e ψ)
    (member : I ∈ M.insts f) : φ I = ψ I :=
  le_antisymm (second.greatest φ first.allowed I member) (first.greatest ψ second.allowed I member)

variable (wellFormed : (M.func f).WellFormed)

include wellFormed

theorem mem_cfgPreds (target : J ∈ M.insts f) :
    I ∈ cfgPreds M f J ↔ I ∈ M.insts f ∧ M.Next I J := by
  rcases J with ⟨g, B, i⟩
  obtain ⟨rfl, valid, bound⟩ := (Module.mem_insts ..).mp target
  cases i with
  | zero =>
    simp only [cfgPreds, if_true, List.mem_map]
    constructor
    · rintro ⟨P, pred, rfl⟩
      obtain ⟨source, flow⟩ := wellFormed.mem_preds.mp pred
      have nonempty := wellFormed.nonempty source
      exact ⟨(Module.mem_insts ..).mpr ⟨rfl, source, Nat.sub_lt nonempty Nat.one_pos⟩,
        .jump (Nat.sub_add_cancel nonempty) flow⟩
    · rintro ⟨member, next⟩
      obtain ⟨func, source, -⟩ := (Module.mem_insts ..).mp member
      rcases next_cases next func with ⟨-, -, -, impossible⟩ | ⟨terminator, flow, -⟩
      · simp at impossible
      · exact ⟨I.block, wellFormed.mem_preds.mpr ⟨source, flow⟩, terminator.symm⟩
  | succ i =>
    simp only [cfgPreds, Nat.add_eq_zero_iff, Nat.one_ne_zero, and_false, if_false,
      List.mem_singleton, Nat.add_sub_cancel]
    constructor
    · rintro rfl
      exact ⟨(Module.mem_insts ..).mpr ⟨rfl, valid, Nat.lt_of_succ_lt bound⟩, .seq bound⟩
    · rintro ⟨-, next⟩
      cases next
      rfl

theorem Equations.allowed (equations : Equations tr M f e ψ) : Allowed tr M f e ψ := by
  constructor
  · rw [equations _ (Module.entry_mem_insts wellFormed), if_pos rfl]
    exact meetOver_le_start ..
  · intro I member J next
    have target := next.mem_insts wellFormed member
    rw [equations J target]
    exact meetOver_le ((mem_cfgPreds wellFormed target).mpr ⟨member, next⟩)

theorem Highest.solution (monotone : ∀ I, Monotone (tr I)) (highest : Highest tr M f e φ) :
    GreatestSolution tr M f e φ := by
  let step (I : InstRef) : V := meetOver (fun J => tr J (φ J)) (cfgPreds M f I)
    (if I = ⟨f, 0, 0⟩ then e else ⊤)
  have above {I : InstRef} (member : I ∈ M.insts f) : φ I ≤ step I := by
    refine le_meetOver.mpr ⟨?_, ?_⟩
    · split
      · rename_i first
        rw [first]
        exact highest.allowed.entry
      · exact le_top
    · intro J pred
      obtain ⟨source, next⟩ := (mem_cfgPreds wellFormed member).mp pred
      exact highest.allowed.edge J source I next
  -- One more step of the equations is allowed too, so it is not above.
  have allowed : Allowed tr M f e step := by
    constructor
    · exact (meetOver_le_start ..).trans (if_pos rfl).le
    · intro I member J next
      have target := next.mem_insts wellFormed member
      exact (meetOver_le ((mem_cfgPreds wellFormed target).mpr ⟨member, next⟩)).trans
        (monotone I (above member))
  exact ⟨fun I member => le_antisymm (above member) (highest.greatest step allowed I member),
    fun ψ equations => highest.greatest ψ (equations.allowed wellFormed)⟩

end

/-! The modes -/

section Modes

variable [Finite V] {e : V}

def Computes (tr : InstRef → V → V) (M : Module) (f : FuncRef) (φ : InstRef → V) (r : Values V) :
    Prop :=
  ∀ I ∈ M.insts f, r.ins.lookup I = some (φ I) ∧ r.outs.lookup I = some (tr I (φ I))

section

variable (wellFormed : (M.func f).WellFormed)

include wellFormed

theorem Graph.Flat.settles {G : Graph V} (monotone : ∀ I, Monotone (tr I)) (exact : G.Exact tr M f)
    (flat : G.Flat tr M f (InnerEdge M f (List.range (M.func f).blocks.length)))
    (entry : G.entry = ⟨f, 0, 0⟩) (full : ∀ I ∈ M.insts f, I ∈ G.insts) {r : Values V}
    (outcome : Outcome tr M f G e True r (G.best M f e)) :
    ∃ φ, Highest tr M f e φ ∧ Computes tr M f φ r := by
  have value {I : InstRef} (member : I ∈ M.insts f) : ∃ c ∈ G.components, I ∈ c.insts ∧
      valueAt r.ins I = c.val (G.best M f e c.entry) I := by
    rcases List.mem_flatMap.mp (full I member) with ⟨c, present, here⟩
    exact ⟨c, present, here, valueAt_of_lookup (outcome.inside trivial c present I here).1⟩
  have inner {I J : InstRef} (member : I ∈ M.insts f) (next : M.Next I J) :
      InnerEdge M f (List.range (M.func f).blocks.length) I J :=
    ⟨next, member, List.mem_range.mpr ((Module.mem_insts ..).mp member).2.1,
      List.mem_range.mpr ((Module.mem_insts ..).mp (next.mem_insts wellFormed member)).2.1⟩
  refine ⟨valueAt r.ins, ⟨⟨?_, ?_⟩, ?_⟩, ?_⟩
  · rcases exact.entry with ⟨c, present, first⟩
    have here := (exact.component c present).entry_mem
    rw [← entry, ← first, valueAt_of_lookup (outcome.inside trivial c present _ here).1]
    exact ((exact.component c present).entry_le _).trans (first ▸ exact.best_entry_le e)
  · intro I member J next
    rcases value member with ⟨c, present, here, same⟩
    rcases value (next.mem_insts wellFormed member) with ⟨d, other, there, same'⟩
    rw [same, same']
    exact flat.below exact e present other here there (inner member next)
  · intro ψ allowed I member
    rcases value member with ⟨c, present, here, same⟩
    rw [same]
    exact flat.greatest monotone exact e (entry ▸ allowed.entry)
      (fun I J edge => allowed.edge I edge.member J edge.next) present here
  · intro I member
    rcases value member with ⟨c, present, here, same⟩
    rw [same]
    exact outcome.inside trivial c present I here

omit wellFormed [Finite V] in
theorem mem_instructions_exits : I ∈ (instructions (latticeContext tr) M f).componentExits ↔ I ∈ M.insts f := by
  simp [Graph.componentExits, instruction]

omit [Finite V] in
theorem mem_instructions_sources (target : J ∈ M.insts f) :
    I ∈ (instructions (latticeContext tr) M f).sources M f J ↔ I ∈ M.insts f ∧ M.Next I J := by
  rw [← mem_cfgPreds wellFormed target, Graph.sources, cfgPreds]
  by_cases front : J.index = 0
  · rw [if_pos front, if_pos front, List.mem_filter]
    refine and_iff_left_of_imp fun pred => ?_
    have source : I ∈ M.insts f := by
      have pred' : I ∈ cfgPreds M f J := by rwa [cfgPreds, if_pos front]
      exact ((mem_cfgPreds wellFormed target).mp pred').1
    have entry : J ∈ (instructions (latticeContext tr) M f).components.map (·.entry) := by
      simpa [instruction] using target
    simp only [Graph.checkEdge, decide_eq_true_eq]
    exact ⟨entry, mem_instructions_exits.mpr source, List.not_mem_nil⟩
  · rw [if_neg front, if_neg front]

omit [Finite V] in
theorem instructions_exact (monotone : ∀ I, Monotone (tr I)) : (instructions (latticeContext tr) M f).Exact tr M f := by
  have component {c : Component V} (member : c ∈ (instructions (latticeContext tr) M f).components) :
      ∃ I ∈ M.insts f, instruction (latticeContext tr) I = c := List.mem_map.mp member
  constructor
  · intro c member
    rcases component member with ⟨I, present, rfl⟩
    exact instruction_exact monotone present
  · intro c d X member other here there
    rcases component member with ⟨I, -, rfl⟩
    rcases component other with ⟨J, -, rfl⟩
    rw [← List.mem_singleton.mp here, ← List.mem_singleton.mp there]
  · exact ⟨_, List.mem_map_of_mem (Module.entry_mem_insts wellFormed), rfl⟩
  · intro c member _ e
    rcases component member with ⟨I, -, rfl⟩
    exact instruction_val I e
  · rfl
  · intro c member inner
    rcases component member with ⟨I, present, rfl⟩
    obtain ⟨-, valid, bound⟩ := (Module.mem_insts ..).mp present
    exact mem_instructions_exits.mpr ((Module.mem_insts ..).mpr
      ⟨rfl, valid, (Nat.sub_le ..).trans_lt bound⟩)

omit [Finite V] in
theorem instructions_flat :
    (instructions (latticeContext tr) M f).Flat tr M f (InnerEdge M f (List.range (M.func f).blocks.length)) := by
  have component {I : InstRef} (member : I ∈ M.insts f) :
      instruction (latticeContext tr) I ∈ (instructions (latticeContext tr) M f).components := List.mem_map_of_mem member
  constructor
  · intro c member
    rcases List.mem_map.mp member with ⟨I, present, rfl⟩
    refine ⟨_, instruction_flat I, fun _ _ => False.elim, ?_⟩
    intro X here J edge
    have target := edge.next.mem_insts wellFormed edge.member
    exact .inr ⟨here, _, component target, rfl,
      (mem_instructions_sources wellFormed target).mpr ⟨edge.member, edge.next⟩⟩
  · intro c member X source
    rcases List.mem_map.mp member with ⟨J, present, rfl⟩
    obtain ⟨before, next⟩ := (mem_instructions_sources wellFormed present).mp source
    exact ⟨next, before, List.mem_range.mpr ((Module.mem_insts ..).mp before).2.1,
      List.mem_range.mpr ((Module.mem_insts ..).mp present).2.1⟩

end

variable [DecidableEq V] {fuel : Nat} (wellFormed : (M.func f).WellFormed)
  (monotone : ∀ I, Monotone (tr I))

include wellFormed monotone

theorem transferInst_computes (enough : Enough V M f LI fuel) (e : V) :
    ∃ r, transferInst (latticeContext tr) M f fuel e = some r ∧
      ∃ φ, Highest tr M f e φ ∧ Computes tr M f φ r := by
  have exact := instructions_exact wellFormed monotone
  have room : (instructions (latticeContext tr) M f).components.length * Nat.card V + 3 ≤ fuel := by
    rw [List.length_map]
    exact enough.insts
  obtain ⟨r, cache, moved, -, outcome⟩ := exact.transfer_empty e room
  refine ⟨r, Option.map_eq_some_iff.mpr ⟨_, moved, rfl⟩, ?_⟩
  refine (instructions_flat wellFormed).settles wellFormed monotone exact rfl ?_ outcome
  intro I member
  exact List.mem_flatMap.mpr ⟨_, List.mem_map_of_mem member, List.mem_singleton_self I⟩

end Modes

end Clou.Dataflow
