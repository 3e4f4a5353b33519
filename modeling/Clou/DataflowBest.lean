import Clou.DataflowExact

/-! The greatest solution of a graph as a function of the value it is entered with, and the
components made of single instructions and of blocks. -/

namespace Clou.Dataflow

open FiniteMap Descent

variable {V : Type} [SemilatticeInf V] [OrderTop V] {tr : InstRef → V → V} {M : Module}
  {f : FuncRef} {A : InstRef → V}

namespace Graph

structure IsBest (M : Module) (f : FuncRef) (G : Graph V) (e : V) (A : InstRef → V) : Prop where
  solves : G.Solves M f e A
  greatest : ∀ B, G.Solves M f e B → ∀ c ∈ G.components, B c.entry ≤ A c.entry

open Classical in
noncomputable def best (M : Module) (f : FuncRef) (G : Graph V) (e : V) : InstRef → V :=
  if exists_best : ∃ A, G.IsBest M f e A then exists_best.choose else fun _ => ⊤

variable {G : Graph V} [Finite V]

section

variable (exact : G.Exact tr M f)

include exact

theorem Exact.isBest (e : V) : G.IsBest M f e (G.best M f e) := by
  classical
  have blank : CacheExact G (∅ : Cache V) := fun c _ cached found => by simp at found
  rcases exact.transfer blank e (fun (_ : False) => by contradiction) le_rfl with
    ⟨r, cache, A, -, -, outcome⟩
  have found : ∃ A, G.IsBest M f e A := ⟨A, outcome.solves, outcome.greatest⟩
  rw [best, dif_pos found]
  exact found.choose_spec

theorem Exact.best_entry_le (e : V) : G.best M f e G.entry ≤ e :=
  (exact.isBest e).solves.entry

variable {c : Component V} {e : V}

theorem Exact.best_edge (e : V) {d : Component V} (member : c ∈ G.components)
    (other : d ∈ G.components) {X : InstRef} (exit : X ∈ d.exits)
    (source : X ∈ G.sources M f c.entry) : G.best M f e c.entry ≤ d.ext (G.best M f e d.entry) X :=
  (exact.isBest e).solves.edge c member d other X exit source

theorem Exact.le_best (solves : G.Solves M f e A) (member : c ∈ G.components) :
    A c.entry ≤ G.best M f e c.entry :=
  (exact.isBest e).greatest A solves c member

theorem Exact.eq_best (isBest : G.IsBest M f e A) (member : c ∈ G.components) :
    A c.entry = G.best M f e c.entry :=
  le_antisymm (exact.le_best isBest.solves member)
    (isBest.greatest _ (exact.isBest e).solves c member)

theorem Exact.best_mono {e' : V} (below : e ≤ e') (member : c ∈ G.components) :
    G.best M f e c.entry ≤ G.best M f e' c.entry :=
  have solves := (exact.isBest e).solves
  exact.le_best ⟨solves.entry.trans below, solves.edge⟩ member

/-- Entered with what it leaves before its entry, a graph has the same solution. -/
theorem Exact.best_again (e : V) (member : c ∈ G.components) :
    G.best M f (G.best M f e G.entry) c.entry = G.best M f e c.entry :=
  le_antisymm (exact.best_mono (exact.best_entry_le e) member)
    (exact.le_best ⟨le_rfl, (exact.isBest e).solves.edge⟩ member)

end

end Graph

variable {e : V} {r : Values V} {B : Nat} {G : Graph V}

theorem Outcome.eq_best [Finite V] (exact : G.Exact tr M f) {fresh : Prop}
    (outcome : Outcome tr M f G e fresh r A) : Outcome tr M f G e fresh r (G.best M f e) := by
  have same {c : Component V} (member : c ∈ G.components) : A c.entry = G.best M f e c.entry :=
    exact.eq_best ⟨outcome.solves, outcome.greatest⟩ member
  refine ⟨(exact.isBest e).solves, (exact.isBest e).greatest, ?_, outcome.outside, ?_,
    outcome.other_exits⟩
  · intro isFresh c member I here
    rw [← same member]
    exact outcome.inside isFresh c member I here
  · intro X wanted c member exit
    rw [← same member]
    exact outcome.exits X wanted c member exit

theorem Graph.Exact.transfer_empty [DecidableEq V] [Finite V] (exact : G.Exact tr M f) (e : V)
    {fuel : Nat} (enough : G.components.length * Nat.card V + 3 ≤ fuel) :
    ∃ r cache, G.transfer (latticeContext tr) M f fuel e ∅ = some (r, cache) ∧
      CacheExact G cache ∧ Outcome tr M f G e True r (G.best M f e) := by
  have empty : CacheExact G (∅ : Cache V) := fun c _ cached found => by simp at found
  obtain ⟨r, cache, A, moved, valid, outcome⟩ :=
    exact.transfer empty e (fun (_ : True) c _ => AList.lookup_empty c.entry) enough
  exact ⟨r, cache, moved, valid, outcome.eq_best exact⟩

/-! Meets of entry values -/

structure Component.Preserves (c : Component V) : Prop where
  val : ∀ e e', ∀ I ∈ c.insts, c.val (e ⊓ e') I = c.val e I ⊓ c.val e' I
  ext : ∀ e e', ∀ X ∈ c.exits, c.ext (e ⊓ e') X = c.ext e X ⊓ c.ext e' X

theorem Graph.Exact.best_inf [Finite V] (exact : G.Exact tr M f)
    (preserves : ∀ c ∈ G.components, c.Preserves) (e e' : V) {c : Component V}
    (member : c ∈ G.components) :
    G.best M f (e ⊓ e') c.entry = G.best M f e c.entry ⊓ G.best M f e' c.entry := by
  apply le_antisymm
  · exact le_inf (exact.best_mono inf_le_left member) (exact.best_mono inf_le_right member)
  · apply exact.le_best (A := fun I => G.best M f e I ⊓ G.best M f e' I) _ member
    refine ⟨inf_le_inf (exact.best_entry_le e) (exact.best_entry_le e'), ?_⟩
    intro c member d other X exit source
    rw [(preserves d other).ext _ _ X exit]
    exact inf_le_inf (exact.best_edge e member other exit source)
      (exact.best_edge e' member other exit source)

/-! Instructions -/

theorem instruction_val (I : InstRef) (e : V) :
    (instruction (latticeContext tr) I).val e I = e := by
  rw [Component.val_eq (r := ⟨AList.insert I e ∅, AList.insert I (tr I e) ∅,
    AList.insert I (tr I e) ∅⟩) rfl]
  exact valueAt_of_lookup (AList.lookup_insert _)

theorem instruction_ext (I : InstRef) (e : V) :
    (instruction (latticeContext tr) I).ext e I = tr I e := by
  rw [Component.ext_eq (r := ⟨AList.insert I e ∅, AList.insert I (tr I e) ∅,
    AList.insert I (tr I e) ∅⟩) rfl]
  exact valueAt_of_lookup (AList.lookup_insert _)

theorem instruction_exact (monotone : ∀ I, Monotone (tr I)) {I : InstRef} (member : I ∈ M.insts f) :
    (instruction (latticeContext tr) I).Exact tr M f := by
  have only {J : InstRef} : J ∈ [I] ↔ J = I := List.mem_singleton
  have written {value : V} {g : InstRef → V} (same : g I = value) (J : InstRef) :
      (AList.insert I value (∅ : Map V)).lookup J = if J ∈ [I] then some (g J) else none := by
    rw [lookup_insert]
    by_cases here : J = I
    · rw [if_pos here, if_pos (only.mpr here), here, same]
    · rw [if_neg here, if_neg (fun there => here (only.mp there)), AList.lookup_empty]
  constructor
  · exact only.mpr rfl
  · exact fun here => only.mp here ▸ member
  · exact fun here => here
  · intro e
    exact ⟨_, rfl, written (instruction_val I e), written (by rw [instruction_val]),
      written (instruction_ext I e)⟩
  · intro e e' J here below
    rw [only.mp here, instruction_val, instruction_val]
    exact below
  · intro e e' J here below
    rw [only.mp here, instruction_ext, instruction_ext]
    exact monotone I below
  · intro e
    exact (instruction_val I e).le
  · intro e
    have same : (instruction (latticeContext tr) I).val e I = e := instruction_val I e
    rw [show (instruction (latticeContext tr) I).entry = I from rfl, same]
    exact ⟨fun _ _ => rfl, fun _ _ => rfl⟩

/-! Blocks -/

theorem transferInsts_total (tr : InstRef → V → V) (insts : List InstRef) (value : V) (ins outs : Map V) :
    ∃ result, transferInsts (latticeContext tr) insts value ins outs = some result := by
  induction insts generalizing value ins outs with
  | nil => exact ⟨_, rfl⟩
  | cons I insts ih => exact ih (tr I value) _ _

theorem BlockResult.lookup (result : BlockResult (latticeContext tr) M f B e r) {i : Nat}
    (bound : i < ((M.func f).block B).length) :
    r.ins.lookup ⟨f, B, i⟩ = some (valueAt r.ins ⟨f, B, i⟩) := by
  induction i with
  | zero => rw [valueAt_of_lookup result.first, result.first]
  | succ i ih =>
    rcases result.chain (by omega) (ih (by omega)) with ⟨b, -, value⟩
    rw [if_pos bound] at value
    rw [valueAt_of_lookup value, value]

theorem BlockResult.exits (result : BlockResult (latticeContext tr) M f B e r)
    (nonempty : 0 < ((M.func f).block B).length) :
    r.exits = AList.insert (M.terminator ⟨f, B⟩)
      (tr (M.terminator ⟨f, B⟩) (valueAt r.ins (M.terminator ⟨f, B⟩))) ∅ := by
  have bound : ((M.func f).block B).length - 1 < ((M.func f).block B).length :=
    Nat.sub_lt nonempty Nat.one_pos
  rcases result.chain bound (result.lookup bound) with ⟨b, next, value⟩
  rw [if_neg (by omega)] at value
  rw [value]
  exact congrArg (AList.insert _ · ∅) (Option.some.inj next).symm

omit [SemilatticeInf V] [OrderTop V] in
/-- What holds before the first instruction of a block and is kept by each instruction,
holds before all of them. -/
theorem block_induct {motive : InstRef → Prop} (first : motive ⟨f, B, 0⟩)
    (next : ∀ i, i + 1 < ((M.func f).block B).length → motive ⟨f, B, i⟩ → motive ⟨f, B, i + 1⟩)
    {I : InstRef} (member : I ∈ blockInsts M f B) : motive I := by
  have all (i : Nat) (bound : i < ((M.func f).block B).length) : motive ⟨f, B, i⟩ := by
    induction i with
    | zero => exact first
    | succ i ih => exact next i bound (ih (Nat.lt_of_succ_lt bound))
  rcases I with ⟨g, C, i⟩
  obtain ⟨rfl, rfl, bound⟩ := mem_blockInsts.mp member
  exact all i bound

section

variable {B : Nat} (nonempty : 0 < ((M.func f).block B).length)

include nonempty

theorem block_transfer (tr : InstRef → V → V) (e : V) : ∃ r, (block (latticeContext tr) M f B).transfer e = some r ∧
    BlockResult (latticeContext tr) M f B e r := by
  rcases transferInsts_total tr (blockInsts M f B) e ∅ ∅ with ⟨result, moved⟩
  have transfer : (block (latticeContext tr) M f B).transfer e =
      some ⟨result.2.1, result.2.2, AList.insert (M.terminator ⟨f, B⟩) result.1 ∅⟩ := by
    simp only [block, moved, Option.map_some]
  exact ⟨_, transfer, block_result nonempty transfer⟩

theorem block_val_first (e : V) : (block (latticeContext tr) M f B).val e ⟨f, B, 0⟩ = e := by
  rcases block_transfer nonempty tr e with ⟨r, moved, result⟩
  rw [Component.val_eq moved, valueAt_of_lookup result.first]

theorem block_val_next (e : V) {i : Nat} (bound : i + 1 < ((M.func f).block B).length) :
    (block (latticeContext tr) M f B).val e ⟨f, B, i + 1⟩ =
      tr ⟨f, B, i⟩ ((block (latticeContext tr) M f B).val e ⟨f, B, i⟩) := by
  rcases block_transfer nonempty tr e with ⟨r, moved, result⟩
  rcases result.chain (by omega) (result.lookup (show i < _ by omega)) with
    ⟨b, next, value⟩
  rw [if_pos bound] at value
  rw [Component.val_eq moved, Component.val_eq moved, valueAt_of_lookup value]
  exact (Option.some.inj next).symm

theorem block_ext (e : V) :
    (block (latticeContext tr) M f B).ext e (M.terminator ⟨f, B⟩) =
      tr (M.terminator ⟨f, B⟩)
        ((block (latticeContext tr) M f B).val e (M.terminator ⟨f, B⟩)) := by
  rcases block_transfer nonempty tr e with ⟨r, moved, result⟩
  rw [Component.ext_eq moved, Component.val_eq moved, result.exits nonempty,
    valueAt_of_lookup (AList.lookup_insert _)]

theorem block_val_mono (monotone : ∀ I, Monotone (tr I)) {e e' : V} (below : e ≤ e') {I : InstRef}
    (member : I ∈ blockInsts M f B) :
    (block (latticeContext tr) M f B).val e I ≤ (block (latticeContext tr) M f B).val e' I := by
  apply block_induct _ _ member
  · rw [block_val_first nonempty, block_val_first nonempty]
    exact below
  · intro i bound before
    rw [block_val_next nonempty e bound, block_val_next nonempty e' bound]
    exact monotone _ before

theorem block_exact (monotone : ∀ I, Monotone (tr I)) (valid : B < (M.func f).blocks.length) :
    (block (latticeContext tr) M f B).Exact tr M f := by
  have last : M.terminator ⟨f, B⟩ ∈ blockInsts M f B :=
    mem_blockInsts.mpr ⟨rfl, rfl, Nat.sub_lt nonempty Nat.one_pos⟩
  have only {X : InstRef} : X ∈ (block (latticeContext tr) M f B).exits ↔
      X = M.terminator ⟨f, B⟩ := List.mem_singleton
  have entry (e : V) : (block (latticeContext tr) M f B).val e
      (block (latticeContext tr) M f B).entry = e := block_val_first nonempty e
  constructor
  · exact mem_blockInsts.mpr ⟨rfl, rfl, nonempty⟩
  · intro I member
    rcases mem_blockInsts.mp member with ⟨func, block, bound⟩
    exact (Module.mem_insts ..).mpr ⟨func, block ▸ valid, block ▸ bound⟩
  · intro X exit
    exact only.mp exit ▸ last
  · intro e
    rcases block_transfer nonempty tr e with ⟨r, moved, result⟩
    refine ⟨r, moved, ?_, ?_, ?_⟩
    · intro I
      by_cases here : I ∈ (block (latticeContext tr) M f B).insts
      · obtain ⟨rfl, rfl, bound⟩ := mem_blockInsts.mp here
        rw [if_pos here, Component.val_eq moved]
        exact result.lookup bound
      · rw [if_neg here, AList.lookup_eq_none]
        exact fun present => here (result.keys present)
    · intro I
      by_cases here : I ∈ (block (latticeContext tr) M f B).insts
      · obtain ⟨rfl, rfl, bound⟩ := mem_blockInsts.mp here
        rw [if_pos here, Component.val_eq moved]
        exact result.outs bound (result.lookup bound)
      · rw [if_neg here, AList.lookup_eq_none]
        exact fun present => here (result.out_keys present)
    · intro X
      rw [result.exits nonempty, lookup_insert]
      by_cases here : X = M.terminator ⟨f, B⟩
      · rw [if_pos here, if_pos (only.mpr here), here, block_ext nonempty,
          Component.val_eq moved]
      · rw [if_neg here, if_neg (fun exit => here (only.mp exit)), AList.lookup_empty]
  · intro e e' I member below
    exact block_val_mono nonempty monotone below member
  · intro e e' X exit below
    rw [only.mp exit, block_ext nonempty, block_ext nonempty]
    exact monotone _ (block_val_mono nonempty monotone below last)
  · intro e
    exact (entry e).le
  · intro e
    rw [entry e]
    exact ⟨fun _ _ => rfl, fun _ _ => rfl⟩

theorem block_preserves (preserves : ∀ I ∈ blockInsts M f B, ∀ v w, tr I (v ⊓ w) = tr I v ⊓ tr I w) :
    (block (latticeContext tr) M f B).Preserves := by
  have val (e e' : V) (I : InstRef) (member : I ∈ blockInsts M f B) :
      (block (latticeContext tr) M f B).val (e ⊓ e') I =
        (block (latticeContext tr) M f B).val e I ⊓ (block (latticeContext tr) M f B).val e' I := by
    apply block_induct _ _ member
    · rw [block_val_first nonempty, block_val_first nonempty, block_val_first nonempty]
    · intro i bound before
      rw [block_val_next nonempty _ bound, block_val_next nonempty _ bound,
        block_val_next nonempty _ bound, before]
      exact preserves _ (mem_blockInsts.mpr ⟨rfl, rfl, Nat.lt_of_succ_lt bound⟩) _ _
  refine ⟨val, ?_⟩
  intro e e' X exit
  have last : M.terminator ⟨f, B⟩ ∈ blockInsts M f B :=
    mem_blockInsts.mpr ⟨rfl, rfl, Nat.sub_lt nonempty Nat.one_pos⟩
  rw [List.mem_singleton.mp exit, block_ext nonempty, block_ext nonempty, block_ext nonempty,
    val e e' _ last, preserves _ last]

end

end Clou.Dataflow
