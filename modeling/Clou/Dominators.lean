import Clou.BlockGroups
import Clou.Prune

/-! Dominators and postdominators: one pass over the blocks with set intersections, in which the set
of a block is released once all that follow it are done. -/

namespace Clou

inductive Direction where
  | IN
  | OUT
  deriving DecidableEq, Repr

namespace Dominators

open Cfg

abbrev DominatorMap := AList (fun _ : NodeRef => List NodeRef)

structure State where
  outs : List (Option (List NodeRef))
  done : List NodeRef
  doms : DominatorMap

section

variable (hash : HashOrder)

def predRel (dir : Direction) (po : Binrel NodeRef) : AList (fun _ : NodeRef => List NodeRef) :=
  match dir with
  | .IN => po.fwd
  | .OUT => po.rev

def succRel (dir : Direction) (po : Binrel NodeRef) : AList (fun _ : NodeRef => List NodeRef) :=
  match dir with
  | .IN => po.rev
  | .OUT => po.fwd

/-- The intersection with the set of one predecessor. The first set is taken as it is; there must be
a set. -/
def meetStep (succs : AList (fun _ : NodeRef => List NodeRef)) (done : List NodeRef)
    (s : Option (List NodeRef) × List (Option (List NodeRef))) (pred : NodeRef) :
    Option (Option (List NodeRef) × List (Option (List NodeRef))) := do
  let predSuccs ← succs.lookup pred
  let predDone := predSuccs.all (fun succ => decide (succ ∈ done))
  let predOut ← s.2[pred]?
  let set ← predOut
  let meet :=
    match s.1 with
    | none => set
    | some met => met.filter (fun ref => decide (ref ∈ set))
  some (some meet, if predDone then s.2.set pred none else s.2)

def insertDom (ref : NodeRef) (doms : DominatorMap) (dom : NodeRef) : DominatorMap :=
  doms.insert dom ((Binrel.get doms dom).insert ref)

def dominateStep (preds succs : AList (fun _ : NodeRef => List NodeRef)) (s : State) (ref : NodeRef) :
    Option State := do
  let done := s.done.insert ref
  let predSet ← preds.lookup ref
  let (met, outs) ← (hash.arrange ref predSet).foldlM (meetStep succs done) (none, s.outs)
  let out := (met.getD []).insert ref
  some ⟨outs.set ref (some out), done, out.foldl (insertDom ref) s.doms⟩

def blockOrder (dir : Direction) (cfg : Cfg) (bcfg : BlockCfg) : List NodeRef :=
  let order :=
    match dir with
    | .IN => cfg.reversePostorder.reverse
    | .OUT => cfg.reversePostorder
  order.filter (fun ref => decide (ref ∈ bcfg.blocks))

def constructDominatorsShared2 (dir : Direction) (cfg : Cfg) : Option DominatorMap := do
  let bcfg ← BlockCfg.construct cfg
  let s ← (blockOrder dir cfg bcfg).foldlM
    (dominateStep hash (predRel dir bcfg.po) (succRel dir bcfg.po))
    ⟨List.replicate cfg.size none, [], ∅⟩
  some s.doms

end

def Dominates (edge : NodeRef → NodeRef → Prop) (a b : NodeRef) : Prop := ¬ Evades edge (· = a) b

structure Dominated (rel : Binrel NodeRef) (size : Nat) (finished : List NodeRef) (s : State) : Prop where
  length : s.outs.length = size
  done : ∀ ref, ref ∈ s.done ↔ ref ∈ finished
  outs : ∀ {ref succ}, ref ∈ finished → rel.Edge ref succ → succ ∉ finished →
    ∃ set, s.outs[ref]? = some (some set) ∧ ∀ a, a ∈ set ↔ Dominates rel.Edge a ref
  doms : ∀ a b, b ∈ Binrel.get s.doms a ↔ b ∈ finished ∧ Dominates rel.Edge a b

def Met : Option (List NodeRef) → NodeRef → Prop
  | none, _ => True
  | some met, a => a ∈ met

section

variable {rel : Binrel NodeRef} (done : List NodeRef) (met : Option (List NodeRef))
  {outs : List (Option (List NodeRef))}

/-- A set is taken away only when all that follow it are done. -/
theorem meetStep_spec {pred : NodeRef} (present : pred ∈ rel.fwd) {set : List NodeRef}
    (found : outs[pred]? = some (some set)) :
    ∃ met' outs', meetStep rel.fwd done (met, outs) pred = some (some met', outs') ∧
      outs'.length = outs.length ∧ (∀ a, a ∈ met' ↔ Met met a ∧ a ∈ set) ∧
      (∀ i ≠ pred, outs'[i]? = outs[i]?) ∧
      ((∃ succ, rel.Edge pred succ ∧ succ ∉ done) → outs' = outs) := by
  refine ⟨_, _, by rw [meetStep, Binrel.lookup_of_mem present, found]; rfl, ?_, ?_, ?_, ?_⟩
  · split
    · exact List.length_set
    · rfl
  · intro a
    cases met with
    | none => simp [Met]
    | some met => simp [Met]
  · intro i other
    split
    · exact List.getElem?_set_ne (Ne.symm other)
    · rfl
  · rintro ⟨succ, edge, open'⟩
    refine if_neg fun all => open' ?_
    exact of_decide_eq_true (List.all_eq_true.mp all succ edge)

theorem meet_fold {good : NodeRef → NodeRef → Prop} {preds : List NodeRef} (nodup : preds.Nodup)
    (present : ∀ pred ∈ preds, pred ∈ rel.fwd)
    (known : ∀ pred ∈ preds, ∃ set, outs[pred]? = some (some set) ∧ ∀ a, a ∈ set ↔ good a pred) :
    ∃ met' outs', preds.foldlM (meetStep rel.fwd done) (met, outs) = some (met', outs') ∧
      outs'.length = outs.length ∧ (met' = none ↔ met = none ∧ preds = []) ∧
      (∀ a, Met met' a ↔ Met met a ∧ ∀ pred ∈ preds, good a pred) ∧
      ∀ i : Nat, (i ∈ preds → ∃ succ, rel.Edge i succ ∧ succ ∉ done) → outs'[i]? = outs[i]? := by
  induction preds generalizing met outs with
  | nil => exact ⟨met, outs, rfl, rfl, by simp, by simp, fun _ _ => rfl⟩
  | cons pred preds ih =>
    rcases known pred List.mem_cons_self with ⟨set, found, mem_set⟩
    rcases List.nodup_cons.mp nodup with ⟨different, nodup'⟩
    rcases meetStep_spec done met (present pred List.mem_cons_self) found with
      ⟨met₁, outs₁, stepped, length₁, mem₁, kept₁, open₁⟩
    have known₁ : ∀ other ∈ preds, ∃ set, outs₁[other]? = some (some set) ∧
        ∀ a, a ∈ set ↔ good a other := by
      intro other later
      rw [kept₁ other (ne_of_mem_of_not_mem later different)]
      exact known other (List.mem_cons_of_mem pred later)
    rcases ih (some met₁) nodup' (fun other later => present other (List.mem_cons_of_mem pred later)) known₁ with
      ⟨met', outs', folded, length', none', mem', kept'⟩
    refine ⟨met', outs', ?_, length'.trans length₁, ?_, fun a => ?_, fun i open' => ?_⟩
    · rw [List.foldlM_cons, stepped]
      exact folded
    · simp [none']
    · rw [mem', Met, mem₁, mem_set, List.forall_mem_cons, and_assoc]
    · rw [kept' i fun later => open' (List.mem_cons_of_mem pred later)]
      by_cases same : i = pred
      · rw [open₁ (same ▸ open' (same ▸ List.mem_cons_self))]
      · exact kept₁ i same

end

variable {a b : NodeRef}

theorem mem_insertDom {ref : NodeRef} {dominators : List NodeRef} {doms : DominatorMap} :
    b ∈ Binrel.get (dominators.foldl (insertDom ref) doms) a ↔
      b ∈ Binrel.get doms a ∨ b = ref ∧ a ∈ dominators := by
  induction dominators generalizing doms with
  | nil => simp
  | cons dom dominators ih =>
    rw [List.foldl_cons, ih, insertDom, Binrel.mem_get_insert, List.mem_cons]
    by_cases same : a = dom
    · simp only [same, if_true, List.mem_insert_iff]
      tauto
    · simp [same]

theorem Dominated.dominateStep (hash : HashOrder) {rel : Binrel NodeRef} (proper : rel.Proper)
    {size : Nat} {finished : List NodeRef} {s : State} (dominated : Dominated rel size finished s) {ref : NodeRef} (bound : ref < size)
    (present : ref ∈ rel.rev) (new : ref ∉ finished) (ready : ∀ pred, rel.Edge pred ref → pred ∈ finished) :
    ∃ s', dominateStep hash rel.rev rel.fwd s ref = some s' ∧
      Dominated rel size (finished ++ [ref]) s' := by
  have arranged := hash.perm ref (rel.preds ref)
  have mem_preds {pred : NodeRef} : pred ∈ hash.arrange ref (rel.preds ref) ↔ rel.Edge pred ref := by
    rw [arranged.mem_iff, proper.mem_preds]
  have fresh : s.done.insert ref = ref :: s.done :=
    List.insert_of_not_mem fun old => new ((dominated.done ref).mp old)
  have known : ∀ pred ∈ hash.arrange ref (rel.preds ref),
      ∃ set, s.outs[pred]? = some (some set) ∧ ∀ a, a ∈ set ↔ Dominates rel.Edge a pred :=
    fun pred member => dominated.outs (ready pred (mem_preds.mp member)) (mem_preds.mp member) new
  have keys : ∀ pred ∈ hash.arrange ref (rel.preds ref), pred ∈ rel.fwd := fun pred member =>
    Binrel.mem_of_mem_get (mem_preds.mp member)
  rcases meet_fold (ref :: s.done) none
    (arranged.nodup_iff.mpr (proper.preds_nodup ref)) keys known with
    ⟨met, outs, folded, length, none', mem, kept⟩
  have mem_out (a : NodeRef) : a ∈ (met.getD []).insert ref ↔ Dominates rel.Edge a ref := by
    rw [List.mem_insert_iff, Dominates, not_evades_iff]
    refine or_congr_right ?_
    cases met with
    | none =>
      have first : Root rel.Edge ref := by
        intro pred edge
        have listed := mem_preds.mpr edge
        rw [(none'.mp rfl).2] at listed
        cases listed
      simp [first]
    | some met =>
      have inner : ¬ Root rel.Edge ref := by
        intro first
        refine absurd (none'.mpr ⟨rfl, List.eq_nil_iff_forall_not_mem.mpr fun pred listed => ?_⟩)
          (Option.some_ne_none met)
        exact first pred (mem_preds.mp listed)
      have members := mem a
      simp only [Met, true_and, mem_preds] at members
      rw [Option.getD_some, members]
      exact (and_iff_right inner).symm
  refine ⟨⟨outs.set ref (some ((met.getD []).insert ref)), ref :: s.done,
    ((met.getD []).insert ref).foldl (insertDom ref) s.doms⟩, ?_, ?_, ?_, ?_, ?_⟩
  · rw [Dominators.dominateStep, Binrel.lookup_of_mem present, fresh]
    change Option.bind (List.foldlM _ _ (hash.arrange ref (rel.preds ref))) _ = _
    rw [folded]
    rfl
  · rw [List.length_set, length, dominated.length]
  · intro other
    rw [List.mem_cons, dominated.done, List.mem_append, List.mem_singleton, or_comm]
  · intro other succ member edge later
    rw [List.mem_append, List.mem_singleton, not_or] at later
    by_cases same : other = ref
    · subst same
      refine ⟨_, List.getElem?_set_self ?_, mem_out⟩
      rw [length, dominated.length]
      exact bound
    · have old : other ∈ finished := (List.mem_append.mp member).resolve_right
        fun last => same (List.mem_singleton.mp last)
      rw [List.getElem?_set_ne (Ne.symm same), kept other fun _ => ⟨succ, edge, ?_⟩]
      · exact dominated.outs old edge later.1
      · rw [List.mem_cons, dominated.done, not_or]
        exact ⟨later.2, later.1⟩
  · intro a b
    rw [mem_insertDom, dominated.doms, mem_out, List.mem_append, List.mem_singleton, or_and_right]
    refine or_congr_right (and_congr_right fun same => ?_)
    rw [same]

section

open BlockCfg

variable {cfg : Cfg} {bcfg : BlockCfg}

def flow (dir : Direction) (po : Binrel NodeRef) : Binrel NodeRef :=
  match dir with
  | .IN => po.converse
  | .OUT => po

theorem edge_flow (proper : bcfg.po.Proper) (dir : Direction) :
    (flow dir bcfg.po).Edge = match dir with
      | .IN => Function.swap bcfg.po.Edge
      | .OUT => bcfg.po.Edge := by
  cases dir with
  | IN => exact funext fun a => funext fun b => propext proper.edge_converse
  | OUT => rfl

theorem flow_acyclic (rooted : cfg.Rooted) (cut : Cut cfg bcfg) (dir : Direction) :
    Acyclic (flow dir bcfg.po).Edge := by
  rw [edge_flow cut.proper]
  cases dir with
  | IN => exact (cut.acyclic rooted).swap
  | OUT => exact cut.acyclic rooted

theorem mem_blockOrder (cut : Cut cfg bcfg) {dir : Direction} {n : NodeRef} :
    n ∈ blockOrder dir cfg bcfg ↔ n ∈ bcfg.blocks := by
  have valid (listed : n ∈ bcfg.blocks) : n < cfg.size := (cut.pieces.of_mem listed).1
  cases dir with
  | IN => simpa [blockOrder, reversePostorder] using valid
  | OUT => simpa [blockOrder, reversePostorder] using valid

theorem blockOrder_nodup (dir : Direction) : (blockOrder dir cfg bcfg).Nodup := by
  cases dir with
  | IN => exact (List.nodup_reverse.mpr List.nodup_range).filter _
  | OUT => exact List.nodup_range.filter _

theorem link_lt (topological : cfg.Topological) (cut : Cut cfg bcfg) (link : bcfg.po.Edge a b) :
    a < b := by
  rcases cut.edge.mp link with ⟨A, B, listed, listed', -⟩
  have path := cut.lift_edge (cut.self listed) (cut.self listed') link
  clear link listed listed'
  induction path with
  | single edge => exact topological.increasing edge
  | tail _ edge ih => exact Nat.lt_trans ih (topological.increasing edge)

theorem blockOrder_sorted (topological : cfg.Topological) (cut : Cut cfg bcfg) (dir : Direction) :
    (blockOrder dir cfg bcfg).Pairwise fun a b => ¬ (flow dir bcfg.po).Edge b a := by
  rw [edge_flow cut.proper]
  apply List.Pairwise.filter
  cases dir with
  | IN =>
    refine List.pairwise_reverse.mpr (List.pairwise_lt_range.imp fun less link => ?_)
    exact Nat.lt_asymm less (link_lt topological cut link)
  | OUT =>
    refine List.pairwise_lt_range.imp fun less link => ?_
    exact Nat.lt_asymm less (link_lt topological cut link)

theorem linked {dir : Direction} (cut : Cut cfg bcfg) (link : (flow dir bcfg.po).Edge a b) :
    a ∈ bcfg.blocks ∧ b ∈ bcfg.blocks := by
  rw [edge_flow cut.proper] at link
  cases dir with
  | IN =>
    rcases cut.edge.mp link with ⟨B, A, listed, listed', -⟩
    exact ⟨FiniteMap.mem_of_lookup listed', FiniteMap.mem_of_lookup listed⟩
  | OUT =>
    rcases cut.edge.mp link with ⟨A, B, listed, listed', -⟩
    exact ⟨FiniteMap.mem_of_lookup listed, FiniteMap.mem_of_lookup listed'⟩

theorem constructDominatorsShared2_spec (hash : HashOrder) (dir : Direction) (rooted : cfg.Rooted)
    (topological : cfg.Topological) :
    ∃ bcfg doms, BlockCfg.construct cfg = some bcfg ∧ Cut cfg bcfg ∧
      constructDominatorsShared2 hash dir cfg = some doms ∧
      ∀ a b, b ∈ Binrel.get doms a ↔
        b ∈ bcfg.blocks ∧ Dominates (flow dir bcfg.po).Edge a b := by
  rcases BlockCfg.construct_spec rooted with ⟨bcfg, built, cut⟩
  have proper : (flow dir bcfg.po).Proper := by
    cases dir with
    | IN => exact cut.proper.converse
    | OUT => exact cut.proper
  have start : Dominated (flow dir bcfg.po) cfg.size [] ⟨List.replicate cfg.size none, [], ∅⟩ :=
    ⟨List.length_replicate, by simp, by simp, by simp [Binrel.get]⟩
  have closed {a b : NodeRef} (link : (flow dir bcfg.po).Edge a b)
      (_ : b ∈ blockOrder dir cfg bcfg) : a ∈ [] ++ blockOrder dir cfg bcfg :=
    (mem_blockOrder cut).mpr (linked cut link).1
  have step {finished : List NodeRef} {ref : NodeRef} {s : State}
      (member : ref ∈ blockOrder dir cfg bcfg) (dominated : Dominated (flow dir bcfg.po) cfg.size finished s)
      (new : ref ∉ finished) (ready : ∀ pred, (flow dir bcfg.po).Edge pred ref → pred ∈ finished) :
      ∃ s', dominateStep hash (predRel dir bcfg.po) (succRel dir bcfg.po) s ref = some s' ∧
        Dominated (flow dir bcfg.po) cfg.size (finished ++ [ref]) s' := by
    have listed := (mem_blockOrder cut).mp member
    have keys := cut.keys listed
    have bound := (cut.pieces.of_mem listed).1
    cases dir with
    | IN => exact dominated.dominateStep hash proper bound keys.1 new ready
    | OUT => exact dominated.dominateStep hash proper bound keys.2 new ready
  have nodup : ([] ++ blockOrder dir cfg bcfg).Nodup := by
    rw [List.nil_append]
    exact blockOrder_nodup dir
  rcases foldlM_sorted (flow_acyclic rooted cut dir) nodup (blockOrder_sorted topological cut dir) closed step
    start with ⟨s, folded, dominated⟩
  refine ⟨bcfg, s.doms, built, cut, ?_, fun a b => ?_⟩
  · rw [constructDominatorsShared2, built]
    change Option.bind (List.foldlM _ _ (blockOrder dir cfg bcfg)) _ = _
    rw [folded]
    rfl
  · rw [dominated.doms, List.nil_append, mem_blockOrder cut]

end

/-! Dominance between blocks and paths of nodes -/

section Paths

open BlockCfg

variable {cfg : Cfg} {bcfg : BlockCfg}

theorem dominates_block (rooted : cfg.Rooted) (cut : Cut cfg bcfg) (dir : Direction)
    (listed : b ∈ bcfg.blocks) (dominates : Dominates (flow dir bcfg.po).Edge a b) :
    a ∈ bcfg.blocks := by
  by_contra absent
  have within {x y : NodeRef} (link : Function.swap (flow dir bcfg.po).Edge x y) :
      y ∈ bcfg.blocks.keys.toFinset := by
    rw [List.mem_toFinset, ← AList.mem_keys]
    exact (linked cut link).1
  have evades (b : NodeRef) : b ∈ bcfg.blocks → Evades (flow dir bcfg.po).Edge (· = a) b := by
    induction b using (flow_acyclic rooted cut dir).swap.induction within with
    | step b ih =>
      intro listed
      have other : ¬ b = a := fun same => absent (same ▸ listed)
      by_cases first : Root (flow dir bcfg.po).Edge b
      · exact .root first other
      · rcases not_forall_not.mp first with ⟨p, link⟩
        exact (ih p link (linked cut link).1).step link other
  exact dominates (evades b listed)

theorem chain_valid (rooted : cfg.Rooted) {n : NodeRef} {path : List NodeRef} (bound : n < cfg.size)
    (chain : (n :: path).IsChain cfg.po.Edge) : ∀ m ∈ n :: path, m < cfg.size := by
  induction path generalizing n with
  | nil =>
    intro m member
    exact List.mem_singleton.mp member ▸ bound
  | cons next path ih =>
    rcases List.isChain_cons_cons.mp chain with ⟨edge, rest⟩
    intro m member
    rcases List.mem_cons.mp member with rfl | later
    · exact bound
    · exact ih (rooted.valid edge).2 rest m later

/-- A path that begins with the head of a block goes through the heads of all its blocks. -/
theorem heads_on_path (rooted : cfg.Rooted) (cut : Cut cfg bcfg) {n : NodeRef} {path all : List NodeRef}
    (chain : (n :: path).IsChain cfg.po.Edge) (start : blockOf bcfg n ∈ all) (within : ∀ m ∈ path, m ∈ all) :
    ∀ m ∈ n :: path, blockOf bcfg m ∈ all := by
  induction path generalizing n with
  | nil =>
    intro m member
    exact List.mem_singleton.mp member ▸ start
  | cons next path ih =>
    rcases List.isChain_cons_cons.mp chain with ⟨edge, rest⟩
    have start' : blockOf bcfg next ∈ all := by
      rcases cut.project_group rooted edge with same | ⟨-, head⟩
      · exact same ▸ start
      · rw [head]
        exact within next List.mem_cons_self
    intro m member
    rcases List.mem_cons.mp member with rfl | later
    · exact start
    · exact ih rest start' (fun m later => within m (List.mem_cons_of_mem next later)) m later

theorem blockOf_block (cut : Cut cfg bcfg) {a : NodeRef} (listed : a ∈ bcfg.blocks) :
    blockOf bcfg a = a ∧ a < cfg.size := by
  rcases cut.pieces.of_mem listed with ⟨bound, A, found⟩
  exact ⟨cut.blockOf_eq found List.mem_cons_self, bound⟩

/-- Dominance between blocks is dominance of the head by the head. -/
theorem dominates_out_iff (rooted : cfg.Rooted) (cut : Cut cfg bcfg) (listed : b ∈ bcfg.blocks) :
    Dominates bcfg.po.Edge a b ↔ a ∈ bcfg.blocks ∧
      ∀ path : List NodeRef, path.IsChain cfg.po.Edge → path.head? = some cfg.entry →
        path.getLast? = some b → a ∈ path := by
  rcases blockOf_block cut listed with ⟨self, bound⟩
  have nodes := (grouped_out rooted cut).evades_iff (S := (· = a)) (x := b)
  rw [self] at nodes
  constructor
  · intro dominates
    refine ⟨dominates_block rooted cut .OUT listed dominates, fun path chain head last => ?_⟩
    by_contra missing
    apply dominates
    refine nodes.mp (evades_iff_path.mpr ⟨path, chain, ⟨cfg.entry, head, rooted.entry_first⟩, last, ?_⟩)
    cases path with
    | nil => cases head
    | cons n path =>
      cases head
      intro m member same
      have entry_block : blockOf bcfg cfg.entry = cfg.entry := by
        rcases cut.entry_block rooted with ⟨rest, found⟩
        exact cut.blockOf_eq found List.mem_cons_self
      have start : blockOf bcfg cfg.entry ∈ cfg.entry :: path := by
        rw [entry_block]
        exact List.mem_cons_self
      have heads := heads_on_path rooted cut chain start (fun m later => List.mem_cons_of_mem _ later) m member
      exact missing (same ▸ heads)
  · rintro ⟨listed', through⟩ evades
    rcases evades_iff_path.mp (nodes.mpr evades) with ⟨path, chain, ⟨r, head, first⟩, last, outside⟩
    have start : r = cfg.entry := by
      cases path with
      | nil => cases head
      | cons n path =>
        cases head
        have valid : r < cfg.size := by
          cases path with
          | nil =>
            cases last
            exact bound
          | cons m path => exact (rooted.valid (List.isChain_cons_cons.mp chain).1).1
        rcases (rooted.reachable r valid).cases_tail with same | ⟨m, -, edge⟩
        · exact same
        · exact absurd edge (first m)
    exact outside a (through path chain (start ▸ head) last) (blockOf_block cut listed').1

/-- Backwards, a block dominates if it is on all maximal paths. -/
theorem dominates_in_iff (rooted : cfg.Rooted) (cut : Cut cfg bcfg) (listed : b ∈ bcfg.blocks) :
    Dominates (Function.swap bcfg.po.Edge) a b ↔ a ∈ bcfg.blocks ∧
      ∀ path : List NodeRef, path.IsChain cfg.po.Edge → path.head? = some b →
        (∀ last, path.getLast? = some last → ∀ n, ¬ cfg.po.Edge last n) →
        ∃ block, bcfg.blocks.lookup a = some block ∧ ∃ n ∈ path, n ∈ block := by
  rcases blockOf_block cut listed with ⟨self, bound⟩
  have nodes := (grouped_in rooted cut).evades_iff (S := (· = a)) (x := b)
  rw [self] at nodes
  constructor
  · intro dominates
    have listed' : a ∈ bcfg.blocks := by
      apply dominates_block rooted cut .IN listed
      rwa [edge_flow cut.proper]
    refine ⟨listed', fun path chain head last => ?_⟩
    rcases (cut.pieces.of_mem listed').2 with ⟨A, found⟩
    refine ⟨a :: A, found, ?_⟩
    by_contra missing
    apply dominates
    cases path with
    | nil => cases head
    | cons n path =>
      cases head
      refine nodes.mp (evades_iff_path.mpr ⟨(b :: path).reverse, List.isChain_reverse.mpr chain,
        ⟨path.getLastD b, ?_, ?_⟩, ?_, fun m member same => missing ?_⟩)
      · rw [List.head?_reverse, getLast?_cons_eq]
      · exact last _ (getLast?_cons_eq b path)
      · rw [List.getLast?_reverse, List.head?_cons]
      · have member' := List.mem_reverse.mp member
        rcases cut.block (chain_valid rooted bound chain m member') with ⟨A', found', inside, -⟩
        rw [same, found] at found'
        cases found'
        exact ⟨m, member', same ▸ inside⟩
  · rintro ⟨listed', through⟩ evades
    rcases evades_iff_path.mp (nodes.mpr evades) with ⟨path, chain, ⟨r, head, first⟩, last, outside⟩
    have chain' : path.reverse.IsChain cfg.po.Edge := List.isChain_reverse.mpr chain
    have ending : ∀ last, path.reverse.getLast? = some last → ∀ n, ¬ cfg.po.Edge last n := by
      intro last' here n
      rw [List.getLast?_reverse, head] at here
      cases here
      exact first n
    rcases through path.reverse chain' (by rw [List.head?_reverse, last]) ending with
      ⟨block, found, n, member, inside⟩
    rcases cut.pieces.block found with ⟨A, rfl, -⟩
    exact outside n (List.mem_reverse.mp member) (cut.blockOf_eq found inside)

/-- Dominators and postdominators are exact between block heads, for every order in which sets are
iterated over, and no set that is needed has been released. -/
theorem dominators_exact (hash : HashOrder) (rooted : cfg.Rooted) (topological : cfg.Topological) :
    ∃ bcfg doms postdoms, construct cfg = some bcfg ∧
      constructDominatorsShared2 hash .OUT cfg = some doms ∧
      constructDominatorsShared2 hash .IN cfg = some postdoms ∧
      (∀ a b, b ∈ Binrel.get doms a ↔ a ∈ bcfg.blocks ∧ b ∈ bcfg.blocks ∧
        ∀ path : List NodeRef, path.IsChain cfg.po.Edge → path.head? = some cfg.entry →
          path.getLast? = some b → a ∈ path) ∧
      (∀ a b, b ∈ Binrel.get postdoms a ↔ a ∈ bcfg.blocks ∧ b ∈ bcfg.blocks ∧
        ∀ path : List NodeRef, path.IsChain cfg.po.Edge → path.head? = some b →
          (∀ last, path.getLast? = some last → ∀ n, ¬ cfg.po.Edge last n) →
          ∃ block, bcfg.blocks.lookup a = some block ∧ ∃ n ∈ path, n ∈ block) := by
  rcases constructDominatorsShared2_spec hash .OUT rooted topological with ⟨bcfg, doms, built, cut, passed, mem⟩
  rcases constructDominatorsShared2_spec hash .IN rooted topological with
    ⟨_, postdoms, built', -, passed', mem'⟩
  cases built.symm.trans built'
  refine ⟨bcfg, doms, postdoms, built, passed, passed', fun a b => ?_, fun a b => ?_⟩
  · rw [mem, and_left_comm]
    exact and_congr_right fun listed => dominates_out_iff rooted cut listed
  · rw [mem', edge_flow cut.proper, and_left_comm]
    exact and_congr_right fun listed => dominates_in_iff rooted cut listed

theorem diamond_dominators : ∃ bcfg doms postdoms, construct diamond = some bcfg ∧
    constructDominatorsShared2 .listed .OUT diamond = some doms ∧
    constructDominatorsShared2 .listed .IN diamond = some postdoms ∧
    (∀ a b, b ∈ Binrel.get doms a ↔ a ∈ bcfg.blocks ∧ b ∈ bcfg.blocks ∧
      ∀ path : List NodeRef, path.IsChain diamond.po.Edge → path.head? = some diamond.entry →
        path.getLast? = some b → a ∈ path) ∧
    (∀ a b, b ∈ Binrel.get postdoms a ↔ a ∈ bcfg.blocks ∧ b ∈ bcfg.blocks ∧
      ∀ path : List NodeRef, path.IsChain diamond.po.Edge → path.head? = some b →
        (∀ last, path.getLast? = some last → ∀ n, ¬ diamond.po.Edge last n) →
        ∃ block, bcfg.blocks.lookup a = some block ∧ ∃ n ∈ path, n ∈ block) :=
  dominators_exact .listed diamond_rooted diamond_topological

def pair : Cfg := ofEdges [Node.makeEntry, Node.makeExit] [(0, 1)] 0 [1]

/-- Every path from the second node of a block is in the block, but only the head is listed. -/
theorem pair_postdominators : pair.Rooted ∧ pair.Topological ∧
    (constructDominatorsShared2 .listed .IN pair).map (fun doms => Binrel.get doms 0) = some [0] ∧
    (construct pair).map (fun bcfg => bcfg.blocks.lookup 0) = some (some [0, 1]) ∧
    ∀ path : List NodeRef, path.IsChain pair.po.Edge → path.head? = some 1 → ∃ n ∈ path, n ∈ [0, 1] := by
  refine ⟨rooted_ofEdges (by decide) (by decide) (by decide) (by decide),
    topological_ofEdges (by decide) (by decide), by decide, by decide, ?_⟩
  intro path _ head
  exact ⟨1, List.mem_of_head? head, by decide⟩

end Paths

end Dominators

end Clou
