import Clou.Dominators
import Clou.Edges
import Clou.Execution

/-! The edges of the event graph for control dependencies: from the loads that a branch depends on to
the accesses in the blocks that the branch dominates and that do not postdominate it. -/

namespace Clou.ControlEdges

open Z3 Com Dependencies Edges Dominators BlockCfg

structure CtrlPath where
  load : NodeRef
  br : NodeRef
  access : NodeRef

section

variable (order : Cfg.HashOrder) (aeg : Aeg) (dependencies : NodeRefMap)
  (dominators postdominators : DominatorMap)

def exclude (dominator : NodeRef) (exclDoms : DominatorMap) (dominee : NodeRef) : Option DominatorMap :=
  (postdominators.lookup dominee).map fun postdom =>
    if dominator ∈ postdom then exclDoms else insertDom dominee exclDoms dominator

/-- For each dominator, the blocks that it dominates and that do not postdominate it. -/
def exclDoms : Option DominatorMap :=
  dominators.entries.foldlM
    (fun exclDoms pair => pair.2.foldlM (exclude postdominators pair.1) exclDoms) ∅

def isBranch (ref : NodeRef) : Bool :=
  match aeg.po.variant ref with
  | some (.inst I) => (aeg.deref I).isBranch
  | _ => false

def accessesIn (bcfg : BlockCfg) (load br blk : NodeRef) : Option (List CtrlPath) :=
  (bcfg.blocks.lookup blk).map fun refs =>
    (refs.filter (Edges.mayAccess aeg)).map fun access => ⟨load, br, access⟩

def branchPaths (bcfg : BlockCfg) (exclDoms : DominatorMap) (br : NodeRef) : Option (List CtrlPath) :=
  (bcfg.ref2block.lookup br).bind fun brBlk =>
    if isBranch aeg br then
      (dependencies.lookup br).bind fun deps =>
        collect (fun load => collect (accessesIn aeg bcfg load br) (Binrel.get exclDoms brBlk))
          ((order.elements br deps).filter (mayRead aeg))
    else some []

def ctrlPaths : Option (List CtrlPath) := do
  let bcfg ← BlockCfg.construct aeg.po
  let excl ← exclDoms dominators postdominators
  collect (branchPaths order aeg dependencies bcfg excl) aeg.nodeRange

def ctrlEdge (path : CtrlPath) : Edge :=
  ⟨.ctrl, and (and (reads aeg path.load) (exec aeg path.br)) (accesses aeg path.access), boolVal true⟩

def constructCtrl : Option (List Insertion) :=
  (ctrlPaths order aeg dependencies dominators postdominators).map
    (·.map fun path => ⟨path.load, path.access, ctrlEdge aeg path⟩)

end

section

variable {dominators postdominators : DominatorMap}

theorem foldlM_exclude {dominator : NodeRef} {dominees : List NodeRef} {excl excl' : DominatorMap}
    (folded : dominees.foldlM (exclude postdominators dominator) excl = some excl') (a b : NodeRef) :
    b ∈ Binrel.get excl' a ↔ b ∈ Binrel.get excl a ∨
      a = dominator ∧ b ∈ dominees ∧ dominator ∉ Binrel.get postdominators b := by
  induction dominees generalizing excl with
  | nil =>
    cases folded
    simp
  | cons dominee dominees ih =>
    rcases foldlM_cons_eq_some.mp folded with ⟨next, stepped, later⟩
    rcases Option.map_eq_some_iff.mp stepped with ⟨postdom, found, rfl⟩
    have known : Binrel.get postdominators dominee = postdom := by
      rw [Binrel.get, found, Option.getD_some]
    have step : b ∈ Binrel.get (if dominator ∈ postdom then excl else insertDom dominee excl dominator) a ↔
        b ∈ Binrel.get excl a ∨ a = dominator ∧ b = dominee ∧ dominator ∉ postdom := by
      split
      · rename_i inside
        simp [inside]
      · rename_i outside
        rw [insertDom, Binrel.mem_get_insert]
        split
        · rename_i same
          rw [List.mem_insert_iff, same]
          simp [outside, or_comm]
        · rename_i different
          simp [different]
    rw [ih later, step, or_assoc, ← and_or_left, List.mem_cons, ← known]
    apply or_congr_right
    apply and_congr_right
    intro _
    constructor
    · rintro (⟨rfl, outside⟩ | ⟨listed, outside⟩)
      · exact ⟨.inl rfl, outside⟩
      · exact ⟨.inr listed, outside⟩
    · rintro ⟨rfl | listed, outside⟩
      · exact .inl ⟨rfl, outside⟩
      · exact .inr ⟨listed, outside⟩

theorem mem_exclDoms {excl : DominatorMap} (computed : exclDoms dominators postdominators = some excl)
    (a b : NodeRef) : b ∈ Binrel.get excl a ↔
      b ∈ Binrel.get dominators a ∧ a ∉ Binrel.get postdominators b := by
  have general : ∀ (entries : List (Sigma fun _ : NodeRef => List NodeRef)) (start result : DominatorMap),
      entries.foldlM (fun exclDoms pair => pair.2.foldlM (exclude postdominators pair.1) exclDoms) start =
        some result →
      (b ∈ Binrel.get result a ↔ b ∈ Binrel.get start a ∨
        (∃ pair ∈ entries, a = pair.1 ∧ b ∈ pair.2) ∧ a ∉ Binrel.get postdominators b) := by
    intro entries
    induction entries with
    | nil =>
      intro start result folded
      cases folded
      simp
    | cons pair entries ih =>
      intro start result folded
      rcases foldlM_cons_eq_some.mp folded with ⟨next, stepped, later⟩
      rw [ih next result later, foldlM_exclude stepped, List.exists_mem_cons_iff, or_assoc]
      apply or_congr_right
      constructor
      · rintro (⟨rfl, listed, outside⟩ | ⟨found, outside⟩)
        · exact ⟨.inl ⟨rfl, listed⟩, outside⟩
        · exact ⟨.inr found, outside⟩
      · rintro ⟨⟨rfl, listed⟩ | found, outside⟩
        · exact .inl ⟨rfl, listed, outside⟩
        · exact .inr ⟨found, outside⟩
  have entries : (∃ pair ∈ dominators.entries, a = pair.1 ∧ b ∈ pair.2) ↔ b ∈ Binrel.get dominators a := by
    constructor
    · rintro ⟨pair, listed, rfl, member⟩
      rwa [Binrel.get, AList.mem_lookup_iff.mpr listed]
    · intro member
      rcases FiniteMap.exists_of_mem (Binrel.mem_of_mem_get member) with ⟨set, found⟩
      rw [Binrel.get, found, Option.getD_some] at member
      exact ⟨⟨a, set⟩, AList.mem_lookup_iff.mp found, rfl, member⟩
  rw [general _ _ _ computed, entries]
  simp [Binrel.get]

theorem exists_exclDoms (known : ∀ a b, b ∈ Binrel.get dominators a → b ∈ postdominators) :
    ∃ excl, exclDoms dominators postdominators = some excl := by
  apply exists_foldlM
  intro excl pair listed
  apply exists_foldlM
  intro excl dominee member
  have dominated : dominee ∈ Binrel.get dominators pair.1 := by
    rwa [Binrel.get, AList.mem_lookup_iff.mpr listed]
  rcases FiniteMap.exists_of_mem (known pair.1 dominee dominated) with ⟨postdom, found⟩
  exact ⟨_, by rw [exclude, found, Option.map_some]⟩

end

section

variable {order : Cfg.HashOrder} {aeg : Aeg} {dependencies : NodeRefMap}
  {dominators postdominators : DominatorMap}

def Controls (aeg : Aeg) (bcfg : BlockCfg) (dependencies : NodeRefMap)
    (dominators postdominators : DominatorMap) (path : CtrlPath) : Prop :=
  path.br < aeg.size ∧ isBranch aeg path.br = true ∧ path.load ∈ SetMap.get dependencies path.br ∧
    mayRead aeg path.load = true ∧ Edges.mayAccess aeg path.access = true ∧
    ∃ brBlk blk refs, bcfg.ref2block.lookup path.br = some brBlk ∧ bcfg.blocks.lookup blk = some refs ∧
      path.access ∈ refs ∧ blk ∈ Binrel.get dominators brBlk ∧ brBlk ∉ Binrel.get postdominators blk

theorem mem_accessesIn {bcfg : BlockCfg} {load br blk : NodeRef} {paths : List CtrlPath}
    (computed : accessesIn aeg bcfg load br blk = some paths) (path : CtrlPath) :
    path ∈ paths ↔ path.load = load ∧ path.br = br ∧ Edges.mayAccess aeg path.access = true ∧
      ∃ refs, bcfg.blocks.lookup blk = some refs ∧ path.access ∈ refs := by
  rcases Option.map_eq_some_iff.mp computed with ⟨refs, found, rfl⟩
  rw [List.mem_map, found]
  constructor
  · rintro ⟨access, listed, rfl⟩
    rcases List.mem_filter.mp listed with ⟨member, accesses⟩
    exact ⟨rfl, rfl, accesses, refs, rfl, member⟩
  · rintro ⟨rfl, rfl, accesses, _, same, member⟩
    cases same
    exact ⟨path.access, List.mem_filter.mpr ⟨member, accesses⟩, rfl⟩

theorem mem_ctrlPaths {paths : List CtrlPath}
    (computed : ctrlPaths order aeg dependencies dominators postdominators = some paths) :
    ∃ bcfg, BlockCfg.construct aeg.po = some bcfg ∧
      ∀ path, path ∈ paths ↔ Controls aeg bcfg dependencies dominators postdominators path := by
  rcases Option.bind_eq_some_iff.mp computed with ⟨bcfg, built, computed⟩
  rcases Option.bind_eq_some_iff.mp computed with ⟨excl, excluded, collected⟩
  refine ⟨bcfg, built, fun path => ?_⟩
  rw [mem_collect collected]
  constructor
  · rintro ⟨br, bound, part, ofBr, listed⟩
    rcases Option.bind_eq_some_iff.mp ofBr with ⟨brBlk, found, ofBlk⟩
    split at ofBlk
    · rename_i branch
      rcases Option.bind_eq_some_iff.mp ofBlk with ⟨deps, present, ofDeps⟩
      rcases (mem_collect ofDeps).mp listed with ⟨load, source, _, ofLoad, listed⟩
      rcases (mem_collect ofLoad).mp listed with ⟨blk, inside, _, ofAccess, listed⟩
      rcases (mem_accessesIn ofAccess path).mp listed with ⟨rfl, rfl, access, refs, block, member⟩
      rcases List.mem_filter.mp source with ⟨depends, load⟩
      rw [mem_exclDoms excluded] at inside
      rw [Cfg.HashOrder.mem_elements] at depends
      refine ⟨List.mem_range.mp bound, branch, ?_, load, access, brBlk, blk, refs, found, block, member,
        inside.1, inside.2⟩
      rwa [SetMap.get, present, Option.getD_some]
    · cases ofBlk
      cases listed
  · rintro ⟨bound, branch, depends, load, access, brBlk, blk, refs, found, block, member, dominated, free⟩
    have range : path.br ∈ aeg.nodeRange := List.mem_range.mpr bound
    have inside : blk ∈ Binrel.get excl brBlk := (mem_exclDoms excluded brBlk blk).mpr ⟨dominated, free⟩
    rcases exists_of_collect collected range with ⟨part, ofBr⟩
    refine ⟨path.br, range, part, ofBr, ?_⟩
    rcases SetMap.mem_get_iff .. |>.mp depends with ⟨deps, entry, listed⟩
    have present : dependencies.lookup path.br = some deps := AList.mem_lookup_iff.mpr entry
    have source : path.load ∈ (order.elements path.br deps).filter (mayRead aeg) :=
      List.mem_filter.mpr ⟨(Cfg.HashOrder.mem_elements ..).mpr listed, load⟩
    rw [branchPaths, found, Option.bind_some, if_pos branch, present, Option.bind_some] at ofBr
    rcases exists_of_collect ofBr source with ⟨part', ofLoad⟩
    rcases exists_of_collect ofLoad inside with ⟨part'', ofAccess⟩
    refine (mem_collect ofBr).mpr ⟨path.load, source, part', ofLoad, ?_⟩
    refine (mem_collect ofLoad).mpr ⟨blk, inside, part'', ofAccess, ?_⟩
    exact (mem_accessesIn ofAccess path).mpr ⟨rfl, rfl, access, refs, block, member⟩

end

/-! Independence of the conditions -/

section

variable {aeg : Aeg} {n : NodeRef} {path : CtrlPath}

def without (br : NodeRef) : ComValuation :=
  ⟨⟨fun n => n != br, fun _ => false, fun _ => true, fun _ => true, fun _ _ => true⟩, fun _ => 0,
    fun _ => true, fun _ => true, fun _ => 0, fun _ => 0⟩

variable {br : NodeRef}

theorem exec_without (different : n ≠ br) : (exec aeg n).eval (without br) = true := by
  have arch : (aeg.arch n).eval (without br).toValuation = true := by
    unfold Aeg.arch
    split
    · rfl
    · exact bne_iff_ne.mpr different
  change ((aeg.arch n).eval _ || (aeg.trans n).eval _) = true
  rw [arch, Bool.true_or]

theorem not_exec_without (regular : br ≠ aeg.entry) : (exec aeg br).eval (without br) = false := by
  have arch : (aeg.arch br).eval (without br).toValuation = false := by
    rw [Aeg.arch, if_neg regular]
    exact bne_self_eq_false br
  have trans : (aeg.trans br).eval (without br).toValuation = false := by
    unfold Aeg.trans
    split <;> rfl
  change ((aeg.arch br).eval _ || (aeg.trans br).eval _) = false
  rw [arch, trans, Bool.or_false]

theorem makeAccess_without {option : Opt} {value : ComValuation → Bool} (possible : option ≠ .no)
    (happens : value (without br) = true) : (makeAccess option value).eval (without br) = true := by
  cases option with
  | must => rfl
  | may => exact happens
  | no => exact absurd rfl possible

theorem read_without (load : mayRead aeg n = true) : (read aeg n).eval (without br) = true :=
  makeAccess_without (of_decide_eq_true load) rfl

theorem access_without (access : Edges.mayAccess aeg n = true) :
    (or (read aeg n) (write aeg n)).eval (without br) = true := by
  rw [eval_or, Bool.or_eq_true]
  exact (Bool.or_eq_true_iff.mp access).imp read_without
    fun store => makeAccess_without (of_decide_eq_true store) rfl

/-- A branch is not an access. -/
theorem isBranch_kind (branch : isBranch aeg br = true) : kind aeg br = .other := by
  unfold isBranch at branch
  unfold kind
  split at branch
  · rename_i I variant
    rw [variant]
    change create (aeg.deref I) = .other
    unfold Inst.isBranch at branch
    split at branch
    · rename_i br
      simp [create, Inst.isFence, Inst.isLoad, Inst.isStore, br]
    · cases branch
  · cases branch

theorem load_ne_branch (branch : isBranch aeg br = true) (load : mayRead aeg n = true) :
    n ≠ br := by
  rintro rfl
  rw [mayRead, isBranch_kind branch] at load
  cases load

theorem access_ne_branch (branch : isBranch aeg br = true) (access : Edges.mayAccess aeg n = true) :
    n ≠ br := by
  rintro rfl
  rw [Edges.mayAccess, mayRead, mayWrite, isBranch_kind branch] at access
  cases access

theorem branch_ne_entry (entered : aeg.po.variant aeg.entry = some .entry)
    (branch : isBranch aeg br = true) : br ≠ aeg.entry := by
  rintro rfl
  rw [isBranch, entered] at branch
  cases branch

theorem ctrlEdge_iff {v : ComValuation} : (ctrlEdge aeg path).existsCond.eval v = true ↔
    (reads aeg path.load).eval v = true ∧ (exec aeg path.br).eval v = true ∧
      (accesses aeg path.access).eval v = true := by
  change (((reads aeg path.load).eval v && (exec aeg path.br).eval v) &&
    (accesses aeg path.access).eval v) = true ↔ _
  rw [Bool.and_eq_true, Bool.and_eq_true, and_assoc]

/-- A load and an access may happen although a branch is not executed. -/
theorem ends_without {load access : NodeRef} (branch : isBranch aeg br = true)
    (mayLoad : mayRead aeg load = true) (mayAcc : Edges.mayAccess aeg access = true) :
    (reads aeg load).eval (without br) = true ∧ (accesses aeg access).eval (without br) = true := by
  rw [reads, accesses, eval_and, eval_and, Bool.and_eq_true, Bool.and_eq_true]
  exact ⟨⟨exec_without (load_ne_branch branch mayLoad), read_without mayLoad⟩,
    exec_without (access_ne_branch branch mayAcc), access_without mayAcc⟩

end

/-! Control dependence -/

def Postdominates (cfg : Cfg) (bcfg : BlockCfg) (exit a b : NodeRef) : Prop :=
  ∀ path : List NodeRef, path.IsChain cfg.po.Edge → path.head? = some b → path.getLast? = some exit →
    ∃ n ∈ path, blockOf bcfg n = a

def ControlDependent (cfg : Cfg) (bcfg : BlockCfg) (exit a b : NodeRef) : Prop :=
  (∃ s, bcfg.po.Edge b s ∧ Postdominates cfg bcfg exit a s) ∧
    ¬ (a ≠ b ∧ Postdominates cfg bcfg exit a b)

def BlockDominates (cfg : Cfg) (a b : NodeRef) : Prop :=
  ∀ path : List NodeRef, path.IsChain cfg.po.Edge → path.head? = some cfg.entry →
    path.getLast? = some b → a ∈ path

section

variable {cfg : Cfg} {bcfg : BlockCfg} {exit a b : NodeRef} (rooted : cfg.Rooted) (cut : Cut cfg bcfg)
  (leads : ∀ n < cfg.size, cfg.Reaches n exit)

include rooted leads

theorem last_iff_exit {n : NodeRef} (bound : n < cfg.size) : (∀ m, ¬ cfg.po.Edge n m) ↔ n = exit := by
  constructor
  · intro last
    rcases (leads n bound).cases_head with same | ⟨m, edge, -⟩
    · exact same
    · exact absurd edge (last m)
  · rintro rfl m edge
    exact rooted.acyclic n (.head' edge (leads m (rooted.valid edge).2))

include cut

theorem postdominates_iff (listed : b ∈ bcfg.blocks) (listed' : a ∈ bcfg.blocks) :
    Dominates (Function.swap bcfg.po.Edge) a b ↔ Postdominates cfg bcfg exit a b := by
  have bound := (blockOf_block cut listed).2
  rcases (cut.pieces.of_mem listed').2 with ⟨A, found⟩
  rw [dominates_in_iff rooted cut listed, and_iff_right listed']
  apply forall_congr'
  intro path
  apply imp_congr_right
  intro chain
  apply imp_congr_right
  intro head
  cases path with
  | nil => cases head
  | cons n path =>
    cases head
    have valid := chain_valid rooted bound chain
    have ends : (∀ last, (b :: path).getLast? = some last → ∀ m, ¬ cfg.po.Edge last m) ↔
        (b :: path).getLast? = some exit := by
      rcases List.getLast?_isSome.mpr (List.cons_ne_nil b path) |> Option.isSome_iff_exists.mp with
        ⟨last, ending⟩
      have inside := valid last (List.mem_of_getLast? ending)
      rw [ending, Option.some.injEq, ← last_iff_exit rooted leads inside]
      constructor
      · intro every
        exact every last rfl
      · intro none other same
        exact Option.some.inj same ▸ none
    have meets : (∃ block, bcfg.blocks.lookup a = some block ∧ ∃ m ∈ b :: path, m ∈ block) ↔
        ∃ m ∈ b :: path, blockOf bcfg m = a := by
      rw [found]
      constructor
      · rintro ⟨_, same, m, member, inside⟩
        cases same
        exact ⟨m, member, cut.blockOf_eq found inside⟩
      · rintro ⟨m, member, same⟩
        rcases cut.block (valid m member) with ⟨A', found', inside, -⟩
        rw [same, found] at found'
        cases found'
        exact ⟨a :: A, rfl, m, member, same ▸ inside⟩
    rw [ends, meets]

/-- No block decides about itself. -/
theorem ControlDependent.ne (dependent : ControlDependent cfg bcfg exit a b) : a ≠ b := by
  rintro rfl
  rcases dependent.1 with ⟨s, link, every⟩
  rcases cut.edge.mp link with ⟨A, S, -, found, -⟩
  rcases cut.pieces.piece found with ⟨bound, -⟩
  rcases List.exists_isChain_cons_of_relationReflTransGen (leads s bound) with ⟨path, chain, last⟩
  rcases every (s :: path) chain rfl (by rw [List.getLast?_eq_some_getLast (List.cons_ne_nil s path), last])
    with ⟨n, member, here⟩
  have after : cfg.Reaches s n := by
    rcases List.mem_cons.mp member with same | later
    · exact same ▸ .refl
    · have ordered := (chain.imp fun _ _ => Relation.ReflTransGen.single).pairwise
      exact (List.pairwise_cons.mp ordered).1 n later
  have inside := chain_valid rooted bound chain n member
  rcases cut.known inside with ⟨id, known⟩
  rw [blockOf_of_lookup known] at here
  have own : bcfg.ref2block.lookup n = some a := here ▸ known
  have start : bcfg.ref2block.lookup s = some s := cut.ref2block.mpr ⟨S, found, List.mem_cons_self⟩
  exact rooted.acyclic n ((cut.lift_edge own start link).trans_left after)

end

section

variable {aeg : Aeg} {bcfg : BlockCfg} {dependencies : NodeRefMap}
  {dominators postdominators : DominatorMap}

theorem listed_blockOf {cfg : Cfg} (cut : Cut cfg bcfg) {n : NodeRef} (bound : n < cfg.size) :
    blockOf bcfg n ∈ bcfg.blocks := by
  rcases cut.block bound with ⟨A, found, -⟩
  exact FiniteMap.mem_of_lookup found

variable (rooted : aeg.po.Rooted) (cut : Cut aeg.po bcfg)
  (dominated : ∀ a b, b ∈ Binrel.get dominators a ↔ b ∈ bcfg.blocks ∧ Dominates bcfg.po.Edge a b)
  (postdominated : ∀ a b, b ∈ Binrel.get postdominators a ↔
    b ∈ bcfg.blocks ∧ Dominates (Function.swap bcfg.po.Edge) a b)

include cut dominated

theorem exists_ctrlPaths (order : Cfg.HashOrder) (built : BlockCfg.construct aeg.po = some bcfg)
    (known : ∀ n < aeg.size, n ∈ dependencies) (posted : ∀ b ∈ bcfg.blocks, b ∈ postdominators) :
    ∃ paths, ctrlPaths order aeg dependencies dominators postdominators = some paths := by
  rcases exists_exclDoms fun a b member => posted b ((dominated a b).mp member).1 with ⟨excl, excluded⟩
  have every : ∀ br ∈ aeg.nodeRange, ∃ part,
      branchPaths order aeg dependencies bcfg excl br = some part := by
    intro br range
    rcases cut.known (List.mem_range.mp range) with ⟨brBlk, ofBr⟩
    rcases FiniteMap.exists_of_mem (known br (List.mem_range.mp range)) with ⟨deps, found⟩
    rw [branchPaths, ofBr, Option.bind_some]
    split
    · rw [found, Option.bind_some]
      refine exists_collect fun load _ => exists_collect fun blk inside => ?_
      have listed := ((dominated _ _).mp ((mem_exclDoms excluded brBlk blk).mp inside).1).1
      rcases FiniteMap.exists_of_mem listed with ⟨refs, block⟩
      exact ⟨_, by rw [accessesIn, block, Option.map_some]⟩
    · exact ⟨[], rfl⟩
  rw [ctrlPaths, built, excluded]
  exact exists_collect every

include rooted postdominated

/-- A branch leads to an edge exactly if its block dominates that of the access and is not
postdominated by it. -/
theorem controls_iff {exit : NodeRef} (leads : ∀ n < aeg.po.size, aeg.po.Reaches n exit)
    (path : CtrlPath) : Controls aeg bcfg dependencies dominators postdominators path ↔
      path.br < aeg.size ∧ path.access < aeg.size ∧ isBranch aeg path.br = true ∧
        path.load ∈ SetMap.get dependencies path.br ∧ mayRead aeg path.load = true ∧
        Edges.mayAccess aeg path.access = true ∧
        BlockDominates aeg.po (blockOf bcfg path.br) (blockOf bcfg path.access) ∧
        ¬ Postdominates aeg.po bcfg exit (blockOf bcfg path.access) (blockOf bcfg path.br) := by
  constructor
  · rintro ⟨bound, branch, depends, load, access, brBlk, blk, refs, ofBr, block, member, inside, free⟩
    rcases cut.pieces.block block with ⟨A, rfl, first, -, onward⟩
    have there := FiniteMap.mem_of_lookup block
    have own := listed_blockOf cut bound
    have ofBranch := blockOf_of_lookup ofBr
    rw [ofBranch] at own
    rw [postdominated, and_iff_right own, postdominates_iff rooted cut leads own there] at free
    rw [dominated, and_iff_right there, dominates_out_iff rooted cut there] at inside
    rw [cut.blockOf_eq block member, ofBranch]
    exact ⟨bound, onward_valid rooted.toWellFormed first onward path.access member, branch, depends, load,
      access, inside.2, free⟩
  · rintro ⟨bound, inside, branch, depends, load, access, dominates, free⟩
    rcases cut.block inside with ⟨A, block, member, -⟩
    rcases cut.known bound with ⟨brBlk, ofBr⟩
    have there := listed_blockOf cut inside
    have own := listed_blockOf cut bound
    have ofBranch := blockOf_of_lookup ofBr
    refine ⟨bound, branch, depends, load, access, brBlk, _, _, ofBr, block, member, ?_, ?_⟩
    · rw [dominated, ← ofBranch, dominates_out_iff rooted cut there]
      exact ⟨there, own, dominates⟩
    · rw [postdominated, ← ofBranch, postdominates_iff rooted cut leads own there]
      exact fun both => free both.2

end

theorem dominators_spec {cfg : Cfg} (hash : Cfg.HashOrder) (rooted : cfg.Rooted)
    (topological : cfg.Topological) :
    ∃ bcfg dominators postdominators, BlockCfg.construct cfg = some bcfg ∧ Cut cfg bcfg ∧
      constructDominatorsShared2 hash .OUT cfg = some dominators ∧
      constructDominatorsShared2 hash .IN cfg = some postdominators ∧
      (∀ a b, b ∈ Binrel.get dominators a ↔ b ∈ bcfg.blocks ∧ Dominates bcfg.po.Edge a b) ∧
      ∀ a b, b ∈ Binrel.get postdominators a ↔
        b ∈ bcfg.blocks ∧ Dominates (Function.swap bcfg.po.Edge) a b := by
  rcases constructDominatorsShared2_spec hash .OUT rooted topological with
    ⟨bcfg, dominators, built, cut, passed, dominated⟩
  rcases constructDominatorsShared2_spec hash .IN rooted topological with
    ⟨_, postdominators, built', -, passed', postdominated⟩
  cases built.symm.trans built'
  rw [edge_flow cut.proper] at dominated postdominated
  exact ⟨bcfg, dominators, postdominators, built, cut, passed, passed', dominated, postdominated⟩

/-- A block that controls another one gives rise to the edges to it if and only if it dominates it. -/
theorem ctrl_complete_iff (order hash : Cfg.HashOrder) {aeg : Aeg} (ordered : aeg.Ordered)
    (rooted : aeg.po.Rooted) {exit : NodeRef} (leads : ∀ n < aeg.po.size, aeg.po.Reaches n exit)
    {dependencies : NodeRefMap} (computed : constructDependencies2 order aeg.po = some dependencies) :
    ∃ bcfg dominators postdominators edges, BlockCfg.construct aeg.po = some bcfg ∧
      constructDominatorsShared2 hash .OUT aeg.po = some dominators ∧
      constructDominatorsShared2 hash .IN aeg.po = some postdominators ∧
      constructCtrl order aeg dependencies dominators postdominators = some edges ∧
      ∀ br l a, br < aeg.size → a < aeg.size → isBranch aeg br = true →
        l ∈ SetMap.get dependencies br → mayRead aeg l = true → Edges.mayAccess aeg a = true →
        ControlDependent aeg.po bcfg exit (blockOf bcfg a) (blockOf bcfg br) →
        ((∃ e ∈ edges, e.src = l ∧ e.dst = a ∧ e.edge.kind = .ctrl ∧
            ∀ v, (reads aeg l).eval v = true → (exec aeg br).eval v = true →
              (accesses aeg a).eval v = true → e.edge.existsCond.eval v = true) ↔
          BlockDominates aeg.po (blockOf bcfg br) (blockOf bcfg a)) := by
  rcases dominators_spec hash rooted ordered.topological with
    ⟨bcfg, dominators, postdominators, built, cut, passed, passed', dominated, postdominated⟩
  have posted : ∀ b ∈ bcfg.blocks, b ∈ postdominators := by
    intro b listed
    apply Binrel.mem_of_mem_get (x := b)
    rw [postdominated, postdominates_iff rooted cut leads listed listed]
    refine ⟨listed, fun path _ head _ => ⟨b, List.mem_of_head? head, ?_⟩⟩
    exact (blockOf_block cut listed).1
  rcases exists_ctrlPaths cut dominated order built
    (fun n bound => constructDependencies2_keys computed bound) posted with ⟨paths, found⟩
  rcases mem_ctrlPaths found with ⟨_, built'', listed⟩
  cases built.symm.trans built''
  simp only [controls_iff rooted cut dominated postdominated leads] at listed
  refine ⟨bcfg, dominators, postdominators, _, built, passed, passed',
    by rw [constructCtrl, found, Option.map_some], ?_⟩
  intro br l a br_lt a_lt branch depends load access dependent
  constructor
  · rintro ⟨e, member, source, target, -, implied⟩
    rcases List.mem_map.mp member with ⟨path, through, rfl⟩
    rcases (listed path).mp through with ⟨-, -, branch', -, -, -, dominates, -⟩
    cases source
    cases target
    -- an edge of another branch does not exist where that branch is not executed
    have same : br = path.br := by
      by_contra different
      rcases ends_without branch' load access with ⟨reading, accessing⟩
      have exists' := implied (without path.br) reading (exec_without different) accessing
      have executed := (ctrlEdge_iff.mp exists').2.1
      have entered := (ordered.entry_iff aeg.entry).mpr rfl
      rw [not_exec_without (branch_ne_entry entered branch')] at executed
      cases executed
    rwa [same]
  · intro dominates
    have through : (⟨l, br, a⟩ : CtrlPath) ∈ paths := by
      refine (listed _).mpr ⟨br_lt, a_lt, branch, depends, load, access, dominates, fun every => ?_⟩
      exact dependent.2 ⟨dependent.ne rooted cut leads, every⟩
    refine ⟨_, List.mem_map_of_mem through, rfl, rfl, rfl, fun v reading executed accessing => ?_⟩
    exact ctrlEdge_iff.mpr ⟨reading, executed, accessing⟩

/-- A condition of two parts: an access is reached if the first part holds, or else if the second one
does, which depends on a load. -/
def sharedTarget : Aeg where
  po := .ofEdges [.makeEntry, ⟨.inst ⟨0, 0, 0⟩, none, ∅⟩, ⟨.inst ⟨0, 0, 1⟩, none, ∅⟩,
    ⟨.inst ⟨0, 1, 0⟩, none, SetMap.add ∅ (.inst ⟨0, 0, 0⟩) {1}⟩, ⟨.inst ⟨0, 2, 0⟩, none, ∅⟩, .makeExit]
    [(0, 1), (1, 2), (2, 3), (2, 4), (3, 4), (3, 5), (4, 5)] 0 [5]
  deref I :=
    if I.index = 0 ∧ I.block ≠ 1 then ⟨.load, [.argument 0 0], [], [], false, false, true⟩
    else ⟨.br, [if I.block = 1 then .inst ⟨0, 0, 0⟩ else .argument 0 1], [], [], true, false, false⟩
  leakageClass := .spectreV1
  specDepth := 2
  lsqSize := none

theorem sharedTarget_topological : sharedTarget.po.Topological :=
  Cfg.topological_ofEdges (by decide) (by decide)

theorem sharedTarget_ordered : sharedTarget.Ordered :=
  Aeg.ordered_of_listed sharedTarget_topological (by decide) (by decide)

theorem sharedTarget_rooted : sharedTarget.po.Rooted :=
  Cfg.rooted_ofEdges (by decide) (by decide) (by decide) (by decide)

theorem sharedTarget_leads : ∀ n < sharedTarget.po.size, sharedTarget.po.Reaches n 5 := by
  have last : sharedTarget.po.Reaches 4 5 := .single (by decide)
  have third : sharedTarget.po.Reaches 3 5 := .single (by decide)
  have second : sharedTarget.po.Reaches 2 5 := .head (by decide) last
  have first : sharedTarget.po.Reaches 1 5 := .head (by decide) second
  intro n bound
  have cases : n = 0 ∨ n = 1 ∨ n = 2 ∨ n = 3 ∨ n = 4 ∨ n = 5 := by
    change n < 6 at bound
    omega
  rcases cases with rfl | rfl | rfl | rfl | rfl | rfl
  · exact .head (by decide) first
  · exact first
  · exact second
  · exact third
  · exact last
  · exact .refl

/-- The second part decides whether the access is reached, but no edge leads there from the load. -/
theorem sharedTarget_misses : sharedTarget.Ordered ∧ sharedTarget.po.Rooted ∧
    (∀ n < sharedTarget.po.size, sharedTarget.po.Reaches n 5) ∧
    isBranch sharedTarget 3 = true ∧ mayRead sharedTarget 1 = true ∧
    Edges.mayAccess sharedTarget 4 = true ∧
    ∃ bcfg dependencies dominators postdominators edges, BlockCfg.construct sharedTarget.po = some bcfg ∧
      constructDependencies2 .listed sharedTarget.po = some dependencies ∧
      constructDominatorsShared2 .listed .OUT sharedTarget.po = some dominators ∧
      constructDominatorsShared2 .listed .IN sharedTarget.po = some postdominators ∧
      constructCtrl .listed sharedTarget dependencies dominators postdominators = some edges ∧
      1 ∈ SetMap.get dependencies 3 ∧
      ControlDependent sharedTarget.po bcfg 5 (blockOf bcfg 4) (blockOf bcfg 3) ∧
      ¬ ∃ e ∈ edges, e.src = 1 ∧ e.dst = 4 := by
  refine ⟨sharedTarget_ordered, sharedTarget_rooted, sharedTarget_leads, by decide, by decide, by decide, ?_⟩
  have blocks : (BlockCfg.construct sharedTarget.po).map (fun bcfg =>
      (blockOf bcfg 3, blockOf bcfg 4, blockOf bcfg 5, decide (bcfg.po.Edge 3 4))) =
      some (3, 4, 5, true) := by decide
  have passes : (do
      let dependencies ← constructDependencies2 .listed sharedTarget.po
      let dominators ← constructDominatorsShared2 .listed .OUT sharedTarget.po
      let postdominators ← constructDominatorsShared2 .listed .IN sharedTarget.po
      let edges ← constructCtrl .listed sharedTarget dependencies dominators postdominators
      some (decide (1 ∈ SetMap.get dependencies 3), edges.map fun e => (e.src, e.dst))) =
      some (true, []) := by decide
  rcases Option.map_eq_some_iff.mp blocks with ⟨bcfg, built, heads⟩
  simp only [Prod.mk.injEq, decide_eq_true_eq] at heads
  rcases heads with ⟨third, fourth, fifth, edge⟩
  simp only [Option.bind_eq_bind, Option.bind_eq_some_iff, Option.some.injEq, Prod.mk.injEq,
    decide_eq_true_eq, List.map_eq_nil_iff] at passes
  rcases passes with ⟨dependencies, depended, dominators, passed, postdominators, passed', edges, added,
    depends, none⟩
  refine ⟨bcfg, dependencies, dominators, postdominators, edges, built, depended, passed, passed', added,
    depends, ?_, ?_⟩
  · rw [third, fourth]
    refine ⟨⟨4, edge, fun path _ head _ => ⟨4, List.mem_of_head? head, fourth⟩⟩, ?_⟩
    rintro ⟨-, every⟩
    rcases every [3, 5] (by decide) rfl rfl with ⟨n, member, same⟩
    simp only [List.mem_cons, List.not_mem_nil, or_false] at member
    rcases member with rfl | rfl
    · cases third.symm.trans same
    · cases fifth.symm.trans same
  · rintro ⟨e, member, -⟩
    rw [none] at member
    cases member

theorem sharedTarget_complete_iff : ∃ dependencies,
    constructDependencies2 .listed sharedTarget.po = some dependencies ∧
    ∃ bcfg dominators postdominators edges, BlockCfg.construct sharedTarget.po = some bcfg ∧
      constructDominatorsShared2 .listed .OUT sharedTarget.po = some dominators ∧
      constructDominatorsShared2 .listed .IN sharedTarget.po = some postdominators ∧
      constructCtrl .listed sharedTarget dependencies dominators postdominators = some edges ∧
      ∀ br l a, br < sharedTarget.size → a < sharedTarget.size → isBranch sharedTarget br = true →
        l ∈ SetMap.get dependencies br → mayRead sharedTarget l = true →
        Edges.mayAccess sharedTarget a = true →
        ControlDependent sharedTarget.po bcfg 5 (blockOf bcfg a) (blockOf bcfg br) →
        ((∃ e ∈ edges, e.src = l ∧ e.dst = a ∧ e.edge.kind = .ctrl ∧
            ∀ v, (reads sharedTarget l).eval v = true → (exec sharedTarget br).eval v = true →
              (accesses sharedTarget a).eval v = true → e.edge.existsCond.eval v = true) ↔
          BlockDominates sharedTarget.po (blockOf bcfg br) (blockOf bcfg a)) := by
  rcases Option.isSome_iff_exists.mp (by decide : (constructDependencies2 .listed sharedTarget.po).isSome)
    with ⟨dependencies, computed⟩
  exact ⟨dependencies, computed,
    ctrl_complete_iff .listed .listed sharedTarget_ordered sharedTarget_rooted sharedTarget_leads computed⟩

end Clou.ControlEdges
