import Clou.BlockCfg

/-! Whether two nodes are in one block, as decided by following unique successors. -/

namespace Clou

namespace Cfg

variable (cfg : Cfg)

/-- Follows unique successors; node numbers tell when to give up. -/
def sameBasicBlockLoop (dst : NodeRef) : Nat → NodeRef → Option Bool
  | 0, _ => none
  | fuel + 1, ref =>
    if ref > dst then some false
    else if ref = dst then some true
    else do
      match ← cfg.po.fwd.lookup ref with
      | [succ] => sameBasicBlockLoop dst fuel succ
      | _ => some false

def sameBasicBlock (src dst : NodeRef) : Option Bool := cfg.sameBasicBlockLoop dst (cfg.size + 1) src

end Cfg

namespace BlockCfg

open Cfg

variable {cfg : Cfg}

def Only (cfg : Cfg) (a b : NodeRef) : Prop := ∀ c, cfg.po.Edge a c ↔ c = b

variable {b a dst src : NodeRef}

theorem Only.related (only : Only cfg a b) : cfg.po.Edge a b := (only b).mpr rfl

theorem Only.le (topological : cfg.Topological) (path : Relation.ReflTransGen (Only cfg) a b) :
    a ≤ b := by
  induction path with
  | refl => exact Nat.le_refl a
  | tail _ step ih => exact Nat.le_trans ih (Nat.le_of_lt (topological.increasing step.related))

theorem sameBasicBlockLoop_eq (wellFormed : cfg.WellFormed) (topological : cfg.Topological)
    {ref : NodeRef} (bound : ref < cfg.size) {fuel : Nat} (enough : dst + 1 - ref < fuel) :
    ∃ same, cfg.sameBasicBlockLoop dst fuel ref = some same ∧
      (same = true ↔ Relation.ReflTransGen (Only cfg) ref dst) := by
  have closer (a b d f : Nat) (further : a < b) (before : ¬ a > d) (enough : d + 1 - a < f + 1) :
      d + 1 - b < f := by omega
  induction fuel generalizing ref with
  | zero => cases enough
  | succ fuel ih =>
    unfold sameBasicBlockLoop
    split
    · rename_i past
      exact ⟨false, rfl, nofun, fun path => absurd (Only.le topological path) (Nat.not_le_of_lt past)⟩
    split
    · rename_i same
      exact ⟨true, rfl, fun _ => same ▸ .refl, fun _ => rfl⟩
    · rename_i before different
      rw [wellFormed.lookup_fwd bound]
      change ∃ same, (match cfg.po.succs ref with | [succ] => _ | _ => _) = some same ∧ _
      split
      · rename_i succ single
        have only : Only cfg ref succ := fun c => by
          rw [Binrel.Edge, single, List.mem_singleton]
        have less := closer _ _ _ _ (topological.increasing only.related) before enough
        rcases ih (wellFormed.valid only.related).2 less with ⟨same, found, path⟩
        refine ⟨same, found, path.trans ⟨.head only, fun whole => ?_⟩⟩
        rcases whole.cases_head with here | ⟨next, step, rest⟩
        · exact absurd here different
        · rwa [← (only next).mp step.related]
      · rename_i several
        refine ⟨false, rfl, nofun, fun path => ?_⟩
        rcases path.cases_head with here | ⟨next, step, -⟩
        · exact absurd here different
        · exact absurd (wellFormed.proper.succs_eq_singleton.mpr fun {c} => step c) (several next)

theorem sameBasicBlock_eq (wellFormed : cfg.WellFormed) (topological : cfg.Topological)
    (src_lt : src < cfg.size) (dst_lt : dst < cfg.size) :
    ∃ same, cfg.sameBasicBlock src dst = some same ∧
      (same = true ↔ Relation.ReflTransGen (Only cfg) src dst) :=
  sameBasicBlockLoop_eq wellFormed topological src_lt
    (Nat.lt_of_le_of_lt (Nat.sub_le ..) (Nat.succ_lt_succ dst_lt))

theorem Cut.same_iff {bcfg : BlockCfg} (wellFormed : cfg.WellFormed) (cut : Cut cfg bcfg)
    (src_lt : src < cfg.size) :
    bcfg.ref2block.lookup src = bcfg.ref2block.lookup dst ↔
      Relation.ReflTransGen (Straight cfg.po.Edge) src dst ∨
        Relation.ReflTransGen (Straight cfg.po.Edge) dst src := by
  have along {a b : NodeRef} (bound : a < cfg.size)
      (path : Relation.ReflTransGen (Straight cfg.po.Edge) a b) :
      bcfg.ref2block.lookup a = bcfg.ref2block.lookup b := by
    rcases cut.piece bound with ⟨id, rest, listed, member, -, -, onward⟩
    rw [cut.ref2block.mpr ⟨rest, listed, member⟩,
      cut.ref2block.mpr ⟨rest, listed, onward.mem_path member path⟩]
  constructor
  · intro same
    rcases cut.piece src_lt with ⟨id, rest, listed, member, -, -, onward⟩
    rw [cut.ref2block.mpr ⟨rest, listed, member⟩] at same
    rcases cut.ref2block.mp same.symm with ⟨rest', listed', member'⟩
    rw [listed] at listed'
    cases listed'
    exact onward.comparable member member'
  · rintro (path | path)
    · exact along src_lt path
    · rcases path.cases_head with rfl | ⟨_, step, -⟩
      · rfl
      · exact (along (wellFormed.valid step.related).1 path).symm

theorem Only.lt (topological : cfg.Topological) {c : NodeRef} (step : Only cfg a b)
    (path : Relation.ReflTransGen (Only cfg) b c) : a < c :=
  Nat.lt_of_lt_of_le (topological.increasing step.related) (Only.le topological path)

theorem only_path (path : Relation.ReflTransGen (Straight cfg.po.Edge) a b) :
    Relation.ReflTransGen (Only cfg) a b := by
  induction path with
  | refl => exact .refl
  | tail _ step ih => exact ih.tail fun _ => step.next

/-- Where only successors lead from `src` to `dst`, straight steps take the same way. -/
theorem straight_of_path (topological : cfg.Topological)
    (before : Relation.ReflTransGen (Only cfg) src a) (step : Only cfg a b)
    (after : Relation.ReflTransGen (Only cfg) b dst)
    (path : Relation.ReflTransGen (Straight cfg.po.Edge) src dst) : Straight cfg.po.Edge a b := by
  induction before using Relation.ReflTransGen.head_induction_on with
  | refl =>
    rcases path.cases_head with rfl | ⟨c, next, -⟩
    · exact absurd (step.lt topological after) (Nat.lt_irrefl a)
    · rwa [← (step c).mp next.related]
  | @head src _ first rest ih =>
    rcases path.cases_head with rfl | ⟨c, next, further⟩
    · exact absurd (first.lt topological ((rest.tail step).trans after)) (Nat.lt_irrefl src)
    · rw [(first c).mp next.related] at further
      exact ih further

def Unjoined (cfg : Cfg) (src dst : NodeRef) : Prop :=
  ∀ a b, Relation.ReflTransGen (Only cfg) src a → Only cfg a b →
    Relation.ReflTransGen (Only cfg) b dst → ∀ c, cfg.po.Edge c b → c = a

theorem Unjoined.straight_path {m : NodeRef} (unjoined : Unjoined cfg src dst)
    (before : Relation.ReflTransGen (Only cfg) src m)
    (after : Relation.ReflTransGen (Only cfg) m dst) :
    Relation.ReflTransGen (Straight cfg.po.Edge) src m := by
  induction before with
  | refl => exact .refl
  | @tail a b before step ih =>
    have straight : Straight cfg.po.Edge a b :=
      ⟨fun {c} => step c, fun {c} => ⟨unjoined a b before step after c, fun same => same ▸ step.related⟩⟩
    exact (ih (.head step after)).tail straight

/-- Following unique successors from `src` to `dst` stays in a block exactly if no node on the way
has another predecessor. -/
theorem sameBasicBlock_iff (rooted : cfg.Rooted) (topological : cfg.Topological) {bcfg : BlockCfg}
    (built : construct cfg = some bcfg) {src dst : NodeRef} (src_lt : src < cfg.size)
    (dst_lt : dst < cfg.size) :
    (cfg.sameBasicBlock src dst = some true ↔
      src ≤ dst ∧ bcfg.ref2block.lookup src = bcfg.ref2block.lookup dst) ↔ Unjoined cfg src dst := by
  have wellFormed := rooted.toWellFormed
  rcases construct_spec rooted with ⟨_, built', cut⟩
  cases built.symm.trans built'
  rcases sameBasicBlock_eq wellFormed topological src_lt dst_lt with ⟨same, found, walk⟩
  rw [found, Option.some.injEq, walk, cut.same_iff wellFormed src_lt]
  constructor
  · intro agree a b before step after c edge
    have whole := (before.tail step).trans after
    have path : Relation.ReflTransGen (Straight cfg.po.Edge) src dst := by
      rcases (agree.mp whole).2 with path | path
      · exact path
      · have same : src = dst :=
          Nat.le_antisymm (Only.le topological whole) (Only.le topological (only_path path))
        exact same ▸ .refl
    exact (straight_of_path topological before step after path).previous.mp edge
  · intro unjoined
    constructor
    · intro path
      exact ⟨Only.le topological path, .inl (unjoined.straight_path path .refl)⟩
    · rintro ⟨order, path | path⟩
      · exact only_path path
      · have same : src = dst := Nat.le_antisymm order (Only.le topological (only_path path))
        exact same ▸ .refl

theorem diamond_sameBasicBlock : ∃ bcfg, construct diamond = some bcfg ∧
    ((diamond.sameBasicBlock 3 4 = some true ↔
      (3 : Nat) ≤ 4 ∧ bcfg.ref2block.lookup 3 = bcfg.ref2block.lookup 4) ↔ Unjoined diamond 3 4) := by
  rcases construct_spec diamond_rooted with ⟨bcfg, built, -⟩
  exact ⟨bcfg, built, sameBasicBlock_iff diamond_rooted diamond_topological built (by decide) (by decide)⟩

/-- Both sides of a branch go on to one node, which is a block of its own. -/
theorem sameBasicBlock_join : diamond.Rooted ∧ diamond.Topological ∧
    diamond.sameBasicBlock 1 3 = some true ∧
    (construct diamond).map (fun bcfg => bcfg.ref2block.lookup 1) = some (some 1) ∧
    (construct diamond).map (fun bcfg => bcfg.ref2block.lookup 3) = some (some 3) := by
  exact ⟨diamond_rooted, diamond_topological, by decide, by decide, by decide⟩

end BlockCfg

end Clou
