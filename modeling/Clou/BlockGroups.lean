import Clou.CfgOrder
import Clou.Dominance

/-! Blocks as groups of nodes: forwards a block is entered at its head, backwards at its end. -/

namespace Clou.BlockCfg

variable {cfg : Cfg} {bcfg : BlockCfg}

def blockOf (bcfg : BlockCfg) (n : NodeRef) : NodeRef := (bcfg.ref2block.lookup n).getD n

def blockEnd (bcfg : BlockCfg) (a : NodeRef) : NodeRef := ((bcfg.blocks.lookup a).getD []).getLastD a

variable {n a : NodeRef} {A : List NodeRef}

theorem blockOf_of_lookup (found : bcfg.ref2block.lookup n = some a) : blockOf bcfg n = a := by
  rw [blockOf, found, Option.getD_some]

theorem Cut.blockOf_eq (cut : Cut cfg bcfg) (listed : bcfg.blocks.lookup a = some (a :: A))
    (member : n ∈ a :: A) : blockOf bcfg n = a :=
  blockOf_of_lookup (cut.ref2block.mpr ⟨A, listed, member⟩)

theorem blockEnd_eq (listed : bcfg.blocks.lookup a = some (a :: A)) :
    blockEnd bcfg a = A.getLastD a := by
  rw [blockEnd, listed, Option.getD_some, List.getLastD_cons]

theorem Cut.block (cut : Cut cfg bcfg) (bound : n < cfg.size) :
    ∃ A, bcfg.blocks.lookup (blockOf bcfg n) = some (blockOf bcfg n :: A) ∧ n ∈ blockOf bcfg n :: A ∧
      Onward cfg.po.Edge (blockOf bcfg n) A := by
  rcases cut.piece bound with ⟨a, A, listed, member, -, -, onward⟩
  rw [cut.blockOf_eq listed member]
  exact ⟨A, listed, member, onward⟩

theorem Cut.outside (wellFormed : cfg.WellFormed) (cut : Cut cfg bcfg) (beyond : ¬ n < cfg.size) :
    blockOf bcfg n = n ∧ blockEnd bcfg n = n := by
  have no_ref : bcfg.ref2block.lookup n = none := by
    refine Option.eq_none_iff_forall_ne_some.mpr fun a found => beyond ?_
    rcases cut.ref2block.mp found with ⟨A, listed, member⟩
    rcases cut.pieces.piece listed with ⟨bound, -, onward⟩
    exact onward_valid wellFormed bound onward n member
  have no_block : bcfg.blocks.lookup n = none := by
    refine Option.eq_none_iff_forall_ne_some.mpr fun block listed => beyond ?_
    rcases cut.pieces.block listed with ⟨_, -, bound, -⟩
    exact bound
  rw [blockOf, no_ref, blockEnd, no_block]
  exact ⟨rfl, rfl⟩

theorem Cut.project_group (rooted : cfg.Rooted) (cut : Cut cfg bcfg) {m : NodeRef}
    (edge : cfg.po.Edge n m) : blockOf bcfg n = blockOf bcfg m ∨
      bcfg.po.Edge (blockOf bcfg n) (blockOf bcfg m) ∧ blockOf bcfg m = m := by
  rcases cut.known (rooted.valid edge).1 with ⟨a, here⟩
  rcases cut.known (rooted.valid edge).2 with ⟨b, there⟩
  rw [blockOf, blockOf, here, there]
  exact (cut.project_edge rooted edge here there).imp_right (And.imp_right Eq.symm)

theorem Cut.blockOf_idem (wellFormed : cfg.WellFormed) (cut : Cut cfg bcfg) (n : NodeRef) :
    blockOf bcfg (blockOf bcfg n) = blockOf bcfg n := by
  by_cases bound : n < cfg.size
  · rcases cut.block bound with ⟨A, listed, -⟩
    exact cut.blockOf_eq listed List.mem_cons_self
  · exact congrArg (blockOf bcfg) (cut.outside wellFormed bound).1

theorem Cut.walk_forward (cut : Cut cfg bcfg) {u v : NodeRef}
    (listed : bcfg.blocks.lookup a = some (a :: A)) (onward : Onward cfg.po.Edge a A)
    (member : u ∈ a :: A) (path : Relation.ReflTransGen (Straight cfg.po.Edge) u v) :
    Relation.ReflTransGen (fun u v => cfg.po.Edge u v ∧ blockOf bcfg v = a) u v := by
  induction path with
  | refl => exact .refl
  | tail before step ih =>
    have further := onward.mem_next (onward.mem_path member before) step
    exact ih.tail ⟨step.related, cut.blockOf_eq listed further⟩

theorem Cut.walk_backward (cut : Cut cfg bcfg) {u v : NodeRef}
    (listed : bcfg.blocks.lookup a = some (a :: A)) (onward : Onward cfg.po.Edge a A)
    (member : u ∈ a :: A) (path : Relation.ReflTransGen (Straight cfg.po.Edge) u v) :
    Relation.ReflTransGen (fun v u => cfg.po.Edge u v ∧ blockOf bcfg u = a) v u := by
  induction path using Relation.ReflTransGen.head_induction_on with
  | refl => exact .refl
  | head step _ ih =>
    exact (ih (onward.mem_next member step)).tail ⟨step.related, cut.blockOf_eq listed member⟩

theorem grouped_out (rooted : cfg.Rooted) (cut : Cut cfg bcfg) :
    Grouped cfg.po.Edge bcfg.po.Edge (blockOf bcfg) id := by
  have wellFormed := rooted.toWellFormed
  refine ⟨fun edge => (cut.project_group rooted edge).imp_right And.left, ?_,
    cut.blockOf_idem wellFormed, ?_, ?_⟩
  · intro a b link
    rcases cut.edge.mp link with ⟨A, _, listed, -, edge⟩
    exact ⟨A.getLastD a, cut.blockOf_eq listed Onward.getLastD_mem, edge⟩
  · intro n m edge same
    rcases cut.block (rooted.valid edge).1 with ⟨A, -, member, onward⟩
    rw [← same] at edge
    exact rooted.acyclic _ (.tail' (Straight.reaches (onward.path member)) edge)
  · intro n
    by_cases bound : n < cfg.size
    · rcases cut.block bound with ⟨A, listed, member, onward⟩
      exact cut.walk_forward listed onward List.mem_cons_self (onward.path member)
    · rw [(cut.outside wellFormed bound).1]
      exact .refl

theorem grouped_in (rooted : cfg.Rooted) (cut : Cut cfg bcfg) :
    Grouped (Function.swap cfg.po.Edge) (Function.swap bcfg.po.Edge) (blockOf bcfg) (blockEnd bcfg) := by
  have wellFormed := rooted.toWellFormed
  refine ⟨?_, ?_, ?_, ?_, ?_⟩
  · intro n m edge
    exact (cut.project_group rooted edge).imp Eq.symm And.left
  · intro a b link
    rcases cut.edge.mp link with ⟨B, A, listed, listed', edge⟩
    refine ⟨a, cut.blockOf_eq listed' List.mem_cons_self, ?_⟩
    rw [blockEnd_eq listed]
    exact edge
  · intro n
    by_cases bound : n < cfg.size
    · rcases cut.block bound with ⟨A, listed, -⟩
      rw [blockEnd_eq listed]
      exact cut.blockOf_eq listed Onward.getLastD_mem
    · rw [(cut.outside wellFormed bound).1, (cut.outside wellFormed bound).2,
        (cut.outside wellFormed bound).1]
  · intro n m edge same
    rcases cut.block (rooted.valid edge).2 with ⟨A, listed, member, onward⟩
    rw [← same, blockEnd_eq listed] at edge
    exact rooted.acyclic _ (.tail' (Straight.reaches (onward.path_last member)) edge)
  · intro n
    by_cases bound : n < cfg.size
    · rcases cut.block bound with ⟨A, listed, member, onward⟩
      rw [blockEnd_eq listed]
      exact cut.walk_backward listed onward member (onward.path_last member)
    · rw [(cut.outside wellFormed bound).1, (cut.outside wellFormed bound).2]

end Clou.BlockCfg
