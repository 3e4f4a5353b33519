import Clou.Ir
import Mathlib.Logic.Relation

/-! The loop forest of a function, as the compiler's loop analysis reports it. -/

namespace Clou

/-- A natural loop. Its blocks include those of its subloops. -/
inductive Loop where
  | mk (header : Nat) (blocks : List Nat) (subloops : List Loop)

namespace Loop

def header : Loop → Nat
  | mk header _ _ => header

def blocks : Loop → List Nat
  | mk _ blocks _ => blocks

def subloops : Loop → List Loop
  | mk _ _ subloops => subloops

theorem induct {motive : Loop → Prop}
    (nested : ∀ L : Loop, (∀ S ∈ L.subloops, motive S) → motive L) : ∀ L, motive L
  | mk header blocks subloops =>
    nested (mk header blocks subloops) fun S member =>
      have smaller : sizeOf S < sizeOf (mk header blocks subloops) :=
        Nat.lt_of_lt_of_le (List.sizeOf_lt_of_mem member) (by simp [Loop.subloops])
      induct nested S
  termination_by L => sizeOf L
  decreasing_by exact smaller

inductive Within (S : Loop) : Loop → Prop
  | self : Within S S
  | sub {L T : Loop} : T ∈ L.subloops → Within S T → Within S L

theorem Within.of_sub {S L T : Loop} (sub : S ∈ L.subloops) (within : L.Within T) : S.Within T := by
  induction within with
  | self => exact .sub sub .self
  | sub inner _ ih => exact .sub inner ih

theorem Within.trans {S T L : Loop} (inner : S.Within T) (outer : T.Within L) : S.Within L := by
  induction outer with
  | self => exact inner
  | sub member _ ih => exact .sub member ih

end Loop

namespace Function

def Flow (F : Function) (P B : Nat) : Prop := B ∈ (F.terminator P).successors

instance (F : Function) (P B : Nat) : Decidable (F.Flow P B) :=
  inferInstanceAs (Decidable (B ∈ (F.terminator P).successors))

theorem forall_flow {F : Function} {p : Nat → Nat → Prop} {P B : Nat} (flow : F.Flow P B)
    (all : ∀ P < F.blocks.length, ∀ B ∈ (F.terminator P).successors, p P B) : p P B := by
  rcases Nat.lt_or_ge P F.blocks.length with inside | outside
  · exact all P inside B flow
  · simp [Flow, terminator, block, List.getElem?_eq_none outside, Inst.missing] at flow

def Reachable (F : Function) (B : Nat) : Prop := Relation.ReflTransGen F.Flow 0 B

end Function

/-- What the loop analysis guarantees of one loop. Only blocks that control reaches are
analysed, so only edges from such blocks are known to enter a loop at its header. -/
structure Loop.Correct (F : Function) (L : Loop) : Prop where
  header_mem : L.header ∈ L.blocks
  valid : ∀ B ∈ L.blocks, B < F.blocks.length
  sub_mem : ∀ S ∈ L.subloops, ∀ B ∈ S.blocks, B ∈ L.blocks
  sub_header : ∀ S ∈ L.subloops, L.header ∉ S.blocks
  sub_disjoint : ∀ S ∈ L.subloops, ∀ T ∈ L.subloops, ∀ B ∈ S.blocks, B ∈ T.blocks → S = T
  entered : ∀ {P B}, F.Reachable P → F.Flow P B → B ∈ L.blocks → P ∉ L.blocks → B = L.header

/-- Every edge into the loop from outside goes to its header, also from blocks that are not reached. -/
def Loop.Closed (F : Function) (L : Loop) : Prop :=
  ∀ {P B}, P < F.blocks.length → F.Flow P B → B ∈ L.blocks → P ∉ L.blocks → B = L.header

theorem Loop.Correct.closed {F : Function} {L : Loop} (correct : L.Correct F)
    (reached : ∀ B < F.blocks.length, F.Reachable B) : L.Closed F :=
  fun valid flow here outside => correct.entered (reached _ valid) flow here outside

structure LoopInfo where
  top : List Loop

namespace LoopInfo

def Mem (L : Loop) (LI : LoopInfo) : Prop := ∃ T ∈ LI.top, L.Within T

structure Correct (F : Function) (LI : LoopInfo) : Prop where
  loop : ∀ {L}, Mem L LI → L.Correct F
  disjoint : ∀ S ∈ LI.top, ∀ T ∈ LI.top, ∀ B ∈ S.blocks, B ∈ T.blocks → S = T
  entry : ∀ L ∈ LI.top, 0 ∉ L.blocks

/-- The loops are natural ones and each is listed once: besides, control reaches all of their
blocks, can stay in a loop from each of its blocks and come back to its header. -/
structure Natural (F : Function) (LI : LoopInfo) : Prop extends Correct F LI where
  reached : ∀ {L}, Mem L LI → ∀ B ∈ L.blocks, F.Reachable B
  top_nodup : LI.top.Nodup
  sub_nodup : ∀ {L}, Mem L LI → L.subloops.Nodup
  blocks_nodup : ∀ {L}, Mem L LI → L.blocks.Nodup
  stays : ∀ {L}, Mem L LI → ∀ B ∈ L.blocks, ∃ S ∈ L.blocks, F.Flow B S
  latch : ∀ {L}, Mem L LI → ∃ B ∈ L.blocks, F.Flow B L.header

variable {S L : Loop} {LI : LoopInfo} {F : Function} {blocks : List Nat} {header : Nat}

theorem Mem.sub (member : Mem L LI) (sub : S ∈ L.subloops) : Mem S LI := by
  rcases member with ⟨T, top, within⟩
  exact ⟨T, top, within.of_sub sub⟩

theorem Mem.within (member : Mem L LI) (within : S.Within L) : Mem S LI := by
  rcases member with ⟨T, top, outer⟩
  exact ⟨T, top, within.trans outer⟩

theorem Correct.inside (correct : LI.Correct F) (within : S.Within L) (member : Mem L LI) :
    ∀ B ∈ S.blocks, B ∈ L.blocks := by
  induction within with
  | self => exact fun _ here => here
  | sub inner _ ih =>
    intro B here
    exact (correct.loop member).sub_mem _ inner B (ih (member.sub inner) B here)

theorem Correct.entry_outside (correct : LI.Correct F) (member : Mem L LI) : 0 ∉ L.blocks := by
  rcases member with ⟨T, top, within⟩
  intro here
  exact correct.entry T top (correct.inside within ⟨T, top, .self⟩ 0 here)

theorem Mem.single (member : Mem L (LoopInfo.mk [.mk header blocks []])) :
    L = .mk header blocks [] := by
  rcases member with ⟨T, top, within⟩
  obtain rfl := List.mem_singleton.mp top
  cases within with
  | self => rfl
  | sub inner _ => cases inner

theorem Correct.single (header_mem : header ∈ blocks) (valid : ∀ B ∈ blocks, B < F.blocks.length)
    (entered : ∀ {P B}, F.Reachable P → F.Flow P B → B ∈ blocks → P ∉ blocks → B = header)
    (entry : 0 ∉ blocks) : (LoopInfo.mk [.mk header blocks []]).Correct F := by
  refine ⟨?_, ?_, ?_⟩
  · intro L member
    obtain rfl := member.single
    exact ⟨header_mem, valid, by simp [Loop.subloops], by simp [Loop.subloops],
      by simp [Loop.subloops], entered⟩
  · intro S first T second _ _ _
    rw [List.mem_singleton.mp first, List.mem_singleton.mp second]
  · intro L member
    obtain rfl := List.mem_singleton.mp member
    exact entry

theorem Natural.single (correct : (LoopInfo.mk [.mk header blocks []]).Correct F)
    (nodup : blocks.Nodup) (reached : ∀ B ∈ blocks, F.Reachable B)
    (stays : ∀ B ∈ blocks, ∃ S ∈ blocks, F.Flow B S) (latch : ∃ B ∈ blocks, F.Flow B header) :
    (LoopInfo.mk [.mk header blocks []]).Natural F := by
  refine ⟨correct, ?_, by simp, ?_, ?_, ?_, ?_⟩
  all_goals
    intro L member
    obtain rfl := member.single
  · exact reached
  · exact List.nodup_nil
  · exact nodup
  · exact stays
  · exact latch

theorem Natural.none : (LoopInfo.mk []).Natural F := by
  have empty {L : Loop} : ¬ Mem L (LoopInfo.mk []) := by
    rintro ⟨T, top, -⟩
    cases top
  refine ⟨⟨fun member => absurd member empty, by simp, by simp⟩, ?_, by simp, ?_, ?_, ?_, ?_⟩
  all_goals exact fun member => absurd member empty

end LoopInfo

end Clou
