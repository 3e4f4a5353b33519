import Clou.Acyclic
import Clou.Layout
import Mathlib.Data.List.Lex
import Mathlib.Data.Prod.Lex

/-! The order of the frames of a function whose cycles are all those of its loops: control moves
forward in the iterations of the loops and, within an iteration, along the blocks. -/

namespace Clou.Unrolled

section

variable (F : Function) (LI : LoopInfo)

def Forward (B S : Nat) : Prop :=
  B < F.blocks.length ∧ F.Flow B S ∧ ∀ L, LI.Mem L → B ∈ L.blocks → S ≠ L.header

def Reducible : Prop := Acyclic (Forward F LI)

inductive Reached : Nat → Nat → Prop
  | entry : Reached 0 0
  | step {n B S} : Reached n B → F.Flow B S → Reached (n + 1) S

end

variable {B : Nat} {L : Loop}

section

variable {F : Function} {LI : LoopInfo}

theorem Reached.reachable {n B : Nat} (reached : Reached F n B) : F.Reachable B := by
  induction reached with
  | entry => exact .refl
  | step _ flow ih => exact ih.tail flow

theorem exists_reached (reachable : F.Reachable B) : ∃ n, Reached F n B := by
  induction reachable with
  | refl => exact ⟨0, .entry⟩
  | tail _ flow ih =>
    rcases ih with ⟨n, reached⟩
    exact ⟨n + 1, reached.step flow⟩

theorem reachable_valid (wellFormed : F.WellFormed) (reachable : F.Reachable B) :
    B < F.blocks.length := by
  induction reachable with
  | refl => exact List.length_pos_iff.mpr wellFormed.defined
  | tail _ flow ih => exact wellFormed.succ_lt ih flow

/-- On the way to a block of a loop, control comes by its header. -/
theorem Reached.header (correct : LI.Correct F) (member : LI.Mem L) {n B : Nat}
    (reached : Reached F n B) (inside : B ∈ L.blocks) : ∃ m ≤ n, Reached F m L.header := by
  induction reached with
  | entry => exact absurd inside (correct.entry_outside member)
  | @step n B S reached flow ih =>
    by_cases before : B ∈ L.blocks
    · rcases ih before with ⟨m, sooner, header⟩
      exact ⟨m, sooner.trans (Nat.le_succ n), header⟩
    · have first := (correct.loop member).entered reached.reachable flow inside before
      exact ⟨n + 1, Nat.le_refl _, first ▸ reached.step flow⟩

/-- The blocks of a loop are reached from its header by going forward. -/
theorem header_forward (wellFormed : F.WellFormed) (natural : LI.Natural F) (member : LI.Mem L)
    (inside : B ∈ L.blocks) : Relation.ReflTransGen (Forward F LI) L.header B := by
  rcases exists_reached (natural.reached member B inside) with ⟨n, reached⟩
  induction n using Nat.strong_induction_on generalizing B with
  | _ n ih =>
    cases reached with
    | entry => exact absurd inside (natural.entry_outside member)
    | @step n P B reached flow =>
      by_cases before : P ∈ L.blocks
      · by_cases forward : Forward F LI P B
        · exact (ih n (Nat.lt_succ_self n) before reached).tail forward
        · -- Control came back to a header, which it has passed before.
          have back : ∃ M, LI.Mem M ∧ P ∈ M.blocks ∧ B = M.header := by
            by_contra none
            refine forward ⟨reachable_valid wellFormed reached.reachable, flow, ?_⟩
            exact fun M here around same => none ⟨M, here, around, same⟩
          rcases back with ⟨M, here, around, rfl⟩
          rcases reached.header natural.toCorrect here around with ⟨m, sooner, header⟩
          exact ih m (Nat.lt_succ_of_le sooner) inside header
      · rw [(natural.loop member).entered reached.reachable flow inside before]

end

section

variable (F : Function) (LI : LoopInfo)

open Classical in
/-- A number for each block that grows along forward edges. Blocks that control does not reach
come first. -/
noncomputable def blockRank (B : Nat) : Nat :=
  (ancestors (Forward F LI) (Finset.range F.blocks.length) B).card +
    if F.Reachable B then F.blocks.length + 1 else 0

variable {F LI}

theorem card_ancestors (B : Nat) :
    (ancestors (Forward F LI) (Finset.range F.blocks.length) B).card ≤ F.blocks.length := by
  simpa using Finset.card_le_card
    (fun P before => (mem_ancestors.mp before).1 :
      ancestors (Forward F LI) (Finset.range F.blocks.length) B ⊆ Finset.range F.blocks.length)

theorem blockRank_unreached {B S : Nat} (unreached : ¬ F.Reachable B) (reached : F.Reachable S) :
    blockRank F LI B < blockRank F LI S := by
  have few : (ancestors (Forward F LI) (Finset.range F.blocks.length) B).card ≤ F.blocks.length :=
    card_ancestors B
  simp only [blockRank, if_neg unreached, if_pos reached]
  omega

theorem blockRank_forward (reducible : Reducible F LI) {B S : Nat} (forward : Forward F LI B S) :
    blockRank F LI B < blockRank F LI S := by
  have more := Acyclic.ancestors_lt reducible (Finset.mem_range.mpr forward.1) forward
  by_cases reached : F.Reachable B
  · have onward : F.Reachable S := reached.tail forward.2.1
    simp only [blockRank, if_pos reached, if_pos onward]
    omega
  · by_cases onward : F.Reachable S
    · exact blockRank_unreached reached onward
    · simp only [blockRank, if_neg reached, if_neg onward]
      omega

theorem blockRank_header (wellFormed : F.WellFormed) (natural : LI.Natural F)
    (reducible : Reducible F LI) (member : LI.Mem L) (inside : B ∈ L.blocks) :
    blockRank F LI L.header ≤ blockRank F LI B := by
  have path := header_forward wellFormed natural member inside
  clear inside
  induction path with
  | refl => exact Nat.le_refl _
  | tail _ forward ih => exact ih.trans (blockRank_forward reducible forward).le

end

/-! Places -/

/-- Where a block in some iterations comes: by the rank of the loop or block at each level, and
by the iteration of the loop. -/
def place (rank : Nat → Nat) : List Loop → Nat → List Nat → List Nat
  | _, B, [] => [rank B]
  | loops, B, i :: iters =>
    match loops.find? (fun T => decide (B ∈ T.blocks)) with
    | some T => rank T.header :: i :: place rank T.subloops B iters
    | none => [rank B]

section

variable {P : Program} {F : Function} {LI : LoopInfo} {loops : List Loop} {rank : Nat → Nat}

theorem place_loop (side : SideBySide F LI loops) {T : Loop} (member : T ∈ loops)
    (inside : B ∈ T.blocks) (i : Nat) (iters : List Nat) :
    place rank loops B (i :: iters) = rank T.header :: i :: place rank T.subloops B iters := by
  simp [place, side.find_eq member inside]

structure Ranks (F : Function) (LI : LoopInfo) (rank : Nat → Nat) : Prop where
  forward : ∀ {B S}, Forward F LI B S → rank B < rank S
  header : ∀ {L B}, LI.Mem L → B ∈ L.blocks → rank L.header ≤ rank B
  unreached : ∀ {B S}, ¬ F.Reachable B → F.Reachable S → rank B < rank S

theorem ranks_block (wellFormed : F.WellFormed) (natural : LI.Natural F)
    (reducible : Reducible F LI) : Ranks F LI (blockRank F LI) :=
  ⟨blockRank_forward reducible,
    fun member inside => blockRank_header wellFormed natural reducible member inside,
    blockRank_unreached⟩

/-- Entering a block from a lower one, or from one that is not reached, control comes further. -/
theorem lt_place_enterBlock (side : SideBySide F LI loops) (ranks : Ranks F LI rank) {B S : Nat}
    (forward : Forward F LI B S) (outside : ∀ T ∈ loops, S ∈ T.blocks → B ∉ T.blocks) {low : Nat}
    (below : low ≤ rank B) (rest : List Nat) :
    low :: rest < place rank loops (enterBlock loops S).1 (enterBlock loops S).2 := by
  by_cases inner : ∃ T ∈ loops, S ∈ T.blocks
  · rcases inner with ⟨T, member, inside⟩
    rw [enterBlock_loop side member inside, place_loop side member (side.header_mem member)]
    apply List.cons_lt_cons_iff.mpr
    left
    have known := side.mem T member
    by_cases reached : F.Reachable B
    · have first := (side.natural.loop known).entered reached forward.2.1 inside
        (outside T member inside)
      rw [← first]
      exact below.trans_lt (ranks.forward forward)
    · exact below.trans_lt (ranks.unreached reached
        (side.natural.reached known _ (side.header_mem member)))
  · have away : ∀ T ∈ loops, S ∉ T.blocks := fun T member inside => inner ⟨T, member, inside⟩
    rw [enterBlock_own away]
    exact List.cons_lt_cons_iff.mpr (.inl (below.trans_lt (ranks.forward forward)))

/-- A jump leads further. Loops around the block that control goes back to the header of must be
among the loops of the level. -/
theorem place_lt_jumpTo (ranks : Ranks F LI rank) {iters : List Nat} (fits : Fits P loops B iters)
    (side : SideBySide F LI loops) (valid : B < F.blocks.length) {S : Nat} (flow : F.Flow B S)
    (back : ∀ L, LI.Mem L → B ∈ L.blocks → S = L.header → ∃ T ∈ loops, L.Within T) :
    place rank loops B iters <
      place rank loops (jumpTo loops B S iters).1 (jumpTo loops B S iters).2 := by
  induction fits with
  | @own loops B outside =>
    have forward : Forward F LI B S := by
      refine ⟨valid, flow, fun L member inside same => ?_⟩
      rcases back L member inside same with ⟨T, here, within⟩
      exact outside T here (side.natural.inside within (side.mem T here) B inside)
    exact lt_place_enterBlock side ranks forward (fun T member _ => outside T member) le_rfl []
  | @inside loops T B i iters member inside _ _ ih =>
    have within {L : Loop} (around : LI.Mem L) (here : B ∈ L.blocks) (same : S = L.header) :
        L.Within T := by
      rcases back L around here same with ⟨T', member', within⟩
      have whole := side.natural.inside within (side.mem T' member') B here
      rw [side.disjoint T member T' member' B inside whole]
      exact within
    rw [place_loop side member inside]
    by_cases stays : S ∈ T.blocks
    · rw [jumpTo_inside side member inside stays]
      split
      · rename_i header
        rw [place_loop side member stays]
        exact List.cons_lt_cons_iff.mpr (.inr ⟨rfl,
          List.cons_lt_cons_iff.mpr (.inl (Nat.lt_succ_self i))⟩)
      · rename_i onward
        have target : (jumpTo T.subloops B S iters).1 ∈ T.blocks :=
          jumpTo_mem (Q := (· ∈ T.blocks)) (side.sub member) (fun S sub =>
            (side.natural.loop (side.mem T member)).sub_mem S sub) stays
        rw [place_loop side member target]
        refine List.cons_lt_cons_iff.mpr (.inr ⟨rfl, List.cons_lt_cons_iff.mpr (.inr ⟨rfl, ?_⟩)⟩)
        apply ih (side.sub member) valid flow
        intro L around here same
        cases within around here same with
        | self => exact absurd same onward
        | sub sub deeper => exact ⟨_, sub, deeper⟩
    · rw [jumpTo_out side member _ inside stays]
      have forward : Forward F LI B S := by
        refine ⟨valid, flow, fun L around here same => stays ?_⟩
        rw [same]
        exact side.natural.inside (within around here same) (side.mem T member) _
          (side.natural.loop around).header_mem
      refine lt_place_enterBlock side ranks forward ?_ (ranks.header (side.mem T member) inside) _
      intro T' member' there here
      rw [side.disjoint T member T' member' B inside here] at stays
      exact stays there

end

section

variable {P : Program}

noncomputable def framePlace (P : Program) (fr : Frame) : Lex (List Nat × Nat) :=
  toLex (place (blockRank (P.M.func fr.func) (P.loopInfo fr.func)) (P.loopInfo fr.func).top fr.block
    fr.iters, fr.index)

theorem framePlace_lt {f : FuncRef} (ok : FunctionOk P f)
    (reducible : Reducible (P.M.func f) (P.loopInfo f)) {fr fr' : Frame} (inside : FrameIn P f fr)
    (link : Link P fr fr') : framePlace P fr < framePlace P fr' := by
  have func := inside.func
  subst func
  cases link with
  | seq _ => exact Prod.Lex.toLex_lt_toLex.mpr (.inr ⟨rfl, Nat.lt_succ_self _⟩)
  | jump _ flow jump _ =>
    refine Prod.Lex.toLex_lt_toLex.mpr (.inl ?_)
    have further := place_lt_jumpTo (ranks_block ok.wellFormed ok.natural reducible) inside.fits
      (SideBySide.top ok.natural) inside.laid.1 flow fun L member _ _ => member
    rw [jump] at further
    exact further

end

end Clou.Unrolled
