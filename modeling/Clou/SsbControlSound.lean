import Clou.SsbControl
import Clou.DataflowPaths

/-! The store-bypass control pass covers the paths on which its assumption about the store
buffer holds. -/

namespace Clou.SsbControl

open AttackerTaint Dataflow

section Effects

variable (AA : AliasAnalysis) (attackerTaint : List InstRef)

/-- What an instruction does to the buffer and to memory: a store commits the buffer, and
either puts its pointer in it or erases what it may alias. -/
inductive Effect where
  | put
  | erase
  | clear
  | keep
  deriving DecidableEq, Repr

def effect (inst : Inst) : Option Effect :=
  if inst.isStore then
    (getResult attackerTaint inst.pointerOperand).map fun taint => if taint then .erase else .put
  else some (if inst.isCall && !inst.isDebug then .clear else .keep)

namespace Effect

def buffer (pointer : Value) (stb : Finset STBEntry) : Effect → Finset STBEntry
  | put => {⟨pointer, 0⟩}
  | erase | clear => ∅
  | keep => stb

def memory (pointer : Value) (v : SsbValue) : Effect → Finset Value
  | put => commit v
  | erase => (commit v).filter (fun P => AA.query P pointer = .noAlias)
  | clear => ∅
  | keep => v.mem

end Effect

variable {AA attackerTaint}

theorem remaining_eq (v : SsbValue) : remaining v = ∅ := by
  apply Finset.filter_eq_empty_iff.mpr
  intro entry member
  rcases Finset.mem_image.mp member with ⟨old, -, rfl⟩
  simp [stbSize]

theorem mem_commit {v : SsbValue} {P : Value} :
    P ∈ commit v ↔ P ∈ v.mem ∨ ∃ entry ∈ v.stb, entry.pointer = P := by
  simp only [commit, aged, Finset.mem_union, Finset.mem_image, Finset.mem_filter]
  constructor
  · rintro (here | ⟨-, ⟨⟨entry, member, rfl⟩, -⟩, rfl⟩)
    · exact .inl here
    · exact .inr ⟨entry, member, rfl⟩
  · rintro (here | ⟨entry, member, rfl⟩)
    · exact .inl here
    · exact .inr ⟨_, ⟨⟨entry, member, rfl⟩, by simp [stbSize]⟩, rfl⟩

theorem effect_put {inst : Inst} (found : effect attackerTaint inst = some .put) :
    inst.isStore = true ∧ getResult attackerTaint inst.pointerOperand = some false := by
  unfold effect at found
  split at found
  · rename_i store
    rcases Option.map_eq_some_iff.mp found with ⟨taint, result, same⟩
    cases taint with
    | false => exact ⟨store, result⟩
    | true => cases same
  · split at found <;> cases found

theorem effect_erase {inst : Inst} (found : effect attackerTaint inst = some .erase) :
    inst.isStore = true ∧ getResult attackerTaint inst.pointerOperand = some true := by
  unfold effect at found
  split at found
  · rename_i store
    rcases Option.map_eq_some_iff.mp found with ⟨taint, result, same⟩
    cases taint with
    | false => cases same
    | true => exact ⟨store, result⟩
  · split at found <;> cases found

/-- With one place in the buffer, a transfer is the effect of the instruction. -/
theorem transfer_eq (M : Module) (I : InstRef) (v : SsbValue) :
    transfer M AA attackerTaint I v = (effect attackerTaint (M.deref I)).map fun effect =>
      ⟨effect.buffer (M.deref I).pointerOperand v.stb,
        effect.memory AA (M.deref I).pointerOperand v⟩ := by
  unfold transfer effect
  by_cases store : (M.deref I).isStore = true
  · rw [if_pos store, if_pos store, transferStore, Option.map_map]
    congr 1
    funext taint
    cases taint with
    | false => simp [remaining_eq, Effect.buffer, Effect.memory]
    | true => simp [remaining_eq, invalidate, Effect.buffer, Effect.memory]
  · rw [if_neg store, if_neg store]
    by_cases debug : (M.deref I).isDebug = true
    · simp [debug, Effect.buffer, Effect.memory]
    · by_cases call : (M.deref I).isCall = true
      · simp [debug, call, Effect.buffer, Effect.memory, SsbValue.empty]
      · simp [debug, call, Effect.buffer, Effect.memory]

def Below (AA : AliasAnalysis) (a b : SsbValue) : Prop :=
  ∀ P ∈ a.mem, ∃ Q ∈ b.mem, AA.query P Q = .mustAlias

theorem Below.refl (a : SsbValue) : Below AA a a := fun P member => ⟨P, member, AA.refl P⟩

variable {a b c : SsbValue}

theorem Below.trans (first : Below AA a b) (second : Below AA b c) : Below AA a c := by
  intro P member
  rcases first P member with ⟨Q, memberQ, must⟩
  rcases second Q memberQ with ⟨R, memberR, must'⟩
  exact ⟨R, memberR, AA.trans must must'⟩

theorem mem_meet {P : Value} :
    P ∈ (meet AA a b).mem ↔ (P ∈ a.mem ∧ ∃ Q ∈ b.mem, AA.query P Q = .mustAlias) ∨
      (P ∈ b.mem ∧ ∃ Q ∈ a.mem, AA.query Q P = .mustAlias) := by
  simp only [meet, mustPairs, Finset.mem_union, Finset.mem_image, Finset.mem_filter,
    Finset.mem_product, Prod.exists]
  constructor
  · rintro (⟨P, Q, ⟨⟨inA, inB⟩, must⟩, rfl⟩ | ⟨Q, P, ⟨⟨inA, inB⟩, must⟩, rfl⟩)
    · exact .inl ⟨inA, Q, inB, must⟩
    · exact .inr ⟨inB, Q, inA, must⟩
  · rintro (⟨inA, Q, inB, must⟩ | ⟨inB, Q, inA, must⟩)
    · exact .inl ⟨P, Q, ⟨⟨inA, inB⟩, must⟩, rfl⟩
    · exact .inr ⟨Q, P, ⟨⟨inA, inB⟩, must⟩, rfl⟩

theorem meet_below_left (a b : SsbValue) : Below AA (meet AA a b) a := by
  intro P member
  rcases mem_meet.mp member with ⟨inA, -⟩ | ⟨-, Q, inA, must⟩
  · exact ⟨P, inA, AA.refl P⟩
  · exact ⟨Q, inA, AA.symm must⟩

theorem meet_below_right (a b : SsbValue) : Below AA (meet AA a b) b := by
  intro P member
  rcases mem_meet.mp member with ⟨-, Q, inB, must⟩ | ⟨inB, -⟩
  · exact ⟨Q, inB, must⟩
  · exact ⟨P, inB, AA.refl P⟩

theorem below_meet (left : Below AA c a) (right : Below AA c b) : Below AA c (meet AA a b) := by
  intro R member
  rcases left R member with ⟨P, inA, mustP⟩
  rcases right R member with ⟨Q, inB, mustQ⟩
  exact ⟨P, mem_meet.mpr (.inl ⟨inA, Q, inB, AA.trans (AA.symm mustP) mustQ⟩), mustP⟩

/-- A buffered pointer that a store commits is erased by it, or is in the buffer or the
memory of `v` already. -/
def Held (AA : AliasAnalysis) (attackerTaint : List InstRef) (pointer : Value) (v : SsbValue)
    (P : Value) : Prop :=
  (getResult attackerTaint pointer = some true ∧ AA.query P pointer ≠ .noAlias) ∨
    ∃ Q, (Q ∈ v.mem ∨ ∃ entry ∈ v.stb, entry.pointer = Q) ∧ AA.query P Q = .mustAlias

/-- Transfers keep the order if the entries that the lower value commits are held by the
higher one. -/
theorem Below.transfer {M : Module} {I : InstRef} {d : SsbValue} (below : Below AA a b)
    (held : (M.deref I).isStore = true → ∀ entry ∈ a.stb,
      Held AA attackerTaint (M.deref I).pointerOperand b entry.pointer)
    (movedA : transfer M AA attackerTaint I a = some c)
    (movedB : transfer M AA attackerTaint I b = some d) : Below AA c d := by
  rw [transfer_eq] at movedA movedB
  rcases Option.map_eq_some_iff.mp movedA with ⟨effect, found, rfl⟩
  rw [found] at movedB
  obtain rfl := Option.some.inj movedB
  -- What the lower value has committed, the higher one has, unless it is erased.
  have committed (store : (M.deref I).isStore = true) (P : Value) (member : P ∈ commit a) :
      (getResult attackerTaint (M.deref I).pointerOperand = some true ∧
        AA.query P (M.deref I).pointerOperand ≠ .noAlias) ∨
      ∃ Q ∈ commit b, AA.query P Q = .mustAlias := by
    rcases mem_commit.mp member with inMem | ⟨entry, inStb, rfl⟩
    · rcases below P inMem with ⟨Q, memberQ, must⟩
      exact .inr ⟨Q, mem_commit.mpr (.inl memberQ), must⟩
    · rcases held store entry inStb with erased | ⟨Q, source, must⟩
      · exact .inl erased
      · exact .inr ⟨Q, mem_commit.mpr source, must⟩
  intro P member
  cases effect with
  | put =>
    rcases effect_put found with ⟨store, untainted⟩
    rcases committed store P member with ⟨tainted, -⟩ | covered
    · rw [untainted] at tainted
      cases tainted
    · exact covered
  | erase =>
    rcases Finset.mem_filter.mp member with ⟨source, kept⟩
    rcases committed (effect_erase found).1 P source with ⟨-, erased⟩ | ⟨Q, there, must⟩
    · exact absurd kept erased
    · refine ⟨Q, Finset.mem_filter.mpr ⟨there, ?_⟩, must⟩
      rw [← AA.congr_left _ must]
      exact kept
  | clear => cases member
  | keep => exact below P member

end Effects

section Simulation

variable (M : Module) (AA : AliasAnalysis) (attackerTaint : List InstRef) (f : FuncRef)

/-- The buffer that the pass has before instruction `i` of a block. Every block but the
first begins with the buffer of `top`, which no meet makes smaller. -/
def assumedBuffer (B : Nat) : Nat → Finset STBEntry
  | 0 => if B = 0 then ∅ else (top M f).stb
  | i + 1 =>
    match effect attackerTaint (M.deref ⟨f, B, i⟩) with
    | some effect => effect.buffer (M.deref ⟨f, B, i⟩).pointerOperand (assumedBuffer B i)
    | none => ∅

def Assumed (I : InstRef) (v : SsbValue) : Prop :=
  v.stb = assumedBuffer M attackerTaint f I.block I.index ∧ v.mem ⊆ stores M f

variable {M AA attackerTaint f}

theorem mem_top_stb {entry : STBEntry} :
    entry ∈ (top M f).stb ↔ entry.pointer ∈ stores M f ∧ entry.staleness = 0 := by
  rcases entry with ⟨pointer, staleness⟩
  simp [top, stbSize, eq_comm]

theorem mem_stores {P : Value} :
    P ∈ stores M f ↔ ∃ I ∈ M.insts f, (M.deref I).isStore ∧ (M.deref I).pointerOperand = P := by
  simp [stores, and_assoc]

theorem assumedBuffer_subset {B i : Nat} (valid : B < (M.func f).blocks.length)
    (bound : i ≤ ((M.func f).block B).length) :
    assumedBuffer M attackerTaint f B i ⊆ (top M f).stb := by
  induction i with
  | zero =>
    unfold assumedBuffer
    split
    · exact Finset.empty_subset _
    · exact Finset.Subset.refl _
  | succ i ih =>
    unfold assumedBuffer
    split
    · rename_i effect found
      cases effect with
      | put =>
        intro entry member
        obtain rfl := Finset.mem_singleton.mp member
        have inside : (⟨f, B, i⟩ : InstRef) ∈ M.insts f :=
          (Module.mem_insts ..).mpr ⟨rfl, valid, bound⟩
        exact mem_top_stb.mpr ⟨mem_stores.mpr ⟨_, inside, (effect_put found).1, rfl⟩, rfl⟩
      | erase => exact Finset.empty_subset _
      | clear => exact Finset.empty_subset _
      | keep => exact ih (Nat.le_of_succ_le bound)
    · exact Finset.empty_subset _

variable {b a : SsbValue}

theorem assumed_transfer {I : InstRef} (member : I ∈ M.insts f)
    (assumed : Assumed M attackerTaint f I a) (moved : transfer M AA attackerTaint I a = some b) :
    Assumed M attackerTaint f ⟨f, I.block, I.index + 1⟩ b := by
  rcases (Module.mem_insts ..).mp member with ⟨rfl, valid, bound⟩
  rw [transfer_eq] at moved
  rcases Option.map_eq_some_iff.mp moved with ⟨effect, found, rfl⟩
  have commits : commit a ⊆ stores M I.func := by
    intro P here
    rcases mem_commit.mp here with inMem | ⟨entry, inStb, rfl⟩
    · exact assumed.2 inMem
    · rw [assumed.1] at inStb
      exact (mem_top_stb.mp (assumedBuffer_subset valid (Nat.le_of_lt bound) inStb)).1
  constructor
  · simp only [assumedBuffer, found, assumed.1]
  · cases effect with
    | put => exact commits
    | erase => exact (Finset.filter_subset _ _).trans commits
    | clear => exact Finset.empty_subset _
    | keep => exact assumed.2

theorem meet_mem_subset {stores : Finset Value} (left : a.mem ⊆ stores) (right : b.mem ⊆ stores) :
    (meet AA a b).mem ⊆ stores := by
  intro P member
  rcases mem_meet.mp member with ⟨inA, -⟩ | ⟨inB, -⟩
  · exact left inA
  · exact right inB

theorem meet_stb_top (left : a.stb = (top M f).stb) (right : b.stb ⊆ (top M f).stb) :
    (meet AA a b).stb = (top M f).stb := by
  apply Finset.Subset.antisymm
  · intro entry member
    simp only [meet, stbPairs, Finset.mem_union, Finset.mem_image, Finset.mem_filter,
      Finset.mem_product, Prod.exists] at member
    rcases member with ((inA | inB) | ⟨p, q, ⟨⟨inA, inB⟩, -⟩, rfl⟩) | ⟨p, q, ⟨⟨inA, inB⟩, -⟩, rfl⟩
    · exact left ▸ inA
    · exact right inB
    · rcases mem_top_stb.mp (left ▸ inA) with ⟨stored, young⟩
      exact mem_top_stb.mpr ⟨stored, by simp [young]⟩
    · rcases mem_top_stb.mp (right inB) with ⟨stored, young⟩
      exact mem_top_stb.mpr ⟨stored, by simp [young]⟩
  · intro entry member
    simp only [meet, Finset.mem_union]
    exact .inl (.inl (.inl (left ▸ member)))

/-- A path step at which the assumed buffer is held by the value along the path. -/
def AssumptionHolds (M : Module) (AA : AliasAnalysis) (attackerTaint : List InstRef) (f : FuncRef)
    (I : InstRef) (v : SsbValue) : Prop :=
  (M.deref I).isStore = true → ∀ entry ∈ assumedBuffer M attackerTaint f I.block I.index,
    Held AA attackerTaint (M.deref I).pointerOperand v entry.pointer

/-- The pass simulates the paths whose steps meet its assumption. -/
def simulation (M : Module) (AA : AliasAnalysis) (attackerTaint : List InstRef) (f : FuncRef)
    (wellFormed : (M.func f).WellFormed) :
    Simulation (context M AA attackerTaint f) M f SsbValue where
  step := transfer M AA attackerTaint
  ok := AssumptionHolds M AA attackerTaint f
  Covers := fun s a => Below AA a s
  le := Below AA
  Known := Assumed M attackerTaint f
  Out := fun b => b.stb ⊆ (top M f).stb ∧ b.mem ⊆ stores M f
  le_refl := Below.refl
  le_trans := Below.trans
  covers_le := Below.trans
  meet_le_left := meet_below_left
  meet_le_right := meet_below_right
  le_meet := below_meet
  known_le_top := fun known P member => ⟨P, known.2 member, AA.refl P⟩
  out_le_top := fun out P member => ⟨P, out.2 member, AA.refl P⟩
  out_top := ⟨Finset.Subset.refl _, Finset.Subset.refl _⟩
  known_top := by
    intro J front inner
    exact ⟨by rw [front, assumedBuffer, if_neg inner]; rfl, Finset.Subset.refl _⟩
  known_meet := by
    intro J P a b front pred known out
    have inner : J.block ≠ 0 := by
      intro atEntry
      simp [atEntry, wellFormed.entry_preds] at pred
    have full : assumedBuffer M attackerTaint f J.block J.index = (top M f).stb := by
      rw [front, assumedBuffer, if_neg inner]
    refine ⟨?_, meet_mem_subset known.2 out.2⟩
    rw [full]
    exact meet_stb_top (known.1.trans full) out.1
  known_seq := fun member _ known moved => assumed_transfer member known moved
  out_last := by
    intro I a b member _ known moved
    have next := assumed_transfer member known moved
    rcases (Module.mem_insts ..).mp member with ⟨-, valid, bound⟩
    exact ⟨next.1 ▸ assumedBuffer_subset valid bound, next.2⟩
  transfer_le := by
    intro I a b c d _ knownA knownB below movedA movedB
    apply below.transfer _ movedA movedB
    intro _ entry member
    rw [knownA.1, ← knownB.1] at member
    exact .inr ⟨entry.pointer, .inr ⟨entry, member, rfl⟩, AA.refl _⟩
  simulates := by
    intro I s t a b _ known ok below stepped moved
    apply below.transfer _ moved stepped
    intro store entry member
    exact ok store entry (known.1 ▸ member)

end Simulation

section Paths

variable {M : Module} {AA : AliasAnalysis} {attackerTaint : List InstRef} {f : FuncRef}

/-- No store and no call comes before `I` in its block, which is not the first: the pass
takes every pointer that the function stores to for buffered. -/
def AssumesAll (M : Module) (attackerTaint : List InstRef) (I : InstRef) : Prop :=
  I.block ≠ 0 ∧ ∀ i < I.index, effect attackerTaint (M.deref ⟨I.func, I.block, i⟩) = some .keep

/-- The condition on a path: at the first store of a block, if no call comes before it,
every pointer that the function stores to is erased or is in the buffer or the memory. -/
def FirstStoreHeld (M : Module) (AA : AliasAnalysis) (attackerTaint : List InstRef) (f : FuncRef)
    (I : InstRef) (v : SsbValue) : Prop :=
  (M.deref I).isStore = true → AssumesAll M attackerTaint I → ∀ P ∈ stores M f,
    Held AA attackerTaint (M.deref I).pointerOperand v P

abbrev PathValue (M : Module) (AA : AliasAnalysis) (attackerTaint : List InstRef) (f : FuncRef)
    (ok : InstRef → SsbValue → Prop) : InstRef → SsbValue → Prop :=
  PathFold.Reach M.Next (transfer M AA attackerTaint) ok ⟨f, 0, 0⟩ .empty

/-- Outside of that case the assumed buffer is the one along the path. -/
theorem pathValue_walk (wellFormed : (M.func f).WellFormed) {I : InstRef} {v : SsbValue}
    (path : PathValue M AA attackerTaint f (FirstStoreHeld M AA attackerTaint f) I v) :
    I ∈ M.insts f ∧
    (v.stb = assumedBuffer M attackerTaint f I.block I.index ∨ AssumesAll M attackerTaint I) ∧
    Walk (simulation M AA attackerTaint f wellFormed) M.Next ⟨f, 0, 0⟩ .empty I v := by
  induction path with
  | start => exact ⟨Module.entry_mem_insts wellFormed, .inl rfl, .start⟩
  | @step I J v w _ held moved next ih =>
    rcases ih with ⟨member, buffer, walk⟩
    rcases (Module.mem_insts ..).mp member with ⟨func, valid, bound⟩
    have holds : AssumptionHolds M AA attackerTaint f I v := by
      intro store entry assumed
      rcases buffer with same | all
      · exact .inr ⟨entry.pointer, .inr ⟨entry, same ▸ assumed, rfl⟩, AA.refl _⟩
      · have inTop := assumedBuffer_subset valid (Nat.le_of_lt bound) assumed
        exact held store all entry.pointer (mem_top_stb.mp inTop).1
    refine ⟨next.mem_insts wellFormed member, ?_, .step walk holds moved next⟩
    rw [transfer_eq] at moved
    rcases Option.map_eq_some_iff.mp moved with ⟨effect, found, rfl⟩
    rcases next_cases next func with ⟨-, -, -, rfl⟩ | ⟨-, flow, front⟩
    · have deref : M.deref ⟨f, I.block, I.index⟩ = M.deref I := by rw [← func]
      simp only [assumedBuffer, deref, found]
      rcases buffer with same | ⟨inner, kept⟩
      · exact .inl (by rw [same])
      · cases effect with
        | put => exact .inl rfl
        | erase => exact .inl rfl
        | clear => exact .inl rfl
        | keep =>
          refine .inr ⟨inner, ?_⟩
          intro i before
          rcases Nat.lt_succ_iff_lt_or_eq.mp before with earlier | rfl
          · exact func ▸ kept i earlier
          · exact deref ▸ found
    · refine .inr ⟨?_, by rw [front]; simp⟩
      intro atEntry
      have pred := wellFormed.mem_preds.mpr ⟨valid, flow⟩
      simp [atEntry, wellFormed.entry_preds] at pred

theorem controlled_of_below {a v : SsbValue} (below : Below AA a v) {pointer : Value}
    (free : controlled AA pointer v = true) : controlled AA pointer a = true := by
  simp only [controlled, decide_eq_true_eq] at free ⊢
  intro P member must
  rcases below P member with ⟨Q, there, must'⟩
  exact free Q there (AA.trans must must')

/-- Where the pass stops, the memory it knows before an instruction is covered along every
path whose first stores are held; a load that is controlled on such a path is reported so. -/
theorem ssb_covers_paths (wellFormed : (M.func f).WellFormed) {LI : LoopInfo}
    (correct : LI.Correct (M.func f)) {fuel : Nat} {r : Values SsbValue}
    (stopped : runOnFunction M AA attackerTaint f LI fuel = some r) {I : InstRef} {v : SsbValue}
    (path : PathValue M AA attackerTaint f (FirstStoreHeld M AA attackerTaint f) I v) :
    ∃ a, r.ins.lookup I = some a ∧ (∀ P ∈ a.mem, ∃ Q ∈ v.mem, AA.query P Q = .mustAlias) ∧
      ∀ pointer, controlled AA pointer v = true → controlled AA pointer a = true := by
  let sim := simulation M AA attackerTaint f wellFormed
  have known : sim.Known ⟨f, 0, 0⟩ .empty := ⟨rfl, Finset.empty_subset _⟩
  have covers : sim.Covers .empty .empty := Below.refl _
  rcases transferLoop_sound wellFormed correct known stopped covers
    (pathValue_walk wellFormed path).2.2 with ⟨a, found, below⟩
  exact ⟨a, found, below, fun _ => controlled_of_below below⟩

/-- A constant is stored through `first`; a second block stores through `second`, reads
what is stored last, and stores through `last`. -/
def storesAndLoad (first second last : Nat) : Function where
  blocks :=
    [[⟨.store false, [.constant 0, .constant first], [], [], true, false, false⟩,
        ⟨.br, [], [], [1], true, false, false⟩],
      [⟨.store false, [.constant 0, .constant second], [], [], true, false, false⟩,
        ⟨.load, [.constant last], [], [], false, false, true⟩,
        ⟨.store false, [.constant 0, .constant last], [], [], true, false, false⟩,
        ⟨.ret, [], [], [], true, false, false⟩]]
  predecessors := [[], [0]]
  argIsPointer := []

def storesModule (first second last : Nat) : Module := ⟨[storesAndLoad first second last]⟩

theorem noLoops_correct (F : Function) : (LoopInfo.mk []).Correct F where
  loop := by
    rintro L ⟨T, member, -⟩
    cases member
  disjoint := by simp
  entry := by simp

/-- All stores go through one pointer, which the first block has buffered. -/
theorem onePointer_covered :
    ∃ r, runOnFunction (storesModule 1 1 1) (aliasByRepresentative id) [] 0 ⟨[]⟩ 5 = some r ∧
      ∃ a, r.ins.lookup ⟨0, 1, 1⟩ = some a ∧
        (∀ P ∈ a.mem, ∃ Q ∈ ({.constant 1} : Finset Value),
          (aliasByRepresentative id).query P Q = .mustAlias) := by
  have stops : (runOnFunction (storesModule 1 1 1) (aliasByRepresentative id) [] 0 ⟨[]⟩ 5).isSome :=
    by decide +kernel
  rcases Option.isSome_iff_exists.mp stops with ⟨r, stopped⟩
  have wellFormed : ((storesModule 1 1 1).func 0).WellFormed :=
    Function.wellFormed_of_test (by decide)
  let Path := PathValue (storesModule 1 1 1) (aliasByRepresentative id) [] 0
    (FirstStoreHeld (storesModule 1 1 1) (aliasByRepresentative id) [] 0)
  have front : Path ⟨0, 0, 0⟩ .empty := .start
  have stored : Path ⟨0, 0, 1⟩ ⟨{⟨.constant 1, 0⟩}, ∅⟩ :=
    front.step (fun _ all => absurd rfl all.1) (by decide) (.seq (by decide))
  have second : Path ⟨0, 1, 0⟩ ⟨{⟨.constant 1, 0⟩}, ∅⟩ :=
    stored.step (fun store => absurd store (by decide)) (by decide) (.jump (by decide) (by decide))
  have held : FirstStoreHeld (storesModule 1 1 1) (aliasByRepresentative id) [] 0 ⟨0, 1, 0⟩
      ⟨{⟨.constant 1, 0⟩}, ∅⟩ := by
    intro _ _ P member
    obtain rfl : P = .constant 1 := by
      have all : ∀ P ∈ stores (storesModule 1 1 1) 0, P = .constant 1 := by decide
      exact all P member
    exact .inr ⟨.constant 1, .inr ⟨_, Finset.mem_singleton_self _, rfl⟩, by decide⟩
  have load : Path ⟨0, 1, 1⟩ ⟨{⟨.constant 1, 0⟩}, {.constant 1}⟩ :=
    second.step held (by decide) (.seq (by decide))
  rcases ssb_covers_paths wellFormed (noLoops_correct _) stopped load with ⟨a, found, covered, -⟩
  exact ⟨r, stopped, a, found, covered⟩

/-- The load reads through a pointer that is stored to only after it: on the path nothing
is in memory there, but the pass has committed the buffer of `top` at the store before. -/
theorem laterStore_not_covered :
    ((storesModule 1 1 2).func 0).WellFormed ∧
    (LoopInfo.mk []).Correct ((storesModule 1 1 2).func 0) ∧
    PathValue (storesModule 1 1 2) (aliasByRepresentative id) [] 0 (fun _ _ => True) ⟨0, 1, 1⟩
      ⟨{⟨.constant 1, 0⟩}, {.constant 1}⟩ ∧
    ∃ r, runOnFunction (storesModule 1 1 2) (aliasByRepresentative id) [] 0 ⟨[]⟩ 5 = some r ∧
      ∃ a, r.ins.lookup ⟨0, 1, 1⟩ = some a ∧
        (∃ P ∈ a.mem, ∀ Q ∈ ({.constant 1} : Finset Value),
          (aliasByRepresentative id).query P Q ≠ .mustAlias) ∧
        controlled (aliasByRepresentative id) (.constant 2) a = false ∧
        controlled (aliasByRepresentative id) (.constant 2)
          ⟨{⟨.constant 1, 0⟩}, {.constant 1}⟩ = true := by
  refine ⟨Function.wellFormed_of_test (by decide), noLoops_correct _, ?_, ?_⟩
  · let Path := PathValue (storesModule 1 1 2) (aliasByRepresentative id) [] 0 (fun _ _ => True)
    have front : Path ⟨0, 0, 0⟩ .empty := .start
    have stored : Path ⟨0, 0, 1⟩ ⟨{⟨.constant 1, 0⟩}, ∅⟩ :=
      front.step trivial (by decide) (.seq (by decide))
    have second : Path ⟨0, 1, 0⟩ ⟨{⟨.constant 1, 0⟩}, ∅⟩ :=
      stored.step trivial (by decide) (.jump (by decide) (by decide))
    exact second.step trivial (by decide) (.seq (by decide))
  · have value : ((runOnFunction (storesModule 1 1 2) (aliasByRepresentative id) [] 0 ⟨[]⟩
        5).bind fun r => (r.ins.lookup ⟨0, 1, 1⟩).map fun a =>
          (decide (Value.constant 2 ∈ a.mem), controlled (aliasByRepresentative id) (.constant 2) a)) =
        some (true, false) := by decide +kernel
    rcases Option.bind_eq_some_iff.mp value with ⟨r, stopped, value⟩
    rcases Option.map_eq_some_iff.mp value with ⟨a, found, same⟩
    simp only [Prod.mk.injEq, decide_eq_true_eq] at same
    exact ⟨r, stopped, a, found, ⟨.constant 2, same.1, by decide⟩, same.2, by decide⟩

end Paths

end Clou.SsbControl
