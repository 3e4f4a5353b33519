import Clou.TaintOracle

/-! What the attacker-control pass computes covers what happens along each path. -/

namespace Clou.AttackerTaint

open Oracle

variable (ctx : Context)

/-- `v` has no controlled instruction that `a` lacks, and every store that `a` relies on
is one of `v`, up to must-aliasing. -/
structure Covers (v a : TaintValue) : Prop where
  insts : v.insts ⊆ a.insts
  stores : MustCovered ctx.AA v.stores a.stores

/-- A tainted store erases, with every pointer it erases, the must-aliasing pointers of
the function's stores and annotations too. -/
def Respected (f : FuncRef) (I : InstRef) (v : TaintValue) : Prop :=
  (ctx.M.deref I).isStore = true →
  inTaint ctx (ctx.M.deref I).valueOperand v = some true →
  ∀ Q ∈ v.stores, aliasResult ctx (ctx.M.deref I).pointerOperand Q ≠ some .noAlias →
    ∀ P ∈ (top ctx f).stores ∪ ctx.annotatedUncontrolled, ctx.AA.query P Q = .mustAlias →
      aliasResult ctx (ctx.M.deref I).pointerOperand P ≠ some .noAlias

variable {ctx}

variable {b a v w : TaintValue} {P : Value} {I : InstRef} {f : FuncRef}

theorem Covers.of_same (covers : Covers ctx v a) (same : a.same b = true) : Covers ctx v b := by
  have sets := same_iff.mp same
  exact ⟨List.Subset.trans covers.insts sets.1.1, covers.stores.mono sets.2.2⟩

/-! Joins -/

theorem meet_paired (member : P ∈ (meet ctx.AA.query ctx a b).stores) :
    (∃ Q ∈ a.stores, ctx.AA.query P Q = .mustAlias) ∧
      ∃ Q ∈ b.stores, ctx.AA.query P Q = .mustAlias := by
  rcases of_mem_meet member with ⟨VA, left, VB, right, must, rfl | rfl⟩
  · exact ⟨⟨P, left, ctx.AA.refl P⟩, VB, right, must⟩
  · exact ⟨⟨VA, left, ctx.AA.symm must⟩, P, right, ctx.AA.refl P⟩

theorem Covers.meet_left (covers : Covers ctx v a) (b : TaintValue) :
    Covers ctx v (meet ctx.AA.query ctx a b) := by
  constructor
  · exact fun I member => List.mem_union_iff.mpr (.inl (covers.insts member))
  · intro P member
    rcases (meet_paired member).1 with ⟨Q, left, must⟩
    rcases covers.stores Q left with ⟨R, present, must'⟩
    exact ⟨R, present, ctx.AA.trans must must'⟩

theorem Covers.meet_right (covers : Covers ctx v b) (a : TaintValue) :
    Covers ctx v (meet ctx.AA.query ctx a b) := by
  constructor
  · exact fun I member => List.mem_union_iff.mpr (.inr (covers.insts member))
  · intro P member
    rcases (meet_paired member).2 with ⟨Q, right, must⟩
    rcases covers.stores Q right with ⟨R, present, must'⟩
    exact ⟨R, present, ctx.AA.trans must must'⟩

/-! Transfer -/

section

variable (covers : Covers ctx v a)

include covers

theorem Covers.taints (taints : Taints ctx.AA.query ctx I v) : Taints ctx.AA.query ctx I a := by
  refine taints_of covers.insts (fun L S member must => ?_) taints
  rcases covers.stores S member with ⟨Q, present, must'⟩
  exact ⟨Q, present, ctx.AA.trans must must'⟩

/-- Whatever a store leaves in the pass, tainted or not, it leaves on the path. -/
theorem Covers.storeKeeps (members : Members ctx f a) (store : (ctx.M.deref I).isStore = true)
    (respected : Respected ctx f I v) (keeps : StoreKeeps ctx.AA.query ctx (ctx.M.deref I) a P) :
    ∃ Q, StoreKeeps ctx.AA.query ctx (ctx.M.deref I) v Q ∧ ctx.AA.query P Q = .mustAlias := by
  unfold StoreKeeps at keeps ⊢
  by_cases taint : inTaint ctx (ctx.M.deref I).valueOperand v = some true
  · rw [if_pos (inTaint_mono covers.insts taint)] at keeps
    rcases covers.stores P keeps.1 with ⟨Q, present, must⟩
    have stays : aliasResult ctx (ctx.M.deref I).pointerOperand Q = some .noAlias := by
      by_contra gone
      have known := List.mem_union_iff.mpr (members.stores P keeps.1)
      exact respected store taint Q present gone P known must keeps.2
    exact ⟨Q, by rw [if_pos taint]; exact ⟨present, stays⟩, must⟩
  · have left : P = (ctx.M.deref I).pointerOperand ∨
        P ∈ a.stores ∧ ctx.AA.query (ctx.M.deref I).pointerOperand P ≠ .mustAlias := by
      split at keeps
      · exact .inr ⟨keeps.1, must_of_aliasResult keeps.2⟩
      · exact keeps
    simp only [if_neg taint]
    rcases left with rfl | ⟨old, distinct⟩
    · exact ⟨_, .inl rfl, ctx.AA.refl _⟩
    · rcases covers.stores P old with ⟨Q, present, must⟩
      exact ⟨Q, .inr ⟨present, ctx.AA.congr_right _ must ▸ distinct⟩, must⟩

theorem Covers.keeps (members : Members ctx f a) (respected : Respected ctx f I v)
    (keeps : Keeps ctx.AA.query ctx I a P) :
    ∃ Q, Keeps ctx.AA.query ctx I v Q ∧ ctx.AA.query P Q = .mustAlias := by
  simp only [Keeps] at keeps ⊢
  by_cases store : (ctx.M.deref I).isStore = true
  · simp only [if_pos store] at keeps ⊢
    exact covers.storeKeeps members store respected keeps
  · simp only [if_neg store] at keeps ⊢
    rcases covers.stores P keeps.1 with ⟨Q, present, must⟩
    exact ⟨Q, ⟨present, keeps.2⟩, must⟩

theorem transfer_covers (members : Members ctx f a) (concrete : transfer ctx I v = some w)
    (abstract : transfer ctx I a = some b) :
    w.insts ⊆ b.insts ∧ (Respected ctx f I v → Covers ctx w b) := by
  have insts : w.insts ⊆ b.insts := by
    intro J member
    rw [(transfer_spec concrete).1] at member
    rw [(transfer_spec abstract).1]
    exact member.imp (fun old => covers.insts old) fun new => ⟨new.1, covers.taints new.2⟩
  refine ⟨insts, fun respected => ⟨insts, fun P member => ?_⟩⟩
  simp only [(transfer_spec concrete).2]
  rcases ((transfer_spec abstract).2 P).mp member with keeps | annotated
  · rcases covers.keeps members respected keeps with ⟨Q, keeps', must⟩
    exact ⟨Q, .inl keeps', must⟩
  · exact ⟨P, .inr annotated, ctx.AA.refl P⟩

end

end Clou.AttackerTaint
