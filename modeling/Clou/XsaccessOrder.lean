import Clou.ComLaws

/-! The constraints on the order of accesses to the microarchitectural state: program
order among architectural accesses to one state, and fences. -/

namespace Clou.Com

open Z3

section

variable (aeg : Aeg) (window : List NodeRef)

def canXsread (ref : NodeRef) : Bool := !(xsread aeg ref).isFalse
def canXswrite (ref : NodeRef) : Bool := !(xswrite aeg ref).isFalse

def xsaccessOrderInit : Term ComValuation Int := fun _ => 0

def tracksXsread (ref : NodeRef) : Bool :=
  decide (ref ∈ window) && hasXstate aeg ref && canXsread aeg ref

def tracksXswrite (ref : NodeRef) : Bool :=
  decide (ref ∈ window) && hasXstate aeg ref && canXswrite aeg ref

/-- For each state, the place of its last writer among the first `n` nodes. -/
def orderMem : Nat → Term ComValuation (Int → Int)
  | 0 => constArray xsaccessOrderInit
  | n + 1 =>
    if tracksXswrite aeg window n then
      conditionalStore (orderMem n) (xstate n) (xsaccessOrder n)
        (and (arch aeg n) (xswrite aeg n))
    else orderMem n

def archOrderAt (ref : NodeRef) : Constraint ComValuation :=
  (implies (and (arch aeg ref) (xsread aeg ref))
    (lt (select (orderMem aeg window ref) (xstate ref)) (xsaccessOrder ref)),
    "xsread xswrite arch order " ++ toString ref)

def archOrder : List (Constraint ComValuation) :=
  (aeg.po.reversePostorder.filter (tracksXsread aeg window)).map (archOrderAt aeg window)

def placed (refs : List NodeRef) : List NodeRef :=
  refs.filter (fun ref => decide (ref ∈ window) && hasXstate aeg ref)

def beforeFence (fence : NodeRef) : List NodeRef :=
  placed aeg window (aeg.po.reversePostorder.takeWhile (· != fence))

def afterFence (fence : NodeRef) : List NodeRef :=
  placed aeg window (aeg.po.reversePostorder.dropWhile (· != fence)).tail

/-- A node that turns out not to access the state counts with the initial value. -/
def orderOrInit (ref : NodeRef) : Term ComValuation Int :=
  ite (xsaccess aeg ref) (xsaccessOrder ref) xsaccessOrderInit

def fenceOrder (fence : NodeRef) : List (Constraint ComValuation) :=
  match (beforeFence aeg window fence).map (orderOrInit aeg),
    (afterFence aeg window fence).map (orderOrInit aeg) with
  | before :: befores, after :: afters =>
    [(lt (maxOf before befores) (minOf after afters), "fence order " ++ toString fence)]
  | _, _ => []

def assertXsaccessOrder : List (Constraint ComValuation) :=
  archOrder aeg window ++ (window.filter aeg.isFence).flatMap (fenceOrder aeg window)

end

def Holds (v : ComValuation) (constraints : List (Constraint ComValuation)) : Prop :=
  ∀ constraint ∈ constraints, constraint.1.eval v = true

instance (v : ComValuation) (constraints : List (Constraint ComValuation)) :
    Decidable (Holds v constraints) :=
  inferInstanceAs (Decidable (∀ constraint ∈ constraints, constraint.1.eval v = true))

section ProgramOrder

variable {aeg : Aeg} {window : List NodeRef} {v : ComValuation}

/-- Architectural accesses to one state are ordered like the nodes when the first writes. -/
def RespectsProgramOrder (aeg : Aeg) (window : List NodeRef) (v : ComValuation) : Prop :=
  ∀ a ∈ window, ∀ b ∈ window, hasXstate aeg a = true → hasXstate aeg b = true →
    (arch aeg a).eval v = true → (arch aeg b).eval v = true → a < b →
    (xswrite aeg a).eval v = true → (xsaccess aeg b).eval v = true → v.xstate a = v.xstate b →
    v.xsaccessOrder a < v.xsaccessOrder b

theorem orderMem_eq (n : Nat) :
    orderMem aeg window n =
      storeAll xstate xsaccessOrder (fun ref => and (arch aeg ref) (xswrite aeg ref))
        (constArray xsaccessOrderInit)
        ((List.range n).filter (tracksXswrite aeg window)) := by
  induction n with
  | zero => rfl
  | succ n ih =>
    rw [orderMem, ih, List.range_succ, List.filter_append, storeAll_append]
    by_cases selected : tracksXswrite aeg window n = true <;> simp [selected, storeAll]

variable {ref b a : NodeRef}

theorem tracksXsread_iff :
    tracksXsread aeg window ref = true ↔
      ref ∈ window ∧ hasXstate aeg ref = true ∧ canXsread aeg ref = true := by
  simp [tracksXsread, and_assoc]

theorem tracksXswrite_iff :
    tracksXswrite aeg window ref = true ↔
      ref ∈ window ∧ hasXstate aeg ref = true ∧ canXswrite aeg ref = true := by
  simp [tracksXswrite, and_assoc]

theorem canXsread_of_eval (holds : (xsread aeg ref).eval v = true) : canXsread aeg ref = true := by
  rw [canXsread, xsread, isFalse_makeAccess]
  simpa using not_no_of_eval holds

theorem canXswrite_of_eval (holds : (xswrite aeg ref).eval v = true) :
    canXswrite aeg ref = true := by
  rw [canXswrite, xswrite, isFalse_makeAccess]
  simpa using not_no_of_eval holds

theorem lt_of_hasXstate (place : hasXstate aeg ref = true) : ref < aeg.size := by
  apply variant_of_kind
  intro unknown
  simp [hasXstate, unknown, Kind.mayXsread, Kind.mayXswrite] at place

theorem archOrder_apply (satisfied : Holds v (archOrder aeg window)) (member : b ∈ window)
    (place : hasXstate aeg b = true) (runs : (arch aeg b).eval v = true)
    (reads : (xsread aeg b).eval v = true) :
    orderMem aeg window b v (v.xstate b) < v.xsaccessOrder b := by
  have selected : b ∈ aeg.po.reversePostorder.filter (tracksXsread aeg window) :=
    List.mem_filter.mpr ⟨List.mem_range.mpr (lt_of_hasXstate place),
      tracksXsread_iff.mpr ⟨member, place, canXsread_of_eval reads⟩⟩
  have holds := satisfied _ (List.mem_map_of_mem selected)
  simpa [archOrderAt, runs, reads, select, xstate, xsaccessOrder] using holds

/-- The memory holds the place of the last writer before a node, if there is one. -/
theorem orderMem_cases (aeg : Aeg) (window : List NodeRef) (v : ComValuation) (n : Nat)
    (state : Int) :
    (∃ w, tracksXswrite aeg window w = true ∧ w < n ∧ (arch aeg w).eval v = true ∧
        (xswrite aeg w).eval v = true ∧ v.xstate w = state ∧
        (∀ u, tracksXswrite aeg window u = true → u < n → (arch aeg u).eval v = true →
          (xswrite aeg u).eval v = true → v.xstate u = state → u ≤ w) ∧
        orderMem aeg window n v state = v.xsaccessOrder w) ∨
      ((∀ u, tracksXswrite aeg window u = true → u < n → (arch aeg u).eval v = true →
          (xswrite aeg u).eval v = true → v.xstate u ≠ state) ∧
        orderMem aeg window n v state = 0) := by
  have sorted : ((List.range n).filter (tracksXswrite aeg window)).Pairwise (· < ·) :=
    List.pairwise_lt_range.filter _
  have selected {u : NodeRef} (tracked : tracksXswrite aeg window u = true) (before : u < n) :
      u ∈ (List.range n).filter (tracksXswrite aeg window) :=
    List.mem_filter.mpr ⟨List.mem_range.mpr before, tracked⟩
  rw [orderMem_eq]
  rcases storeAll_cases xstate xsaccessOrder (fun ref => and (arch aeg ref) (xswrite aeg ref))
    (constArray xsaccessOrderInit) sorted v state with
    ⟨w, present, ⟨guard, here⟩, greatest, result⟩ | ⟨absent, result⟩
  · obtain ⟨earlier, tracked⟩ := List.mem_filter.mp present
    rw [eval_and, Bool.and_eq_true] at guard
    refine .inl ⟨w, tracked, List.mem_range.mp earlier, guard.1, guard.2, here, ?_, result⟩
    intro u trackedU before runs writes same
    exact greatest u (selected trackedU before) ⟨by simp [runs, writes], same⟩
  · refine .inr ⟨?_, result⟩
    intro u tracked before runs writes same
    exact absent u (selected tracked before) ⟨by simp [runs, writes], same⟩

/-- A writer before `b` at its state: one that `b` is compared with, or one before that. -/
theorem exists_last_writer (member : a ∈ window) (place : hasXstate aeg a = true)
    (runs : (arch aeg a).eval v = true) (writes : (xswrite aeg a).eval v = true) (before : a < b)
    (same : v.xstate a = v.xstate b) :
    ∃ w ∈ window, hasXstate aeg w = true ∧ (arch aeg w).eval v = true ∧
      (xswrite aeg w).eval v = true ∧ a ≤ w ∧ w < b ∧ v.xstate w = v.xstate b ∧
      orderMem aeg window b v (v.xstate b) = v.xsaccessOrder w := by
  have can : tracksXswrite aeg window a = true :=
    tracksXswrite_iff.mpr ⟨member, place, canXswrite_of_eval writes⟩
  rcases orderMem_cases aeg window v b (v.xstate b) with
    ⟨w, tracked, earlier, runsW, writesW, here, greatest, result⟩ | ⟨absent, -⟩
  · obtain ⟨memberW, placeW, -⟩ := tracksXswrite_iff.mp tracked
    exact ⟨w, memberW, placeW, runsW, writesW, greatest a can before runs writes same, earlier,
      here, result⟩
  · exact absurd same (absent a can before runs writes)

/-- A call may write without reading, so that its own place is left unconstrained: the
order is respected as long as no call follows a possible writer. -/
def NoLateCall (aeg : Aeg) (window : List NodeRef) : Prop :=
  ∀ a ∈ window, ∀ b ∈ window, hasXstate aeg a = true → canXswrite aeg a = true → a < b →
    kind aeg b ≠ .call

theorem xsread_of_ne_call (place : hasXstate aeg ref = true) (regular : kind aeg ref ≠ .call) :
    (xsread aeg ref).eval v = true := by
  have plain : ¬ (kind aeg ref = .entry ∨ kind aeg ref = .exit) := by
    rw [← isSpecial_iff]
    intro special
    simp [hasXstate, special] at place
  simp only [hasXstate, Bool.and_eq_true, Bool.or_eq_true, decide_eq_true_eq] at place
  have access := place.2
  unfold xsread
  revert access plain regular
  cases kind aeg ref <;> simp [Kind.mayXsread, Kind.mayXswrite, makeAccess]

theorem respects_of_noLateCall (noCall : NoLateCall aeg window)
    (satisfied : Holds v (archOrder aeg window)) : RespectsProgramOrder aeg window v := by
  intro a memberA b memberB placeA placeB runsA runsB before writes accesses same
  -- by induction on `b`: the last writer before it is after `a`, or is `a` itself
  induction b using Nat.strong_induction_on with
  | _ b ih =>
    have reads : (xsread aeg b).eval v = true :=
      xsread_of_ne_call placeB (noCall a memberA b memberB placeA (canXswrite_of_eval writes) before)
    obtain ⟨w, memberW, placeW, runsW, writesW, after, earlier, sameW, value⟩ :=
      exists_last_writer memberA placeA runsA writes before same
    have above : v.xsaccessOrder w < v.xsaccessOrder b := by
      rw [← value]
      exact archOrder_apply satisfied memberB placeB runsB reads
    rcases Nat.eq_or_lt_of_le after with first | later
    · exact first ▸ above
    · have accessesW : (xsaccess aeg w).eval v = true := by simp [xsaccess, writesW]
      exact (ih w earlier memberW placeW runsW later accessesW (same.trans sameW.symm)).trans above

def tiedAccesses (a b : NodeRef) : ComValuation where
  arch := fun ref => ref == a || ref == b
  trans := fun _ => false
  read := fun _ => false
  write := fun _ => false
  tfo := fun _ _ => false
  address := fun _ => 0
  xsread := fun _ => false
  xswrite := fun _ => true
  xstate := fun _ => 0
  xsaccessOrder := fun _ => 1

theorem arch_tiedAccesses (place : hasXstate aeg ref = true) (ordered : aeg.Ordered)
    (runs : (arch aeg ref).eval (tiedAccesses a b) = true) : ref = a ∨ ref = b := by
  have later : ref ≠ aeg.entry := by
    rintro rfl
    simp [hasXstate, entry_isSpecial ordered] at place
  simpa [arch, Aeg.arch, later, tiedAccesses] using runs

theorem tiedAccesses_satisfies (ordered : aeg.Ordered) (before : a < b)
    (late : kind aeg b = .call) : Holds (tiedAccesses a b) (archOrder aeg window) := by
  intro constraint member
  obtain ⟨ref, selected, rfl⟩ := List.mem_map.mp member
  obtain ⟨-, place, -⟩ := tracksXsread_iff.mp (List.mem_filter.mp selected).2
  simp only [archOrderAt, eval_implies, eval_and, Bool.or_eq_true, Bool.not_eq_true', eval_lt,
    Bool.and_eq_false_iff]
  by_cases runs : (arch aeg ref).eval (tiedAccesses a b) = true
  · rcases arch_tiedAccesses place ordered runs with rfl | rfl
    · -- nothing architectural comes before the first of the two
      refine .inr ?_
      rcases orderMem_cases aeg window (tiedAccesses ref b) ref 0 with
        ⟨w, tracked, earlier, runsW, -⟩ | ⟨-, result⟩
      · have placeW := (tracksXswrite_iff.mp tracked).2.1
        rcases arch_tiedAccesses placeW ordered runsW with rfl | rfl
        · exact absurd earlier (Nat.lt_irrefl _)
        · exact absurd earlier (Nat.lt_asymm before)
      · have initial : select (orderMem aeg window ref) (xstate ref) (tiedAccesses ref b) = 0 := result
        rw [initial]
        exact Int.one_pos
    · exact .inl (.inr (by simp [xsread, late, Kind.mayXsread, makeAccess, tiedAccesses]))
  · exact .inl (.inl (by simpa using runs))

/-- The constraints on architectural accesses order them like the nodes, in a window and
for all valuations, exactly when no call of the window follows a possible writer. -/
theorem respects_program_order_iff (aeg : Aeg) (ordered : aeg.Ordered) (window : List NodeRef) :
    (∀ v, Holds v (archOrder aeg window) → RespectsProgramOrder aeg window v) ↔
      NoLateCall aeg window := by
  constructor
  · intro respects a memberA b memberB placeA can before late
    have placeB : hasXstate aeg b = true := by
      have regular : aeg.isSpecial b = false := by
        rw [Bool.eq_false_iff, Ne, isSpecial_iff, late]
        simp
      simp [hasXstate, late, regular, Kind.mayXsread]
    have runs {ref : NodeRef} (either : ref = a ∨ ref = b) :
        (arch aeg ref).eval (tiedAccesses a b) = true := by
      unfold arch Aeg.arch
      split <;> simp [tiedAccesses, either]
    have writes : (xswrite aeg a).eval (tiedAccesses a b) = true := by
      rw [canXswrite, xswrite, isFalse_makeAccess] at can
      rw [xswrite]
      cases option : (kind aeg a).mayXswrite <;> simp_all [makeAccess, tiedAccesses]
    have accesses : (xsaccess aeg b).eval (tiedAccesses a b) = true := by
      simp [xsaccess, xswrite, late, Kind.mayXswrite, makeAccess, tiedAccesses]
    have order := respects (tiedAccesses a b) (tiedAccesses_satisfies ordered before late) a memberA
      b memberB placeA placeB (runs (.inl rfl)) (runs (.inr rfl)) before writes accesses rfl
    exact absurd order (lt_irrefl (1 : Int))
  · intro noCall v satisfied
    exact respects_of_noLateCall noCall satisfied

theorem storeLoad_respects : NoLateCall storeCallLoad [0, 1, 3, 4] ∧
    ∀ v : ComValuation, Holds v (archOrder storeCallLoad [0, 1, 3, 4]) →
      RespectsProgramOrder storeCallLoad [0, 1, 3, 4] v := by
  have noCall : NoLateCall storeCallLoad [0, 1, 3, 4] := by
    unfold NoLateCall
    decide
  exact ⟨noCall, (respects_program_order_iff storeCallLoad storeCallLoad_ordered [0, 1, 3, 4]).mpr noCall⟩

/-- The call writes the state without reading it, before the store in the access order. -/
def callWritesEarly : ComValuation :=
  { callWrites with
    xsread := fun _ => false
    xsaccessOrder := fun ref => if ref = 2 then 1 else 2 }

theorem callWritesEarly_disrespects :
    Holds callWritesEarly (archOrder storeCallLoad [0, 1, 2, 3, 4]) ∧
      ¬ RespectsProgramOrder storeCallLoad [0, 1, 2, 3, 4] callWritesEarly := by
  refine ⟨by decide, ?_⟩
  intro respects
  have order := respects 1 (by decide) 2 (by decide) (by decide) (by decide) (by decide)
    (by decide) (by decide) (by decide) (by decide) (by decide)
  exact absurd order (by decide)

end ProgramOrder

section Fences

variable {aeg : Aeg} {window : List NodeRef} {fence : NodeRef} {v : ComValuation}

def Accesses (aeg : Aeg) (v : ComValuation) (ref : NodeRef) : Prop :=
  (exec aeg ref).eval v = true ∧ (xsaccess aeg ref).eval v = true

/-- Whatever accesses the state before the fence does so before whatever does after it. -/
def FenceOrdered (aeg : Aeg) (window : List NodeRef) (fence : NodeRef) (v : ComValuation) : Prop :=
  ∀ a ∈ window, ∀ b ∈ window, hasXstate aeg a = true → hasXstate aeg b = true → a < fence →
    fence < b → Accesses aeg v a → Accesses aeg v b → v.xsaccessOrder a < v.xsaccessOrder b

theorem mem_beforeFence (valid : fence < aeg.size) {ref : NodeRef} :
    ref ∈ beforeFence aeg window fence ↔
      ref ∈ window ∧ hasXstate aeg ref = true ∧ ref < fence := by
  rw [beforeFence, placed, takeWhile_reversePostorder valid, List.mem_filter]
  simp only [List.mem_range, Bool.and_eq_true, decide_eq_true_eq]
  tauto

theorem mem_offsets {n size k : Nat} :
    k ∈ (List.range (size - (n + 1))).map (n + 1 + ·) ↔ n < k ∧ k < size := by
  simp only [List.mem_map, List.mem_range]
  constructor
  · rintro ⟨offset, bound, rfl⟩
    omega
  · rintro ⟨after, bound⟩
    exact ⟨k - (n + 1), by omega, by omega⟩

theorem mem_afterFence (valid : fence < aeg.size) {ref : NodeRef} :
    ref ∈ afterFence aeg window fence ↔
      ref ∈ window ∧ hasXstate aeg ref = true ∧ fence < ref := by
  have later : ref ∈ (aeg.po.reversePostorder.dropWhile (· != fence)).tail ↔
      fence < ref ∧ ref < aeg.size := by
    rw [dropWhile_reversePostorder valid, List.tail_cons, mem_offsets]
  rw [afterFence, placed, List.mem_filter, later]
  simp only [Bool.and_eq_true, decide_eq_true_eq]
  constructor
  · rintro ⟨⟨after, -⟩, member, place⟩
    exact ⟨member, place, after⟩
  · rintro ⟨member, place, after⟩
    exact ⟨⟨after, lt_of_hasXstate place⟩, member, place⟩

def orderValue (aeg : Aeg) (v : ComValuation) (ref : NodeRef) : Int :=
  if (xsaccess aeg ref).eval v = true then v.xsaccessOrder ref else 0

/-- The constraint compares all nodes before the fence with all nodes after it, whether
they are executed or not. -/
theorem fenceOrder_iff (valid : fence < aeg.size) :
    Holds v (fenceOrder aeg window fence) ↔
      ∀ a ∈ window, ∀ b ∈ window, hasXstate aeg a = true → hasXstate aeg b = true → a < fence →
        fence < b → orderValue aeg v a < orderValue aeg v b := by
  have compared : Holds v (fenceOrder aeg window fence) ↔
      ∀ a ∈ beforeFence aeg window fence, ∀ b ∈ afterFence aeg window fence,
        orderValue aeg v a < orderValue aeg v b := by
    unfold fenceOrder Holds
    cases beforeFence aeg window fence with
    | nil => simp
    | cons before befores =>
      cases afterFence aeg window fence with
      | nil => simp
      | cons after afters =>
        simp only [List.map_cons, List.mem_singleton, forall_eq, eval_lt, maxOf_lt_minOf]
        rw [← List.map_cons (f := orderOrInit aeg), ← List.map_cons (f := orderOrInit aeg)]
        simp only [List.forall_mem_map]
        rfl
  rw [compared]
  simp only [mem_beforeFence valid, mem_afterFence valid]
  constructor
  · intro below a memberA b memberB placeA placeB before after
    exact below a ⟨memberA, placeA, before⟩ b ⟨memberB, placeB, after⟩
  · rintro below a ⟨memberA, placeA, before⟩ b ⟨memberB, placeB, after⟩
    exact below a memberA b memberB placeA placeB before after

/-- Every node of the window that may access the state and stands on one side of the
fence, with another one across, is executed and does access it. -/
def FenceTight (aeg : Aeg) (window : List NodeRef) (fence : NodeRef) (v : ComValuation) : Prop :=
  ∀ a ∈ window, ∀ b ∈ window, hasXstate aeg a = true → hasXstate aeg b = true → a < fence →
    fence < b → Accesses aeg v a ∧ Accesses aeg v b

def withOrder (v : ComValuation) (order : NodeRef → Int) : ComValuation :=
  { v with xsaccessOrder := order }

theorem xsaccess_withOrder (order : NodeRef → Int) (ref : NodeRef) :
    (xsaccess aeg ref).eval (withOrder v order) = (xsaccess aeg ref).eval v := by
  have literal (option : Opt) (value : ComValuation → Bool)
      (same : value (withOrder v order) = value v) :
      (makeAccess option value).eval (withOrder v order) = (makeAccess option value).eval v := by
    cases option with
    | must => rfl
    | may => exact same
    | no => rfl
  rw [xsaccess, eval_or, eval_or]
  exact congrArg₂ (· || ·) (literal _ _ rfl) (literal _ _ rfl)

theorem accesses_withOrder (order : NodeRef → Int) (ref : NodeRef) :
    Accesses aeg (withOrder v order) ref ↔ Accesses aeg v ref := by
  rw [Accesses, xsaccess_withOrder]
  rfl

theorem orderValue_withOrder (order : NodeRef → Int) (ref : NodeRef) :
    orderValue aeg (withOrder v order) ref =
      if (xsaccess aeg ref).eval v = true then order ref else 0 := by
  rw [orderValue, xsaccess_withOrder]
  rfl

/-- Whatever is compared as well, the accesses around the fence are. -/
theorem fenceOrdered_of_holds (valid : fence < aeg.size) (satisfied : Holds v (fenceOrder aeg window fence)) :
    FenceOrdered aeg window fence v := by
  intro a memberA b memberB placeA placeB before after accessesA accessesB
  have compared := (fenceOrder_iff valid).mp satisfied a memberA b memberB placeA placeB before after
  rwa [orderValue, if_pos accessesA.2, orderValue, if_pos accessesB.2] at compared

theorem fence_order_of_tight (valid : fence < aeg.size) (tight : FenceTight aeg window fence v)
    (order : NodeRef → Int) :
    Holds (withOrder v order) (fenceOrder aeg window fence) ↔
      FenceOrdered aeg window fence (withOrder v order) := by
  have value {ref : NodeRef} (accesses : Accesses aeg v ref) :
      orderValue aeg (withOrder v order) ref = order ref := by
    rw [orderValue_withOrder, if_pos accesses.2]
  constructor
  · exact fenceOrdered_of_holds valid
  · intro ordered
    rw [fenceOrder_iff valid]
    intro a memberA b memberB placeA placeB before after
    obtain ⟨accessesA, accessesB⟩ := tight a memberA b memberB placeA placeB before after
    rw [value accessesA, value accessesB]
    exact ordered a memberA b memberB placeA placeB before after
      ((accesses_withOrder order a).mpr accessesA) ((accesses_withOrder order b).mpr accessesB)

/-- Places the nodes before the fence at `low` and the others at `high`, all but one. -/
def sides (fence : NodeRef) (low high : Int) (one : NodeRef) (place : Int) (ref : NodeRef) : Int :=
  if ref = one then place else if ref < fence then low else high

/-- With the odd node out, such an order is one the fence asks for. -/
theorem sides_ordered {low high place : Int} {one : NodeRef} (increasing : low < high)
    (idle : ¬ Accesses aeg v one) :
    FenceOrdered aeg window fence (withOrder v (sides fence low high one place)) := by
  intro a _ b _ _ _ before after accessesA accessesB
  have apartA : a ≠ one := fun same => idle (same ▸ (accesses_withOrder _ a).mp accessesA)
  have apartB : b ≠ one := fun same => idle (same ▸ (accesses_withOrder _ b).mp accessesB)
  have notBefore : ¬ b < fence := Nat.lt_asymm after
  simpa [withOrder, sides, apartA, apartB, before, notBefore] using increasing

/-- For given executions and accesses the constraint of a fence means the order it stands
for, under every access order, exactly when nothing but executed accesses is compared. -/
theorem fence_order_exact_iff (aeg : Aeg) (window : List NodeRef) (fence : NodeRef)
    (valid : fence < aeg.size) (v : ComValuation) :
    (∀ order : NodeRef → Int,
      (Holds (withOrder v order) (fenceOrder aeg window fence) ↔
        FenceOrdered aeg window fence (withOrder v order))) ↔
      FenceTight aeg window fence v := by
  constructor
  · intro exact a memberA b memberB placeA placeB before after
    have notBefore : ¬ b < fence := Nat.lt_asymm after
    have apart : a ≠ b := Nat.ne_of_lt (Nat.lt_trans before after)
    have compared (low high place : Int) {one : NodeRef} (increasing : low < high)
        (idle : ¬ Accesses aeg v one) :
        (if (xsaccess aeg a).eval v = true then sides fence low high one place a else 0) <
          if (xsaccess aeg b).eval v = true then sides fence low high one place b else 0 := by
      rw [← orderValue_withOrder, ← orderValue_withOrder]
      exact (fenceOrder_iff valid).mp ((exact _).mpr (sides_ordered increasing idle)) a memberA b
        memberB placeA placeB before after
    constructor
    · -- an idle node before the fence can be placed above everything after it
      by_contra idle
      by_cases access : (xsaccess aeg a).eval v = true
      · have impossible := compared 0 1 2 (by decide) idle
        simp only [access, if_true, sides, Ne.symm apart, notBefore, if_false] at impossible
        split at impossible <;> omega
      · have impossible := compared (-2) (-1) 0 (by decide) idle
        rw [if_neg access] at impossible
        simp only [sides, Ne.symm apart, notBefore, if_false] at impossible
        split at impossible <;> omega
    · by_contra idle
      by_cases access : (xsaccess aeg b).eval v = true
      · have impossible := compared 0 1 (-1) (by decide) idle
        simp only [access, if_true, sides, apart, before, if_false] at impossible
        split at impossible <;> omega
      · have impossible := compared 1 2 0 (by decide) idle
        rw [if_neg access] at impossible
        simp only [sides, apart, before, if_true, if_false] at impossible
        split at impossible <;> omega
  · intro tight order
    exact fence_order_of_tight valid tight order

theorem lt_of_isFence (isFence : aeg.isFence fence = true) : fence < aeg.size := by
  by_contra beyond
  have missing : aeg.po.variant fence = none := by
    rw [Cfg.variant, List.getElem?_eq_none (Nat.le_of_not_lt beyond), Option.map_none]
  rw [Aeg.isFence, missing] at isFence
  cases isFence

theorem holds_assertXsaccessOrder : Holds v (assertXsaccessOrder aeg window) ↔
    Holds v (archOrder aeg window) ∧
      ∀ fence ∈ window, aeg.isFence fence = true → Holds v (fenceOrder aeg window fence) := by
  simp only [Holds, assertXsaccessOrder, List.forall_mem_append, List.forall_mem_flatMap, List.mem_filter,
    and_imp]

/-- All the constraints together keep the accesses around every fence of the window in order, and
those to one state in program order unless a call follows a possible writer. -/
theorem order_of_assertXsaccessOrder (satisfied : Holds v (assertXsaccessOrder aeg window)) :
    (∀ fence ∈ window, aeg.isFence fence = true → FenceOrdered aeg window fence v) ∧
      (NoLateCall aeg window → RespectsProgramOrder aeg window v) := by
  obtain ⟨architectural, fences⟩ := holds_assertXsaccessOrder.mp satisfied
  constructor
  · intro fence member isFence
    exact fenceOrdered_of_holds (lt_of_isFence isFence) (fences fence member isFence)
  · exact fun noCall => respects_of_noLateCall noCall architectural

def fencedBranch : Aeg where
  po :=
    { nodes := [Cfg.Node.makeEntry, ⟨.inst ⟨0, 0, 0⟩, none, ∅⟩, ⟨.inst ⟨0, 0, 1⟩, none, ∅⟩,
        ⟨.inst ⟨0, 0, 2⟩, none, ∅⟩, ⟨.inst ⟨0, 1, 0⟩, none, ∅⟩, ⟨.inst ⟨0, 2, 0⟩, none, ∅⟩,
        Cfg.Node.makeExit]
      po := ((((((Binrel.empty.insert 0 1).insert 1 2).insert 2 3).insert 3 4).insert 3 5).insert 4
        6).insert 5 6
      entry := 0
      exits := [6]
      translations := ∅ }
  deref := fun I =>
    ⟨if I.index = 1 then .fence else if I.index = 2 then .br else .load, [], [], [], false, false,
      I.index == 0⟩
  leakageClass := .spectreV1
  specDepth := 2
  lsqSize := none

def firstArm : ComValuation where
  arch := fun ref => ref != 5
  trans := fun _ => false
  read := fun _ => true
  write := fun _ => false
  tfo := fun _ _ => false
  address := fun _ => 0
  xsread := fun _ => true
  xswrite := fun _ => false
  xstate := fun _ => 0
  xsaccessOrder := fun ref => if ref = 5 then 0 else ref

theorem oneArm_exact : fencedBranch.isFence 2 = true ∧ ∀ order : NodeRef → Int,
      (Holds (withOrder firstArm order) (fenceOrder fencedBranch [0, 1, 2, 3, 4, 6] 2) ↔
        FenceOrdered fencedBranch [0, 1, 2, 3, 4, 6] 2 (withOrder firstArm order)) :=
  ⟨by decide, (fence_order_exact_iff fencedBranch [0, 1, 2, 3, 4, 6] 2 (by decide) firstArm).mpr
    (by unfold FenceTight Accesses; decide)⟩

theorem fencedBranch_not_exact :
    fencedBranch.isFence 2 = true ∧ (exec fencedBranch 2).eval firstArm = true ∧
      ¬ Holds firstArm (fenceOrder fencedBranch [0, 1, 2, 3, 4, 5, 6] 2) ∧
      FenceOrdered fencedBranch [0, 1, 2, 3, 4, 5, 6] 2 firstArm := by
  refine ⟨by decide, by decide, by decide, ?_⟩
  unfold FenceOrdered Accesses
  decide

end Fences

end Clou.Com
