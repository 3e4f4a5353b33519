import Clou.Com
import Clou.FiniteMap
import Clou.Sweep
import Clou.Worklist

/-! Where a load may read from: the conditions under which a store is the last one before it. -/

namespace Clou.ReadsFrom

open Z3 Com

structure RfState where
  no : BoolExpr ComValuation
  yesses : AList (fun _ : NodeRef => BoolExpr ComValuation)

section

variable (aeg : Aeg)

def reachableR (window : List NodeRef) (init : NodeRef) : Option (List NodeRef) :=
  Worklist.search window (fun ref => aeg.po.po.rev.lookup ref) [init] []

def writes (load store : NodeRef) : BoolExpr ComValuation :=
  and (and (exec aeg store) (write aeg store)) (sameAddr aeg store load)

def rfStep (load : NodeRef) (window : List NodeRef) (s : RfState) (store : NodeRef) : RfState :=
  if store ∈ window ∧ mayWrite aeg store then
    ⟨and s.no (not (writes aeg load store)),
      FiniteMap.emplace s.yesses store (and s.no (writes aeg load store))⟩
  else s

def precomputeRfOne (load : NodeRef) (window : List NodeRef) :
    AList (fun _ : NodeRef => BoolExpr ComValuation) :=
  (aeg.po.reversePostorder.reverse.foldl (rfStep aeg load window) ⟨boolVal true, ∅⟩).yesses

end

def Sourced (yesses : AList (fun _ : NodeRef => BoolExpr ComValuation)) (v : ComValuation) (s : NodeRef) :
    Prop :=
  ∃ cond, yesses.lookup s = some cond ∧ cond.eval v = true

theorem sourced_emplace {yesses : AList (fun _ : NodeRef => BoolExpr ComValuation)} {v : ComValuation}
    {store s : NodeRef} {cond : BoolExpr ComValuation} (absent : store ∉ yesses) :
    Sourced (FiniteMap.emplace yesses store cond) v s ↔
      Sourced yesses v s ∨ s = store ∧ cond.eval v = true := by
  unfold Sourced
  rw [FiniteMap.emplace_of_not_mem absent, FiniteMap.lookup_insert]
  by_cases same : s = store
  · subst same
    simp [AList.lookup_eq_none.mpr absent]
  · simp [same]

section Spec

variable {aeg : Aeg} {v : ComValuation} {load s : NodeRef} {window : List NodeRef}

theorem writes_iff (store : NodeRef) : (writes aeg load store).eval v = true ↔
    (exec aeg store).eval v = true ∧ (write aeg store).eval v = true ∧
      (sameAddr aeg store load).eval v = true := by
  rw [writes, eval_and, eval_and, Bool.and_eq_true, Bool.and_eq_true, and_assoc]

theorem mayWrite_of_writes {store : NodeRef} (written : (writes aeg load store).eval v = true) :
    mayWrite aeg store = true := by
  have happens := ((writes_iff store).mp written).2.1
  unfold Com.write makeAccess at happens
  unfold mayWrite
  split at happens
  · rename_i must
    rw [must]
    rfl
  · rename_i may
    rw [may]
    rfl
  · cases happens

/-- Of the nodes of a window, one that writes to the address of the load. -/
def hits (aeg : Aeg) (load : NodeRef) (window : List NodeRef) (v : ComValuation) (u : NodeRef) : Bool :=
  decide (u ∈ window) && (writes aeg load u).eval v

/-- The condition of a store is true if it is the first one in the order of the walk. -/
theorem sourced_foldl {order : List NodeRef} (nodup : order.Nodup) {st : RfState}
    (fresh : ∀ u ∈ order, u ∉ st.yesses) :
    Sourced (order.foldl (rfStep aeg load window) st).yesses v s ↔
      Sourced st.yesses v s ∨ st.no.eval v = true ∧ order.find? (hits aeg load window v) = some s := by
  induction order generalizing st with
  | nil => simp
  | cons store order ih =>
    rcases List.nodup_cons.mp nodup with ⟨unlisted, nodup'⟩
    have absent : store ∉ st.yesses := fresh store List.mem_cons_self
    rw [List.foldl_cons, List.find?_cons]
    by_cases taken : store ∈ window ∧ mayWrite aeg store
    · have fresh' : ∀ u ∈ order,
          u ∉ FiniteMap.emplace st.yesses store (and st.no (writes aeg load store)) := by
        intro u member
        rw [FiniteMap.emplace_of_not_mem absent, AList.mem_insert, not_or]
        exact ⟨ne_of_mem_of_not_mem member unlisted, fresh u (List.mem_cons_of_mem store member)⟩
      rw [rfStep, if_pos taken, ih nodup' fresh', sourced_emplace absent, eval_and, eval_and, eval_not]
      cases hit : (writes aeg load store).eval v
      · simp [hits, hit]
      · have first : s = store ↔ store = s := eq_comm
        simp [hits, hit, taken.1, first, and_comm]
    · have miss : hits aeg load window v store = false := by
        rw [hits, Bool.and_eq_false_iff]
        by_contra both
        rw [not_or, decide_eq_false_iff_not, not_not, Bool.not_eq_false] at both
        exact taken ⟨both.1, mayWrite_of_writes both.2⟩
      rw [rfStep, if_neg taken, miss]
      exact ih nodup' fun u member => fresh u (List.mem_cons_of_mem store member)

/-- The condition of a store is true if and only if it is the last node of the window that writes to the
address. -/
theorem precomputeRfOne_iff : Sourced (precomputeRfOne aeg load window) v s ↔
    s < aeg.po.size ∧ (s ∈ window ∧ (writes aeg load s).eval v = true) ∧
      ∀ u ∈ window, s < u → u < aeg.po.size → (writes aeg load u).eval v = false := by
  have empty : ¬ Sourced ∅ v s := by
    rintro ⟨cond, found, -⟩
    cases found
  have nodup : aeg.po.reversePostorder.reverse.Nodup := List.nodup_reverse.mpr List.nodup_range
  rw [precomputeRfOne, sourced_foldl nodup (fun u _ => AList.notMem_empty u), or_iff_right empty,
    eval_boolVal, eq_self, true_and, List.find?_eq_some_iff_append]
  constructor
  · rintro ⟨hit, before, after, split, missed⟩
    rw [hits, Bool.and_eq_true, decide_eq_true_eq] at hit
    rcases Sweep.mem_done_range_reverse split with ⟨bound, greater⟩
    refine ⟨bound, hit, fun u inside later valid => ?_⟩
    have miss := missed u ((greater u).mpr ⟨later, valid⟩)
    simpa [hits, inside] using miss
  · rintro ⟨bound, hit, later⟩
    have listed : s ∈ aeg.po.reversePostorder.reverse := List.mem_reverse.mpr (List.mem_range.mpr bound)
    rcases List.append_of_mem listed with ⟨before, after, split⟩
    rcases Sweep.mem_done_range_reverse split with ⟨-, greater⟩
    refine ⟨by simpa [hits] using hit, before, after, split, fun u member => ?_⟩
    have miss (inside : u ∈ window) := later u inside ((greater u).mp member).1 ((greater u).mp member).2
    by_cases inside : u ∈ window
    · simp [hits, miss inside]
    · simp [hits, inside]

variable (wellFormed : aeg.po.WellFormed) (topological : aeg.po.Topological)

include wellFormed topological

/-- The nodes that lead to the load inside of the window do not come after it. -/
theorem reachableR_spec (valid : ∀ n ∈ window, n < aeg.po.size) :
    ∃ W, reachableR aeg window load = some W ∧ (load ∈ window → load ∈ W) ∧
      ∀ n ∈ W, load ∈ window ∧ n ≤ load := by
  rcases Worklist.search_spec (fun n inside => wellFormed.lookup_rev (valid n inside)) load with
    ⟨W, searched, member⟩
  refine ⟨W, searched, fun inside => (member load).mpr ⟨inside, .refl⟩, fun n found => ?_⟩
  rcases (member n).mp found with ⟨inside, path⟩
  clear found
  refine ⟨inside, ?_⟩
  induction path with
  | refl => exact Nat.le_refl load
  | tail path step ih =>
    have less := topological.increasing (wellFormed.proper.mem_preds.mp step.2.2)
    exact Nat.le_trans (Nat.le_of_lt less) ih

omit wellFormed topological in
theorem sourced_unique {W : List NodeRef} {s' : NodeRef} (first : Sourced (precomputeRfOne aeg load W) v s)
    (second : Sourced (precomputeRfOne aeg load W) v s') : s = s' := by
  rcases precomputeRfOne_iff.mp first with ⟨bound, hit, later⟩
  rcases precomputeRfOne_iff.mp second with ⟨bound', hit', later'⟩
  rcases Nat.lt_trichotomy s s' with less | same | greater
  · cases (later s' hit'.1 less bound').symm.trans hit'.2
  · exact same
  · cases (later' s hit.1 greater bound).symm.trans hit.2

/-- The conditions name the last writer before the load if and only if the load itself executes no write
inside of the window. -/
theorem lastWriter_iff (valid : ∀ n ∈ window, n < aeg.po.size) (v : ComValuation) :
    ∃ W, reachableR aeg window load = some W ∧
      (((∀ s, Sourced (precomputeRfOne aeg load W) v s ↔ s ∈ W ∧ s < load ∧
            (writes aeg load s).eval v = true ∧
            ∀ u ∈ W, s < u → u < load → (writes aeg load u).eval v = false) ∧
          (∀ s s', Sourced (precomputeRfOne aeg load W) v s → Sourced (precomputeRfOne aeg load W) v s' →
            s = s') ∧
          ¬ Sourced (precomputeRfOne aeg load W) v load) ↔
        ¬ (load ∈ window ∧ (exec aeg load).eval v = true ∧ (write aeg load).eval v = true)) := by
  rcases reachableR_spec wellFormed topological valid with ⟨W, searched, own, before⟩
  have self : (sameAddr aeg load load).eval v = true := by
    unfold sameAddr
    split
    · rfl
    · rw [eval_eq, beq_self_eq_true]
  have writing : (writes aeg load load).eval v = true ↔
      (exec aeg load).eval v = true ∧ (write aeg load).eval v = true := by
    rw [writes_iff, and_iff_left self]
  refine ⟨W, searched, ?_⟩
  constructor
  · intro named both
    apply named.2.2
    refine precomputeRfOne_iff.mpr ⟨valid load both.1, ⟨own both.1, writing.mpr both.2⟩, ?_⟩
    intro u inside later
    exact absurd (before u inside).2 (Nat.not_le_of_lt later)
  · intro readOnly
    have quiet (inside : load ∈ W) : (writes aeg load load).eval v = false := by
      rw [← Bool.not_eq_true, writing]
      exact fun happens => readOnly ⟨(before load inside).1, happens⟩
    refine ⟨fun s => ?_, fun s s' => sourced_unique, fun sourced => ?_⟩
    · rw [precomputeRfOne_iff]
      constructor
      · rintro ⟨bound, ⟨inside, written⟩, later⟩
        have different : s ≠ load := by
          rintro rfl
          cases (quiet inside).symm.trans written
        have less : s < load := Nat.lt_of_le_of_ne (before s inside).2 different
        refine ⟨inside, less, written, fun u inside' after bound' => ?_⟩
        exact later u inside' after (Nat.lt_trans bound' (valid load (before u inside').1))
      · rintro ⟨inside, less, written, later⟩
        have bound := valid load (before s inside).1
        refine ⟨Nat.lt_trans less bound, ⟨inside, written⟩, fun u inside' after _ => ?_⟩
        rcases Nat.lt_or_eq_of_le (before u inside').2 with earlier | same
        · exact later u inside' after earlier
        · exact same ▸ quiet (same ▸ inside')
    · rcases precomputeRfOne_iff.mp sourced with ⟨-, ⟨inside, written⟩, -⟩
      cases (quiet inside).symm.trans written

end Spec

def storeThenCall : Aeg where
  po := .ofEdges [.makeEntry, ⟨.inst ⟨0, 0, 0⟩, none, ∅⟩, ⟨.call ⟨0, 0, 1⟩ (.argument 0 0), none, ∅⟩,
    .makeExit] [(0, 1), (1, 2), (2, 3)] 0 [3]
  deref _ := ⟨.store false, [], [], [], false, false, false⟩
  leakageClass := .spectreV4
  specDepth := 2
  lsqSize := none

def allWrite : ComValuation :=
  ⟨⟨fun _ => true, fun _ => false, fun _ => true, fun _ => true, fun _ _ => true⟩, fun _ => 0, fun _ => true,
    fun _ => true, fun _ => 0, fun _ => 0⟩

/-- The call is its own source, and the store before it is none. -/
theorem call_reads_itself : ∃ W, reachableR storeThenCall [0, 1, 2] 2 = some W ∧
    Sourced (precomputeRfOne storeThenCall 2 W) allWrite 2 ∧
    ¬ Sourced (precomputeRfOne storeThenCall 2 W) allWrite 1 := by
  have sourced : Sourced (precomputeRfOne storeThenCall 2 [0, 1, 2]) allWrite 2 := ⟨_, rfl, rfl⟩
  refine ⟨[0, 1, 2], ?_, sourced, fun other => absurd (sourced_unique sourced other) (by decide)⟩
  have call : storeThenCall.po.po.rev.lookup 2 = some [1] := by decide
  have store : storeThenCall.po.po.rev.lookup 1 = some [0] := by decide
  have entry : storeThenCall.po.po.rev.lookup 0 = some [] := by decide
  simp [reachableR, Worklist.search, call, store, entry]

theorem call_lastWriter_iff : ∃ W, reachableR storeThenCall [0, 1, 2] 2 = some W ∧
    (((∀ s, Sourced (precomputeRfOne storeThenCall 2 W) allWrite s ↔ s ∈ W ∧ s < 2 ∧
          (writes storeThenCall 2 s).eval allWrite = true ∧
          ∀ u ∈ W, s < u → u < 2 → (writes storeThenCall 2 u).eval allWrite = false) ∧
        (∀ s s', Sourced (precomputeRfOne storeThenCall 2 W) allWrite s →
          Sourced (precomputeRfOne storeThenCall 2 W) allWrite s' → s = s') ∧
        ¬ Sourced (precomputeRfOne storeThenCall 2 W) allWrite 2) ↔
      ¬ (2 ∈ [0, 1, 2] ∧ (exec storeThenCall 2).eval allWrite = true ∧
        (write storeThenCall 2).eval allWrite = true)) :=
  lastWriter_iff (Cfg.wellFormed_ofEdges (by decide)) (Cfg.topological_ofEdges (by decide) (by decide))
    (by decide) allWrite

end Clou.ReadsFrom
