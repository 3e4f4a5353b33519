import Clou.Execution
import Mathlib.Data.List.GetD

/-! The nodes that construction rules out as transient are transient in no execution: the
passes are compared with the constraints over variables they have not touched. -/

namespace Clou.Aeg

open Z3

section

variable (aeg : Aeg)

/-- The transient variable of a node before any pass has looked for a speculation source. -/
def freeTrans (ref : NodeRef) : BoolExpr Valuation :=
  if ref = aeg.entry then boolVal false
  else if ref ∈ aeg.exits then boolVal false
  else if aeg.isFence ref then boolVal false
  else boolConst (·.trans ref)

def freeTfoCond (src dst : NodeRef) : BoolExpr Valuation :=
  mkOr ([and (aeg.arch src) (aeg.arch dst)] ++
    (if aeg.mayIntroduceSpeculation src then [and (aeg.arch src) (aeg.freeTrans dst)] else []) ++
    [and (aeg.freeTrans src) (aeg.freeTrans dst)])

/-- What execution has to satisfy of those variables, over the whole graph. -/
def freeConstraints : List (Constraint Valuation) :=
  aeg.nodeRange.map (fun ref =>
    (not (and (aeg.arch ref) (aeg.freeTrans ref)), "excl-exec:" ++ toString ref)) ++
  aeg.tfoEdges.map (fun edge =>
    (implies (tfo edge.1 edge.2) (aeg.freeTfoCond edge.1 edge.2), "tfo")) ++
  aeg.nodeRange.map (fun ref =>
    (implies (aeg.freeTrans ref) (exactly ((aeg.tfoSrcs ref).map (tfo · ref)) 1),
      "trans-tfo:" ++ toString ref)) ++
  [(atmost2 (aeg.nodeRange.map aeg.freeTrans) aeg.specDepth, "trans-limit-max")]

end

section

variable {aeg : Aeg}

theorem length_initTrans (n : Nat) : (aeg.initTrans n).length = n := by
  induction n with
  | zero => rfl
  | succ n ih => simp [initTrans, ih]

theorem getD_initTrans {n ref : Nat} (before : ref < n) :
    (aeg.initTrans n).getD ref false = aeg.getTrans (aeg.initTrans ref) ref := by
  induction n with
  | zero => exact absurd before (Nat.not_lt_zero ref)
  | succ n ih =>
    rw [initTrans]
    rcases Nat.lt_succ_iff_lt_or_eq.mp before with earlier | rfl
    · rw [List.getD_append _ _ _ _ (by rwa [length_initTrans]), ih earlier]
    · rw [List.getD_append_right _ _ _ _ (length_initTrans ref).le]
      simp [length_initTrans]

def specOut (aeg : Aeg) (ref : NodeRef) : Nat :=
  if aeg.mayIntroduceSpeculation ref then 0
  else min aeg.specDepth ((aeg.minSpecIn (aeg.minSpecsOut ref) ref + 1) % 2 ^ 32)

theorem length_minSpecsOut (n : Nat) : (aeg.minSpecsOut n).length = n := by
  induction n with
  | zero => rfl
  | succ n ih => simp [minSpecsOut, ih]

theorem getD_minSpecsOut {n ref : Nat} (before : ref < n) :
    (aeg.minSpecsOut n).getD ref 0 = aeg.specOut ref := by
  induction n with
  | zero => exact absurd before (Nat.not_lt_zero ref)
  | succ n ih =>
    simp only [minSpecsOut]
    rcases Nat.lt_succ_iff_lt_or_eq.mp before with earlier | rfl
    · rw [List.getD_append _ _ _ _ (by rwa [length_minSpecsOut]), ih earlier]
    · rw [List.getD_append_right _ _ _ _ (length_minSpecsOut ref).le]
      simp [length_minSpecsOut, specOut]

theorem specOut_le (ref : NodeRef) :
    aeg.specOut ref ≤ aeg.minSpecIn (aeg.minSpecsOut ref) ref + 1 := by
  unfold specOut
  split
  · exact Nat.zero_le _
  · exact (Nat.min_le_right _ _).trans (Nat.mod_le _ _)

theorem foldr_min_le {values : List Nat} {init value : Nat} (member : value ∈ values) :
    values.foldr min init ≤ value := by
  induction values with
  | nil => cases member
  | cons head values ih =>
    rcases List.mem_cons.mp member with rfl | later
    · exact Nat.min_le_left _ _
    · exact (Nat.min_le_right _ _).trans (ih later)

/-- A node is at most as far from a speculation source as any predecessor leaves it. -/
theorem minSpecIn_le {src dst : NodeRef} (pred : src ∈ aeg.po.po.preds dst) (before : src < dst) :
    aeg.minSpecIn (aeg.minSpecsOut dst) dst ≤ aeg.specOut src := by
  have member := List.mem_map_of_mem (f := ((aeg.minSpecsOut dst).getD · 0)) pred
  rw [getD_minSpecsOut before] at member
  exact foldr_min_le member

end

section

variable {aeg : Aeg} {v : Valuation}

/-- The constraints, one by one, as a valuation meets them. -/
structure FreeExecution (aeg : Aeg) (v : Valuation) : Prop where
  exclusive : ∀ ref < aeg.size, (aeg.freeTrans ref).eval v = true → (aeg.arch ref).eval v = false
  fetched : ∀ edge ∈ aeg.tfoEdges, v.tfo edge.1 edge.2 = true →
    (aeg.freeTfoCond edge.1 edge.2).eval v = true
  one_fetch : ∀ ref < aeg.size, (aeg.freeTrans ref).eval v = true →
    trueCount ((aeg.tfoSrcs ref).map (tfo · ref)) v = 1
  depth : trueCount (aeg.nodeRange.map aeg.freeTrans) v ≤ aeg.specDepth

theorem freeExecution_of_satisfies (satisfied : Satisfies v aeg.freeConstraints) :
    FreeExecution aeg v := by
  simp only [Satisfies, freeConstraints, List.forall_mem_append, List.forall_mem_map,
    List.forall_mem_singleton, nodeRange, List.mem_range, eval_not, eval_and, eval_implies,
    eval_exactly, eval_atmost2, decide_eq_true_eq] at satisfied
  obtain ⟨⟨⟨exclusive, fetched⟩, fetch⟩, depth⟩ := satisfied
  constructor
  · intro ref valid transient
    simpa [transient] using exclusive ref valid
  · intro edge member selected
    simpa [tfo, selected] using fetched edge member
  · intro ref valid transient
    simpa [transient] using fetch ref valid
  · exact depth

variable {ref : NodeRef}

/-- A transient node is fetched after a speculation source or another transient node. -/
theorem FreeExecution.pred (free : FreeExecution aeg v) (valid : ref < aeg.size)
    (transient : (aeg.freeTrans ref).eval v = true) : ∃ src < aeg.size, aeg.po.po.Edge src ref ∧
      (aeg.mayIntroduceSpeculation src = true ∨ (aeg.freeTrans src).eval v = true) := by
  obtain ⟨src, source, selected⟩ := exists_true (tfo · ref) (free.one_fetch ref valid transient).ge
  obtain ⟨validSrc, target⟩ := List.mem_filter.mp source
  have member : ref ∈ aeg.tfoDsts src := by simpa using target
  have edge : aeg.po.po.Edge src ref := by
    unfold tfoDsts at member
    split at member
    · cases member
    · exact member
  refine ⟨src, List.mem_range.mp validSrc, edge, ?_⟩
  have present : (src, ref) ∈ aeg.tfoEdges :=
    List.mem_flatMap.mpr ⟨src, validSrc, List.mem_map_of_mem member⟩
  have cond := free.fetched (src, ref) present selected
  have idle := free.exclusive ref valid transient
  simp only [freeTfoCond, eval_mkOr, List.any_append, Bool.or_eq_true] at cond
  rcases cond with (both | introduced) | continued
  · simp [idle] at both
  · left
    by_contra regular
    simp [regular] at introduced
  · right
    simp at continued
    exact continued.1

theorem freeTrans_places (transient : (aeg.freeTrans ref).eval v = true) :
    ref ≠ aeg.entry ∧ ref ∉ aeg.exits ∧ aeg.isFence ref = false := by
  unfold freeTrans at transient
  split_ifs at transient with entry exit fence <;> simp_all

section

variable (topological : aeg.po.Topological) (consistent : aeg.po.po.Consistent)
  (free : FreeExecution aeg v)

include topological consistent free

/-- The first pass leaves the variable of every transient node. -/
theorem getTrans_of_free (valid : ref < aeg.size) (transient : (aeg.freeTrans ref).eval v = true) :
    aeg.getTrans (aeg.initTrans ref) ref = true := by
  induction ref using Nat.strong_induction_on with
  | _ ref ih =>
    obtain ⟨entry, exit, fence⟩ := freeTrans_places transient
    obtain ⟨src, validSrc, edge, reason⟩ := free.pred valid transient
    have before : src < ref := topological.increasing edge
    simp only [getTrans, entry, exit, fence, if_false, Bool.false_eq_true, List.any_eq_true,
      Bool.or_eq_true]
    refine ⟨src, consistent.mem_preds.mpr edge, ?_⟩
    rcases reason with introduces | continues
    · exact .inl introduces
    · right
      rw [getD_initTrans before]
      exact ih src before validSrc continues

def transientsUpTo (aeg : Aeg) (v : Valuation) (n : Nat) : Nat :=
  (List.range n).countP (fun ref => (aeg.freeTrans ref).eval v)

omit topological consistent free in
theorem transientsUpTo_mono {m n : Nat} (le : m ≤ n) :
    transientsUpTo aeg v m ≤ transientsUpTo aeg v n :=
  (List.range_sublist.mpr le).countP_le

omit topological consistent free in
theorem transientsUpTo_succ (transient : (aeg.freeTrans ref).eval v = true) :
    transientsUpTo aeg v (ref + 1) = transientsUpTo aeg v ref + 1 := by
  simp [transientsUpTo, List.range_succ, transient]

/-- The second pass places a transient node no farther from a speculation source than
there are transient nodes before it. -/
theorem minSpecIn_of_free (valid : ref < aeg.size) (transient : (aeg.freeTrans ref).eval v = true) :
    aeg.minSpecIn (aeg.minSpecsOut ref) ref ≤ transientsUpTo aeg v ref := by
  induction ref using Nat.strong_induction_on with
  | _ ref ih =>
    obtain ⟨src, validSrc, edge, reason⟩ := free.pred valid transient
    have before : src < ref := topological.increasing edge
    have near := minSpecIn_le (consistent.mem_preds.mpr edge) before
    rcases reason with introduces | continues
    · have zero : aeg.specOut src = 0 := by simp [specOut, introduces]
      exact near.trans (zero ▸ Nat.zero_le _)
    · calc aeg.minSpecIn (aeg.minSpecsOut ref) ref
          ≤ aeg.specOut src := near
        _ ≤ aeg.minSpecIn (aeg.minSpecsOut src) src + 1 := specOut_le src
        _ ≤ transientsUpTo aeg v src + 1 :=
            Nat.add_le_add_right (ih src before validSrc continues) 1
        _ = transientsUpTo aeg v (src + 1) := (transientsUpTo_succ continues).symm
        _ ≤ transientsUpTo aeg v ref := transientsUpTo_mono before

end

end

/-- Ruling nodes out as transient loses nothing: a node that is transient in an execution
over untouched variables keeps its variable in both passes. -/
theorem transient_kept (aeg : Aeg) (topological : aeg.po.Topological)
    (consistent : aeg.po.po.Consistent) (v : Valuation)
    (satisfied : Satisfies v aeg.freeConstraints) (ref : NodeRef) (valid : ref < aeg.size)
    (transient : (aeg.freeTrans ref).eval v = true) :
    aeg.trans ref = boolConst (·.trans ref) := by
  have free := freeExecution_of_satisfies satisfied
  have first := getTrans_of_free topological consistent free valid transient
  have count : transientsUpTo aeg v aeg.size ≤ aeg.specDepth := by
    have depth := free.depth
    rwa [trueCount, List.countP_map] at depth
  have second : aeg.minSpecIn (aeg.minSpecsOut ref) ref < aeg.specDepth :=
    calc aeg.minSpecIn (aeg.minSpecsOut ref) ref
        ≤ transientsUpTo aeg v ref := minSpecIn_of_free topological consistent free valid transient
      _ < transientsUpTo aeg v (ref + 1) := by
          rw [transientsUpTo_succ transient]
          exact Nat.lt_succ_self _
      _ ≤ transientsUpTo aeg v aeg.size := transientsUpTo_mono valid
      _ ≤ aeg.specDepth := count
  rw [trans, mayTrans, first, Bool.true_and, if_pos (decide_eq_true second)]

theorem branchToLoad_load_kept : branchToLoad.trans 2 = boolConst (·.trans 2) :=
  transient_kept branchToLoad branchToLoad_ordered.topological
    (((((Binrel.consistent_empty.insert 0 1).insert 1 2).insert 1 3).insert 2 4).insert 3 4)
    loadTransiently (by decide) 2 (by decide) (by decide)

end Clou.Aeg
