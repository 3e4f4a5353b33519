import Mathlib.Data.List.Chain
import Mathlib.Logic.Relation

/-! Numbered relations in which every selected point but one has a selected
predecessor and no selected point has two successors: the selected points, in
increasing order, are one path. -/

namespace Clou.Orbit

open Relation

/-- A relation that only goes up, restricted to the points `S` it relates. -/
structure Single (T : Nat → Nat → Prop) (S : Nat → Prop) (start : Nat) : Prop where
  increasing : ∀ {u v}, T u v → u < v
  functional : ∀ {u v w}, S u → T u v → T u w → v = w
  start_mem : S start
  pred : ∀ {v}, S v → v ≠ start → ∃ u, S u ∧ T u v

variable {T : Nat → Nat → Prop} {S : Nat → Prop} {start : Nat}

section

variable (single : Single T S start)

include single

/-- Every selected point is reached from the start through selected points. -/
theorem reached {v : Nat} (selected : S v) : ReflTransGen (fun a b => S a ∧ T a b) start v := by
  induction v using Nat.strong_induction_on with
  | _ v ih =>
    by_cases first : v = start
    · rw [first]
    · obtain ⟨u, su, step⟩ := single.pred selected first
      exact (ih u (single.increasing step) su).tail ⟨su, step⟩

theorem le_of_reaches {u v : Nat} (reaches : ReflTransGen (fun a b => S a ∧ T a b) u v) :
    u ≤ v := by
  induction reaches with
  | refl => exact Nat.le_refl _
  | tail _ step ih => exact ih.trans (Nat.le_of_lt (single.increasing step.2))

theorem start_le {v : Nat} (selected : S v) : start ≤ v :=
  le_of_reaches single (reached single selected)

/-- Of two points reached from a common one, the smaller reaches the larger. -/
theorem comparable {a u v : Nat} (order : u ≤ v) (first : ReflTransGen (fun a b => S a ∧ T a b) a u)
    (second : ReflTransGen (fun a b => S a ∧ T a b) a v) :
    ReflTransGen (fun a b => S a ∧ T a b) u v := by
  induction first using ReflTransGen.head_induction_on with
  | refl => exact second
  | @head b c step rest ih =>
    rcases ReflTransGen.cases_head second with same | ⟨d, step', rest'⟩
    · have up := single.increasing step.2
      have le := le_of_reaches single rest
      omega
    · have same : c = d := single.functional step.1 step.2 step'.2
      exact ih (same ▸ rest')

/-- Two selected points with none between them are related. -/
theorem adjacent {u v : Nat} (su : S u) (sv : S v) (less : u < v) (gap : ∀ w, u < w → w < v → ¬ S w) :
    T u v := by
  have above : start ≤ u := start_le single su
  obtain ⟨w, sw, step⟩ := single.pred sv (by omega)
  have below : w ≤ u := by
    by_contra far
    exact gap w (by omega) (single.increasing step) sw
  have path := comparable single below (reached single sw) (reached single su)
  rcases ReflTransGen.cases_head path with same | ⟨x, step', rest⟩
  · exact same ▸ step
  · have same : x = v := single.functional sw step'.2 step
    have le := le_of_reaches single rest
    omega

/-- Listing the selected points below a bound gives a path of the relation. -/
theorem isChain_filter [DecidablePred S] (n : Nat) : ((List.range n).filter (S ·)).IsChain T := by
  induction n with
  | zero => simp
  | succ n ih =>
    rw [List.range_succ, List.filter_append]
    by_cases selected : S n
    · rw [List.filter_cons_of_pos (by simpa using selected), List.filter_nil]
      refine List.IsChain.append ih (List.isChain_singleton n) ?_
      intro u last v head
      have same : v = n := by simpa using head.symm
      subst same
      have member := List.mem_of_getLast? last
      simp only [List.mem_filter, List.mem_range, decide_eq_true_eq] at member
      apply adjacent single member.2 selected member.1
      intro w low high sw
      -- `u` is the last selected point below the bound, so `w` would stand before it.
      have inside : w ∈ (List.range v).filter (S ·) := by
        simpa using ⟨high, sw⟩
      obtain ⟨front, split⟩ := List.getLast?_eq_some_iff.mp last
      have sorted : ((List.range v).filter (S ·)).Pairwise (· < ·) :=
        List.pairwise_lt_range.filter _
      rw [split] at inside sorted
      rcases List.mem_append.mp inside with before | here
      · have less := (List.pairwise_append.mp sorted).2.2 w before u (by simp)
        omega
      · simp only [List.mem_singleton] at here
        omega
    · rw [List.filter_cons_of_neg (by simpa using selected), List.filter_nil, List.append_nil]
      exact ih

end

end Clou.Orbit
