import Mathlib.Data.Finset.Sort
import Mathlib.Data.List.Induction
import Mathlib.Order.Lattice.Nat

/-! Lists of bits as finite sets of positions. -/

namespace Clou.Bits

def ones (v : List Bool) : Finset Nat := (Finset.range v.length).filter fun k => v[k]? = some true

variable {v w : List Bool} {k n : Nat}

theorem mem_ones : k ∈ ones v ↔ v[k]? = some true := by
  rw [ones, Finset.mem_filter, Finset.mem_range, and_iff_right_iff_imp]
  intro set
  exact (List.getElem?_eq_some_iff.mp set).1

theorem lt_of_mem_ones (member : k ∈ ones v) : k < v.length :=
  (List.getElem?_eq_some_iff.mp (mem_ones.mp member)).1

theorem ones_concat (v : List Bool) (b : Bool) :
    ones (v ++ [b]) = if b then insert v.length (ones v) else ones v := by
  ext k
  rw [mem_ones, List.getElem?_append]
  by_cases inside : k < v.length
  · have other : k ≠ v.length := by omega
    rw [if_pos inside, ← mem_ones]
    cases b <;> simp [other]
  · have outside : k ∉ ones v := fun member => inside (lt_of_mem_ones member)
    rw [if_neg inside, List.getElem?_singleton]
    cases b with
    | false => simp [outside]
    | true =>
      have last : k - v.length = 0 ↔ k = v.length := by omega
      simp [outside, last]

theorem card_ones (v : List Bool) : (ones v).card = v.count true := by
  induction v using List.reverseRecOn with
  | nil => rfl
  | append_singleton v b ih =>
    have fresh : v.length ∉ ones v := fun member => absurd (lt_of_mem_ones member) (by omega)
    rw [ones_concat, List.count_append]
    cases b with
    | false => simpa using ih
    | true => simp [Finset.card_insert_of_notMem fresh, ih]

theorem card_ones_le (v : List Bool) : (ones v).card ≤ v.length := by
  rw [card_ones]
  exact List.count_le_length

def resize (v : List Bool) (n : Nat) : List Bool := v.take n ++ List.replicate (n - v.length) false

@[simp] theorem length_resize (v : List Bool) (n : Nat) : (resize v n).length = n := by
  simp [resize]
  omega

theorem resize_of_le (shorter : n ≤ v.length) : resize v n = v.take n := by
  rw [resize, Nat.sub_eq_zero_of_le shorter, List.replicate_zero, List.append_nil]

theorem mem_ones_resize : k ∈ ones (resize v n) ↔ k < n ∧ k ∈ ones v := by
  rw [mem_ones, mem_ones, resize, List.getElem?_append]
  by_cases inside : k < (v.take n).length
  · have small : k < n := by
      rw [List.length_take] at inside
      omega
    rw [if_pos inside, List.getElem?_take_of_lt small]
    simp [small]
  · rw [if_neg inside, List.getElem?_replicate]
    have beyond : ¬ (k < n ∧ v[k]? = some true) := by
      intro both
      have short := (List.getElem?_eq_some_iff.mp both.2).1
      rw [List.length_take] at inside
      omega
    simp only [beyond, iff_false]
    split <;> simp

theorem ones_resize_of_le (fits : v.length ≤ n) : ones (resize v n) = ones v := by
  ext k
  rw [mem_ones_resize, and_iff_right_iff_imp]
  intro member
  exact Nat.lt_of_lt_of_le (lt_of_mem_ones member) fits

theorem ones_set_true (inside : k < v.length) : ones (v.set k true) = insert k (ones v) := by
  ext j
  rw [mem_ones, Finset.mem_insert, mem_ones, List.getElem?_set]
  by_cases here : k = j
  · simp [here, here ▸ inside]
  · simp [here, Ne.symm here]

theorem ones_set_false : ones (v.set k false) = (ones v).erase k := by
  ext j
  rw [mem_ones, Finset.mem_erase, mem_ones, List.getElem?_set]
  by_cases here : k = j
  · simp [here]
  · simp [here, Ne.symm here]

def next (v : List Bool) (k : Nat) : Nat := k + (v.drop k).findIdx id

theorem next_le (inside : k ≤ v.length) : next v k ≤ v.length := by
  have bound : (v.drop k).findIdx id ≤ (v.drop k).length := List.findIdx_le_length
  rw [List.length_drop] at bound
  rw [next]
  omega

theorem le_next (v : List Bool) (k : Nat) : k ≤ next v k := Nat.le_add_right ..

theorem next_mem (found : next v k < v.length) : next v k ∈ ones v := by
  have inside : (v.drop k).findIdx id < (v.drop k).length := by
    rw [next] at found
    rw [List.length_drop]
    omega
  have set : (v.drop k)[(v.drop k).findIdx id] = true := List.findIdx_getElem (p := id) (w := inside)
  rw [mem_ones, next, ← List.getElem?_drop, List.getElem?_eq_getElem inside, set]

theorem not_mem_of_lt_next {j : Nat} (after : k ≤ j) (before : j < next v k) : j ∉ ones v := by
  have earlier : j - k < (v.drop k).findIdx id := by
    rw [next] at before
    omega
  have clear := List.not_of_lt_findIdx earlier
  have inside : j - k < (v.drop k).length := Nat.lt_of_lt_of_le earlier List.findIdx_le_length
  rw [mem_ones]
  intro set
  rw [show j = k + (j - k) by omega, ← List.getElem?_drop, List.getElem?_eq_getElem inside] at set
  rw [Option.some.inj set] at clear
  exact absurd clear (by decide)

theorem subset_of_take (same : v = w.take v.length) : ones v ⊆ ones w := by
  intro k member
  have inside := lt_of_mem_ones member
  rw [mem_ones, same, List.getElem?_take_of_lt inside] at member
  exact mem_ones.mpr member

/-- Lists of bits with equal counts and equal beginnings of the shorter length have the
same set bits, whatever zeros follow. -/
theorem ones_eq_of_take (counts : v.count true = w.count true)
    (same : v.take (min v.length w.length) = w.take (min v.length w.length)) : ones v = ones w := by
  rw [← card_ones, ← card_ones] at counts
  rcases Nat.le_total v.length w.length with shorter | shorter
  · rw [Nat.min_eq_left shorter, List.take_length] at same
    exact Finset.eq_of_subset_of_card_le (subset_of_take same) counts.ge
  · rw [Nat.min_eq_right shorter, List.take_length] at same
    exact (Finset.eq_of_subset_of_card_le (subset_of_take same.symm) counts.le).symm

theorem take_eq_of_ones (same : ones v = ones w) :
    v.take (min v.length w.length) = w.take (min v.length w.length) := by
  have length : (v.take (min v.length w.length)).length = (w.take (min v.length w.length)).length := by
    rw [List.length_take, List.length_take]
    omega
  refine List.ext_getElem length fun k left right => ?_
  rw [List.length_take] at left right
  rw [List.getElem_take, List.getElem_take, Bool.eq_iff_iff]
  have member : k ∈ ones v ↔ k ∈ ones w := by rw [same]
  rw [mem_ones, mem_ones, List.getElem?_eq_getElem (by omega), List.getElem?_eq_getElem (by omega)] at member
  simpa using member

theorem ones_zipWith_and (v w : List Bool) :
    ones (List.zipWith and (v.take (min v.length w.length)) w) = ones v ∩ ones w := by
  ext k
  rw [Finset.mem_inter, mem_ones, mem_ones, mem_ones, List.getElem?_zipWith, List.getElem?_take]
  by_cases inside : k < min v.length w.length
  · rw [if_pos inside, List.getElem?_eq_getElem (by omega), List.getElem?_eq_getElem (by omega)]
    simp
  · rw [if_neg inside]
    by_cases short : k < v.length
    · have absent : w[k]? = none := List.getElem?_eq_none (by omega)
      simp [absent]
    · have absent : v[k]? = none := List.getElem?_eq_none (by omega)
      simp [absent]

theorem ones_zipWith_or (shorter : w.length ≤ v.length) :
    ones (List.zipWith or (v.take w.length) w ++ v.drop w.length) = ones v ∪ ones w := by
  ext k
  have length : (List.zipWith or (v.take w.length) w).length = w.length := by
    rw [List.length_zipWith, List.length_take]
    omega
  rw [Finset.mem_union, mem_ones, mem_ones, mem_ones, List.getElem?_append, length]
  by_cases inside : k < w.length
  · rw [if_pos inside, List.getElem?_zipWith, List.getElem?_take_of_lt inside,
      List.getElem?_eq_getElem (by omega), List.getElem?_eq_getElem inside]
    simp
  · have absent : w[k]? = none := List.getElem?_eq_none (by omega)
    rw [if_neg inside, List.getElem?_drop, absent, show w.length + (k - w.length) = k by omega]
    simp

end Clou.Bits
