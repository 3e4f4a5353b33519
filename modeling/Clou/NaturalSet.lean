import Clou.Bits
import Clou.OptionFold

/-! Sets of natural numbers kept as a vector of bits with a cached size. -/

namespace Clou

structure KeyType where
  width : Nat
  fits : width ≤ 64

namespace KeyType

def keys (K : KeyType) : Nat := 2 ^ K.width

def convert (K : KeyType) (n : Nat) : Nat := n % K.keys

/-- The sum of a key and one. A type narrower than `int` is promoted to it. -/
def plusOne (K : KeyType) (key : Nat) : Nat := if K.width < 32 then key + 1 else (key + 1) % K.keys

theorem keys_pos (K : KeyType) : 0 < K.keys := Nat.two_pow_pos K.width

theorem keys_le (K : KeyType) : K.keys ≤ 2 ^ 64 := Nat.pow_le_pow_right (by decide) K.fits

theorem convert_of_lt (K : KeyType) {n : Nat} (small : n < K.keys) : K.convert n = n :=
  Nat.mod_eq_of_lt small

theorem plusOne_of_lt (K : KeyType) {key : Nat} (small : key + 1 < K.keys) :
    K.plusOne key = key + 1 := by
  rw [plusOne, Nat.mod_eq_of_lt small, ite_self]

end KeyType

structure NaturalSet where
  v : List Bool
  size : Nat
  deriving DecidableEq

namespace NaturalSet

open Bits

section

variable (K : KeyType)

abbrev Iterator := Option Nat

def advance (v : List Bool) (x : Iterator) : Iterator :=
  (x.map fun key => K.convert (next v key)).filter (· < v.length)

def iterator (v : List Bool) (key : Nat) : Iterator := advance K v (some (K.convert key))

def beginIterator (s : NaturalSet) : Iterator := iterator K s.v 0

def endIterator (s : NaturalSet) : Iterator := iterator K s.v s.v.length

/-- Incrementing asserts that the iterator is not at the end. -/
def inc (v : List Bool) (x : Iterator) : Option Iterator :=
  x.map fun key => advance K v (some (K.convert (key + 1)))

def collect (s : NaturalSet) : Nat → Iterator → Option (List Nat)
  | 0, _ => none
  | fuel + 1, x =>
    if x = endIterator K s then some []
    else do
      let key ← x
      let x ← inc K s.v x
      let rest ← collect s fuel x
      pure (key :: rest)

def values (s : NaturalSet) : Option (List Nat) := collect K s (s.v.length + 1) (beginIterator K s)

def empty (s : NaturalSet) : Bool := s.size == 0

def cleared : NaturalSet := ⟨[], 0⟩

def grow (v : List Bool) (value : Nat) : List Bool :=
  if v.length ≤ value then resize v (K.plusOne value) else v

/-- The flag of the result is read before the bit is set. -/
def insert (s : NaturalSet) (value : Nat) : Option ((Iterator × Bool) × NaturalSet) := do
  let v := grow K s.v value
  let ref ← v[value]?
  let size := if ref then s.size else (s.size + 1) % 2 ^ 64
  let v := v.set value true
  pure ((iterator K v value, ref), ⟨v, size⟩)

def insertRange (s : NaturalSet) (values : List Nat) : Option NaturalSet :=
  values.foldlM (fun s value => (insert K s value).map (·.2)) s

def pred (size : Nat) : Nat := (size + (2 ^ 64 - 1)) % 2 ^ 64

def eraseAt (s : NaturalSet) (pos : Iterator) : Option (Iterator × NaturalSet) := do
  let x ← pos
  let ref ← s.v[x]?
  if ref then
    let v := s.v.set x false
    pure (advance K v pos, ⟨v, pred s.size⟩)
  else none

def eraseValue (s : NaturalSet) (value : Nat) : Option (Nat × NaturalSet) := do
  let ref ← s.v[value]?
  pure (if ref then (1, ⟨s.v.set value false, pred s.size⟩) else (0, s))

def contains (s : NaturalSet) (value : Nat) : Bool :=
  if value ≥ s.v.length then false else s.v[value]?.getD false

def find (s : NaturalSet) (value : Nat) : Iterator :=
  if value ≥ s.v.length then endIterator K s
  else if s.v[value]?.getD false then iterator K s.v value
  else endIterator K s

def equal (s other : NaturalSet) : Bool :=
  s.size == other.size &&
    s.v.take (min s.v.length other.v.length) == other.v.take (min s.v.length other.v.length)

/-- A sum of two bits, kept as a bit. -/
def plus (x y : Bool) : Bool := x.toNat + y.toNat != 0

/-- The reduction starts from a value of the vector's element type and stays in it. -/
def recomputeSize (v : List Bool) : Nat := (v.foldl plus false).toNat

def andAssign (s other : NaturalSet) : NaturalSet :=
  let v := resize s.v (min s.v.length other.v.length)
  let v := List.zipWith and v other.v
  ⟨v, recomputeSize v⟩

def orAssign (s other : NaturalSet) : NaturalSet :=
  let v := resize s.v (max s.v.length other.v.length)
  let v := List.zipWith or (v.take other.v.length) other.v ++ v.drop other.v.length
  ⟨v, recomputeSize v⟩

end

theorem foldl_plus (v : List Bool) (acc : Bool) : v.foldl plus acc = (acc || v.any id) := by
  induction v generalizing acc with
  | nil => simp
  | cons b v ih =>
    rw [List.foldl_cons, ih]
    cases acc <;> cases b <;> simp [plus]

theorem recomputeSize_eq (v : List Bool) : recomputeSize v = min 1 (ones v).card := by
  rw [recomputeSize, foldl_plus, card_ones, Bool.false_or]
  by_cases some : true ∈ v
  · have positive := List.count_pos_iff.mpr some
    have any : v.any id = true := List.any_eq_true.mpr ⟨true, some, rfl⟩
    rw [any, Nat.min_eq_left (by omega)]
    rfl
  · have any : v.any id = false := by
      rw [List.any_eq_false]
      intro b member set
      exact some (by simpa using (show b = true from set) ▸ member)
    rw [any, List.count_eq_zero.mpr some]
    rfl

/-- The set stands for the elements: its bits are theirs, its size is their number, and
its length is a key. -/
structure Represents (K : KeyType) (s : NaturalSet) (A : Finset Nat) : Prop where
  bits : ones s.v = A
  size : s.size = A.card
  short : s.v.length < K.keys

/-- What the interface shows of a set, as it should be for the given elements. -/
structure Shows (K : KeyType) (s : NaturalSet) (A : Finset Nat) : Prop where
  size : s.size = A.card
  empty : s.empty = true ↔ A = ∅
  values : s.values K = some (A.sort (· ≤ ·))
  contains : ∀ key < K.keys, s.contains key = true ↔ key ∈ A
  found : ∀ key ∈ A, s.find K key = some key ∧ s.find K key ≠ s.endIterator K
  missing : ∀ key < K.keys, key ∉ A → s.find K key = s.endIterator K

section

variable {K : KeyType} {v : List Bool}

variable {key : Nat} {s : NaturalSet}

theorem advance_some (short : v.length < K.keys) (inside : key ≤ v.length) :
    advance K v (some key) = if next v key < v.length then some (next v key) else none := by
  have small : next v key < K.keys := Nat.lt_of_le_of_lt (next_le inside) short
  rw [advance, Option.map_some, K.convert_of_lt small, Option.filter_some]
  simp

theorem iterator_eq (short : v.length < K.keys) (inside : key ≤ v.length) :
    iterator K v key = if next v key < v.length then some (next v key) else none := by
  rw [iterator, K.convert_of_lt (by omega), advance_some short inside]

theorem endIterator_eq (short : s.v.length < K.keys) : s.endIterator K = none := by
  rw [endIterator, iterator_eq short (Nat.le_refl _), if_neg (Nat.not_lt.mpr (le_next ..))]

theorem iterator_of_mem (short : v.length < K.keys) (member : key ∈ ones v) :
    iterator K v key = some key := by
  have inside := lt_of_mem_ones member
  have here : next v key = key := by
    by_contra moved
    have after := le_next v key
    exact not_mem_of_lt_next (Nat.le_refl key) (by omega) member
  rw [iterator_eq short (by omega), here, if_pos inside]

/-- From a position on, the loop sees the set bits in increasing order. -/
theorem collect_spec (short : s.v.length < K.keys) (fuel : Nat) (inside : key ≤ s.v.length)
    (enough : s.v.length - key < fuel) :
    ∃ seen, collect K s fuel (advance K s.v (some key)) = some seen ∧ seen.Pairwise (· < ·) ∧
      ∀ j, j ∈ seen ↔ key ≤ j ∧ j ∈ ones s.v := by
  induction fuel generalizing key with
  | zero => omega
  | succ fuel ih =>
    rw [advance_some short inside, collect, endIterator_eq short]
    by_cases found : next s.v key < s.v.length
    · have later := le_next s.v key
      obtain ⟨rest, collected, ordered, members⟩ := 
        ih (show next s.v key + 1 ≤ s.v.length from found) (by omega)
      refine ⟨next s.v key :: rest, ?_, ?_, ?_⟩
      · simp [found, inc, K.convert_of_lt (Nat.lt_of_le_of_lt found short), collected]
      · rw [List.pairwise_cons]
        exact ⟨fun j member => ((members j).mp member).1, ordered⟩
      · intro j
        rw [List.mem_cons, members]
        constructor
        · intro member
          rcases member with rfl | ⟨after, set⟩
          · exact ⟨later, next_mem found⟩
          · exact ⟨by omega, set⟩
        · intro member
          by_cases before : j < next s.v key
          · exact absurd member.2 (not_mem_of_lt_next member.1 before)
          · by_cases here : j = next s.v key
            · exact .inl here
            · exact .inr ⟨by omega, member.2⟩
    · refine ⟨[], by simp [found], List.Pairwise.nil, ?_⟩
      intro j
      constructor
      · intro member
        simp at member
      · intro member
        have inside' := lt_of_mem_ones member.2
        exact absurd member.2 (not_mem_of_lt_next member.1 (by omega))

theorem values_eq (short : s.v.length < K.keys) : s.values K = some ((ones s.v).sort (· ≤ ·)) := by
  obtain ⟨seen, collected, ordered, members⟩ :=
    collect_spec short (s.v.length + 1) (Nat.zero_le _) (by omega)
  have same : seen.toFinset = ones s.v := by
    ext j
    simp [members]
  have sorted : seen.toFinset.sort (· ≤ ·) = seen := by
    rw [List.toFinset_sort (· ≤ ·) ordered.nodup]
    exact ordered.imp Nat.le_of_lt
  rw [values, beginIterator, iterator, K.convert_of_lt K.keys_pos, collected, ← same, sorted]

end

theorem contains_iff {s : NaturalSet} {key : Nat} : s.contains key = true ↔ key ∈ ones s.v := by
  rw [mem_ones, contains]
  by_cases inside : key < s.v.length
  · rw [if_neg (by omega), List.getElem?_eq_getElem inside]
    simp
  · rw [if_pos (by omega), List.getElem?_eq_none (by omega)]
    simp

variable {values : List Nat}

namespace Represents

variable {K : KeyType} {s : NaturalSet} {A : Finset Nat}

section

variable (represents : Represents K s A)

include represents

theorem shows : Shows K s A := by
  obtain ⟨bits, size, short⟩ := represents
  have ends := endIterator_eq short
  refine ⟨size, ?_, ?_, ?_, ?_, ?_⟩
  · rw [NaturalSet.empty, size, beq_iff_eq, Finset.card_eq_zero]
  · rw [values_eq short, bits]
  · intro key _
    rw [contains_iff, bits]
  · intro key member
    rw [← bits] at member
    have here : s.find K key = some key := by
      rw [find, if_neg (Nat.not_le.mpr (lt_of_mem_ones member)), mem_ones.mp member]
      exact iterator_of_mem short member
    exact ⟨here, by simp [here, ends]⟩
  · intro key _ absent
    rw [← bits, ← contains_iff, contains] at absent
    rw [find]
    split
    · rfl
    · rename_i inside
      rw [if_neg inside] at absent
      rw [if_neg absent]

omit represents in
theorem cleared (K : KeyType) : Represents K cleared ∅ := ⟨rfl, rfl, K.keys_pos⟩

theorem card_lt : A.card < K.keys := by
  rw [← represents.bits]
  exact Nat.lt_of_le_of_lt (card_ones_le s.v) represents.short

variable {value : Nat}

theorem grow (small : value + 1 < K.keys) :
    ones (NaturalSet.grow K s.v value) = A ∧ value < (NaturalSet.grow K s.v value).length ∧
      (NaturalSet.grow K s.v value).length < K.keys := by
  rw [NaturalSet.grow, K.plusOne_of_lt small]
  split
  · rename_i beyond
    rw [ones_resize_of_le (by omega), length_resize]
    exact ⟨represents.bits, by omega, small⟩
  · rename_i inside
    exact ⟨represents.bits, by omega, represents.short⟩

/-- Inserting a key other than the largest. The flag says whether it was there before. -/
theorem insert (small : value + 1 < K.keys) :
    ∃ s', s.insert K value = some ((some value, decide (value ∈ A)), s') ∧
      Represents K s' (Insert.insert value A) := by
  obtain ⟨bits, inside, short⟩ := represents.grow small
  have read : (NaturalSet.grow K s.v value)[value]? = some (decide (value ∈ A)) := by
    have member := mem_ones (v := NaturalSet.grow K s.v value) (k := value)
    rw [bits, List.getElem?_eq_getElem inside, Option.some.injEq] at member
    rw [List.getElem?_eq_getElem inside, Option.some.injEq, Bool.eq_iff_iff, decide_eq_true_iff, member]
  have bits' : ones ((NaturalSet.grow K s.v value).set value true) = Insert.insert value A := by
    rw [ones_set_true inside, bits]
  have short' : ((NaturalSet.grow K s.v value).set value true).length < K.keys := by
    rw [List.length_set]
    exact short
  have here : iterator K ((NaturalSet.grow K s.v value).set value true) value = some value :=
    iterator_of_mem short' (by rw [bits']; exact Finset.mem_insert_self value A)
  refine ⟨⟨(NaturalSet.grow K s.v value).set value true,
    if decide (value ∈ A) then s.size else (s.size + 1) % 2 ^ 64⟩, ?_, bits', ?_, short'⟩
  · simp only [NaturalSet.insert, read, here, Option.bind_eq_bind, Option.bind_some, Option.pure_def]
  · by_cases old : value ∈ A
    · simp only [old, decide_true, if_true, Finset.insert_eq_of_mem]
      exact represents.size
    · have count := card_ones_le ((NaturalSet.grow K s.v value).set value true)
      have keys := K.keys_le
      rw [bits', Finset.card_insert_of_notMem old] at count
      simp only [old, decide_false, Bool.false_eq_true, if_false, Finset.card_insert_of_notMem old,
        represents.size]
      exact Nat.mod_eq_of_lt (by omega)

theorem insertRange (small : ∀ value ∈ values, value + 1 < K.keys) :
    ∃ s', s.insertRange K values = some s' ∧ Represents K s' (A ∪ values.toFinset) := by
  induction values generalizing s A with
  | nil => exact ⟨s, rfl, by simpa using represents⟩
  | cons value values ih =>
    obtain ⟨s₁, inserted, represents₁⟩ := represents.insert (small value List.mem_cons_self)
    obtain ⟨s₂, folded, represents₂⟩ :=
      ih represents₁ (fun other member => small other (List.mem_cons_of_mem value member))
    refine ⟨s₂, ?_, ?_⟩
    · rw [NaturalSet.insertRange, foldlM_cons_eq_some]
      exact ⟨s₁, by rw [inserted, Option.map_some], folded⟩
    · rw [List.toFinset_cons, Finset.union_insert, ← Finset.insert_union]
      exact represents₂

theorem erased (member : value ∈ A) :
    s.v[value]? = some true ∧ Represents K ⟨s.v.set value false, pred s.size⟩ (A.erase value) := by
  have positive : 0 < A.card := Finset.card_pos.mpr ⟨value, member⟩
  have bound := represents.card_lt
  have keys := K.keys_le
  refine ⟨mem_ones.mp (represents.bits ▸ member), ?_, ?_, ?_⟩
  · rw [ones_set_false, represents.bits]
  · change (s.size + (2 ^ 64 - 1)) % 2 ^ 64 = _
    rw [Finset.card_erase_of_mem member, represents.size]
    omega
  · rw [List.length_set]
    exact represents.short

theorem eraseValue (member : value ∈ A) :
    ∃ s', s.eraseValue value = some (1, s') ∧ Represents K s' (A.erase value) := by
  obtain ⟨read, represents'⟩ := represents.erased member
  exact ⟨_, by simp only [NaturalSet.eraseValue, read, Option.bind_eq_bind, Option.bind_some,
    Option.pure_def, if_true], represents'⟩

theorem eraseAt (member : value ∈ A) :
    ∃ pos s', s.eraseAt K (some value) = some (pos, s') ∧ Represents K s' (A.erase value) := by
  obtain ⟨read, represents'⟩ := represents.erased member
  exact ⟨advance K (s.v.set value false) (some value), _, by simp only [NaturalSet.eraseAt, read, Option.bind_eq_bind, Option.bind_some,
    Option.pure_def, if_true], represents'⟩

end

variable {other : NaturalSet} {B : Finset Nat}

theorem equal (left : Represents K s A) (right : Represents K other B) :
    s.equal other = true ↔ A = B := by
  rw [NaturalSet.equal, Bool.and_eq_true, beq_iff_eq, beq_iff_eq, left.size, right.size,
    ← left.bits, ← right.bits]
  constructor
  · intro same
    rw [card_ones, card_ones] at same
    exact ones_eq_of_take same.1 same.2
  · intro same
    exact ⟨by rw [same], take_eq_of_ones same⟩

theorem andAssign (left : Represents K s A) (right : Represents K other B) :
    ones (s.andAssign other).v = A ∩ B ∧ (s.andAssign other).size = min 1 (A ∩ B).card ∧
      (s.andAssign other).v.length < K.keys := by
  have bits : ones (s.andAssign other).v = A ∩ B := by
    change ones (List.zipWith and (resize s.v _) other.v) = _
    rw [resize_of_le (Nat.min_le_left ..), ones_zipWith_and, left.bits, right.bits]
  have size : (s.andAssign other).size = min 1 (ones (s.andAssign other).v).card := recomputeSize_eq _
  refine ⟨bits, by rw [size, bits], ?_⟩
  have length : (s.andAssign other).v.length ≤ s.v.length := by
    change (List.zipWith and (resize s.v _) other.v).length ≤ _
    rw [List.length_zipWith, length_resize]
    omega
  exact Nat.lt_of_le_of_lt length left.short

theorem orAssign (left : Represents K s A) (right : Represents K other B) :
    ones (s.orAssign other).v = A ∪ B ∧ (s.orAssign other).size = min 1 (A ∪ B).card ∧
      (s.orAssign other).v.length < K.keys := by
  have longer : other.v.length ≤ (resize s.v (max s.v.length other.v.length)).length := by
    rw [length_resize]
    exact Nat.le_max_right ..
  have bits : ones (s.orAssign other).v = A ∪ B := by
    change ones (List.zipWith or (List.take _ (resize s.v _)) other.v ++ List.drop _ (resize s.v _)) = _
    rw [ones_zipWith_or longer, ones_resize_of_le (Nat.le_max_left ..), left.bits, right.bits]
  have size : (s.orAssign other).size = min 1 (ones (s.orAssign other).v).card := recomputeSize_eq _
  refine ⟨bits, by rw [size, bits], ?_⟩
  have length : (s.orAssign other).v.length = max s.v.length other.v.length := by
    change (List.zipWith or (List.take _ (resize s.v _)) other.v ++ List.drop _ (resize s.v _)).length = _
    rw [List.length_append, List.length_zipWith, List.length_take, List.length_drop, length_resize]
    omega
  rw [length]
  exact max_lt left.short right.short

end Represents

section

variable {K : KeyType} {s s' : NaturalSet} {result : Iterator × Bool}

/-- Inserting into a vector as long as there are keys leaves its length and its set bits. -/
theorem insert_full (full : s.v.length = K.keys) {value : Nat} (key : value < K.keys)
    (inserted : s.insert K value = some (result, s')) :
    s'.v.length = K.keys ∧ ones s.v ⊆ ones s'.v := by
  have kept : grow K s.v value = s.v := by rw [grow, if_neg (by omega)]
  rw [insert, kept, List.getElem?_eq_getElem (by omega)] at inserted
  simp only [Option.bind_eq_bind, Option.bind_some, Option.pure_def, Option.some.injEq,
    Prod.mk.injEq] at inserted
  rw [← inserted.2]
  refine ⟨by rw [List.length_set, full], ?_⟩
  rw [ones_set_true (by omega)]
  exact Finset.subset_insert value _

/-- The largest key: a wide type overflows and the access fails, a narrow one leaves a
vector as long as there are keys. -/
theorem insert_largest (short : s.v.length < K.keys)
    (inserted : s.insert K (K.keys - 1) = some (result, s')) :
    s'.v.length = K.keys ∧ K.keys - 1 ∈ ones s'.v := by
  have one : K.keys - 1 + 1 = K.keys := Nat.sub_add_cancel K.keys_pos
  have grown : grow K s.v (K.keys - 1) = resize s.v (if K.width < 32 then K.keys else 0) := by
    rw [grow, if_pos (by omega), KeyType.plusOne, one, Nat.mod_self]
  rw [insert, grown] at inserted
  split at inserted
  · have inside : K.keys - 1 < (resize s.v K.keys).length := by
      rw [length_resize]
      omega
    rw [List.getElem?_eq_getElem inside] at inserted
    simp only [Option.bind_eq_bind, Option.bind_some, Option.pure_def, Option.some.injEq,
      Prod.mk.injEq] at inserted
    rw [← inserted.2]
    refine ⟨by rw [List.length_set, length_resize], ?_⟩
    rw [ones_set_true inside]
    exact Finset.mem_insert_self ..
  · rw [List.getElem?_eq_none (by rw [length_resize]; omega)] at inserted
    simp at inserted

theorem insertRange_full (full : s.v.length = K.keys) (keys : ∀ value ∈ values, value < K.keys)
    (inserted : s.insertRange K values = some s') :
    s'.v.length = K.keys ∧ ones s.v ⊆ ones s'.v := by
  induction values generalizing s with
  | nil =>
    obtain rfl : s = s' := Option.some.inj inserted
    exact ⟨full, Finset.Subset.refl _⟩
  | cons value values ih =>
    rw [insertRange, foldlM_cons_eq_some] at inserted
    obtain ⟨s₁, first, rest⟩ := inserted
    obtain ⟨both, inserted₁, rfl⟩ := Option.map_eq_some_iff.mp first
    obtain ⟨full₁, more₁⟩ := insert_full full (keys value List.mem_cons_self) inserted₁
    obtain ⟨full₂, more₂⟩ := ih full₁ (fun other member => keys other (List.mem_cons_of_mem value member)) rest
    exact ⟨full₂, more₁.trans more₂⟩

theorem insertRange_largest {A : Finset Nat} (represents : Represents K s A)
    (keys : ∀ value ∈ values, value < K.keys) (largest : K.keys - 1 ∈ values)
    (inserted : s.insertRange K values = some s') :
    s'.v.length = K.keys ∧ K.keys - 1 ∈ ones s'.v := by
  induction values generalizing s A with
  | nil => simp at largest
  | cons value values ih =>
    have others : ∀ other ∈ values, other < K.keys :=
      fun other member => keys other (List.mem_cons_of_mem value member)
    rw [insertRange, foldlM_cons_eq_some] at inserted
    obtain ⟨s₁, first, rest⟩ := inserted
    obtain ⟨both, inserted₁, rfl⟩ := Option.map_eq_some_iff.mp first
    by_cases here : value = K.keys - 1
    · rw [here] at inserted₁
      obtain ⟨full, member⟩ := insert_largest represents.short inserted₁
      obtain ⟨full', more⟩ := insertRange_full full others rest
      exact ⟨full', more member⟩
    · have key := keys value List.mem_cons_self
      obtain ⟨s₂, inserted₂, represents₂⟩ := represents.insert (show value + 1 < K.keys by omega)
      rw [inserted₂, Option.some.injEq] at inserted₁
      rw [← inserted₁] at rest
      exact ih represents₂ others ((List.mem_cons.mp largest).resolve_left (Ne.symm here)) rest

/-- Over a vector as long as there are keys the end is where the loop begins. -/
theorem values_full (full : s.v.length = K.keys) : s.values K = some [] := by
  have same : beginIterator K s = endIterator K s := by
    rw [beginIterator, endIterator, iterator, iterator, full, KeyType.convert, KeyType.convert,
      Nat.mod_self, Nat.zero_mod]
  rw [values, collect, if_pos same]

end

end NaturalSet

end Clou
