import Mathlib.Data.Nat.Cast.Order.Ring
import Clou.Types

/-! The byte offsets of address computations: three walks over a type, in 64-bit arithmetic on bits,
which differ in what they do at an index that is not constant. -/

namespace Clou

inductive Index where
  | const (value : Int)
  | nonconst
  deriving DecidableEq, Repr

structure Gep where
  operandType : Ty
  indices : List Index

/-- Where a walk goes on at an index that is not constant. -/
inductive Turn where
  | unknown
  | stop (offset : BitVec 64)
  | onward (T : Ty) (offset : BitVec 64)

namespace Offsets

section

variable (size : Ty → Nat) (pointee : Nat → Ty)

def sizeBits (T : Ty) : BitVec 64 := BitVec.ofNat 64 (size T)

/-- The offset is counted in bits and returned in bytes, as a 32-bit integer. -/
def bytes (offset : BitVec 64) : Int := ((offset / 8).setWidth 32).toInt

/-- One constant index. Another type than a structure, an array or a pointer ends the program. -/
def constStep (index : BitVec 64) (T : Ty) (offset : BitVec 64) : Option (Ty × BitVec 64) :=
  match T with
  | .struct _ fields =>
    fields[index.toNat]?.map fun next =>
      (next, (fields.take index.toNat).foldl (fun offset field => offset + sizeBits size field) offset)
  | .array _ elem => some (elem, offset + sizeBits size elem * index)
  | .pointer elem => some (pointee elem, offset + sizeBits size (pointee elem) * index)
  | .int _ => none

/-- The outer option is empty when the program ends, the inner one when there is no offset. -/
def walk (turn : Ty → BitVec 64 → Turn) : List Index → Ty → BitVec 64 → Option (Option Int)
  | [], _, offset => some (some (bytes offset))
  | .const value :: rest, T, offset =>
    (constStep size pointee (BitVec.ofInt 64 value) T offset).bind fun next =>
      walk turn rest next.1 next.2
  | .nonconst :: rest, T, offset =>
    match turn T offset with
    | .unknown => some none
    | .stop offset => some (some (bytes offset))
    | .onward T offset => walk turn rest T offset

def constTurn (_ : Ty) (_ : BitVec 64) : Turn := .unknown

/-- The least index is taken to be 0. -/
def minTurn (T : Ty) (offset : BitVec 64) : Turn :=
  match T with
  | .array _ elem => .onward elem (offset + 0)
  | _ => .unknown

/-- The index is taken to be in bounds, and what follows it to stay inside of the array. -/
def maxTurn (T : Ty) (offset : BitVec 64) : Turn :=
  match T with
  | .array nelems elem =>
    if 0 < nelems then .stop (offset + BitVec.ofNat 64 nelems * sizeBits size elem) else .unknown
  | _ => .unknown

def getelementptrConstOffset (GEP : Gep) : Option (Option Int) :=
  walk size pointee constTurn GEP.indices GEP.operandType 0

def getelementptrMinOffset (GEP : Gep) : Option (Option Int) :=
  walk size pointee minTurn GEP.indices GEP.operandType 0

def getelementptrMaxOffset (GEP : Gep) : Option (Option Int) :=
  walk size pointee (maxTurn size) GEP.indices GEP.operandType 0

end

/-! Machine arithmetic -/

/-- The bits may be counted in any way that is right modulo the word. -/
theorem bytes_ofInt (offset : Int) : bytes (BitVec.ofInt 64 offset) = (offset / 8).bmod (2 ^ 32) := by
  have congruent : ((offset % 2 ^ 64).toNat / 8 : Int) % 2 ^ 32 = offset / 8 % 2 ^ 32 := by omega
  rw [bytes, BitVec.toInt_setWidth, BitVec.toNat_udiv, BitVec.toNat_ofInt, ← Int.emod_bmod,
    ← Int.emod_bmod (offset / 8)]
  exact congrArg (Int.bmod · (2 ^ 32)) congruent

theorem bytes_of_fits {offset : Int} (low : -2 ^ 31 ≤ offset / 8)
    (high : offset / 8 < 2 ^ 31) : bytes (BitVec.ofInt 64 offset) = offset / 8 := by
  rw [bytes_ofInt]
  exact Int.bmod_eq_of_le (by omega) (by omega)

section

variable {size : Ty → Nat} {pointee : Nat → Ty}

theorem sizeBits_mul (T : Ty) (index base : Int) :
    BitVec.ofInt 64 base + sizeBits size T * BitVec.ofInt 64 index =
      BitVec.ofInt 64 (base + size T * index) := by
  rw [sizeBits, BitVec.ofInt_add, BitVec.ofInt_mul, BitVec.ofInt_natCast]

theorem first_step (T : Ty) (index : Int) :
    0 + sizeBits size T * BitVec.ofInt 64 index = BitVec.ofInt 64 (index * size T) := by
  change BitVec.ofInt 64 0 + _ = _
  rw [sizeBits_mul, Int.zero_add, Int.mul_comm]

theorem foldl_sizeBits (fields : List Ty) (base : Int) :
    fields.foldl (fun offset field => offset + sizeBits size field) (BitVec.ofInt 64 base) =
      BitVec.ofInt 64 (base + (fields.map size).sum) := by
  induction fields generalizing base with
  | nil => simp
  | cons field fields ih =>
    have here : BitVec.ofInt 64 base + sizeBits size field = BitVec.ofInt 64 (base + size field) := by
      rw [sizeBits, BitVec.ofInt_add, BitVec.ofInt_natCast]
    rw [List.foldl_cons, here, ih, List.map_cons, List.sum_cons]
    congr 1
    omega

variable {T : Ty}

/-- A constant index moves by the distance in the packed layout. -/
theorem constStep_packed {next : Ty} {index here : Int}
    (found : (packedLayout size).step T index = some (next, here)) (base : Int) :
    constStep size pointee (BitVec.ofInt 64 index) T (BitVec.ofInt 64 base) =
      some (next, BitVec.ofInt 64 (base + here)) := by
  cases T with
  | int bits => cases found
  | pointer elem => cases found
  | array count elem =>
    cases found
    exact congrArg (fun offset => some (next, offset)) (sizeBits_mul next index base)
  | struct packed fields =>
    rcases Option.map_eq_some_iff.mp found with ⟨field, selected, same⟩
    cases same
    unfold Ty.fieldAt at selected
    split at selected
    · rename_i valid
      have position : (BitVec.ofInt 64 index).toNat = index.toNat := by
        rw [BitVec.toNat_ofInt]
        omega
      rw [constStep, position, selected, Option.map_some, foldl_sizeBits]
      rfl
    · cases selected

theorem walk_const (turn : Ty → BitVec 64 → Turn) {values : List Int} {offset : Int}
    (found : (packedLayout size).offset values T = some offset) (base : Int) :
    walk size pointee turn (values.map .const) T (BitVec.ofInt 64 base) =
      some (some (bytes (BitVec.ofInt 64 (base + offset)))) := by
  induction values generalizing T offset base with
  | nil =>
    cases found
    rw [Int.add_zero]
    rfl
  | cons value rest ih =>
    rcases Option.bind_eq_some_iff.mp found with ⟨⟨next, here⟩, first, below⟩
    rcases Option.map_eq_some_iff.mp below with ⟨inner, deeper, rfl⟩
    rw [List.map_cons, walk, constStep_packed first, Option.bind_some, ih deeper, Int.add_assoc]

/-- With constant indices, a walk leads where the packed layout does, up to the word. -/
theorem walk_gep (turn : Ty → BitVec 64 → Turn) {values : List Int} {offset : Int}
    (found : (packedLayout size).gepOffset pointee values T = some offset) :
    walk size pointee turn (values.map .const) T 0 =
      some (some ((offset / 8).bmod (2 ^ 32))) := by
  rcases Layout.gepOffset_eq_some.mp found with ⟨index, rest, elem, rfl, rfl, element⟩
  rcases Option.map_eq_some_iff.mp element with ⟨inner, deeper, rfl⟩
  rw [List.map_cons, walk, constStep, Option.bind_some, first_step, walk_const turn deeper, bytes_ofInt,
    Int.mul_comm]
  rfl

end

/-! Padding -/

/-- The offset is that in memory if and only if the padding that the indices skip vanishes in the
32-bit result. -/
theorem constOffset_iff_padding (DL : DataLayout) (pointee : Nat → Ty) {indices : List Int} {T : Ty}
    {real : Int} (typed : DL.trueOffset pointee indices T = some real) (low : -2 ^ 31 ≤ real)
    (high : real < 2 ^ 31) :
    getelementptrConstOffset DL.sizeInBits pointee ⟨T, indices.map .const⟩ = some (some real) ↔
      ∃ skipped, DL.padding.gepOffset pointee indices T = some skipped ∧ 2 ^ 32 ∣ -skipped / 8 := by
  rcases Option.map_eq_some_iff.mp typed with ⟨bits, found, rfl⟩
  rcases DL.splits.gepOffset found with ⟨taken, skipped, packed, padding, rfl⟩
  have whole := DL.whole_gepOffset found
  have walked := walk_gep constTurn packed
  have split : taken / 8 = (taken + skipped) / 8 + -skipped / 8 := by omega
  rw [getelementptrConstOffset, walked, Option.some.injEq, Option.some.injEq]
  constructor
  · intro same
    refine ⟨skipped, padding, ?_⟩
    rw [Int.bmod_def] at same
    omega
  · rintro ⟨_, padding', vanishes⟩
    cases padding.symm.trans padding'
    rw [Int.bmod_def]
    omega

/-- A byte and a word, with padding between them. -/
def byteWord : Ty := .struct false [.int 8, .int 32]

/-- The alignments of common 64-bit machines. -/
def lp64 : DataLayout where
  intAlign bits := if bits ≤ 8 then 1 else if bits ≤ 16 then 2 else if bits ≤ 32 then 4 else 8
  pointerBits := 64
  pointerAlign := 8
  aggregateAlign := 0
  intAlign_pos bits := by
    split
    · decide
    · split
      · decide
      · split <;> decide
  pointerAlign_pos := by decide

/-- The word is 4 bytes into the structure, not 1. -/
theorem byteWord_offset : lp64.trueOffset (fun _ => byteWord) [0, 1] (.pointer 0) = some 4 ∧
    getelementptrConstOffset lp64.sizeInBits (fun _ => byteWord)
      ⟨.pointer 0, [0, 1].map .const⟩ = some (some 1) := by
  decide

/-- Nothing is skipped on the way to the second word of an array. -/
theorem words_offset : lp64.trueOffset (fun _ => .array 4 (.int 32)) [0, 2] (.pointer 0) = some 8 ∧
    (getelementptrConstOffset lp64.sizeInBits (fun _ => .array 4 (.int 32))
      ⟨.pointer 0, [0, 2].map .const⟩ = some (some 8) ↔
      ∃ skipped, lp64.padding.gepOffset (fun _ => .array 4 (.int 32)) [0, 2] (.pointer 0) =
        some skipped ∧ 2 ^ 32 ∣ -skipped / 8) :=
  ⟨by decide, constOffset_iff_padding lp64 _ (by decide) (by decide) (by decide)⟩

/-! Bounds -/

/-- A type is a whole number of bytes, and so are its parts, for which there is room in it. -/
inductive HoldsParts (size : Ty → Nat) : Ty → Prop
  | int {bits} : 8 ∣ size (.int bits) → HoldsParts size (.int bits)
  | pointer {elem} : 8 ∣ size (.pointer elem) → HoldsParts size (.pointer elem)
  | array {count elem} : 8 ∣ size (.array count elem) → count * size elem ≤ size (.array count elem) →
      HoldsParts size elem → HoldsParts size (.array count elem)
  | struct {packed fields} : 8 ∣ size (.struct packed fields) →
      (fields.map size).sum ≤ size (.struct packed fields) →
      (∀ field ∈ fields, HoldsParts size field) → HoldsParts size (.struct packed fields)

def InBounds : Ty → List Int → Prop
  | _, [] => True
  | .array count elem, index :: rest => 0 ≤ index ∧ index < count ∧ InBounds elem rest
  | .struct _ fields, index :: rest => ∃ field, Ty.fieldAt fields index = some field ∧ InBounds field rest
  | .pointer _, _ :: _ => False
  | .int _, _ :: _ => False

def Index.Takes : Index → Int → Prop
  | .const value, index => value = index
  | .nonconst, _ => True

def Fits (n : Int) : Prop := -2 ^ 31 ≤ n ∧ n < 2 ^ 31

section Bounds

variable {size : Ty → Nat} {pointee : Nat → Ty} {T : Ty}

theorem HoldsParts.whole (holds : HoldsParts size T) : 8 ∣ (size T : Int) := by
  cases holds <;> exact Int.natCast_dvd_natCast.mpr ‹_›

theorem sum_take_add_le {fields : List Ty} {i : Nat} {field : Ty} (selected : fields[i]? = some field) :
    ((fields.take i).map size).sum + size field ≤ (fields.map size).sum := by
  induction fields generalizing i with
  | nil => cases selected
  | cons first rest ih =>
    cases i with
    | zero =>
      cases selected
      simp
    | succ i =>
      have later := ih (List.getElem?_cons_succ ▸ selected)
      simp only [List.take_succ_cons, List.map_cons, List.sum_cons]
      omega

theorem whole_sum {fields : List Ty} (holds : ∀ field ∈ fields, HoldsParts size field) :
    8 ∣ ((fields.map size).sum : Int) := by
  induction fields with
  | nil => exact Int.dvd_zero 8
  | cons field fields ih =>
    rw [List.map_cons, List.sum_cons, Int.natCast_add]
    exact Int.dvd_add (holds field List.mem_cons_self).whole
      (ih fun other later => holds other (List.mem_cons_of_mem _ later))

theorem element_end (size : Ty → Nat) (elem : Ty) {index : Int} {count : Nat} (last : index < count) :
    (size elem * index + size elem : Int) ≤ size elem * count :=
  calc (size elem * index + size elem : Int) = size elem * (index + 1) := by
        rw [Int.mul_add, Int.mul_one]
    _ ≤ size elem * count := Int.mul_le_mul_of_nonneg_left last (Int.natCast_nonneg _)

theorem HoldsParts.elements_le {count : Nat} {elem : Ty} (holds : HoldsParts size (.array count elem)) :
    (size elem * count : Int) ≤ size (.array count elem) := by
  cases holds with
  | array _ room _ =>
    rw [Int.mul_comm, ← Int.natCast_mul]
    exact Int.ofNat_le.mpr room

theorem InBounds.step (holds : HoldsParts size T) {index : Int} {rest : List Int}
    (inBounds : InBounds T (index :: rest)) :
    ∃ next here, (packedLayout size).step T index = some (next, here) ∧ HoldsParts size next ∧
      InBounds next rest ∧ 0 ≤ here ∧ here + size next ≤ size T ∧ 8 ∣ here := by
  cases holds with
  | int => cases inBounds
  | pointer => cases inBounds
  | @array count elem whole room part =>
    rcases inBounds with ⟨low, high, deeper⟩
    refine ⟨elem, size elem * index, rfl, part, deeper, ?_, ?_, ?_⟩
    · exact Int.mul_nonneg (Int.natCast_nonneg _) low
    · exact Int.le_trans (element_end size elem high) (HoldsParts.array whole room part).elements_le
    · exact Int.dvd_mul_of_dvd_left part.whole
  | @struct packed fields whole room parts =>
    rcases inBounds with ⟨field, selected, deeper⟩
    have step : (packedLayout size).step (.struct packed fields) index =
        some (field, ((((fields.take index.toNat).map size).sum : Nat) : Int)) :=
      Option.map_eq_some_iff.mpr ⟨field, selected, rfl⟩
    have found : fields[index.toNat]? = some field := by
      unfold Ty.fieldAt at selected
      split at selected
      · exact selected
      · cases selected
    refine ⟨field, _, step, parts field (List.mem_of_getElem? found), deeper, Int.natCast_nonneg _, ?_,
      whole_sum fun other member => parts other (List.mem_of_mem_take member)⟩
    have fits : ((fields.take index.toNat).map size).sum + size field ≤ (fields.map size).sum :=
      sum_take_add_le found
    omega

variable {values : List Int} {indices : List Index}

theorem InBounds.offset (holds : HoldsParts size T) (inBounds : InBounds T values) :
    ∃ offset, (packedLayout size).offset values T = some offset ∧ 0 ≤ offset ∧ offset ≤ size T ∧
      8 ∣ offset := by
  induction values generalizing T with
  | nil => exact ⟨0, rfl, Int.le_refl 0, Int.natCast_nonneg _, Int.dvd_zero 8⟩
  | cons index rest ih =>
    rcases InBounds.step holds inBounds with ⟨next, here, step, part, deeper, low, high, whole⟩
    rcases ih part deeper with ⟨inner, found, low', high', whole'⟩
    refine ⟨here + inner, ?_, by omega, by omega, Int.dvd_add whole whole'⟩
    rw [Layout.offset, step, Option.bind_some, found, Option.map_some]

/-- The least offset is that of index 0 in every array whose index is not constant. -/
theorem min_le_actual (holds : HoldsParts size T) (chosen : List.Forall₂ Index.Takes indices values)
    (inBounds : InBounds T values) {actual base lo : Int}
    (found : (packedLayout size).offset values T = some actual)
    (returned : walk size pointee minTurn indices T (BitVec.ofInt 64 base) = some (some lo)) :
    ∃ offset, lo = bytes (BitVec.ofInt 64 (base + offset)) ∧ 8 ∣ offset ∧ 0 ≤ offset ∧
      offset ≤ actual := by
  induction chosen generalizing T actual base with
  | nil =>
    cases found
    cases returned
    exact ⟨0, by rw [Int.add_zero], Int.dvd_zero 8, Int.le_refl 0, Int.le_refl 0⟩
  | @cons i index indices rest takes _ ih =>
    rcases InBounds.step holds inBounds with ⟨next, here, step, part, deeper, low, high, whole⟩
    rw [Layout.offset, step, Option.bind_some] at found
    rcases Option.map_eq_some_iff.mp found with ⟨inner, below, rfl⟩
    cases i with
    | const value =>
      cases takes
      rw [walk, constStep_packed step, Option.bind_some] at returned
      rcases ih part deeper below returned with ⟨offset, same, whole', low', high'⟩
      exact ⟨here + offset, by rw [same, Int.add_assoc], Int.dvd_add whole whole', by omega, by omega⟩
    | nonconst =>
      cases T with
      | int bits => cases step
      | pointer elem => cases step
      | struct packed fields => cases returned
      | array count elem =>
        cases step
        have stays : BitVec.ofInt 64 base + 0 = BitVec.ofInt 64 base := BitVec.add_zero _
        rw [walk, minTurn, stays] at returned
        rcases ih part deeper below returned with ⟨offset, same, whole', low', high'⟩
        exact ⟨offset, same, whole', low', by omega⟩

/-- The greatest offset is that of the end of the first array whose index is not constant. -/
theorem actual_le_max (holds : HoldsParts size T) (chosen : List.Forall₂ Index.Takes indices values)
    (inBounds : InBounds T values) {actual base hi : Int}
    (found : (packedLayout size).offset values T = some actual)
    (returned : walk size pointee (maxTurn size) indices T (BitVec.ofInt 64 base) = some (some hi)) :
    ∃ offset, hi = bytes (BitVec.ofInt 64 (base + offset)) ∧ 8 ∣ offset ∧ actual ≤ offset ∧
      offset ≤ size T := by
  induction chosen generalizing T actual base with
  | nil =>
    cases found
    cases returned
    exact ⟨0, by rw [Int.add_zero], Int.dvd_zero 8, Int.le_refl 0, Int.natCast_nonneg _⟩
  | @cons i index indices rest takes _ ih =>
    rcases InBounds.step holds inBounds with ⟨next, here, step, part, deeper, low, high, whole⟩
    rw [Layout.offset, step, Option.bind_some] at found
    rcases Option.map_eq_some_iff.mp found with ⟨inner, below, rfl⟩
    cases i with
    | const value =>
      cases takes
      rw [walk, constStep_packed step, Option.bind_some] at returned
      rcases ih part deeper below returned with ⟨offset, same, whole', low', high'⟩
      exact ⟨here + offset, by rw [same, Int.add_assoc], Int.dvd_add whole whole', by omega, by omega⟩
    | nonconst =>
      cases T with
      | int bits => cases step
      | pointer elem => cases step
      | struct packed fields => cases returned
      | array count elem =>
        cases step
        rcases inBounds with ⟨first, last, -⟩
        have nonempty : 0 < count := by omega
        rcases InBounds.offset part deeper with ⟨_, found', -, inside, -⟩
        cases below.symm.trans found'
        have stop : BitVec.ofInt 64 base + BitVec.ofNat 64 count * sizeBits size next =
            BitVec.ofInt 64 (base + size next * count) := by
          rw [BitVec.mul_comm, ← BitVec.ofInt_natCast, sizeBits_mul]
        rw [walk, maxTurn, if_pos nonempty, stop] at returned
        cases returned
        refine ⟨size next * count, rfl, Int.dvd_mul_of_dvd_left part.whole, ?_, ?_⟩
        · exact Int.le_trans (Int.add_le_add_left inside _) (element_end size next last)
        · exact holds.elements_le

theorem walk_congr (turn turn' : Ty → BitVec 64 → Turn) (constant : ∀ i ∈ indices, i ≠ .nonconst)
    (T : Ty) (offset : BitVec 64) :
    walk size pointee turn indices T offset = walk size pointee turn' indices T offset := by
  induction indices generalizing T offset with
  | nil => rfl
  | cons i indices ih =>
    cases i with
    | nonconst => exact absurd rfl (constant _ List.mem_cons_self)
    | const value =>
      have later := ih fun j member => constant j (List.mem_cons_of_mem _ member)
      rw [walk, walk, funext fun next : Ty × BitVec 64 => later next.1 next.2]

/-- The least and the greatest offset bracket the offset of all indices in bounds, and with constant
indices the three offsets agree. -/
theorem offsets_bracket {elem : Nat} (holds : HoldsParts size (pointee elem)) {leading lo hi : Int}
    (firstByte : Fits (leading * size (pointee elem) / 8))
    (pastLast : Fits ((leading + 1) * size (pointee elem) / 8)) {indices : List Index}
    (min : getelementptrMinOffset size pointee ⟨.pointer elem, .const leading :: indices⟩ = some (some lo))
    (max : getelementptrMaxOffset size pointee ⟨.pointer elem, .const leading :: indices⟩ = some (some hi)) :
    (∀ values, List.Forall₂ Index.Takes indices values → InBounds (pointee elem) values →
      ∃ actual, (packedLayout size).gepOffset pointee (leading :: values) (.pointer elem) =
        some (8 * actual) ∧ lo ≤ actual ∧ actual ≤ hi) ∧
    ((∀ i ∈ indices, i ≠ .nonconst) → lo = hi ∧
      getelementptrConstOffset size pointee ⟨.pointer elem, .const leading :: indices⟩ =
        some (some lo)) := by
  constructor
  · intro values chosen inBounds
    rw [getelementptrMinOffset, walk, constStep, Option.bind_some, first_step] at min
    rw [getelementptrMaxOffset, walk, constStep, Option.bind_some, first_step] at max
    rcases InBounds.offset holds inBounds with ⟨actual, found, low, high, whole⟩
    rcases min_le_actual holds chosen inBounds found min with ⟨least, rfl, wholeLeast, _, _⟩
    rcases actual_le_max holds chosen inBounds found max with ⟨most, rfl, wholeMost, _, _⟩
    have object : 8 ∣ leading * (size (pointee elem) : Int) := Int.dvd_mul_of_dvd_right holds.whole
    rw [Int.add_mul, Int.one_mul] at pastLast
    unfold Fits at firstByte pastLast
    rw [bytes_of_fits (by omega) (by omega), bytes_of_fits (by omega) (by omega)]
    refine ⟨(leading * size (pointee elem) + actual) / 8, ?_, by omega, by omega⟩
    rw [Layout.gepOffset, found, Option.map_some]
    change some ((size (pointee elem) : Int) * leading + actual) = _
    rw [Int.mul_comm, Int.mul_ediv_cancel' (Int.dvd_add object whole)]
  · intro constant
    have all : ∀ i ∈ Index.const leading :: indices, i ≠ .nonconst :=
      List.forall_mem_cons.mpr ⟨by simp, constant⟩
    rw [getelementptrMaxOffset, walk_congr _ minTurn all] at max
    rw [getelementptrConstOffset, walk_congr _ minTurn all]
    exact ⟨Option.some.inj (Option.some.inj (min.symm.trans max)), min⟩

def matrix : Ty := .array 4 (.array 3 (.int 32))

/-- The last column of any row of the matrix before the one pointed to. -/
theorem column_bracketed :
    (∀ values, List.Forall₂ Index.Takes [.nonconst, .const 2] values → InBounds matrix values →
      ∃ actual, (packedLayout lp64.sizeInBits).gepOffset (fun _ => matrix) (-1 :: values) (.pointer 0) =
        some (8 * actual) ∧ -40 ≤ actual ∧ actual ≤ 0) ∧
    ((∀ i ∈ [Index.nonconst, .const 2], i ≠ .nonconst) → (-40 : Int) = 0 ∧
      getelementptrConstOffset lp64.sizeInBits (fun _ => matrix)
        ⟨.pointer 0, [.const (-1), .nonconst, .const 2]⟩ = some (some (-40))) := by
  have row : HoldsParts lp64.sizeInBits (.array 3 (.int 32)) :=
    .array (by decide) (by decide) (.int (by decide))
  have holds : HoldsParts lp64.sizeInBits matrix := .array (by decide) (by decide) row
  exact @offsets_bracket lp64.sizeInBits (fun _ => matrix) 0 holds (-1) (-40) 0 ⟨by decide, by decide⟩
    ⟨by decide, by decide⟩ [.nonconst, .const 2] (by decide) (by decide)

end Bounds

end Offsets

end Clou
