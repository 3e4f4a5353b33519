import Mathlib.Algebra.GroupWithZero.Nat
import Mathlib.Algebra.Order.Group.Int

/-! The types of the intermediate representation, the sizes and alignments that a data layout gives
them, and the offsets of their parts. -/

namespace Clou

/-- Types. A pointer names the type it points to, so that a structure can hold pointers to
itself. -/
inductive Ty where
  | int (bits : Nat)
  | pointer (elem : Nat)
  | array (count : Nat) (elem : Ty)
  | struct (packed : Bool) (fields : List Ty)
  deriving Repr

namespace Ty

def fieldAt (fields : List Ty) (index : Int) : Option Ty :=
  if 0 ≤ index ∧ index < 2 ^ 31 then fields[index.toNat]? else none

end Ty

/-- The alignments of integers and aggregates, in bytes, and the size and alignment of pointers. -/
structure DataLayout where
  intAlign : Nat → Nat
  pointerBits : Nat
  pointerAlign : Nat
  aggregateAlign : Nat
  intAlign_pos : ∀ bits, 0 < intAlign bits
  pointerAlign_pos : 0 < pointerAlign

def alignTo (size align : Nat) : Nat := (size + align - 1) / align * align

namespace DataLayout

section

variable (DL : DataLayout)

mutual

/-- A packed structure is not aligned. -/
def abiAlign : Ty → Nat
  | .int bits => DL.intAlign bits
  | .pointer _ => DL.pointerAlign
  | .array _ elem => abiAlign elem
  | .struct packed fields => if packed then 1 else max DL.aggregateAlign (fieldsAlign fields)

def fieldsAlign : List Ty → Nat
  | [] => 1
  | field :: rest => max (abiAlign field) (fieldsAlign rest)

end

def fieldAlign (packed : Bool) (field : Ty) : Nat := if packed then 1 else DL.abiAlign field

/-- The bytes from one element of an array to the next, given the size of the element in bits. -/
def strideOf (elem : Ty) (bits : Nat) : Nat := alignTo ((bits + 7) / 8) (DL.abiAlign elem)

mutual

def sizeInBits : Ty → Nat
  | .int bits => bits
  | .pointer _ => DL.pointerBits
  | .array count elem => count * (8 * DL.strideOf elem (sizeInBits elem))
  | .struct packed fields =>
    8 * alignTo (layoutEnd packed fields 0) (if packed then 1 else DL.fieldsAlign fields)

/-- The end of the last field, when the fields are laid out one after the other. -/
def layoutEnd (packed : Bool) : List Ty → Nat → Nat
  | [], offset => offset
  | field :: rest, offset =>
    layoutEnd packed rest
      (alignTo offset (DL.fieldAlign packed field) + DL.strideOf field (sizeInBits field))

end

def allocSize (T : Ty) : Nat := DL.strideOf T (DL.sizeInBits T)

def fieldOffset (packed : Bool) : List Ty → Nat → Nat → Nat
  | [], offset, _ => offset
  | field :: _, offset, 0 => alignTo offset (DL.fieldAlign packed field)
  | field :: rest, offset, i + 1 =>
    fieldOffset packed rest (alignTo offset (DL.fieldAlign packed field) + DL.allocSize field) i

end

end DataLayout

/-- A way of placing the parts of types: where a field of a structure begins, and how far it is from
one element of an array to the next. Both are in bits. -/
structure Layout where
  field : Bool → List Ty → Nat → Nat
  stride : Ty → Nat

namespace Layout

/-- The part that an index selects, and where it begins. There are no indices into integers and
through pointers. -/
def step (L : Layout) (T : Ty) (index : Int) : Option (Ty × Int) :=
  match T with
  | .struct packed fields =>
    (Ty.fieldAt fields index).map fun next => (next, (L.field packed fields index.toNat : Int))
  | .array _ elem => some (elem, L.stride elem * index)
  | _ => none

def offset (L : Layout) : List Int → Ty → Option Int
  | [], _ => some 0
  | index :: rest, T => (L.step T index).bind fun next => (L.offset rest next.1).map (next.2 + ·)

/-- Where the indices of an address computation lead: the leading one steps over whole objects. -/
def gepOffset (L : Layout) (pointee : Nat → Ty) : List Int → Ty → Option Int
  | index :: rest, .pointer elem =>
    (L.offset rest (pointee elem)).map (L.stride (pointee elem) * index + ·)
  | _, _ => none

/-- The objects that the leading index steps over are laid out like the elements of an array. -/
theorem gepOffset_eq_some {L : Layout} {pointee : Nat → Ty} {indices : List Int} {T : Ty} {bits : Int} :
    L.gepOffset pointee indices T = some bits ↔ ∃ index rest elem, indices = index :: rest ∧
      T = .pointer elem ∧ L.offset (index :: rest) (.array 0 (pointee elem)) = some bits := by
  constructor
  · intro found
    unfold gepOffset at found
    split at found
    · exact ⟨_, _, _, rfl, rfl, found⟩
    · cases found
  · rintro ⟨index, rest, elem, rfl, rfl, found⟩
    exact found

/-- A layout whose distances are the sums of those of two others. -/
structure Splits (L M N : Layout) : Prop where
  field : ∀ packed fields i, L.field packed fields i = M.field packed fields i + N.field packed fields i
  stride : ∀ elem, L.stride elem = M.stride elem + N.stride elem

namespace Splits

variable {L M N : Layout} {indices : List Int} {T : Ty}

theorem step (splits : Splits L M N) {index : Int} {next : Ty × Int}
    (found : L.step T index = some next) :
    ∃ left right, M.step T index = some (next.1, left) ∧ N.step T index = some (next.1, right) ∧
      next.2 = left + right := by
  cases T with
  | int bits => cases found
  | pointer elem => cases found
  | array count elem =>
    cases found
    refine ⟨_, _, rfl, rfl, ?_⟩
    rw [splits.stride, Int.natCast_add, Int.add_mul]
  | struct packed fields =>
    rcases Option.map_eq_some_iff.mp found with ⟨field, selected, rfl⟩
    refine ⟨_, _, Option.map_eq_some_iff.mpr ⟨field, selected, rfl⟩,
      Option.map_eq_some_iff.mpr ⟨field, selected, rfl⟩, ?_⟩
    rw [splits.field, Int.natCast_add]

theorem offset (splits : Splits L M N) {whole : Int} (found : L.offset indices T = some whole) :
    ∃ left right, M.offset indices T = some left ∧ N.offset indices T = some right ∧
      whole = left + right := by
  induction indices generalizing T whole with
  | nil =>
    cases found
    exact ⟨0, 0, rfl, rfl, rfl⟩
  | cons index rest ih =>
    rcases Option.bind_eq_some_iff.mp found with ⟨next, here, below⟩
    rcases Option.map_eq_some_iff.mp below with ⟨inner, deeper, rfl⟩
    rcases splits.step here with ⟨left, right, first, second, same⟩
    rcases ih deeper with ⟨left', right', first', second', rfl⟩
    refine ⟨left + left', right + right', ?_, ?_, ?_⟩
    · rw [Layout.offset, first, Option.bind_some, first', Option.map_some]
    · rw [Layout.offset, second, Option.bind_some, second', Option.map_some]
    · rw [same]
      omega

theorem gepOffset (splits : Splits L M N) {pointee : Nat → Ty} {whole : Int}
    (found : L.gepOffset pointee indices T = some whole) :
    ∃ left right, M.gepOffset pointee indices T = some left ∧
      N.gepOffset pointee indices T = some right ∧ whole = left + right := by
  rcases gepOffset_eq_some.mp found with ⟨index, rest, elem, rfl, rfl, element⟩
  rcases splits.offset element with ⟨left, right, first, second, same⟩
  exact ⟨left, right, gepOffset_eq_some.mpr ⟨_, _, _, rfl, rfl, first⟩,
    gepOffset_eq_some.mpr ⟨_, _, _, rfl, rfl, second⟩, same⟩

end Splits

end Layout

def packedLayout (size : Ty → Nat) : Layout where
  field _ fields i := ((fields.take i).map size).sum
  stride := size

namespace DataLayout

variable (DL : DataLayout)

def layout : Layout where
  field packed fields i := 8 * DL.fieldOffset packed fields 0 i
  stride elem := 8 * DL.allocSize elem

def trueOffset (pointee : Nat → Ty) (indices : List Int) (T : Ty) : Option Int :=
  (DL.layout.gepOffset pointee indices T).map (· / 8)

def padding : Layout where
  field packed fields i :=
    DL.layout.field packed fields i - (packedLayout DL.sizeInBits).field packed fields i
  stride elem := DL.layout.stride elem - (packedLayout DL.sizeInBits).stride elem

end DataLayout

/-! Padding -/

theorem le_alignTo (size : Nat) {align : Nat} (positive : 0 < align) : size ≤ alignTo size align := by
  have rounded := Nat.lt_div_mul_add (a := size + align - 1) positive
  unfold alignTo
  omega

namespace DataLayout

variable (DL : DataLayout)

theorem fieldsAlign_pos (fields : List Ty) : 0 < DL.fieldsAlign fields := by
  cases fields with
  | nil => exact Nat.one_pos
  | cons field rest =>
    rw [fieldsAlign]
    exact Nat.lt_of_lt_of_le (fieldsAlign_pos rest) (Nat.le_max_right ..)

theorem abiAlign_pos (T : Ty) : 0 < DL.abiAlign T := by
  cases T with
  | int bits => exact DL.intAlign_pos bits
  | pointer elem => exact DL.pointerAlign_pos
  | array count elem =>
    rw [abiAlign]
    exact abiAlign_pos elem
  | struct packed fields =>
    rw [abiAlign]
    split
    · exact Nat.one_pos
    · exact Nat.lt_of_lt_of_le (DL.fieldsAlign_pos fields) (Nat.le_max_right ..)

theorem fieldAlign_pos (packed : Bool) (field : Ty) : 0 < DL.fieldAlign packed field := by
  unfold fieldAlign
  split
  · exact Nat.one_pos
  · exact DL.abiAlign_pos field

theorem sizeInBits_le (T : Ty) : DL.sizeInBits T ≤ 8 * DL.allocSize T := by
  have rounded := le_alignTo ((DL.sizeInBits T + 7) / 8) (DL.abiAlign_pos T)
  change (DL.sizeInBits T + 7) / 8 ≤ DL.allocSize T at rounded
  omega

theorem sizes_le_fieldOffset (packed : Bool) (fields : List Ty) (start i : Nat) :
    8 * start + ((fields.take i).map DL.sizeInBits).sum ≤ 8 * DL.fieldOffset packed fields start i := by
  induction fields generalizing start i with
  | nil => simp [fieldOffset]
  | cons field rest ih =>
    have aligned := le_alignTo start (DL.fieldAlign_pos packed field)
    cases i with
    | zero =>
      simp only [fieldOffset, List.take_zero, List.map_nil, List.sum_nil]
      omega
    | succ i =>
      have later := ih (alignTo start (DL.fieldAlign packed field) + DL.allocSize field) i
      have size := DL.sizeInBits_le field
      simp only [fieldOffset, List.take_succ_cons, List.map_cons, List.sum_cons]
      omega

theorem whole_offset {indices : List Int} {T : Ty} {bits : Int}
    (found : DL.layout.offset indices T = some bits) : 8 ∣ bits := by
  induction indices generalizing T bits with
  | nil =>
    cases found
    exact Int.dvd_zero 8
  | cons index rest ih =>
    rcases Option.bind_eq_some_iff.mp found with ⟨⟨next, here⟩, first, below⟩
    rcases Option.map_eq_some_iff.mp below with ⟨inner, deeper, rfl⟩
    refine Int.dvd_add ?_ (ih deeper)
    cases T with
    | int bits => cases first
    | pointer elem => cases first
    | array count elem =>
      cases first
      exact Int.dvd_mul_of_dvd_left (Int.natCast_dvd_natCast.mpr (Nat.dvd_mul_right ..))
    | struct packed fields =>
      rcases Option.map_eq_some_iff.mp first with ⟨field, -, same⟩
      cases same
      exact Int.natCast_dvd_natCast.mpr (Nat.dvd_mul_right ..)

theorem whole_gepOffset {pointee : Nat → Ty} {indices : List Int} {T : Ty} {bits : Int}
    (found : DL.layout.gepOffset pointee indices T = some bits) : 8 ∣ bits := by
  rcases Layout.gepOffset_eq_some.mp found with ⟨_, _, _, -, -, element⟩
  exact DL.whole_offset element

/-- The layout in memory is the packed one with the padding. -/
theorem splits : Layout.Splits DL.layout (packedLayout DL.sizeInBits) DL.padding where
  field packed fields i := by
    have enough := DL.sizes_le_fieldOffset packed fields 0 i
    rw [Nat.mul_zero, Nat.zero_add] at enough
    exact (Nat.add_sub_of_le enough).symm
  stride elem := (Nat.add_sub_of_le (DL.sizeInBits_le elem)).symm

end DataLayout

end Clou
