import Mathlib.Data.Int.Order.Basic
import Mathlib.Data.List.Basic
import Mathlib.Data.List.Count
import Mathlib.Data.List.Induction
import Mathlib.Order.MinMax

/-! Solver terms, read through the valuations that satisfy them, and the cardinality
encodings, memories and extrema of the utility layer. -/

namespace Clou.Z3

/-- A boolean term of the solver. Only the literal `false` answers `is_false`:
the interface never folds a conjunction or a disjunction while building it. -/
structure BoolExpr (V : Type) where
  isFalse : Bool
  eval : V → Bool

variable {V : Type}

/-- An assertion carries the name it is added under. -/
abbrev Constraint (V : Type) := BoolExpr V × String

def boolVal (value : Bool) : BoolExpr V := ⟨!value, fun _ => value⟩
def boolConst (read : V → Bool) : BoolExpr V := ⟨false, read⟩
def not (a : BoolExpr V) : BoolExpr V := ⟨false, fun v => !a.eval v⟩
def and (a b : BoolExpr V) : BoolExpr V := ⟨false, fun v => a.eval v && b.eval v⟩
def or (a b : BoolExpr V) : BoolExpr V := ⟨false, fun v => a.eval v || b.eval v⟩
def implies (a b : BoolExpr V) : BoolExpr V := ⟨false, fun v => !a.eval v || b.eval v⟩
def distinct (a b : BoolExpr V) : BoolExpr V := ⟨false, fun v => a.eval v != b.eval v⟩
def mkAnd (exprs : List (BoolExpr V)) : BoolExpr V := ⟨false, fun v => exprs.all (·.eval v)⟩
def mkOr (exprs : List (BoolExpr V)) : BoolExpr V := ⟨false, fun v => exprs.any (·.eval v)⟩

def trueCount (exprs : List (BoolExpr V)) (v : V) : Nat := exprs.countP (·.eval v)

/-- The solver's own cardinality operators, with their documented meaning. -/
def atmost (exprs : List (BoolExpr V)) (count : Nat) : BoolExpr V :=
  ⟨false, fun v => trueCount exprs v ≤ count⟩
def atleast (exprs : List (BoolExpr V)) (count : Nat) : BoolExpr V :=
  ⟨false, fun v => count ≤ trueCount exprs v⟩

def atmost2 (exprs : List (BoolExpr V)) (count : Nat) : BoolExpr V :=
  if exprs.length ≤ count then boolVal true
  else if exprs.length - 1 = count then not (mkAnd exprs)
  else atmost exprs count

def atleast2 (exprs : List (BoolExpr V)) (count : Nat) : BoolExpr V :=
  if exprs.length < count then boolVal false
  else if exprs.length = count then mkAnd exprs
  else if count = 1 then mkOr exprs
  else atleast exprs count

def exactly (exprs : List (BoolExpr V)) (count : Nat) : BoolExpr V :=
  if exprs.length < count then boolVal false
  else match exprs, count with
    | [a], 1 => a
    | [a, b], 1 => distinct a b
    | _, _ =>
      if exprs.length = count then mkAnd exprs
      else and (atleast2 exprs count) (atmost2 exprs count)

@[simp] theorem eval_boolVal (value : Bool) (v : V) : (boolVal value).eval v = value := rfl
@[simp] theorem eval_boolConst (read : V → Bool) (v : V) : (boolConst read).eval v = read v := rfl
@[simp] theorem eval_not (a : BoolExpr V) (v : V) : (not a).eval v = !a.eval v := rfl
@[simp] theorem eval_and (a b : BoolExpr V) (v : V) :
    (and a b).eval v = (a.eval v && b.eval v) := rfl
@[simp] theorem eval_or (a b : BoolExpr V) (v : V) :
    (or a b).eval v = (a.eval v || b.eval v) := rfl
@[simp] theorem eval_implies (a b : BoolExpr V) (v : V) :
    (implies a b).eval v = (!a.eval v || b.eval v) := rfl
@[simp] theorem eval_mkOr (exprs : List (BoolExpr V)) (v : V) :
    (mkOr exprs).eval v = exprs.any (·.eval v) := rfl

section

variable (exprs : List (BoolExpr V))

include exprs

/-- A valuation makes every term true exactly when it makes as many true as there are. -/
theorem eval_mkAnd (v : V) : (mkAnd exprs).eval v = decide (trueCount exprs v = exprs.length) := by
  rw [Bool.eq_iff_iff]
  simp [mkAnd, trueCount, List.countP_eq_length]

theorem eval_atmost2 (count : Nat) (v : V) :
    (atmost2 exprs count).eval v = decide (trueCount exprs v ≤ count) := by
  have bounded : trueCount exprs v ≤ exprs.length := List.countP_le_length
  unfold atmost2
  split
  · have small : trueCount exprs v ≤ count := by omega
    simp [small]
  · split
    · rw [eval_not, eval_mkAnd, Bool.eq_iff_iff]
      simp only [Bool.not_eq_true', decide_eq_false_iff_not, decide_eq_true_eq]
      omega
    · rfl

theorem eval_mkOr_count (v : V) : (mkOr exprs).eval v = decide (1 ≤ trueCount exprs v) := by
  rw [Bool.eq_iff_iff]
  simp [trueCount, Nat.one_le_iff_ne_zero, List.countP_eq_zero]

theorem eval_atleast2 (count : Nat) (v : V) :
    (atleast2 exprs count).eval v = decide (count ≤ trueCount exprs v) := by
  have bounded : trueCount exprs v ≤ exprs.length := List.countP_le_length
  unfold atleast2
  split
  · have large : ¬ count ≤ trueCount exprs v := by omega
    simp [large]
  · split
    · rw [eval_mkAnd, Bool.eq_iff_iff]
      simp only [decide_eq_true_eq]
      omega
    · split
      · rename_i one
        rw [eval_mkOr_count, one]
      · rfl

theorem eval_exactly (count : Nat) (v : V) :
    (exactly exprs count).eval v = decide (trueCount exprs v = count) := by
  have bounded : trueCount exprs v ≤ exprs.length := List.countP_le_length
  unfold exactly
  split
  · have large : ¬ trueCount exprs v = count := by omega
    simp [large]
  · split
    · rename_i a _
      cases value : a.eval v <;> simp [trueCount, value]
    · rename_i a b _
      cases left : a.eval v <;> cases right : b.eval v <;>
        simp [trueCount, distinct, left, right]
    · split
      · rename_i all
        rw [eval_mkAnd, ← all]
      · rw [eval_and, eval_atleast2, eval_atmost2, Bool.eq_iff_iff]
        simp only [Bool.and_eq_true, decide_eq_true_eq]
        omega

end

/-! The encodings as they are computed with unsigned numbers: a subtraction that would wrap and
an index out of range give nothing. `atleast2` has neither. -/

namespace Checked

def sub (a b : Nat) : Option Nat := if b ≤ a then some (a - b) else none

def back (exprs : List (BoolExpr V)) : Option (BoolExpr V) := do
  let last ← sub exprs.length 1
  exprs[last]?

def atmost2 (exprs : List (BoolExpr V)) (count : Nat) : Option (BoolExpr V) := do
  if exprs.length ≤ count then return boolVal true
  if (← sub exprs.length 1) = count then return not (mkAnd exprs)
  return atmost exprs count

def exactly (exprs : List (BoolExpr V)) (count : Nat) : Option (BoolExpr V) := do
  if exprs.length < count then return boolVal false
  if exprs.length = 1 ∧ count = 1 then return ← back exprs
  if exprs.length = 2 ∧ count = 1 then return distinct (← exprs[0]?) (← exprs[1]?)
  if exprs.length = count then return mkAnd exprs
  let upper ← atmost2 exprs count
  return and (atleast2 exprs count) upper

theorem atmost2_eq (exprs : List (BoolExpr V)) (count : Nat) :
    atmost2 exprs count = some (Z3.atmost2 exprs count) := by
  unfold atmost2 Z3.atmost2
  split
  · rfl
  · have nonempty : 1 ≤ exprs.length := by omega
    simp only [sub, if_pos nonempty, Option.bind_eq_bind, Option.bind_some]
    split <;> rfl

theorem exactly_eq (exprs : List (BoolExpr V)) (count : Nat) :
    exactly exprs count = some (Z3.exactly exprs count) := by
  by_cases one : exprs.length = 1 ∧ count = 1
  · obtain ⟨a, rfl⟩ := List.length_eq_one_iff.mp one.1
    obtain rfl := one.2
    rfl
  · by_cases two : exprs.length = 2 ∧ count = 1
    · obtain ⟨a, b, rfl⟩ := List.length_eq_two.mp two.1
      obtain rfl := two.2
      rfl
    · have plain : Z3.exactly exprs count = if exprs.length < count then boolVal false
          else if exprs.length = count then mkAnd exprs
          else and (atleast2 exprs count) (Z3.atmost2 exprs count) := by
        unfold Z3.exactly
        split
        · rfl
        · split
          · exact absurd ⟨rfl, rfl⟩ one
          · exact absurd ⟨rfl, rfl⟩ two
          · rfl
      rw [plain, exactly, if_neg one, if_neg two, atmost2_eq]
      repeat' split
      all_goals rfl

end Checked

/-- The encodings of every vector and count are computed without a subtraction that wraps, and
a valuation makes them true exactly when at most, at least or exactly that many entries are. -/
theorem cardinalities_exact (exprs : List (BoolExpr V)) (count : Nat) :
    ∃ most same, Checked.atmost2 exprs count = some most ∧
      Checked.exactly exprs count = some same ∧
      ∀ v, (most.eval v = true ↔ trueCount exprs v ≤ count) ∧
        ((atleast2 exprs count).eval v = true ↔ count ≤ trueCount exprs v) ∧
        (same.eval v = true ↔ trueCount exprs v = count) := by
  refine ⟨_, _, Checked.atmost2_eq exprs count, Checked.exactly_eq exprs count, fun v => ?_⟩
  rw [eval_atmost2, eval_atleast2, eval_exactly]
  simp only [decide_eq_true_eq, and_self]

section

variable {A : Type} (f : A → BoolExpr V) {keys : List A} {v : V}

theorem exists_true (some : 1 ≤ trueCount (keys.map f) v) :
    ∃ key ∈ keys, (f key).eval v = true := by
  obtain ⟨expr, member, holds⟩ := List.countP_pos_iff.mp some
  obtain ⟨key, present, same⟩ := List.mem_map.mp member
  exact ⟨key, present, same ▸ holds⟩

/-- Two true terms of which at most one may be true have the same key. -/
theorem eq_of_trueCount_le_one (few : trueCount (keys.map f) v ≤ 1) {a b : A}
    (memberA : a ∈ keys) (memberB : b ∈ keys) (holdsA : (f a).eval v = true)
    (holdsB : (f b).eval v = true) : a = b := by
  induction keys with
  | nil => cases memberA
  | cons key keys ih =>
    have none (head : (f key).eval v = true) {c : A} (later : c ∈ keys) :
        (f c).eval v ≠ true := by
      have zero : trueCount (keys.map f) v = 0 := by
        simp only [trueCount, List.map_cons, List.countP_cons, head] at few ⊢
        simpa using few
      exact List.countP_eq_zero.mp zero (f c) (List.mem_map_of_mem later)
    rcases List.mem_cons.mp memberA with rfl | laterA
    · rcases List.mem_cons.mp memberB with rfl | laterB
      · rfl
      · exact absurd holdsB (none holdsA laterB)
    · rcases List.mem_cons.mp memberB with rfl | laterB
      · exact absurd holdsA (none holdsB laterA)
      · have fewer : trueCount (keys.map f) v ≤ 1 := by
          simp only [trueCount, List.map_cons, List.countP_cons] at few ⊢
          omega
        exact ih fewer laterA laterB

end

/-- A term of another sort than the booleans. Arrays are indexed by integers. -/
abbrev Term (V A : Type) := V → A

section

variable {A N : Type}

/-- A boolean term over the variables that a larger valuation extends. -/
def BoolExpr.comap {W : Type} (restrict : W → V) (a : BoolExpr V) : BoolExpr W :=
  ⟨a.isFalse, fun w => a.eval (restrict w)⟩

@[simp] theorem eval_comap {W : Type} (restrict : W → V) (a : BoolExpr V) (w : W) :
    (a.comap restrict).eval w = a.eval (restrict w) := rfl

def eq (a b : Term V Int) : BoolExpr V := ⟨false, fun v => a v == b v⟩
def lt (a b : Term V Int) : BoolExpr V := ⟨false, fun v => decide (a v < b v)⟩
def le (a b : Term V Int) : BoolExpr V := ⟨false, fun v => decide (a v ≤ b v)⟩
def ite (c : BoolExpr V) (a b : Term V A) : Term V A := fun v => if c.eval v then a v else b v
def constArray (value : Term V A) : Term V (Int → A) := fun v _ => value v
def select (a : Term V (Int → A)) (i : Term V Int) : Term V A := fun v => a v (i v)
def store (a : Term V (Int → A)) (i : Term V Int) (value : Term V A) : Term V (Int → A) :=
  fun v j => if j = i v then value v else a v j

def ofTerm (a : Term V Bool) : BoolExpr V := ⟨false, a⟩

@[simp] theorem eval_eq (a b : Term V Int) (v : V) : (eq a b).eval v = (a v == b v) := rfl
@[simp] theorem eval_lt (a b : Term V Int) (v : V) : (lt a b).eval v = true ↔ a v < b v :=
  decide_eq_true_iff
@[simp] theorem eval_le (a b : Term V Int) (v : V) : (le a b).eval v = true ↔ a v ≤ b v :=
  decide_eq_true_iff
@[simp] theorem eval_ofTerm (a : Term V Bool) (v : V) : (ofTerm a).eval v = a v := rfl

def conditionalStore (a : Term V (Int → A)) (i : Term V Int) (value : Term V A)
    (c : BoolExpr V) : Term V (Int → A) :=
  store a i (ite c value (select a i))

theorem conditionalStore_apply (a : Term V (Int → A)) (i : Term V Int) (value : Term V A)
    (c : BoolExpr V) (v : V) (j : Int) :
    conditionalStore a i value c v j = if c.eval v = true ∧ i v = j then value v else a v j := by
  by_cases stored : c.eval v = true <;> by_cases here : i v = j <;>
    simp [conditionalStore, store, ite, select, stored, here, eq_comm (a := j)]

def storeAll (index : N → Term V Int) (value : N → Term V A) (guard : N → BoolExpr V)
    (mem : Term V (Int → A)) (keys : List N) : Term V (Int → A) :=
  keys.foldl (fun mem key => conditionalStore mem (index key) (value key) (guard key)) mem

theorem storeAll_append (index : N → Term V Int) (value : N → Term V A) (guard : N → BoolExpr V)
    (mem : Term V (Int → A)) (keys rest : List N) :
    storeAll index value guard mem (keys ++ rest) =
      storeAll index value guard (storeAll index value guard mem keys) rest := by
  simp [storeAll]

/-- A cell holds what the last store to it that took place has written. -/
theorem storeAll_cases [LinearOrder N] (index : N → Term V Int) (value : N → Term V A)
    (guard : N → BoolExpr V) (mem : Term V (Int → A)) {keys : List N}
    (sorted : keys.Pairwise (· < ·)) (v : V) (j : Int) :
    (∃ key ∈ keys, ((guard key).eval v = true ∧ index key v = j) ∧
        (∀ other ∈ keys, (guard other).eval v = true ∧ index other v = j → other ≤ key) ∧
        storeAll index value guard mem keys v j = value key v) ∨
      ((∀ key ∈ keys, ¬ ((guard key).eval v = true ∧ index key v = j)) ∧
        storeAll index value guard mem keys v j = mem v j) := by
  induction keys using List.reverseRecOn with
  | nil => exact .inr ⟨by simp, rfl⟩
  | append_singleton keys key ih =>
    have last : storeAll index value guard mem (keys ++ [key]) v j =
        if (guard key).eval v = true ∧ index key v = j then value key v
        else storeAll index value guard mem keys v j := by
      rw [← conditionalStore_apply, storeAll_append]
      rfl
    obtain ⟨sortedKeys, -, before⟩ := List.pairwise_append.mp sorted
    by_cases written : (guard key).eval v = true ∧ index key v = j
    · refine .inl ⟨key, by simp, written, ?_, by rw [last, if_pos written]⟩
      intro other member _
      rcases List.mem_append.mp member with earlier | same
      · exact (before other earlier key (by simp)).le
      · exact (List.mem_singleton.mp same).le
    · rw [last, if_neg written]
      rcases ih sortedKeys with ⟨first, member, holds, greatest, result⟩ | ⟨none, result⟩
      · refine .inl ⟨first, by simp [member], holds, ?_, result⟩
        intro other present stores
        rcases List.mem_append.mp present with earlier | same
        · exact greatest other earlier stores
        · exact absurd (List.mem_singleton.mp same ▸ stores) written
      · refine .inr ⟨?_, result⟩
        intro other present stores
        rcases List.mem_append.mp present with earlier | same
        · exact none other earlier stores
        · exact written (List.mem_singleton.mp same ▸ stores)

end

section

def maxOf (first : Term V Int) (rest : List (Term V Int)) : Term V Int :=
  rest.foldl (fun a b v => max (a v) (b v)) first

def minOf (first : Term V Int) (rest : List (Term V Int)) : Term V Int :=
  rest.foldl (fun a b v => min (a v) (b v)) first

theorem maxOf_lt (first : Term V Int) (rest : List (Term V Int)) (v : V) (bound : Int) :
    maxOf first rest v < bound ↔ ∀ a ∈ first :: rest, a v < bound := by
  induction rest generalizing first with
  | nil => simp [maxOf]
  | cons next rest ih =>
    have step := ih (fun v => max (first v) (next v))
    simp only [maxOf, List.foldl_cons] at step ⊢
    simp [step, and_assoc]

theorem lt_minOf (first : Term V Int) (rest : List (Term V Int)) (v : V) (bound : Int) :
    bound < minOf first rest v ↔ ∀ a ∈ first :: rest, bound < a v := by
  induction rest generalizing first with
  | nil => simp [minOf]
  | cons next rest ih =>
    have step := ih (fun v => min (first v) (next v))
    simp only [minOf, List.foldl_cons] at step ⊢
    simp [step, and_assoc]

/-- The maximum of one vector is below the minimum of another exactly when every entry
of the first is below every entry of the second. -/
theorem maxOf_lt_minOf (first : Term V Int) (rest : List (Term V Int)) (first' : Term V Int)
    (rest' : List (Term V Int)) (v : V) :
    maxOf first rest v < minOf first' rest' v ↔
      ∀ a ∈ first :: rest, ∀ b ∈ first' :: rest', a v < b v := by
  rw [maxOf_lt]
  constructor
  · intro below a member
    exact (lt_minOf first' rest' v (a v)).mp (below a member)
  · intro below a member
    exact (lt_minOf first' rest' v (a v)).mpr (below a member)

end

end Clou.Z3
