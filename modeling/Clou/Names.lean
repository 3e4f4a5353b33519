import Mathlib.Algebra.Group.Nat.Defs
import Mathlib.Data.List.AList
import Mathlib.Data.List.DropRight
import Mathlib.Data.Set.Insert

/-! The variables that a context makes for the solver. Every base name has a counter of its own,
and a variable is named by the base followed by the counter. -/

namespace Clou.Names

def nul : Char := Char.ofNat 0

/-- What is read of a string that is passed on as `c_str()`: it ends at the first nul. -/
def cStr (s : List Char) : List Char := s.takeWhile (· != nul)

inductive VarSort (S : Type)
  | bool
  | int
  | other (sort : S)
  deriving DecidableEq, Repr

structure Variable (S : Type) where
  name : List Char
  sort : VarSort S
  deriving DecidableEq, Repr

structure Context where
  next : AList fun _ : List Char => Nat

/-- The reference `next[s]` makes a counter of zero for a base that has none. -/
def Context.idx (ctx : Context) (s : List Char) : Nat := (ctx.next.lookup s).getD 0

def Context.getName (ctx : Context) (s : List Char) : List Char × Context :=
  (s ++ Nat.toDigits 10 (ctx.idx s), ⟨ctx.next.insert s ((ctx.idx s + 1) % 2 ^ 32)⟩)

section

variable {S : Type}

def Context.make (sort : VarSort S) (ctx : Context) (s : List Char) : Variable S × Context :=
  (⟨cStr (ctx.getName s).1, sort⟩, (ctx.getName s).2)

def Context.makeBool : Context → List Char → Variable S × Context := Context.make .bool
def Context.makeInt : Context → List Char → Variable S × Context := Context.make .int
def Context.makeConst (ctx : Context) (s : List Char) (sort : VarSort S) : Variable S × Context :=
  Context.make sort ctx s

inductive Call (S : Type)
  | makeBool (s : List Char)
  | makeInt (s : List Char)
  | makeConst (s : List Char) (sort : VarSort S)

def Call.base : Call S → List Char
  | .makeBool s => s
  | .makeInt s => s
  | .makeConst s _ => s

def Call.run (ctx : Context) : Call S → Variable S × Context
  | .makeBool s => ctx.makeBool s
  | .makeInt s => ctx.makeInt s
  | .makeConst s sort => ctx.makeConst s sort

def makeAll (ctx : Context) : List (Call S) → List (Variable S)
  | [] => []
  | call :: calls => (call.run ctx).1 :: makeAll (call.run ctx).2 calls

def generated (ctx : Context) : List (Call S) → List (List Char)
  | [] => []
  | call :: calls => (ctx.getName call.base).1 :: generated (call.run ctx).2 calls

def uses (calls : List (Call S)) (s : List Char) : Nat := calls.countP fun call => call.base = s

end

def endsInDigit (s : List Char) : Bool := s.getLast?.any Char.isDigit

section

variable {s t : List Char} {m n : Nat}

/-- The base of a name is what is left when the digits at its end are cut off. -/
theorem rdropWhile_numbered (plain : endsInDigit s = false) :
    (s ++ Nat.toDigits 10 n).rdropWhile Char.isDigit = s := by
  have digits : ∀ c ∈ (Nat.toDigits 10 n).reverse, c.isDigit = true := by
    intro c listed
    exact Nat.isDigit_of_mem_toDigits (by decide) (by decide) (List.mem_reverse.mp listed)
  have kept : s.rdropWhile Char.isDigit = s := by
    rw [List.rdropWhile_eq_self_iff]
    intro nonempty digit
    rw [endsInDigit, List.getLast?_eq_some_getLast nonempty, Option.any_some] at plain
    rw [digit] at plain
    cases plain
  rw [List.rdropWhile, List.reverse_append, List.dropWhile_append_of_pos digits]
  exact kept

theorem eq_of_numbered_eq (plainS : endsInDigit s = false) (plainT : endsInDigit t = false)
    (same : s ++ Nat.toDigits 10 m = t ++ Nat.toDigits 10 n) : s = t ∧ m = n := by
  have bases : s = t := by
    rw [← rdropWhile_numbered (n := m) plainS, same, rdropWhile_numbered plainT]
  subst bases
  have numerals : Nat.toDigits 10 m = Nat.toDigits 10 n := List.append_cancel_left same
  refine ⟨rfl, ?_⟩
  rw [← Nat.ofDigitChars_ten_toDigits (n := m), numerals, Nat.ofDigitChars_ten_toDigits]

theorem cStr_numbered (whole : nul ∉ s) : cStr (s ++ Nat.toDigits 10 n) = s ++ Nat.toDigits 10 n := by
  rw [cStr, List.takeWhile_eq_self_iff]
  intro c listed
  rw [bne_iff_ne]
  intro ends
  rcases List.mem_append.mp listed with inBase | inNumeral
  · exact whole (ends ▸ inBase)
  · have digit := Nat.isDigit_of_mem_toDigits (by decide) (by decide) inNumeral
    rw [ends] at digit
    exact absurd digit (by decide)

theorem cStr_hides (nulIn : nul ∈ s) (rest : List Char) : cStr (s ++ rest) = cStr s := by
  induction s with
  | nil => cases nulIn
  | cons c s ih =>
    rw [cStr, cStr, List.cons_append, List.takeWhile_cons, List.takeWhile_cons]
    split
    · rename_i other
      rcases List.mem_cons.mp nulIn with rfl | later
      · exact absurd rfl (bne_iff_ne.mp other)
      · exact congrArg (c :: ·) (ih later)
    · rfl

end

section

variable {S : Type} {ctx : Context} {call : Call S} {calls : List (Call S)} {s : List Char}

theorem run_name : (call.run ctx).1.name = cStr (ctx.getName call.base).1 := by
  cases call <;> rfl

theorem run_ctx : (call.run ctx).2 = (ctx.getName call.base).2 := by
  cases call <;> rfl

theorem idx_run_base (small : ctx.idx call.base + 1 < 2 ^ 32) :
    (call.run ctx).2.idx call.base = ctx.idx call.base + 1 := by
  rw [run_ctx, Context.getName, Context.idx, AList.lookup_insert, Option.getD_some,
    Nat.mod_eq_of_lt small]

theorem idx_run_ne (other : s ≠ call.base) : (call.run ctx).2.idx s = ctx.idx s := by
  rw [run_ctx, Context.getName, Context.idx, AList.lookup_insert_ne other, Context.idx]

/-- No counter wraps in the calls. -/
def Fits (ctx : Context) (calls : List (Call S)) : Prop := ∀ s, ctx.idx s + uses calls s < 2 ^ 32

theorem uses_cons (s : List Char) :
    uses (call :: calls) s = uses calls s + if call.base = s then 1 else 0 := by
  simp [uses, List.countP_cons]

/-- What a call has added to its counter is no longer to come. -/
theorem idx_run_add (fits : Fits ctx (call :: calls)) (s : List Char) :
    (call.run ctx).2.idx s + uses calls s = ctx.idx s + uses (call :: calls) s := by
  have bound := fits s
  rw [uses_cons] at bound ⊢
  by_cases same : call.base = s
  · subst same
    rw [if_pos rfl] at bound ⊢
    rw [idx_run_base (by omega)]
    omega
  · rw [if_neg same, idx_run_ne (Ne.symm same)]
    omega

theorem Fits.tail (fits : Fits ctx (call :: calls)) : Fits (call.run ctx).2 calls := by
  intro s
  rw [idx_run_add fits]
  exact fits s

theorem names_makeAll (ctx : Context) (calls : List (Call S)) :
    (makeAll ctx calls).map (·.name) = (generated ctx calls).map cStr := by
  induction calls generalizing ctx with
  | nil => rfl
  | cons call calls ih => rw [makeAll, generated, List.map_cons, List.map_cons, run_name, ih]

/-- A string has the base of a call and a number that its counter has not had before. -/
theorem exists_of_mem_generated (fits : Fits ctx calls) {name : List Char}
    (among : name ∈ generated ctx calls) :
    ∃ call ∈ calls, ∃ n, ctx.idx call.base ≤ n ∧ name = call.base ++ Nat.toDigits 10 n := by
  induction calls generalizing ctx with
  | nil => cases among
  | cons first calls ih =>
    rcases List.mem_cons.mp among with rfl | later
    · exact ⟨first, List.mem_cons_self, _, le_rfl, rfl⟩
    · obtain ⟨call, member, n, above, named⟩ := ih fits.tail later
      refine ⟨call, List.mem_cons_of_mem first member, n, ?_, named⟩
      have counted := idx_run_add fits call.base
      rw [uses_cons] at counted
      omega

theorem nodup_generated (fits : Fits ctx calls)
    (plain : ∀ call ∈ calls, endsInDigit call.base = false) : (generated ctx calls).Nodup := by
  induction calls generalizing ctx with
  | nil => exact List.nodup_nil
  | cons first calls ih =>
    have plainLater : ∀ call ∈ calls, endsInDigit call.base = false :=
      fun call member => plain call (List.mem_cons_of_mem first member)
    rw [generated, List.nodup_cons]
    constructor
    · intro later
      obtain ⟨call, member, n, above, named⟩ := exists_of_mem_generated fits.tail later
      obtain ⟨bases, numbers⟩ :=
        eq_of_numbered_eq (plain first List.mem_cons_self) (plainLater call member) named
      have bound := fits first.base
      rw [uses_cons, if_pos rfl] at bound
      rw [← bases, idx_run_base (by omega)] at above
      omega
    · exact ih fits.tail plainLater

theorem cStr_generated (fits : Fits ctx calls) (whole : ∀ call ∈ calls, nul ∉ call.base) :
    (generated ctx calls).map cStr = generated ctx calls := by
  conv_rhs => rw [← List.map_id (generated ctx calls)]
  apply List.map_congr_left
  intro name among
  obtain ⟨call, member, n, -, rfl⟩ := exists_of_mem_generated fits among
  exact cStr_numbered (whole call member)

end

def Context.initial : Context := ⟨∅⟩

def Fresh {S : Type} (calls : List (Call S)) : Prop :=
  ((makeAll Context.initial calls).map (·.name)).Nodup

/-- Base names that do not end in a digit always give different variables, exactly when no base
has a nul in it. -/
theorem fresh_iff {S : Type} (bases : Set (List Char))
    (plain : ∀ s ∈ bases, endsInDigit s = false) :
    (∀ calls : List (Call S), (∀ call ∈ calls, call.base ∈ bases) →
        (∀ s, uses calls s < 2 ^ 32) → Fresh calls) ↔
      ∀ s ∈ bases, nul ∉ s := by
  constructor
  · intro fresh s member nulIn
    have apart : Fresh [Call.makeBool (S := S) s, .makeBool s] := by
      apply fresh
      · simp [Call.base, member]
      · intro t
        exact lt_of_le_of_lt List.countP_le_length (by simp)
    simp [Fresh, names_makeAll, generated, Context.getName, Call.base, cStr_hides nulIn] at apart
  · intro whole calls member few
    have fits : Fits Context.initial calls := by
      intro s
      rw [Context.idx, Context.initial, AList.lookup_empty, Option.getD_none, Nat.zero_add]
      exact few s
    rw [Fresh, names_makeAll, cStr_generated fits fun call listed => whole _ (member call listed)]
    exact nodup_generated fits fun call listed => plain _ (member call listed)

theorem fresh_iff_x :
    (∀ s ∈ ({[], ['x']} : Set (List Char)), endsInDigit s = false) ∧
      ((∀ calls : List (Call Unit), (∀ call ∈ calls, call.base ∈ ({[], ['x']} : Set (List Char))) →
          (∀ s, uses calls s < 2 ^ 32) → Fresh calls) ↔
        ∀ s ∈ ({[], ['x']} : Set (List Char)), nul ∉ s) := by
  have plain : ∀ s ∈ ({[], ['x']} : Set (List Char)), endsInDigit s = false := by
    intro s member
    rcases member with rfl | rfl <;> decide
  exact ⟨plain, fresh_iff _ plain⟩

/-- Two variables of the base name `"a\0"` are both named `"a"`. -/
theorem nul_not_fresh :
    endsInDigit ['a', nul] = false ∧
      (∀ s, uses [Call.makeBool (S := Unit) ['a', nul], .makeBool ['a', nul]] s < 2 ^ 32) ∧
      (makeAll Context.initial [Call.makeBool (S := Unit) ['a', nul], .makeBool ['a', nul]]).map
        (·.name) = [['a'], ['a']] ∧
      ¬ Fresh [Call.makeBool (S := Unit) ['a', nul], .makeBool ['a', nul]] := by
  refine ⟨by decide, fun s => lt_of_le_of_lt List.countP_le_length (by decide), by decide, ?_⟩
  unfold Fresh
  decide

end Clou.Names
