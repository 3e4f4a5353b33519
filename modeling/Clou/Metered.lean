import Mathlib.Logic.Basic

/-! Computations whose recursion is metered: with enough fuel they end in a result. Their state
has two parts, one that results are specified on and one that is only kept while scopes are
open. -/

namespace Clou.Metered

/-- `none`: the fuel ran out. -/
abbrev Run (T G R : Type) := T → G → Option (R × T × G)

variable {T G Q R : Type}

def ret (r : R) : Run T G R := fun t g => some (r, t, g)

def exhausted : Run T G R := fun _ _ => none

def lift (op : T → R × T) : Run T G R := fun t g => some ((op t).1, (op t).2, g)

def bind (x : Run T G Q) (next : Q → Run T G R) : Run T G R := fun t g =>
  (x t g).bind fun p => next p.1 p.2.1 p.2.2

/-- A scope on the part that is specified. `close` also sees where the scope was opened. -/
def within (enter : T → T) (close : T → T → T) (body : Run T G R) : Run T G R := fun t g =>
  (body (enter t) g).map fun p => (p.1, close t p.2.1, p.2.2)

def scope (enter : G → G) (leave : G → G → G) (body : Run T G R) : Run T G R := fun t g =>
  (body t (enter g)).map fun p => (p.1, p.2.1, leave g p.2.2)

def ask (body : G → Run T G R) : Run T G R := fun t g => body g t g

/-! Total correctness -/

/-- From every state with `inv`, the computation ends, `inv` holds again, and the result and
the new state are as specified. -/
def Meets (inv : G → Prop) (spec : T → R → T → Prop) (x : Run T G R) : Prop :=
  ∀ t g, inv g → ∃ r t' g', x t g = some (r, t', g') ∧ inv g' ∧ spec t r t'

namespace Meets

variable {inv inv' : G → Prop} {spec spec' : T → R → T → Prop} {x : Run T G R}

theorem weaken (meets : Meets inv spec x) (weaker : ∀ t r t', spec t r t' → spec' t r t') :
    Meets inv spec' x := by
  intro t g holds
  obtain ⟨r, t', g', ends, kept, specified⟩ := meets t g holds
  exact ⟨r, t', g', ends, kept, weaker t r t' specified⟩

theorem ret {r : R} (specified : ∀ t, spec t r t) : Meets inv spec (ret r) :=
  fun t g holds => ⟨r, t, g, rfl, holds, specified t⟩

theorem lift {op : T → R × T} (specified : ∀ t, spec t (op t).1 (op t).2) :
    Meets inv spec (lift op) :=
  fun t g holds => ⟨(op t).1, (op t).2, g, rfl, holds, specified t⟩

theorem bind {first : T → Q → T → Prop} {x : Run T G Q} {next : Q → Run T G R}
    (meets : Meets inv first x)
    (rest : ∀ q, Meets inv (fun t r t' => ∀ s, first s q t → spec s r t') (next q)) :
    Meets inv spec (bind x next) := by
  intro t g holds
  obtain ⟨q, t₁, g₁, ends, kept, specified⟩ := meets t g holds
  obtain ⟨r, t₂, g₂, ends', kept', specified'⟩ := rest q t₁ g₁ kept
  refine ⟨r, t₂, g₂, ?_, kept', specified' t specified⟩
  rw [Metered.bind, ends, Option.bind_some, ends']

theorem within {enter : T → T} {close : T → T → T} (meets : Meets inv spec x)
    (closed : ∀ t r t', spec (enter t) r t' → spec' t r (close t t')) :
    Meets inv spec' (within enter close x) := by
  intro t g holds
  obtain ⟨r, t', g', ends, kept, specified⟩ := meets (enter t) g holds
  refine ⟨r, close t t', g', ?_, kept, closed t r t' specified⟩
  rw [Metered.within, ends, Option.map_some]

theorem scope {enter : G → G} {leave : G → G → G} (meets : Meets inv' spec x)
    (entered : ∀ g, inv g → inv' (enter g)) (left : ∀ g g', inv g → inv' g' → inv (leave g g')) :
    Meets inv spec (scope enter leave x) := by
  intro t g holds
  obtain ⟨r, t', g', ends, kept, specified⟩ := meets t (enter g) (entered g holds)
  refine ⟨r, t', leave g g', ?_, left g g' holds kept, specified⟩
  rw [Metered.scope, ends, Option.map_some]

theorem ask {body : G → Run T G R} (meets : ∀ g, inv g → Meets inv spec (body g)) :
    Meets inv spec (ask body) :=
  fun t g holds => meets g holds t g holds

end Meets

end Clou.Metered
