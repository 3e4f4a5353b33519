import Clou.Backtrack

/-! Procedures over a mutable state that may end by an exception: scopes that are closed however
their body ends, and handlers. -/

namespace Clou.Procedure

open Backtrack (Outcome)

abbrev Proc (S : Type) := S → Outcome × S

variable {S : Type}

def skip : Proc S := fun s => (.done, s)

def throw (outcome : Outcome) : Proc S := fun s => (outcome, s)

def update (change : S → S) : Proc S := fun s => (.done, change s)

/-- What is run next depends on how `body` ends. -/
def handle (body : Proc S) (next : Outcome → Proc S) : Proc S := fun s =>
  next (body s).1 (body s).2

def seq (first second : Proc S) : Proc S :=
  handle first fun outcome => if outcome = .done then second else throw outcome

/-- `close` also sees the state in which the scope was opened. -/
def within (enter : S → S) (close : S → S → S) (body : Proc S) : Proc S := fun s =>
  ((body (enter s)).1, close s (body (enter s)).2)

end Clou.Procedure
