import Clou.Metered
import Clou.Procedure

/-! Metered procedures, which may end by an exception, and their agreement with procedures that
are not metered and keep nothing besides the state. -/

namespace Clou.MeteredProcedure

open Metered
open Backtrack (Outcome)
open Procedure (Proc)

abbrev Fuelled (T G : Type) := Run T G Outcome

variable {T G Q : Type}

def skip : Fuelled T G := ret .done

def seq (first second : Fuelled T G) : Fuelled T G :=
  bind first fun outcome => if outcome = .done then second else ret outcome

def Agrees (inv : G → Prop) (x : Fuelled T G) (m : Proc T) : Prop :=
  Meets inv (fun t outcome t' => m t = (outcome, t')) x

namespace Agrees

variable {inv inv' : G → Prop} {x y : Fuelled T G} {m n : Proc T}

theorem lift (m : Proc T) : Agrees inv (lift m) m := Meets.lift fun _ => rfl

theorem ret (outcome : Outcome) : Agrees inv (ret outcome : Fuelled T G) (Procedure.throw outcome) :=
  Meets.ret fun _ => rfl

theorem skip : Agrees inv (skip : Fuelled T G) Procedure.skip := Meets.ret fun _ => rfl

theorem handle {next : Outcome → Fuelled T G} {next' : Outcome → Proc T} (body : Agrees inv x m)
    (each : ∀ outcome, Agrees inv (next outcome) (next' outcome)) :
    Agrees inv (bind x next) (Procedure.handle m next') := by
  refine Meets.bind body fun outcome => (each outcome).weaken fun t result t' agrees s reached => ?_
  rw [Procedure.handle, reached]
  exact agrees

theorem read {op : T → Q × T} {next : Q → Fuelled T G} {next' : Q → Proc T}
    (each : ∀ q, Agrees inv (next q) (next' q)) :
    Agrees inv (bind (Metered.lift op) next) fun t => next' (op t).1 (op t).2 := by
  have first : Meets inv (fun t q t' => op t = (q, t')) (Metered.lift op) := Meets.lift fun _ => rfl
  refine first.bind fun q => (each q).weaken fun t result t' agrees s reached => ?_
  change next' (op s).1 (op s).2 = _
  rw [reached]
  exact agrees

theorem ite {condition : Prop} [Decidable condition] (yes : condition → Agrees inv x m)
    (no : ¬ condition → Agrees inv y n) :
    Agrees inv (if condition then x else y) (if condition then m else n) := by
  by_cases holds : condition
  · simpa only [if_pos holds] using yes holds
  · simpa only [if_neg holds] using no holds

theorem seq (first : Agrees inv x m) (second : Agrees inv y n) :
    Agrees inv (seq x y) (Procedure.seq m n) :=
  first.handle fun outcome => ite (fun _ => second) fun _ => ret outcome

theorem within {enter : T → T} {close : T → T → T} (body : Agrees inv x m) :
    Agrees inv (within enter close x) (Procedure.within enter close m) := by
  refine Meets.within body fun t outcome t' agrees => ?_
  rw [Procedure.within, agrees]

theorem scope {enter : G → G} {leave : G → G → G} (body : Agrees inv' x m)
    (entered : ∀ g, inv g → inv' (enter g)) (left : ∀ g g', inv g → inv' g' → inv (leave g g')) :
    Agrees inv (scope enter leave x) m :=
  Meets.scope body entered left

end Agrees

end Clou.MeteredProcedure
