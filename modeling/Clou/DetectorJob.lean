import Clou.Leakage
import Clou.Procedure

/-! The search for leaks on the fields that it changes: the stack of actions, which scopes push
and pop, and the flag that a lookahead leaves behind. -/

namespace Clou

open Z3 Leakage Procedure
open Backtrack (Oracle CheckResult)

structure Output where
  lookaheadTmp : Bool
  leak : Leak
  deriving DecidableEq, Repr

structure DetectorJob (V : Type) where
  asserted : List (BoolExpr V)
  checks : Nat
  actions : List Action
  lookaheadTmp : Bool
  outputs : List Output

namespace DetectorJob

abbrev Thunk (V : Type) := Proc (DetectorJob V)

def start {V : Type} (asserted : List (BoolExpr V)) : DetectorJob V := ⟨asserted, 0, [], true, []⟩

section

variable {V : Type} (G : Graph V) (config : Config) (oracle : Oracle (BoolExpr V))

def solverAdd (facts : List (BoolExpr V)) : Thunk V :=
  update fun job => { job with asserted := job.asserted ++ facts }

def solverCheck (limit : Bool) (answer : CheckResult → Thunk V) : Thunk V := fun job =>
  answer (oracle limit job.checks job.asserted) { job with checks := job.checks + 1 }

def push (action : Action) (inner : Thunk V) : Thunk V :=
  within (fun job => { job with actions := job.actions ++ [action] })
    (fun _ job => { job with actions := job.actions.dropLast }) inner

def setLookaheadTmp (found : Bool) : Thunk V := update fun job => { job with lookaheadTmp := found }

/-- The search keeps its chain on the stack, from which the actions of a leak are read off. -/
def ops : Ops V Unit Nat (Thunk V) where
  start := ()
  extend _ _ := ()
  skip := skip
  throw := throw
  seq := seq
  add := solverAdd
  check := solverCheck oracle
  scope := within id fun before job => { job with asserted := before.asserted }
  ifFound trial rest := handle trial fun
    | .done => setLookaheadTmp false
    | .found => seq (setLookaheadTmp true) rest
    | outcome => throw outcome
  catchNext body := handle body fun outcome => if outcome = .next then skip else throw outcome
  push := push
  withActions _ body := fun job => body job.actions job
  call _ _ _ rest := rest
  output _ vec transmitter := update fun job =>
    { job with outputs := job.outputs ++ [⟨job.lookaheadTmp, vec, transmitter, job.actions⟩] }
  unlessLast tracebacks rest := if tracebacks = 0 then skip else rest
  deeper rest := rest

abbrev runTransmitter := (ops oracle).runTransmitter G config

abbrev forOneTransmitter := (ops oracle).forOneTransmitter G config

end

end DetectorJob

end Clou
