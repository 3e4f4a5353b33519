import Mathlib.Logic.Relation

/-! Values folded along the paths of a graph of program points. -/

namespace Clou.PathFold

variable {P S : Type}

/-- Point `p` is reached along a path from `start`, and folding the transfer function
along that path gives `v`. Every step of the path meets the condition `ok`. -/
inductive Reach (next : P → P → Prop) (transfer : P → S → Option S) (ok : P → S → Prop)
    (start : P) (init : S) : P → S → Prop
  | start : Reach next transfer ok start init start init
  | step {p q v w} : Reach next transfer ok start init p v → ok p v → transfer p v = some w →
      next p q → Reach next transfer ok start init q w

variable {next : P → P → Prop} {transfer : P → S → Option S} {ok : P → S → Prop} {start : P}
  {init : S}

/-- What holds at the start and along every step holds of every path. -/
theorem Reach.invariant {motive : P → S → Prop} (initial : motive start init)
    (preserved : ∀ {p q v w}, motive p v → ok p v → transfer p v = some w → next p q →
      motive q w)
    {p : P} {v : S} (reach : Reach next transfer ok start init p v) : motive p v := by
  induction reach with
  | start => exact initial
  | step _ holds moved edge ih => exact preserved ih holds moved edge

end Clou.PathFold
