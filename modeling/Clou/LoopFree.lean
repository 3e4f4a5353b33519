import Clou.Calls
import Clou.Graph
import Clou.LoopOrder

/-! The unrolled graph of a function with reducible control flow has no cycle: control moves
forward in the outermost function instance in which it moves. -/

namespace Clou.Unrolled

open Cfg Labelled

/-- All cycles of the functions are those of their loops. -/
def Program.Reducible (P : Program) : Prop :=
  ∀ f, (P.M.func f).isDeclaration = false → Unrolled.Reducible (P.M.func f) (P.loopInfo f)

/-- Where a configuration comes, by the places of its frames from the outermost on. -/
noncomputable def configPlace (P : Program) (c : Config) : List (Lex (List Nat × Nat)) :=
  c.reverse.map (framePlace P)

noncomputable def labelPlace (P : Program) : Label → Lex (Nat × List (Lex (List Nat × Nat)))
  | .entry => toLex (0, [])
  | .inst c => toLex (1, configPlace P c)
  | .exit => toLex (2, [])

section

variable {P : Program} {F : FuncRef}

theorem append_lt_append {K : Type} [LinearOrder K] (front : List K) {a b : K} (less : a < b)
    (rest rest' : List K) : front ++ a :: rest < front ++ b :: rest' := by
  induction front with
  | nil => exact List.cons_lt_cons_iff.mpr (.inl less)
  | cons k front ih => exact List.cons_lt_cons_iff.mpr (.inr ⟨rfl, ih⟩)

/-- Frames on top of a frame do not matter against one that comes before it. -/
theorem configPlace_lt {fr fr' : Frame} {σ c d : Config} (less : framePlace P fr < framePlace P fr')
    (above : fr :: σ <:+ c) (above' : fr' :: σ <:+ d) : configPlace P c < configPlace P d := by
  rcases above with ⟨top, rfl⟩
  rcases above' with ⟨top', rfl⟩
  have split (fr : Frame) (top : Config) : configPlace P (top ++ fr :: σ) =
      configPlace P σ ++ framePlace P fr :: configPlace P top := by
    simp [configPlace]
  rw [split, split]
  exact append_lt_append _ less _ _

theorem framePlace_next (fr : Frame) : framePlace P fr < framePlace P fr.next :=
  Prod.Lex.toLex_lt_toLex.mpr (.inr ⟨rfl, Nat.lt_succ_self _⟩)

theorem step_lt (okay : P.Ok) (reducible : P.Reducible) {c d : Config}
    (frames : ∀ fr ∈ c, (P.M.func fr.func).isDeclaration = false ∧ FrameIn P fr.func fr)
    (step : Step P c d) : configPlace P c < configPlace P d := by
  rcases step with ⟨e, moves, lands⟩
  cases moves with
  | link link =>
    rcases frames _ List.mem_cons_self with ⟨defined, inside⟩
    have less := framePlace_lt (okay _ defined) (reducible _ defined) inside link
    exact configPlace_lt less (List.suffix_refl _) lands.suffix
  | leave _ _ => exact configPlace_lt (framePlace_next _) (List.suffix_cons _ _) lands.suffix

theorem arc_lt (okay : P.Ok) (reducible : P.Reducible) (defined : (P.M.func F).isDeclaration = false)
    {x y : Label} (arc : Arc P F x y) : labelPlace P x < labelPlace P y := by
  cases arc with
  | first _ => exact Prod.Lex.toLex_lt_toLex.mpr (.inl Nat.zero_lt_one)
  | step placed step =>
    have less := step_lt okay reducible (placed.frames defined) step
    exact Prod.Lex.toLex_lt_toLex.mpr (.inr ⟨rfl, less⟩)
  | last _ => exact Prod.Lex.toLex_lt_toLex.mpr (.inl Nat.one_lt_two)

theorem Unrolls.acyclic (okay : P.Ok) (reducible : P.Reducible)
    (defined : (P.M.func F).isDeclaration = false) {cfg : Cfg} {labels : List Label}
    (unrolls : Unrolls P F cfg labels) : Acyclic cfg.po.Edge := by
  apply Acyclic.of_rank fun n => (labels[n]?).elim (labelPlace P .entry) (labelPlace P)
  intro n m edge
  rcases unrolls.denotes.edge_iff.mp edge with ⟨x, y, left, right, arc, -⟩
  rw [left, right]
  exact arc_lt okay reducible defined arc

end

/-- The unrolled graph of a program with reducible control flow has no cycle. Nor has the graph
with split calls, and no assertion fails when its nodes are brought in order. -/
theorem unrolled_loopFree {P : Program} {F : FuncRef} (okay : P.Ok) (reducible : P.Reducible)
    (defined : (P.M.func F).isDeclaration = false) {order : HashOrder} {cfg : Cfg}
    (constructed : constructCfg order P F = some cfg) (isPointerTy : Value → Bool) :
    Acyclic cfg.po.Edge ∧
      ∃ calls, Calls.construct P.M.deref isPointerTy cfg = some calls ∧ Acyclic calls.po.Edge ∧
        ∃ postorder, calls.computePostorder = some postorder := by
  rcases (constructCfg_yields okay defined order).result constructed with ⟨labels, _, _, unrolls, -⟩
  have acyclic := unrolls.acyclic okay reducible defined
  rcases Calls.construct_spec P.M.deref isPointerTy unrolls.wellFormed with ⟨calls, map, split, spec⟩
  have acyclic' := spec.acyclic acyclic
  rcases computePostorder_spec spec.wellFormed acyclic' with ⟨postorder, computed, -⟩
  exact ⟨acyclic, calls, split, acyclic', postorder, computed⟩

theorem callInLoop_reducible : callInLoop.Reducible := by
  intro f defined
  match f with
  | 0 =>
    have back : ∀ B < 3, ∀ S ∈ ((callInLoop.M.func 0).terminator B).successors, S ≤ B → B = 1 ∧ S = 1 := by
      decide
    apply Acyclic.of_rank fun B => B
    rintro B S ⟨valid, flow, forward⟩
    by_contra later
    rcases back B valid S flow (Nat.le_of_not_lt later) with ⟨rfl, rfl⟩
    exact forward (.mk 1 [1] []) ⟨_, List.mem_singleton.mpr rfl, .self⟩ (List.mem_singleton.mpr rfl) rfl
  | 1 =>
    have straight : ∀ B < 1, ((callInLoop.M.func 1).terminator B).successors = [] := by decide
    apply Acyclic.of_rank fun B => B
    rintro B S ⟨valid, flow, -⟩
    rw [Function.Flow, straight B valid] at flow
    cases flow
  | f + 2 => cases defined

theorem callInLoop_loopFree : ∃ cfg, constructCfg .listed callInLoop 0 = some cfg ∧
    Acyclic cfg.po.Edge ∧
      ∃ calls, Calls.construct callInLoop.M.deref (fun _ => true) cfg = some calls ∧
        Acyclic calls.po.Edge ∧ ∃ postorder, calls.computePostorder = some postorder := by
  rcases callInLoop_constructed with ⟨cfg, constructed⟩
  exact ⟨cfg, constructed,
    unrolled_loopFree callInLoop_ok callInLoop_reducible rfl constructed (fun _ => true)⟩

end Clou.Unrolled
