import Mathlib.Logic.Relation
import Mathlib.Data.List.Basic

/-! Searches inside of a window, with a stack of what is still to be looked at. -/

namespace Clou.Worklist

variable {T : Type} {window : List T} {succs : T → List T} {init : T}

def Step (window : List T) (succs : T → List T) (a b : T) : Prop :=
  a ∈ window ∧ b ∈ window ∧ b ∈ succs a

def Found (window : List T) (succs : T → List T) (init n : T) : Prop :=
  init ∈ window ∧ Relation.ReflTransGen (Step window succs) init n

/-- Everything listed has been found, and what follows something seen is listed. -/
structure Invariant (window : List T) (succs : T → List T) (init : T) (todo seen : List T) : Prop where
  seen_found : ∀ n ∈ seen, Found window succs init n
  todo_found : ∀ n ∈ todo, n ∈ window → Found window succs init n
  start : init ∈ window → init ∈ seen ∨ init ∈ todo
  closed : ∀ {a b}, a ∈ seen → Step window succs a b → b ∈ seen ∨ b ∈ todo

namespace Invariant

variable {ref : T} {rest seen : List T}

theorem initial : Invariant window succs init [init] [] where
  seen_found _ member := absurd member List.not_mem_nil
  todo_found n member inside := by
    cases List.mem_singleton.mp member
    exact ⟨inside, .refl⟩
  start _ := .inr List.mem_cons_self
  closed member := absurd member List.not_mem_nil

theorem drop (invariant : Invariant window succs init (ref :: rest) seen)
    (useless : ref ∈ window → ref ∈ seen) : Invariant window succs init rest seen := by
  have listed {b : T} (inside : b ∈ window) (old : b ∈ seen ∨ b ∈ ref :: rest) : b ∈ seen ∨ b ∈ rest := by
    rcases old with member | member
    · exact .inl member
    · rcases List.mem_cons.mp member with same | later
      · exact .inl (same ▸ useless (same ▸ inside))
      · exact .inr later
  exact ⟨invariant.seen_found, fun n member => invariant.todo_found n (List.mem_cons_of_mem ref member),
    fun inside => listed inside (invariant.start inside),
    fun member step => listed step.2.1 (invariant.closed member step)⟩

theorem visit (invariant : Invariant window succs init (ref :: rest) seen) (inside : ref ∈ window) :
    Invariant window succs init ((succs ref).reverse ++ rest) (ref :: seen) := by
  have here := invariant.todo_found ref List.mem_cons_self inside
  have listed {b : T} (old : b ∈ seen ∨ b ∈ ref :: rest) :
      b ∈ ref :: seen ∨ b ∈ (succs ref).reverse ++ rest := by
    rcases old with member | member
    · exact .inl (List.mem_cons_of_mem ref member)
    · rcases List.mem_cons.mp member with same | later
      · exact .inl (same ▸ List.mem_cons_self)
      · exact .inr (List.mem_append_right _ later)
  constructor
  · intro n member
    rcases List.mem_cons.mp member with same | old
    · exact same ▸ here
    · exact invariant.seen_found n old
  · intro n member inside'
    rcases List.mem_append.mp member with next | later
    · exact ⟨here.1, here.2.tail ⟨inside, inside', List.mem_reverse.mp next⟩⟩
    · exact invariant.todo_found n (List.mem_cons_of_mem ref later) inside'
  · exact fun inside' => listed (invariant.start inside')
  · intro a b member step
    rcases List.mem_cons.mp member with same | old
    · exact .inr (List.mem_append_left rest (List.mem_reverse.mpr (same ▸ step.2.2)))
    · exact listed (invariant.closed old step)

theorem finished (invariant : Invariant window succs init [] seen) (n : T) :
    n ∈ seen ↔ Found window succs init n := by
  have stays {b : T} (old : b ∈ seen ∨ b ∈ []) : b ∈ seen := old.resolve_right List.not_mem_nil
  constructor
  · exact invariant.seen_found n
  · intro found
    induction found.2 with
    | refl => exact stays (invariant.start found.1)
    | tail path step ih => exact stays (invariant.closed (ih ⟨found.1, path⟩) step)

end Invariant

variable [DecidableEq T]

theorem unseen_lt {seen : List T} {ref : T} (inside : ref ∈ window) (fresh : ref ∉ seen) :
    (window.filter (· ∉ ref :: seen)).length < (window.filter (· ∉ seen)).length := by
  have narrower : window.filter (· ∉ ref :: seen) = (window.filter (· ∉ seen)).filter (· ≠ ref) := by
    rw [List.filter_filter]
    apply List.filter_congr
    intro other _
    simp
  rw [narrower]
  apply List.length_filter_lt_length_iff_exists.mpr
  exact ⟨ref, List.mem_filter.mpr ⟨inside, by simpa using fresh⟩, by simp⟩

/-- The top of the stack is the front of the list. -/
def search (window : List T) (next : T → Option (List T)) (todo seen : List T) : Option (List T) :=
  match todo with
  | [] => some seen
  | ref :: rest =>
    if ref ∈ window then
      if ref ∈ seen then search window next rest seen
      else (next ref).bind fun more => search window next (more.reverse ++ rest) (ref :: seen)
    else search window next rest seen
termination_by ((window.filter (· ∉ seen)).length, todo.length)
decreasing_by
  · exact .right _ (Nat.lt_succ_self _)
  · exact .left _ _ (unseen_lt ‹_› ‹_›)
  · exact .right _ (Nat.lt_succ_self _)

variable {next : T → Option (List T)}

theorem search_run (known : ∀ n ∈ window, next n = some (succs n)) {todo seen : List T}
    (invariant : Invariant window succs init todo seen) :
    ∃ result, search window next todo seen = some result ∧
      ∀ n, n ∈ result ↔ Found window succs init n := by
  induction todo, seen using search.induct window with
  | case1 seen => exact ⟨seen, by rw [search], invariant.finished⟩
  | case2 seen ref rest inside old ih =>
    rw [search, if_pos inside, if_pos old]
    exact ih (invariant.drop fun _ => old)
  | case3 seen ref rest inside fresh ih =>
    rw [search, if_pos inside, if_neg fresh, known ref inside, Option.bind_some]
    exact ih (succs ref) (invariant.visit inside)
  | case4 seen ref rest outside ih =>
    rw [search, if_neg outside]
    exact ih (invariant.drop fun inside => absurd inside outside)

/-- A search from a node finds what can be reached from it inside of the window. -/
theorem search_spec (known : ∀ n ∈ window, next n = some (succs n)) (init : T) :
    ∃ result, search window next [init] [] = some result ∧
      ∀ n, n ∈ result ↔ Found window succs init n :=
  search_run known .initial

end Clou.Worklist
