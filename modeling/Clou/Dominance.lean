import Mathlib.Data.List.Chain
import Mathlib.Logic.Relation

/-! Dominance in a relation, through its complement: the elements that are reached from a root by
a way that keeps out of a set. -/

namespace Clou

def Root {X : Type} (edge : X → X → Prop) (x : X) : Prop := ∀ y, ¬ edge y x

inductive Evades {X : Type} (edge : X → X → Prop) (S : X → Prop) : X → Prop where
  | root {x : X} (first : Root edge x) (out : ¬ S x) : Evades edge S x
  | step {x y : X} (before : Evades edge S x) (next : edge x y) (out : ¬ S y) : Evades edge S y

section

variable {X : Type} {edge : X → X → Prop} {S : X → Prop} {x y : X}

theorem evades_iff : Evades edge S y ↔ ¬ S y ∧ (Root edge y ∨ ∃ x, edge x y ∧ Evades edge S x) := by
  constructor
  · intro evades
    cases evades with
    | root first out => exact ⟨out, .inl first⟩
    | step before next out => exact ⟨out, .inr ⟨_, next, before⟩⟩
  · rintro ⟨out, first | ⟨x, next, before⟩⟩
    · exact .root first out
    · exact .step before next out

/-- An element is dominated by itself and by what dominates all that leads to it. -/
theorem not_evades_iff {a b : X} : ¬ Evades edge (· = a) b ↔
    a = b ∨ ¬ Root edge b ∧ ∀ p, edge p b → ¬ Evades edge (· = a) p := by
  rw [evades_iff, not_and_or, not_not, not_or, not_exists, eq_comm]
  simp only [not_and]

theorem Evades.along {path : List X} (start : Evades edge S x) (chain : (x :: path).IsChain edge)
    (out : ∀ z ∈ path, ¬ S z) (last : (x :: path).getLast? = some y) : Evades edge S y := by
  induction path generalizing x with
  | nil =>
    cases last
    exact start
  | cons z path ih =>
    rcases List.isChain_cons_cons.mp chain with ⟨next, rest⟩
    rw [List.getLast?_cons_cons] at last
    exact ih (start.step next (out z List.mem_cons_self)) rest
      (fun w later => out w (List.mem_cons_of_mem z later)) last

/-- A path that crosses an element leads to it, and on from it. -/
theorem chain_through {before after : List X} (chain : (before ++ x :: after).IsChain edge)
    (last : (before ++ x :: after).getLast? = some y) (different : x ≠ y) :
    (before ++ [x]).IsChain edge ∧ Relation.TransGen edge x y ∧ after ≠ [] := by
  have member : y ∈ after := by
    rw [List.getLast?_append_of_ne_nil _ (List.cons_ne_nil x after)] at last
    rcases List.mem_cons.mp (List.mem_of_getLast? last) with same | later
    · exact absurd same.symm different
    · exact later
  have first : (before ++ [x] ++ after).IsChain edge := by simpa using chain
  refine ⟨first.left_of_append, ?_, List.ne_nil_of_mem member⟩
  have pairs := List.isChain_iff_pairwise.mp
    (chain.right_of_append.imp fun _ _ => Relation.TransGen.single)
  exact (List.pairwise_cons.mp pairs).1 y member

theorem evades_iff_path : Evades edge S y ↔ ∃ path : List X, path.IsChain edge ∧
    (∃ r, path.head? = some r ∧ Root edge r) ∧ path.getLast? = some y ∧ ∀ z ∈ path, ¬ S z := by
  constructor
  · intro evades
    induction evades with
    | @root x first out => exact ⟨[x], .singleton x, ⟨x, rfl, first⟩, rfl, by simpa using out⟩
    | @step x y _ next out ih =>
      rcases ih with ⟨path, chain, ⟨r, head, first⟩, last, outside⟩
      refine ⟨path ++ [y], ?_, ⟨r, ?_, first⟩, List.getLast?_concat, ?_⟩
      · refine List.isChain_append.mpr ⟨chain, .singleton y, ?_⟩
        intro z ending w here
        cases last.symm.trans ending
        cases here
        exact next
      · rw [List.head?_append, head]
        rfl
      · intro z member
        rcases List.mem_append.mp member with old | new
        · exact outside z old
        · exact List.mem_singleton.mp new ▸ out
  · rintro ⟨path, chain, ⟨r, head, first⟩, last, outside⟩
    cases path with
    | nil => cases head
    | cons x path =>
      cases head
      exact (Evades.root first (outside r List.mem_cons_self)).along chain
        (fun z later => outside z (List.mem_cons_of_mem r later)) last

end

/-- A relation and one between groups of its elements: each group is entered at its gate. -/
structure Grouped {X Y : Type} (edge : X → X → Prop) (link : Y → Y → Prop) (group : X → Y)
    (gate : Y → X) : Prop where
  project : ∀ {x y}, edge x y → group x = group y ∨ link (group x) (group y)
  lift : ∀ {a b}, link a b → ∃ x, group x = a ∧ edge x (gate b)
  group_gate : ∀ x, group (gate (group x)) = group x
  first : ∀ {x y}, edge x (gate (group y)) → group x ≠ group y
  inside : ∀ x, Relation.ReflTransGen (fun u v => edge u v ∧ group v = group x) (gate (group x)) x

namespace Grouped

variable {X Y : Type} {edge : X → X → Prop} {link : Y → Y → Prop} {group : X → Y} {gate : Y → X}
  {x : X}

section

variable (grouped : Grouped edge link group gate)

include grouped

theorem root_group (first : Root edge x) : Root link (group x) := by
  intro a step
  rcases grouped.lift step with ⟨u, -, next⟩
  rcases (grouped.inside x).cases_tail with same | ⟨v, -, last⟩
  · exact first u (same ▸ next)
  · exact first v last.1

theorem root_gate (first : Root link (group x)) : Root edge (gate (group x)) := by
  intro y next
  rcases grouped.project next with same | step
  · rw [grouped.group_gate] at same
    exact grouped.first next same
  · rw [grouped.group_gate] at step
    exact first (group y) step

theorem evades_inside {S : Y → Prop} (entered : Evades edge (fun x => S (group x)) (gate (group x)))
    (out : ¬ S (group x)) : Evades edge (fun x => S (group x)) x := by
  have walk {v : X} (path : Relation.ReflTransGen (fun u v => edge u v ∧ group v = group x)
      (gate (group x)) v) : Evades edge (fun x => S (group x)) v := by
    induction path with
    | refl => exact entered
    | tail _ step ih =>
      refine ih.step step.1 ?_
      rw [step.2]
      exact out
  exact walk (grouped.inside x)

/-- Groups can be evaded if and only if they can be evaded between groups. -/
theorem evades_iff {S : Y → Prop} :
    Evades edge (fun x => S (group x)) x ↔ Evades link S (group x) := by
  constructor
  · intro evades
    induction evades with
    | root first out => exact .root (grouped.root_group first) out
    | step _ next out ih =>
      rcases grouped.project next with same | link
      · exact same ▸ ih
      · exact ih.step link out
  · intro evades
    generalize here : group x = b at evades
    induction evades generalizing x with
    | root first out =>
      subst here
      refine grouped.evades_inside (.root (grouped.root_gate first) ?_) out
      rwa [grouped.group_gate]
    | step _ next out ih =>
      subst here
      rcases grouped.lift next with ⟨u, before, enter⟩
      refine grouped.evades_inside ((ih before).step enter ?_) out
      rwa [grouped.group_gate]

end

end Grouped

end Clou
