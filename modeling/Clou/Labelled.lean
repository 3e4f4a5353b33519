import Mathlib.Data.List.Nodup

/-! Graphs on numbers that are read through labels: a number stands for its label, and no
two numbers have the same one. -/

namespace Clou.Labelled

variable {X : Type}

/-- From here, every way ends, and at no exit. -/
inductive DeadEnd (edge : X → X → Prop) (exit : X → Prop) : X → Prop
  | intro {x} : ¬ exit x → (∀ y, edge x y → DeadEnd edge exit y) → DeadEnd edge exit x

structure Denotes (labels : List X) (edge : Nat → Nat → Prop) (rel : X → X → Prop) : Prop where
  nodup : labels.Nodup
  within : ∀ {x y}, rel x y → x ∈ labels ∧ y ∈ labels
  edge_iff : ∀ {n m}, edge n m ↔ ∃ x y, labels[n]? = some x ∧ labels[m]? = some y ∧ rel x y

variable {labels : List X}

theorem lookup_extend {more : List X} (grows : labels <+: more) {n : Nat} {x : X}
    (found : labels[n]? = some x) : more[n]? = some x := by
  rcases grows with ⟨rest, rfl⟩
  rw [List.getElem?_append_left (List.getElem?_eq_some_iff.mp found).1]
  exact found

theorem number_unique (nodup : labels.Nodup) {n m : Nat} {x : X} (left : labels[n]? = some x)
    (right : labels[m]? = some x) : n = m := by
  rcases List.getElem?_eq_some_iff.mp left with ⟨bound, here⟩
  exact (nodup.getElem_inj_iff).mp (here.trans (List.getElem?_eq_some_iff.mp right).2.symm)

section

variable {A B : Type} {R : A → B → Prop} {l : List A} {l' : List B} (related : List.Forall₂ R l l')

include related

theorem lookup_related {i : Nat} {a : A} (found : l[i]? = some a) :
    ∃ b, l'[i]? = some b ∧ R a b := by
  induction related generalizing i with
  | nil => simp at found
  | cons holds _ ih =>
    cases i with
    | zero =>
      cases found
      exact ⟨_, rfl, holds⟩
    | succ i => exact ih found

theorem getLast_related {a : A} (last : l.getLast? = some a) :
    ∃ b, l'.getLast? = some b ∧ R a b := by
  rw [List.getLast?_eq_getElem?] at last
  rcases lookup_related related last with ⟨b, found, same⟩
  rw [related.length_eq, ← List.getLast?_eq_getElem?] at found
  exact ⟨b, found, same⟩

end

theorem forall₂_meet {A B C : Type} {R : A → B → Prop} {S : A → C → Prop} {T : B → C → Prop}
    {l : List A} {l' : List B} {l'' : List C} (left : List.Forall₂ R l l')
    (right : List.Forall₂ S l l'') (meet : ∀ a b c, R a b → S a c → T b c) : List.Forall₂ T l' l'' := by
  induction left generalizing l'' with
  | nil =>
    cases right
    exact .nil
  | cons first _ ih =>
    cases right with
    | cons first' rest => exact .cons (meet _ _ _ first first') (ih rest)

theorem forall₂_filterMap {A B : Type} {f : A → Option B} {l : List A}
    (present : ∀ a ∈ l, ∃ b, f a = some b) :
    List.Forall₂ (fun a b => f a = some b) l (l.filterMap f) := by
  induction l with
  | nil => exact .nil
  | cons a l ih =>
    rcases present a List.mem_cons_self with ⟨b, found⟩
    rw [List.filterMap_cons_some found]
    exact .cons found (ih fun c later => present c (List.mem_cons_of_mem a later))

theorem filterMap_range (labels : List X) :
    (List.range labels.length).filterMap (labels[·]?) = labels := by
  induction labels with
  | nil => rfl
  | cons x labels ih => simp [List.range_succ_eq_map, List.filterMap_map, ih]

theorem numbered {xs : List X} (present : ∀ x ∈ xs, x ∈ labels) :
    ∃ path : List Nat, List.Forall₂ (fun n x => labels[n]? = some x) path xs := by
  induction xs with
  | nil => exact ⟨[], .nil⟩
  | cons x xs ih =>
    rw [List.forall_mem_cons] at present
    rcases List.getElem?_of_mem present.1 with ⟨n, found⟩
    rcases ih present.2 with ⟨path, rest⟩
    exact ⟨n :: path, .cons found rest⟩

namespace Denotes

variable {labels : List X} {edge edge' : Nat → Nat → Prop} {rel rel' : X → X → Prop}

variable {m n : Nat} {y x : X}

section

variable (denotes : Denotes labels edge rel)

include denotes

theorem edge_labels (left : labels[n]? = some x) (right : labels[m]? = some y) :
    edge n m ↔ rel x y := by
  rw [denotes.edge_iff]
  constructor
  · rintro ⟨x', y', left', right', related⟩
    rw [left] at left'
    rw [right] at right'
    cases left'
    cases right'
    exact related
  · exact fun related => ⟨x, y, left, right, related⟩

/-- Where a path begins at a number with a label, all numbers on it have labels. -/
theorem labelled {path : List Nat} (found : labels[n]? = some x) (chain : (n :: path).IsChain edge) :
    ∃ xs, List.Forall₂ (fun n x => labels[n]? = some x) (n :: path) (x :: xs) := by
  induction path generalizing n x with
  | nil => exact ⟨[], .cons found .nil⟩
  | cons m path ih =>
    rw [List.isChain_cons_cons] at chain
    rcases denotes.edge_iff.mp chain.1 with ⟨_, y, -, next, -⟩
    rcases ih next chain.2 with ⟨xs, rest⟩
    exact ⟨y :: xs, .cons found rest⟩

/-- A path between the numbers is one between their labels. -/
theorem isChain_iff {path : List Nat} {xs : List X}
    (labelled : List.Forall₂ (fun n x => labels[n]? = some x) path xs) :
    path.IsChain edge ↔ xs.IsChain rel := by
  induction labelled with
  | nil => simp
  | @cons n x path xs found rest ih =>
    cases rest with
    | nil => simp
    | cons found' rest =>
      rw [List.isChain_cons_cons, List.isChain_cons_cons, denotes.edge_labels found found', ih]

theorem congr (same : ∀ x y, rel x y ↔ rel' x y) : Denotes labels edge rel' where
  nodup := denotes.nodup
  within related := denotes.within ((same _ _).mpr related)
  edge_iff := by simp only [denotes.edge_iff, same, implies_true]

theorem append (fresh : x ∉ labels) (same : ∀ n m, edge' n m ↔ edge n m) :
    Denotes (labels ++ [x]) edge' rel where
  nodup := by simpa using denotes.nodup.concat fresh
  within related := ⟨List.mem_append_left _ (denotes.within related).1,
    List.mem_append_left _ (denotes.within related).2⟩
  edge_iff := by
    intro n m
    rw [same, denotes.edge_iff]
    constructor
    · rintro ⟨y, z, left, right, related⟩
      exact ⟨y, z, lookup_extend (List.prefix_append _ _) left,
        lookup_extend (List.prefix_append _ _) right, related⟩
    · rintro ⟨y, z, left, right, related⟩
      have old {k : Nat} {w : X} (found : (labels ++ [x])[k]? = some w) (member : w ∈ labels) :
          labels[k]? = some w := by
        rcases List.getElem?_of_mem member with ⟨i, here⟩
        have whole : (labels ++ [x]).Nodup := by simpa using denotes.nodup.concat fresh
        rw [number_unique whole found (lookup_extend (List.prefix_append _ _) here)]
        exact here
      exact ⟨y, z, old left (denotes.within related).1, old right (denotes.within related).2, related⟩

theorem insert (left : labels[n]? = some x) (right : labels[m]? = some y)
    (added : ∀ i j, edge' i j ↔ edge i j ∨ i = n ∧ j = m) :
    Denotes labels edge' (fun a b => rel a b ∨ a = x ∧ b = y) where
  nodup := denotes.nodup
  within := by
    rintro a b (related | ⟨rfl, rfl⟩)
    · exact denotes.within related
    · exact ⟨List.mem_of_getElem? left, List.mem_of_getElem? right⟩
  edge_iff := by
    intro i j
    rw [added, denotes.edge_iff]
    constructor
    · rintro (⟨a, b, first, second, related⟩ | ⟨rfl, rfl⟩)
      · exact ⟨a, b, first, second, .inl related⟩
      · exact ⟨x, y, left, right, .inr ⟨rfl, rfl⟩⟩
    · rintro ⟨a, b, first, second, related | ⟨rfl, rfl⟩⟩
      · exact .inl ⟨a, b, first, second, related⟩
      · exact .inr ⟨number_unique denotes.nodup first left, number_unique denotes.nodup second right⟩

theorem eraseInto (right : labels[m]? = some y) (erased : ∀ i j, edge' i j ↔ edge i j ∧ j ≠ m) :
    Denotes labels edge' (fun a b => rel a b ∧ b ≠ y) where
  nodup := denotes.nodup
  within related := denotes.within related.1
  edge_iff := by
    intro i j
    rw [erased, denotes.edge_iff]
    constructor
    · rintro ⟨⟨a, b, first, second, related⟩, other⟩
      refine ⟨a, b, first, second, related, ?_⟩
      rintro rfl
      exact other (number_unique denotes.nodup second right)
    · rintro ⟨a, b, first, second, related, other⟩
      refine ⟨⟨a, b, first, second, related⟩, ?_⟩
      rintro rfl
      rw [right] at second
      exact other (Option.some.inj second).symm

theorem deadEnd_iff {exit : Nat → Prop} {exit' : X → Prop}
    (same : ∀ {n x}, labels[n]? = some x → (exit n ↔ exit' x)) (found : labels[n]? = some x) :
    DeadEnd edge exit n ↔ DeadEnd rel exit' x := by
  constructor
  · intro dead
    induction dead generalizing x with
    | intro open' _ ih =>
      refine .intro (fun exits => open' ((same found).mpr exits)) fun y related => ?_
      rcases List.getElem?_of_mem (denotes.within related).2 with ⟨m, found'⟩
      exact ih m ((denotes.edge_labels found found').mpr related) found'
  · intro dead
    induction dead generalizing n with
    | intro open' _ ih =>
      refine .intro (fun exits => open' ((same found).mp exits)) fun m step => ?_
      rcases denotes.edge_iff.mp step with ⟨x', y, left, right, related⟩
      rw [found] at left
      cases left
      exact ih y related right

theorem select {kept : List Nat} {live : Nat → Prop} {live' : X → Prop}
    (same : ∀ {n x}, labels[n]? = some x → (live n ↔ live' x))
    (chosen : Denotes kept edge' (fun n m => edge n m ∧ live m))
    (picked : List.Forall₂ (fun n x => labels[n]? = some x) kept (kept.filterMap (labels[·]?))) :
    Denotes (kept.filterMap (labels[·]?)) edge' (fun x y => rel x y ∧ live' y) where
  nodup := chosen.nodup.filterMap fun _ _ _ left right => number_unique denotes.nodup left right
  within := by
    intro x y related
    rcases List.getElem?_of_mem (denotes.within related.1).1 with ⟨n, left⟩
    rcases List.getElem?_of_mem (denotes.within related.1).2 with ⟨m, right⟩
    have members := chosen.within
      ⟨(denotes.edge_labels left right).mpr related.1, (same right).mpr related.2⟩
    exact ⟨List.mem_filterMap.mpr ⟨n, members.1, left⟩, List.mem_filterMap.mpr ⟨m, members.2, right⟩⟩
  edge_iff := by
    intro i j
    rw [chosen.edge_iff]
    constructor
    · rintro ⟨n, m, left, right, step, alive⟩
      rcases lookup_related picked left with ⟨x, here, label⟩
      rcases lookup_related picked right with ⟨y, there, label'⟩
      exact ⟨x, y, here, there, (denotes.edge_labels label label').mp step, (same label').mp alive⟩
    · rintro ⟨x, y, here, there, related, alive⟩
      rcases lookup_related picked.flip here with ⟨n, left, label⟩
      rcases lookup_related picked.flip there with ⟨m, right, label'⟩
      exact ⟨n, m, left, right, (denotes.edge_labels label label').mpr related, (same label').mpr alive⟩

end

end Denotes

end Clou.Labelled
