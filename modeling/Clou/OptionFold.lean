import Mathlib.Data.List.Basic

/-! Folds of functions that may fail. -/

namespace Clou

variable {A S : Type}

/-- A fold whose steps only test their element fails exactly when one test fails. -/
theorem foldlM_guard (p : A → Prop) [DecidablePred p] (f : S → A → S) (l : List A) (s : S) :
    l.foldlM (fun s a => if p a then some (f s a) else none) s =
      if ∀ a ∈ l, p a then some (l.foldl f s) else none := by
  induction l generalizing s with
  | nil => simp
  | cons a l ih =>
    by_cases holds : p a
    · simp [holds, ih]
    · simp [holds]

variable {s t : S} {f : S → A → Option S} {l : List A} {a : A}

theorem foldlM_cons_eq_some :
    (a :: l).foldlM f s = some t ↔ ∃ r, f s a = some r ∧ l.foldlM f r = some t := by
  rw [List.foldlM_cons, Option.bind_eq_bind, Option.bind_eq_some_iff]

theorem foldlM_append_eq_some {l' : List A} :
    (l ++ l').foldlM f s = some t ↔ ∃ r, l.foldlM f s = some r ∧ l'.foldlM f r = some t := by
  rw [List.foldlM_append, Option.bind_eq_bind, Option.bind_eq_some_iff]

theorem foldlM_snoc_eq_some :
    (l ++ [a]).foldlM f s = some t ↔ ∃ r, l.foldlM f s = some r ∧ f r a = some t := by
  simp [Option.bind_eq_some_iff]

/-- A computation gives a value with a property, unless it fails for the one reason allowed. -/
def Yields (failure : Prop) (o : Option A) (post : A → Prop) : Prop :=
  (o = none ∧ failure) ∨ ∃ a, o = some a ∧ post a

variable {motive : S → Prop}

namespace Yields

variable {B : Type} {failure : Prop} {o : Option A} {mid post : A → Prop}

theorem of_some {a : A} (holds : post a) : Yields failure (some a) post := .inr ⟨a, rfl, holds⟩

theorem mono (yields : Yields failure o mid) (weaker : ∀ a, mid a → post a) :
    Yields failure o post :=
  yields.imp_right fun ⟨a, found, holds⟩ => ⟨a, found, weaker a holds⟩

theorem bind {next : A → Option B} {post : B → Prop} (yields : Yields failure o mid)
    (then' : ∀ a, mid a → Yields failure (next a) post) : Yields failure (o >>= next) post := by
  rcases yields with ⟨none, broken⟩ | ⟨a, found, holds⟩
  · exact .inl ⟨by rw [none]; rfl, broken⟩
  · rw [found]
    exact then' a holds

theorem map {f : A → B} {post : B → Prop} (yields : Yields failure o fun a => post (f a)) :
    Yields failure (o.map f) post := by
  rcases yields with ⟨none, broken⟩ | ⟨a, found, holds⟩
  · exact .inl ⟨by rw [none]; rfl, broken⟩
  · rw [found]
    exact of_some holds

theorem result (yields : Yields failure o post) {a : A} (found : o = some a) : post a := by
  rcases yields with ⟨none, -⟩ | ⟨b, found', holds⟩
  · rw [none] at found
    cases found
  · rw [found'] at found
    cases found
    exact holds

theorem of_result (each : ∀ {a}, o = some a → post a) : Yields True o post := by
  cases found : o with
  | none => exact .inl ⟨rfl, trivial⟩
  | some a => exact of_some (each found)

theorem total (yields : Yields False o post) : ∃ a, o = some a ∧ post a := by
  rcases yields with ⟨-, broken⟩ | gives
  · exact broken.elim
  · exact gives

/-- What holds of the elements passed so far holds of all of them after the fold. -/
theorem foldlM {motive : List A → S → Prop}
    (step : ∀ {done a rest s}, l = done ++ a :: rest → motive done s →
      Yields failure (f s a) (motive (done ++ [a]))) (initial : motive [] s) :
    Yields failure (l.foldlM f s) (motive l) := by
  have run (rest done : List A) (s : S) (split : l = done ++ rest) (holds : motive done s) :
      Yields failure (rest.foldlM f s) (motive l) := by
    induction rest generalizing done s with
    | nil =>
      rw [split, List.append_nil]
      exact of_some holds
    | cons a rest ih =>
      rw [List.foldlM_cons]
      exact (step split holds).bind fun next after => ih (done ++ [a]) next (by simp [split]) after
  exact run l [] s rfl initial

/-- Every element has its turn, which leaves those alone that wait for theirs and those that have
had it. -/
theorem turns {apart : A → A → Prop} (waits had : S → A → Prop) (distinct : l.Pairwise apart)
    (turn : ∀ {a s}, a ∈ l → motive s → waits s a → Yields failure (f s a) fun t => motive t ∧ had t
      a ∧ ∀ b ∈ l, (apart a b → waits s b → waits t b) ∧ (apart b a → had s b → had t b))
    (initial : motive s) (all : ∀ a ∈ l, waits s a) :
    Yields failure (l.foldlM f s) fun t => motive t ∧ ∀ a ∈ l, had t a := by
  have passes : Yields failure (l.foldlM f s) fun t => motive t ∧ (∀ a ∈ l, had t a) ∧
      ∀ rest, l = l ++ rest → ∀ a ∈ rest, waits t a := by
    apply foldlM (motive := fun done t => motive t ∧ (∀ a ∈ done, had t a) ∧
      ∀ rest, l = done ++ rest → ∀ a ∈ rest, waits t a)
    · intro done a rest s split before
      obtain ⟨holds, hadTurn, waiting⟩ := before
      have member : a ∈ l := by simp [split]
      rw [split, List.pairwise_append, List.pairwise_cons] at distinct
      obtain ⟨-, ⟨later, -⟩, earlier⟩ := distinct
      refine (turn member holds (waiting _ split a List.mem_cons_self)).mono fun t after => ?_
      obtain ⟨next, here, others⟩ := after
      refine ⟨next, fun b listed => ?_, fun rest' split' b listed => ?_⟩
      · rcases List.mem_append.mp listed with passed | last
        · exact (others b (by simp [split, passed])).2 (earlier b passed a List.mem_cons_self)
            (hadTurn b passed)
        · exact List.mem_singleton.mp last ▸ here
      · obtain rfl : rest = rest' := by simpa [split] using split'
        exact (others b (by simp [split, listed])).1 (later b listed)
          (waiting _ split b (List.mem_cons_of_mem a listed))
    · refine ⟨initial, nofun, fun rest split => ?_⟩
      rw [List.nil_append] at split
      exact split ▸ all
  exact passes.mono fun t after => ⟨after.1, after.2.1⟩

end Yields

theorem foldlM_invariant (step : ∀ {s t} a, a ∈ l → motive s → f s a = some t → motive t)
    (initial : motive s) (folded : l.foldlM f s = some t) : motive t := by
  have kept : Yields True (l.foldlM f s) motive :=
    Yields.foldlM (motive := fun _ => motive)
      (fun split holds => .of_result (step _ (by simp [split]) holds)) initial
  exact kept.result folded

theorem foldlM_passed {motive : List A → S → Prop}
    (step : ∀ {done a rest s t}, l = done ++ a :: rest → motive done s → f s a = some t →
      motive (done ++ [a]) t) (initial : motive [] s) (folded : l.foldlM f s = some t) :
    motive l t := by
  have kept : Yields True (l.foldlM f s) (motive l) :=
    Yields.foldlM (fun split holds => .of_result (step split holds)) initial
  exact kept.result folded

variable {B : Type} {g : B → A → Option B}

/-- Two folds over one list that both succeed keep what every pair of steps keeps. -/
theorem foldlM_related {motive : List A → S → B → Prop} {b c : B}
    (step : ∀ {done a s t b c}, a ∈ l → motive done s b → f s a = some t → g b a = some c → motive
      (done ++ [a]) t c) (initial : motive [] s b) (left : l.foldlM f s = some t)
    (right : l.foldlM g b = some c) : motive l t c := by
  have run (rest done : List A) (s : S) (b : B) (inside : rest ⊆ l) (holds : motive done s b)
      (left : rest.foldlM f s = some t) (right : rest.foldlM g b = some c) : motive (done ++ rest) t c := by
    induction rest generalizing done s b with
    | nil =>
      cases left
      cases right
      simpa using holds
    | cons a rest ih =>
      obtain ⟨s', first, left⟩ := foldlM_cons_eq_some.mp left
      obtain ⟨b', first', right⟩ := foldlM_cons_eq_some.mp right
      have after := step (inside List.mem_cons_self) holds first first'
      simpa using ih (done ++ [a]) s' b' (fun _ later => inside (List.mem_cons_of_mem a later)) after left right
  exact run l [] s b (List.Subset.refl l) initial left right

/-- A fold succeeds when another one does that it can follow step by step. -/
theorem foldlM_simulates {motive : S → B → Prop} {b : B}
    (step : ∀ {s t b} a, a ∈ l → motive s b → f s a = some t → ∃ c, g b a = some c ∧ motive t c)
    (initial : motive s b) (folded : l.foldlM f s = some t) :
    ∃ c, l.foldlM g b = some c ∧ motive t c := by
  induction l generalizing s b with
  | nil =>
    cases folded
    exact ⟨b, rfl, initial⟩
  | cons a l ih =>
    obtain ⟨r, first, rest⟩ := foldlM_cons_eq_some.mp folded
    obtain ⟨b', first', after⟩ := step a List.mem_cons_self initial first
    obtain ⟨c, rest', holds⟩ := ih (fun a later => step a (List.mem_cons_of_mem _ later)) after rest
    exact ⟨c, foldlM_cons_eq_some.mpr ⟨b', first', rest'⟩, holds⟩

theorem exists_foldlM_keeping (every : ∀ s, motive s → ∀ a ∈ l, ∃ t, f s a = some t ∧ motive t)
    (initial : motive s) : ∃ t, l.foldlM f s = some t ∧ motive t := by
  have kept : Yields False (l.foldlM f s) motive :=
    Yields.foldlM (motive := fun _ => motive)
      (fun split holds => .inr (every _ holds _ (by simp [split]))) initial
  exact kept.total

theorem exists_foldlM (every : ∀ s, ∀ a ∈ l, ∃ t, f s a = some t) (s : S) :
    ∃ t, l.foldlM f s = some t := by
  obtain ⟨t, folded, _⟩ := exists_foldlM_keeping (motive := fun _ => True) (l := l) (s := s)
    (fun s _ a member => (every s a member).imp fun _ step => ⟨step, trivial⟩) trivial
  exact ⟨t, folded⟩

theorem mapM_eq_some {f : A → Option B} {g : A → B} (every : ∀ a ∈ l, f a = some (g a)) :
    l.mapM f = some (l.map g) := by
  induction l with
  | nil => rfl
  | cons a l ih =>
    rw [List.mapM_cons, every a List.mem_cons_self, ih fun b later => every b (List.mem_cons_of_mem a later)]
    rfl

def collect {B : Type} (f : A → Option (List B)) : List A → Option (List B)
  | [] => some []
  | a :: l => do
    let part ← f a
    let rest ← collect f l
    some (part ++ rest)

variable {result : List B}

theorem collect_cons_eq_some {f : A → Option (List B)} : collect f (a :: l) = some result ↔
      ∃ part rest, f a = some part ∧ collect f l = some rest ∧ part ++ rest = result := by
  simp [collect, Option.bind_eq_some_iff]

theorem exists_collect {f : A → Option (List B)} (every : ∀ a ∈ l, ∃ part, f a = some part) :
    ∃ result, collect f l = some result := by
  induction l with
  | nil => exact ⟨[], rfl⟩
  | cons a l ih =>
    rcases List.forall_mem_cons.mp every with ⟨⟨part, first⟩, later⟩
    rcases ih later with ⟨rest, collected⟩
    exact ⟨part ++ rest, collect_cons_eq_some.mpr ⟨part, rest, first, collected, rfl⟩⟩

theorem exists_of_collect {f : A → Option (List B)} (collected : collect f l = some result)
    (member : a ∈ l) : ∃ part, f a = some part := by
  induction l generalizing result with
  | nil => cases member
  | cons first l ih =>
    rcases collect_cons_eq_some.mp collected with ⟨part, rest, here, later, -⟩
    rcases List.mem_cons.mp member with same | member
    · exact ⟨part, same ▸ here⟩
    · exact ih later member

theorem mem_collect {f : A → Option (List B)} (collected : collect f l = some result) {b : B} :
    b ∈ result ↔ ∃ a ∈ l, ∃ part, f a = some part ∧ b ∈ part := by
  induction l generalizing result with
  | nil =>
    cases collected
    simp
  | cons a l ih =>
    rcases collect_cons_eq_some.mp collected with ⟨part, rest, first, later, rfl⟩
    rw [List.mem_append, ih later, List.exists_mem_cons_iff, first]
    simp

end Clou
