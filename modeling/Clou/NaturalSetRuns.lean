import Clou.NaturalSet

/-! Runs of operations on several sets, compared with the same operations on finite sets. -/

namespace Clou

namespace NaturalSet

variable {V : Type}

inductive Op (V : Type) where
  | construct (x : V)
  | constructRange (x : V) (values : List Nat)
  | constructCopy (x other : V)
  | constructMove (x other : V)
  | insert (x : V) (value : Nat)
  | insertRange (x : V) (values : List Nat)
  | eraseValue (x : V) (value : Nat)
  | eraseAt (x : V) (value : Nat)
  | clear (x : V)
  | swap (x other : V)
  | copyAssign (x other : V)
  | moveAssign (x other : V)
  | andAssign (x other : V)
  | orAssign (x other : V)

variable (K : KeyType)

structure Observed (store : V → NaturalSet) (A : V → Finset Nat) : Prop where
  shows : ∀ x, Shows K (store x) (A x)
  equal : ∀ x y, (store x).equal (store y) = true ↔ A x = A y

theorem observed_of_represents {K : KeyType} {store : V → NaturalSet} {A : V → Finset Nat}
    (represents : ∀ x, Represents K (store x) (A x)) : Observed K store A :=
  ⟨fun x => (represents x).shows, fun x y => (represents x).equal (represents y)⟩

variable [DecidableEq V]

/-- An operation on the named sets, with the flag that a single insertion returns. The
move constructor copies, since its argument is an lvalue in its body. -/
def step (store : V → NaturalSet) : Op V → Option (Option Bool × (V → NaturalSet))
  | .construct x => some (none, Function.update store x cleared)
  | .constructRange x values =>
    (insertRange K cleared values).map fun s => (none, Function.update store x s)
  | .constructCopy x other => some (none, Function.update store x (store other))
  | .constructMove x other => some (none, Function.update store x (store other))
  | .insert x value =>
    (insert K (store x) value).map fun res => (some res.1.2, Function.update store x res.2)
  | .insertRange x values =>
    (insertRange K (store x) values).map fun s => (none, Function.update store x s)
  | .eraseValue x value =>
    (eraseValue (store x) value).map fun res => (none, Function.update store x res.2)
  | .eraseAt x value =>
    (eraseAt K (store x) (find K (store x) value)).map fun res =>
      (none, Function.update store x res.2)
  | .clear x => some (none, Function.update store x cleared)
  | .swap x other =>
    some (none, Function.update (Function.update store x (store other)) other (store x))
  | .copyAssign x other => some (none, Function.update store x (store other))
  | .moveAssign x other =>
    some (none, Function.update (Function.update store x (store other)) other cleared)
  | .andAssign x other => some (none, Function.update store x (andAssign (store x) (store other)))
  | .orAssign x other => some (none, Function.update store x (orAssign (store x) (store other)))

namespace Spec

def step (A : V → Finset Nat) : Op V → V → Finset Nat
  | .construct x => Function.update A x ∅
  | .constructRange x values => Function.update A x values.toFinset
  | .constructCopy x other => Function.update A x (A other)
  | .constructMove x other => Function.update A x (A other)
  | .insert x value => Function.update A x (Insert.insert value (A x))
  | .insertRange x values => Function.update A x (A x ∪ values.toFinset)
  | .eraseValue x value => Function.update A x ((A x).erase value)
  | .eraseAt x value => Function.update A x ((A x).erase value)
  | .clear x => Function.update A x ∅
  | .swap x other => Function.update (Function.update A x (A other)) other (A x)
  | .copyAssign x other => Function.update A x (A other)
  | .moveAssign x other => Function.update (Function.update A x (A other)) other ∅
  | .andAssign x other => Function.update A x (A x ∩ A other)
  | .orAssign x other => Function.update A x (A x ∪ A other)

def flag (A : V → Finset Nat) : Op V → Option Bool
  | .insert x value => some (decide (value ∉ A x))
  | _ => none

def Allowed (A : V → Finset Nat) : Op V → Prop
  | .constructRange _ values => ∀ value ∈ values, value < K.keys
  | .insert _ value => value < K.keys
  | .insertRange _ values => ∀ value ∈ values, value < K.keys
  | .eraseValue x value => value ∈ A x
  | .eraseAt x value => value ∈ A x
  | _ => True

/-- No single insertion, no insertion of the largest key, and no intersection or union of
more than one element. -/
def Sound (A : V → Finset Nat) : Op V → Prop
  | .insert _ _ => False
  | .constructRange _ values => K.keys - 1 ∉ values
  | .insertRange _ values => K.keys - 1 ∉ values
  | .andAssign x other => (A x ∩ A other).card ≤ 1
  | .orAssign x other => (A x ∪ A other).card ≤ 1
  | _ => True

def Along (condition : (V → Finset Nat) → Op V → Prop) (A : V → Finset Nat) : List (Op V) → Prop
  | [] => True
  | op :: ops => condition A op ∧ Along condition (step A op) ops

end Spec

/-- The operations run to the end, return the right flags, and the sets show the right
elements before and after each. -/
def Refines (store : V → NaturalSet) (A : V → Finset Nat) : List (Op V) → Prop
  | [] => Observed K store A
  | op :: ops => Observed K store A ∧ ∃ store', step K store op = some (Spec.flag A op, store') ∧
      Refines store' (Spec.step A op) ops

variable {K} {store store' : V → NaturalSet} {A : V → Finset Nat}

theorem Refines.observed {ops : List (Op V)} (refines : Refines K store A ops) : Observed K store A := by
  cases ops with
  | nil => exact refines
  | cons op ops => exact refines.1

section

variable (represents : ∀ x, Represents K (store x) (A x))

include represents

theorem represents_update (x : V) {s : NaturalSet} {B : Finset Nat} (changed : Represents K s B)
    (y : V) : Represents K (Function.update store x s y) (Function.update A x B y) := by
  by_cases same : y = x
  · subst same
    simpa using changed
  · simpa [same] using represents y

theorem step_represents {op : Op V} (allowed : Spec.Allowed K A op) (sound : Spec.Sound K A op) :
    ∃ store', step K store op = some (Spec.flag A op, store') ∧
      ∀ x, Represents K (store' x) (Spec.step A op x) := by
  have small {values : List Nat} (keys : ∀ value ∈ values, value < K.keys)
      (other : K.keys - 1 ∉ values) : ∀ value ∈ values, value + 1 < K.keys := by
    intro value member
    have key := keys value member
    have different : value ≠ K.keys - 1 := fun same => other (same ▸ member)
    omega
  cases op with
  | construct x => exact ⟨_, rfl, represents_update represents x (.cleared K)⟩
  | constructRange x values =>
    obtain ⟨s, inserted, represents'⟩ := (Represents.cleared K).insertRange (small allowed sound)
    rw [Finset.empty_union] at represents'
    exact ⟨_, by rw [step, inserted]; rfl, represents_update represents x represents'⟩
  | constructCopy x other => exact ⟨_, rfl, represents_update represents x (represents other)⟩
  | constructMove x other => exact ⟨_, rfl, represents_update represents x (represents other)⟩
  | insert x value => exact sound.elim
  | insertRange x values =>
    obtain ⟨s, inserted, represents'⟩ := (represents x).insertRange (small allowed sound)
    exact ⟨_, by rw [step, inserted]; rfl, represents_update represents x represents'⟩
  | eraseValue x value =>
    obtain ⟨s, erased, represents'⟩ := (represents x).eraseValue allowed
    exact ⟨_, by rw [step, erased]; rfl, represents_update represents x represents'⟩
  | eraseAt x value =>
    obtain ⟨pos, s, erased, represents'⟩ := (represents x).eraseAt allowed
    have here := ((represents x).shows.found value allowed).1
    exact ⟨_, by rw [step, here, erased]; rfl, represents_update represents x represents'⟩
  | clear x => exact ⟨_, rfl, represents_update represents x (.cleared K)⟩
  | swap x other =>
    exact ⟨_, rfl, represents_update (represents_update represents x (represents other)) other
      (represents x)⟩
  | copyAssign x other => exact ⟨_, rfl, represents_update represents x (represents other)⟩
  | moveAssign x other =>
    exact ⟨_, rfl, represents_update (represents_update represents x (represents other)) other
      (.cleared K)⟩
  | andAssign x other =>
    obtain ⟨bits, size, short⟩ := (represents x).andAssign (represents other)
    rw [Nat.min_eq_right sound] at size
    exact ⟨_, rfl, represents_update represents x ⟨bits, size, short⟩⟩
  | orAssign x other =>
    obtain ⟨bits, size, short⟩ := (represents x).orAssign (represents other)
    rw [Nat.min_eq_right sound] at size
    exact ⟨_, rfl, represents_update represents x ⟨bits, size, short⟩⟩

omit represents in
theorem Shows.not_full {s : NaturalSet} {B : Finset Nat} (shown : Shows K s B) {key : Nat}
    (member : key ∈ B) : s.v.length ≠ K.keys := by
  intro full
  have none : B.sort (· ≤ ·) = [] := Option.some.inj (shown.values.symm.trans (values_full full))
  rw [← Finset.mem_sort (· ≤ ·), none] at member
  simp at member

theorem sound_of_step {op : Op V} (allowed : Spec.Allowed K A op)
    (stepped : step K store op = some (Spec.flag A op, store'))
    (observed : Observed K store' (Spec.step A op)) : Spec.Sound K A op := by
  have shown {x : V} {s : NaturalSet} (flag : Option Bool)
      (updated : (flag, Function.update store x s) = (Spec.flag A op, store')) :
      Shows K s (Spec.step A op x) := by
    have here := observed.shows x
    rw [← (Prod.mk.inj updated).2, Function.update_self] at here
    exact here
  -- a recomputed size is right only for at most one element
  have bounded {s : NaturalSet} {B : Finset Nat} (size : s.size = min 1 B.card)
      (right : s.size = B.card) : B.card ≤ 1 := by
    omega
  cases op with
  | insert x value =>
    by_cases small : value + 1 < K.keys
    · obtain ⟨s, inserted, _⟩ := (represents x).insert small
      rw [step, inserted] at stepped
      simp [Spec.flag] at stepped
    · have key : value < K.keys := allowed
      obtain ⟨⟨result, s⟩, inserted, updated⟩ := Option.map_eq_some_iff.mp stepped
      rw [show value = K.keys - 1 by omega] at inserted
      obtain ⟨full, _⟩ := insert_largest (represents x).short inserted
      have member : value ∈ Spec.step A (.insert x value) x := by simp [Spec.step]
      exact (shown _ updated).not_full member full
  | constructRange x values =>
    intro largest
    obtain ⟨s, inserted, updated⟩ := Option.map_eq_some_iff.mp stepped
    obtain ⟨full, _⟩ := insertRange_largest (.cleared K) allowed largest inserted
    have member : K.keys - 1 ∈ Spec.step A (.constructRange x values) x := by
      simp [Spec.step, largest]
    exact (shown _ updated).not_full member full
  | insertRange x values =>
    intro largest
    obtain ⟨s, inserted, updated⟩ := Option.map_eq_some_iff.mp stepped
    obtain ⟨full, _⟩ := insertRange_largest (represents x) allowed largest inserted
    have member : K.keys - 1 ∈ Spec.step A (.insertRange x values) x := by
      simp [Spec.step, largest]
    exact (shown _ updated).not_full member full
  | andAssign x other =>
    obtain ⟨_, size, _⟩ := (represents x).andAssign (represents other)
    have right := (shown _ (Option.some.inj stepped)).size
    rw [Spec.step, Function.update_self] at right
    exact bounded size right
  | orAssign x other =>
    obtain ⟨_, size, _⟩ := (represents x).orAssign (represents other)
    have right := (shown _ (Option.some.inj stepped)).size
    rw [Spec.step, Function.update_self] at right
    exact bounded size right
  | _ => trivial

theorem refines_iff_sound {ops : List (Op V)} (allowed : Spec.Along (Spec.Allowed K) A ops) :
    Refines K store A ops ↔ Spec.Along (Spec.Sound K) A ops := by
  induction ops generalizing store A with
  | nil => exact ⟨fun _ => trivial, fun _ => observed_of_represents represents⟩
  | cons op ops ih =>
    constructor
    · intro refines
      obtain ⟨_, store', stepped, rest⟩ := refines
      have sound := sound_of_step represents allowed.1 stepped rest.observed
      obtain ⟨store'', stepped', represents'⟩ := step_represents represents allowed.1 sound
      obtain rfl : store' = store'' :=
        (Prod.mk.inj (Option.some.inj (stepped.symm.trans stepped'))).2
      exact ⟨sound, (ih represents' allowed.2).mp rest⟩
    · intro sound
      obtain ⟨store', stepped, represents'⟩ := step_represents represents allowed.1 sound.1
      exact ⟨observed_of_represents represents, store', stepped,
        (ih represents' allowed.2).mpr sound.2⟩

end

/-- Sets that start empty refine finite sets along a run exactly when the run makes no
single insertion, whose flag is the wrong way round, inserts no largest key, and forms no
intersection or union of more than one element. -/
theorem natural_set_refines_iff (K : KeyType) {ops : List (Op V)}
    (allowed : Spec.Along (Spec.Allowed K) (fun _ => ∅) ops) :
    Refines K (fun _ => cleared) (fun _ => ∅) ops ↔ Spec.Along (Spec.Sound K) (fun _ => ∅) ops :=
  refines_iff_sound (fun _ => .cleared K) allowed

def nodeRefKey : KeyType := ⟨64, Nat.le_refl 64⟩

theorem natural_set_diverges :
    (cleared.insert nodeRefKey 3).map (fun res => res.1.2) = some false ∧
      ¬ Refines nodeRefKey (fun _ : Unit => cleared) (fun _ => ∅) [.insert () 3] ∧
      (cleared.insertRange nodeRefKey [0, 1]).map (fun s => (s.orAssign s).size) = some 1 ∧
      ¬ Refines nodeRefKey (fun _ : Unit => cleared) (fun _ => ∅)
        [.insertRange () [0, 1], .orAssign () ()] := by
  have flagged : Spec.Along (Spec.Allowed nodeRefKey) (fun _ => ∅) [.insert () 3] :=
    ⟨show 3 < nodeRefKey.keys by decide, trivial⟩
  have joined : Spec.Along (Spec.Allowed nodeRefKey) (fun _ => ∅)
      [.insertRange () [0, 1], .orAssign () ()] :=
    ⟨show ∀ value ∈ [0, 1], value < nodeRefKey.keys by decide, trivial, trivial⟩
  refine ⟨by decide, ?_, by decide, ?_⟩
  · rw [refines_iff_sound (fun _ => .cleared nodeRefKey) flagged]
    intro sound
    exact sound.1
  · rw [refines_iff_sound (fun _ => .cleared nodeRefKey) joined]
    intro sound
    have small : ((∅ ∪ [0, 1].toFinset : Finset Nat) ∪ (∅ ∪ [0, 1].toFinset)).card ≤ 1 := sound.2.1
    exact absurd small (by decide)

def overlap : List (Op Bool) :=
  [.insertRange false [0, 2], .constructRange true [2, 5], .andAssign false true, .eraseValue true 5]

theorem natural_set_refines_overlap :
    Spec.Along (Spec.Allowed nodeRefKey) (fun _ => ∅) overlap ∧
      Refines nodeRefKey (fun _ => cleared) (fun _ => ∅) overlap := by
  have allowed : Spec.Along (Spec.Allowed nodeRefKey) (fun _ => ∅) overlap :=
    ⟨show ∀ value ∈ [0, 2], value < nodeRefKey.keys by decide,
      show ∀ value ∈ [2, 5], value < nodeRefKey.keys by decide, trivial,
      show 5 ∈ [2, 5].toFinset by decide, trivial⟩
  refine ⟨allowed, (natural_set_refines_iff nodeRefKey allowed).mpr ?_⟩
  refine ⟨show nodeRefKey.keys - 1 ∉ [0, 2] by decide, show nodeRefKey.keys - 1 ∉ [2, 5] by decide,
    ?_, trivial, trivial⟩
  change ((∅ ∪ [0, 2].toFinset : Finset Nat) ∩ [2, 5].toFinset).card ≤ 1
  decide

end NaturalSet

end Clou
