import Mathlib.Data.List.AList

/-! Lookups in finite maps. -/

namespace Clou.FiniteMap

variable {K A : Type} [DecidableEq K]

variable {map : AList (fun _ : K => A)} {key : K} {value : A}

theorem exists_of_mem (present : key ∈ map) : ∃ value, map.lookup key = some value :=
  Option.isSome_iff_exists.mp (AList.lookup_isSome.mpr present)

theorem lookup_insert (map : AList (fun _ : K => A)) (key other : K) (value : A) :
    (map.insert key value).lookup other = if other = key then some value else map.lookup other := by
  by_cases same : other = key
  · subst same
    simp
  · simp [same, AList.lookup_insert_ne same]

theorem lookup_union (map other : AList (fun _ : K => A)) (key : K) :
    (map ∪ other).lookup key = (map.lookup key).or (other.lookup key) := by
  by_cases present : key ∈ map
  · rw [AList.lookup_union_left present]
    rcases exists_of_mem present with ⟨value, found⟩
    simp [found]
  · simp [AList.lookup_union_right present, AList.lookup_eq_none.mpr present]

theorem mem_of_lookup (found : map.lookup key = some value) : key ∈ map :=
  AList.lookup_isSome.mp (by simp [found])

theorem lookup_foldl_insert (keys : List K) (value : A) (map : AList (fun _ : K => A)) (key : K) :
    (keys.foldl (fun map key => map.insert key value) map).lookup key =
      if key ∈ keys then some value else map.lookup key := by
  induction keys generalizing map with
  | nil => simp
  | cons first keys ih =>
    rw [List.foldl_cons, ih, lookup_insert]
    by_cases later : key ∈ keys
    · simp [later]
    · simp [later]

/-- Emplacing leaves an entry that is already there alone. -/
def emplace (map : AList (fun _ : K => A)) (key : K) (value : A) : AList (fun _ : K => A) :=
  if key ∈ map then map else map.insert key value

def emplaceAll (map : AList (fun _ : K => A)) (pairs : List (K × A)) : AList (fun _ : K => A) :=
  pairs.foldl (fun map pair => emplace map pair.1 pair.2) map

theorem emplace_of_not_mem (absent : key ∉ map) (value : A) :
    emplace map key value = map.insert key value :=
  if_neg absent

theorem lookup_emplace (map : AList (fun _ : K => A)) (key other : K) (value : A) :
    (emplace map key value).lookup other =
      (map.lookup other).or (if other = key then some value else none) := by
  unfold emplace
  split
  · rename_i present
    split
    · rename_i same
      rcases exists_of_mem (same ▸ present) with ⟨old, found⟩
      rw [found, Option.some_or]
    · rw [Option.or_none]
  · rename_i absent
    rw [lookup_insert]
    split
    · rename_i same
      rw [same, AList.lookup_eq_none.mpr absent, Option.none_or]
    · rw [Option.or_none]

theorem emplaceAll_append (map : AList (fun _ : K => A)) (pairs more : List (K × A)) :
    emplaceAll map (pairs ++ more) = emplaceAll (emplaceAll map pairs) more :=
  List.foldl_append

/-- The first pair with a key counts, unless the map has the key already. -/
theorem lookup_emplaceAll_or (map : AList (fun _ : K => A)) (pairs : List (K × A)) (key : K) :
    (emplaceAll map pairs).lookup key = (map.lookup key).or (pairs.lookup key) := by
  induction pairs generalizing map with
  | nil => simp [emplaceAll]
  | cons pair pairs ih =>
    change (emplaceAll (emplace map pair.1 pair.2) pairs).lookup key = _
    rw [ih, lookup_emplace, Option.or_assoc, List.lookup_cons]
    by_cases same : key = pair.1
    · simp [same]
    · simp [same, beq_false_of_ne same]

variable {pairs : List (K × A)}

theorem mem_of_lookup_pairs (found : pairs.lookup key = some value) : (key, value) ∈ pairs := by
  rcases List.lookup_eq_some_iff.mp found with ⟨before, after, rfl, -⟩
  exact List.mem_append_right before List.mem_cons_self

theorem lookup_emplaceAll
    (known : ∀ {key value}, map.lookup key = some value → ∀ {other}, (key, other) ∈ pairs → other =
      value)
    (functional : ∀ {key value other}, (key, value) ∈ pairs → (key, other) ∈ pairs → other = value) :
    (emplaceAll map pairs).lookup key = some value ↔ map.lookup key = some value ∨ (key, value) ∈ pairs := by
  rw [lookup_emplaceAll_or, Option.or_eq_some_iff]
  constructor
  · rintro (old | ⟨-, new⟩)
    · exact .inl old
    · exact .inr (mem_of_lookup_pairs new)
  · rintro (old | member)
    · exact .inl old
    · cases old : map.lookup key with
      | some _ => exact .inl (congrArg some (known old member).symm)
      | none =>
        cases first : pairs.lookup key with
        | some _ => exact .inr ⟨rfl, congrArg some (functional member (mem_of_lookup_pairs first))⟩
        | none => simpa using List.lookup_eq_none_iff.mp first _ member

section

variable {K' A' : Type} [DecidableEq K'] {f : K → K'} {g : A → A'}

theorem lookup_map (injective : Function.Injective f) (pairs : List (K × A)) (key : K) :
    (pairs.map fun pair => (f pair.1, g pair.2)).lookup (f key) = (pairs.lookup key).map g := by
  induction pairs with
  | nil => rfl
  | cons pair pairs ih =>
    rw [List.map_cons, List.lookup_cons, List.lookup_cons, ih]
    by_cases same : key = pair.1
    · simp [same]
    · simp [beq_false_of_ne same, beq_false_of_ne fun eq => same (injective eq)]

theorem exists_of_lookup_map (injective : Function.Injective f) {key : K'} {value : A'}
    (found : (pairs.map fun pair => (f pair.1, g pair.2)).lookup key = some value) :
    ∃ old was, key = f old ∧ value = g was ∧ pairs.lookup old = some was := by
  rcases List.mem_map.mp (mem_of_lookup_pairs found) with ⟨pair, -, same⟩
  obtain rfl : f pair.1 = key := congrArg Prod.fst same
  rw [lookup_map injective, Option.map_eq_some_iff] at found
  rcases found with ⟨was, found, rfl⟩
  exact ⟨pair.1, was, rfl, rfl, found⟩

end

end Clou.FiniteMap
