import Mathlib.Data.Finset.Basic
import Mathlib.Data.List.AList

/-! Finite maps whose values are finite sets, with the two ways of joining such maps:
`unite` joins the sets of a common key, `merge` keeps the set of the first map. -/

namespace Clou

abbrev SetMap (K A : Type) := AList (fun _ : K => Finset A)

namespace SetMap

variable {K A : Type}

theorem entries_eq_nil_iff (map : SetMap K A) : map.entries = [] ↔ ∀ key, key ∉ map := by
  constructor
  · intro empty key member
    have := AList.mem_keys.mp member
    simp [AList.keys, empty] at this
  · intro absent
    apply List.eq_nil_iff_forall_not_mem.mpr
    intro entry present
    exact absent entry.1 (AList.mem_keys.mpr (List.mem_keys_of_mem present))

variable [DecidableEq K]

def get (map : SetMap K A) (key : K) : Finset A := (AList.lookup key map).getD ∅

def merge (map other : SetMap K A) : SetMap K A := map ∪ other

@[simp] theorem get_empty (key : K) : get (∅ : SetMap K A) key = ∅ := by
  simp [get]

theorem get_of_notMem {map : SetMap K A} {key : K} (absent : key ∉ map) : get map key = ∅ := by
  simp [get, AList.lookup_eq_none.mpr absent]

theorem mem_get_iff (map : SetMap K A) (key : K) (a : A) :
    a ∈ get map key ↔ ∃ set, ⟨key, set⟩ ∈ map.entries ∧ a ∈ set := by
  simp only [← AList.mem_lookup_iff, get]
  cases AList.lookup key map <;> simp

@[simp] theorem mem_merge (map other : SetMap K A) (key : K) :
    key ∈ merge map other ↔ key ∈ map ∨ key ∈ other :=
  AList.mem_union

/-- Merging loses what the second map holds under a key of the first. -/
theorem mem_get_merge (map other : SetMap K A) (key : K) (a : A) :
    a ∈ get (merge map other) key ↔ a ∈ get map key ∨ key ∉ map ∧ a ∈ get other key := by
  by_cases present : key ∈ map
  · simp [get, merge, AList.lookup_union_left present, present]
  · simp [get, merge, AList.lookup_union_right present, present, AList.lookup_eq_none.mpr present]

variable [DecidableEq A]

def add (map : SetMap K A) (key : K) (set : Finset A) : SetMap K A :=
  AList.insert key (get map key ∪ set) map

def unite (map other : SetMap K A) : SetMap K A :=
  other.entries.foldl (fun map entry => add map entry.1 entry.2) map

@[simp] theorem mem_add (map : SetMap K A) (key other : K) (set : Finset A) :
    other ∈ add map key set ↔ other = key ∨ other ∈ map := by
  simp [add]

theorem mem_get_add (map : SetMap K A) (key other : K) (set : Finset A) (a : A) :
    a ∈ get (add map key set) other ↔ a ∈ get map other ∨ other = key ∧ a ∈ set := by
  by_cases same : other = key
  · subst same
    simp [get, add]
  · simp [get, add, AList.lookup_insert_ne same, same]

private theorem mem_foldl_add (entries : List (Sigma fun _ : K => Finset A)) (map : SetMap K A)
    (key : K) : key ∈ entries.foldl (fun map entry => add map entry.1 entry.2) map ↔
      key ∈ map ∨ key ∈ entries.keys := by
  induction entries generalizing map with
  | nil => simp
  | cons entry entries ih =>
    rw [List.foldl_cons, ih, mem_add, List.keys_cons, List.mem_cons]
    tauto

private theorem mem_get_foldl_add (entries : List (Sigma fun _ : K => Finset A))
    (map : SetMap K A) (key : K) (a : A) :
    a ∈ get (entries.foldl (fun map entry => add map entry.1 entry.2) map) key ↔
      a ∈ get map key ∨ ∃ set, ⟨key, set⟩ ∈ entries ∧ a ∈ set := by
  induction entries generalizing map with
  | nil => simp
  | cons entry entries ih =>
    rw [List.foldl_cons, ih, mem_get_add, or_assoc]
    apply or_congr_right
    constructor
    · rintro (⟨rfl, member⟩ | ⟨set, present, member⟩)
      · exact ⟨entry.2, List.mem_cons_self, member⟩
      · exact ⟨set, List.mem_cons_of_mem _ present, member⟩
    · rintro ⟨set, present, member⟩
      rcases List.mem_cons.mp present with rfl | later
      · exact .inl ⟨rfl, member⟩
      · exact .inr ⟨set, later, member⟩

@[simp] theorem mem_unite (map other : SetMap K A) (key : K) :
    key ∈ unite map other ↔ key ∈ map ∨ key ∈ other :=
  mem_foldl_add other.entries map key

theorem mem_get_unite (map other : SetMap K A) (key : K) (a : A) :
    a ∈ get (unite map other) key ↔ a ∈ get map key ∨ a ∈ get other key := by
  rw [unite, mem_get_foldl_add, mem_get_iff other]

end SetMap

end Clou
