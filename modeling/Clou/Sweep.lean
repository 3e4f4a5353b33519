import Mathlib.Data.List.Nodup
import Clou.OptionFold
import Clou.FiniteMap

/-! Passes over the keys of a finite map that set one entry at a time, each from the entries that the
pass has set before it. -/

namespace Clou.Sweep

variable {K A : Type} [DecidableEq K]

def Sets (key : K) (after : Option A → Prop) (map map' : AList (fun _ : K => A)) : Prop :=
  after (map'.lookup key) ∧ ∀ other ≠ key, map'.lookup other = map.lookup other

variable {map : AList (fun _ : K => A)} {size : Nat} {after : Option A → Prop}

theorem sets_insert {key : K} {value : A} (holds : after (some value)) :
    Sets key after map (map.insert key value) :=
  ⟨by rwa [AList.lookup_insert], fun _ different => AList.lookup_insert_ne different⟩

theorem sets_self {key : K} (holds : after (map.lookup key)) : Sets key after map map :=
  ⟨holds, fun _ _ => rfl⟩

/-- A pass whose step succeeds for a key, once the keys before it are done, succeeds for all keys. -/
theorem foldlM_sets {step : AList (fun _ : K => A) → K → Option (AList (fun _ : K => A))}
    (before after : K → Option A → Prop) {order : List K} (nodup : order.Nodup)
    (each : ∀ {done key rest map}, order = done ++ key :: rest →
      (∀ other ∈ done, after other (map.lookup other)) →
      (∀ other ∉ done, before other (map.lookup other)) →
      ∃ map', step map key = some map' ∧ Sets key (after key) map map')
    (start : ∀ key, before key (map.lookup key)) :
    ∃ map', order.foldlM step map = some map' ∧ (∀ key ∈ order, after key (map'.lookup key)) ∧
      ∀ key ∉ order, before key (map'.lookup key) := by
  -- the keys of a prefix are done, and the others as they were at the start
  have run : ∀ rest done map, order = done ++ rest → (∀ other ∈ done, after other (map.lookup other)) →
      (∀ other ∉ done, before other (map.lookup other)) →
      ∃ map', rest.foldlM step map = some map' ∧ (∀ key ∈ order, after key (map'.lookup key)) ∧
        ∀ key ∉ order, before key (map'.lookup key) := by
    intro rest
    induction rest with
    | nil =>
      intro done map split set unset
      rw [List.append_nil] at split
      exact ⟨map, rfl, split ▸ set, split ▸ unset⟩
    | cons key rest ih =>
      intro done map split set unset
      rcases each split set unset with ⟨next, stepped, here, others⟩
      rw [split] at nodup
      have fresh : key ∉ done := fun member =>
        List.disjoint_of_nodup_append nodup member List.mem_cons_self
      have set' : ∀ other ∈ done ++ [key], after other (next.lookup other) := by
        intro other member
        rcases List.mem_append.mp member with old | new
        · rw [others other (ne_of_mem_of_not_mem old fresh)]
          exact set other old
        · rw [List.mem_singleton.mp new]
          exact here
      have unset' : ∀ other ∉ done ++ [key], before other (next.lookup other) := by
        intro other absent
        rw [List.mem_append, List.mem_singleton, not_or] at absent
        rw [others other absent.2]
        exact unset other absent.1
      rcases ih (done ++ [key]) next (by simp [split]) set' unset' with ⟨map', folded, result⟩
      exact ⟨map', by rw [List.foldlM_cons, stepped]; exact folded, result⟩
  exact run order [] map rfl (fun _ member => absurd member List.not_mem_nil) fun key _ => start key

theorem foldlM_range {S : Type} {step : S → Nat → Option S} {motive : Nat → S → Prop}
    (each : ∀ {n s}, n < size → motive n s → ∃ t, step s n = some t ∧ motive (n + 1) t) {s : S}
    (start : motive 0 s) : ∃ t, (List.range size).foldlM step s = some t ∧ motive size t := by
  induction size with
  | zero => exact ⟨s, rfl, start⟩
  | succ size ih =>
    rcases ih fun bound => each (Nat.lt_succ_of_lt bound) with ⟨r, folded, done⟩
    rcases each (Nat.lt_succ_self size) done with ⟨t, stepped, result⟩
    refine ⟨t, ?_, result⟩
    rw [List.range_succ, List.foldlM_append, folded]
    change (step r size).bind some = some t
    rw [stepped, Option.bind_some]

/-- In a pass by number, what is done are the smaller numbers. -/
theorem mem_done_range {n : Nat} {done rest : List Nat}
    (split : List.range size = done ++ n :: rest) : n < size ∧ ∀ m, m ∈ done ↔ m < n := by
  have whole : size = done.length + (rest.length + 1) := by
    simpa using congrArg List.length split
  have first : done = List.range done.length := by
    have taken := congrArg (List.take done.length) split
    rw [List.take_left, List.take_range, min_eq_left (by omega)] at taken
    exact taken.symm
  have here : n = done.length := by
    have selected := congrArg (fun l => l[done.length]?) split
    simp only [List.getElem?_append_right (Nat.le_refl _), Nat.sub_self, List.getElem?_cons_zero,
      List.getElem?_range (show done.length < size by omega)] at selected
    exact (Option.some.inj selected).symm
  refine ⟨by omega, fun m => ?_⟩
  rw [first, List.mem_range, here]

/-- In a pass against the numbers, what is done are the greater ones. -/
theorem mem_done_range_reverse {n : Nat} {done rest : List Nat}
    (split : (List.range size).reverse = done ++ n :: rest) :
    n < size ∧ ∀ m, m ∈ done ↔ n < m ∧ m < size := by
  have ascending : List.range size = rest.reverse ++ n :: done.reverse := by
    have reversed := congrArg List.reverse split
    simpa using reversed
  rcases mem_done_range ascending with ⟨bound, smaller⟩
  refine ⟨bound, fun m => ?_⟩
  have nodup : (rest.reverse ++ n :: done.reverse).Nodup := ascending ▸ List.nodup_range
  have listed : m < size ↔ m < n ∨ m = n ∨ m ∈ done := by
    rw [← List.mem_range, ascending, List.mem_append, smaller, List.mem_cons, List.mem_reverse]
  have disjoint : m ∈ done → ¬ m < n ∧ m ≠ n := by
    intro member
    have later := List.mem_reverse.mpr member
    constructor
    · intro less
      exact List.disjoint_of_nodup_append nodup ((smaller m).mpr less) (List.mem_cons_of_mem _ later)
    · intro same
      exact (List.nodup_cons.mp (List.nodup_append.mp nodup).2.1).1 (same ▸ later)
  constructor
  · intro member
    have apart := disjoint member
    exact ⟨by omega, listed.mpr (.inr (.inr member))⟩
  · intro bounds
    rcases listed.mp bounds.2 with less | same | member
    · omega
    · omega
    · exact member

end Clou.Sweep
