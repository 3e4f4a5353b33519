import Clou.Dataflow
import Clou.FiniteMap

/-! The two passes of a round over graphs whose components have no instruction in common. -/

namespace Clou.Dataflow

open FiniteMap

variable {V : Type} {M : Module} {f : FuncRef} {G : Graph V}

/-- The components of a graph are parts of the function that have no instruction in common. -/
structure Graph.Separate (M : Module) (f : FuncRef) (G : Graph V) : Prop where
  entry_mem : ∀ {c}, c ∈ G.components → c.entry ∈ c.insts
  insts_mem : ∀ {c}, c ∈ G.components → ∀ I ∈ c.insts, I ∈ M.insts f
  exits_mem : ∀ {c}, c ∈ G.components → ∀ X ∈ c.exits, X ∈ c.insts
  disjoint : ∀ {c d I}, c ∈ G.components → d ∈ G.components → I ∈ c.insts → I ∈ d.insts → c = d

namespace Graph.Separate

variable {c d : Component V}

section

variable (separate : G.Separate M f)

include separate

theorem same_entry (member : c ∈ G.components) (other : d ∈ G.components) (same : c.entry = d.entry) :
    c = d :=
  separate.disjoint member other (separate.entry_mem member) (same ▸ separate.entry_mem other)

/-- Different components have no instruction and no exit in common. -/
theorem apart (member : c ∈ G.components) (other : d ∈ G.components) (different : c.entry ≠ d.entry) :
    (∀ {I}, I ∈ d.insts → I ∉ c.insts) ∧ ∀ {X}, X ∈ d.exits → X ∉ c.exits := by
  have insts {I : InstRef} (inside : I ∈ d.insts) : I ∉ c.insts := fun here =>
    different (congrArg Component.entry (separate.disjoint member other here inside))
  exact ⟨insts, fun exit here =>
    insts (separate.exits_mem other _ exit) (separate.exits_mem member _ here)⟩

theorem inner (member : c ∈ G.components) {I : InstRef} (inside : I ∈ c.insts) (inner : I ≠ c.entry)
    (other : d ∈ G.components) : d.entry ≠ I := by
  intro same
  subst same
  have equal := separate.disjoint other member (separate.entry_mem other) inside
  exact inner (congrArg Component.entry equal)

theorem entry_insts (member : c ∈ G.components) : c.entry ∈ G.insts :=
  List.mem_flatMap.mpr ⟨c, member, separate.entry_mem member⟩

theorem mem_order : c ∈ G.order M f ↔ c ∈ G.components := by
  simp only [Graph.order, List.mem_filterMap]
  constructor
  · intro listed
    obtain ⟨I, -, found⟩ := listed
    exact List.mem_of_find?_eq_some found
  · intro member
    refine ⟨c.entry, separate.insts_mem member _ (separate.entry_mem member), ?_⟩
    cases found : G.components.find? (fun component => component.entry = c.entry) with
    | none => simpa using List.find?_eq_none.mp found c member
    | some d =>
      have same : d.entry = c.entry := by simpa using List.find?_some found
      rw [separate.same_entry (List.mem_of_find?_eq_some found) member same]

end

end Graph.Separate

theorem order_distinct (G : Graph V) :
    (G.order M f).Pairwise (fun c d => c.entry ≠ d.entry) := by
  apply List.pairwise_filterMap.mpr
  apply (M.nodup_insts f).imp
  intro I J different c foundC d foundD same
  have entryC : c.entry = I := by simpa using List.find?_some foundC
  have entryD : d.entry = J := by simpa using List.find?_some foundD
  exact different (entryC.symm.trans (same.trans entryD))

/-- One round of meets: every component entry gets a value that is good there, and nothing else
changes. An entry that the round has passed already may be met again. -/
theorem meetOnce_yields {ctx : Context V} {failure : Prop} {ins exits : Map V}
    (good : InstRef → V → Prop)
    (each : ∀ {c before}, c ∈ G.components →
      (∀ d ∈ G.components, before.lookup d.entry = ins.lookup d.entry ∨
        ∃ a, before.lookup d.entry = some a ∧ good d.entry a) →
      Yields failure (G.meetAt ctx M f before exits c.entry) (good c.entry)) :
    Yields failure (G.meetOnce ctx M f ins exits) fun ins' =>
      (∀ {I}, (∀ c ∈ G.components, c.entry ≠ I) → ins'.lookup I = ins.lookup I) ∧
        ∀ c ∈ G.components, ∃ a, ins'.lookup c.entry = some a ∧ good c.entry a := by
  apply Yields.foldlM (motive := fun (done : List (Component V)) (now : Map V) =>
    (∀ {I}, (∀ c ∈ done, c.entry ≠ I) → now.lookup I = ins.lookup I) ∧
      ∀ c ∈ done, ∃ a, now.lookup c.entry = some a ∧ good c.entry a)
  · intro done c rest before split passed
    obtain ⟨frame, met⟩ := passed
    have reached (d : Component V) : before.lookup d.entry = ins.lookup d.entry ∨
        ∃ a, before.lookup d.entry = some a ∧ good d.entry a := by
      by_cases earlier : ∃ e ∈ done, e.entry = d.entry
      · obtain ⟨e, listed, same⟩ := earlier
        exact .inr (same ▸ met e listed)
      · exact .inl (frame fun e listed same => earlier ⟨e, listed, same⟩)
    refine ((each (by simp [split]) fun d _ => reached d).mono fun a here => ?_).map
    refine ⟨fun {I} outside => ?_, fun d listed => ?_⟩
    · rw [lookup_insert, if_neg (outside c (by simp)).symm]
      exact frame fun d earlier => outside d (List.mem_append_left _ earlier)
    · rw [lookup_insert]
      by_cases same : d.entry = c.entry
      · exact ⟨a, if_pos same, same ▸ here⟩
      · rw [if_neg same]
        rcases List.mem_append.mp listed with earlier | last
        · exact met d earlier
        · exact absurd (congrArg Component.entry (List.mem_singleton.mp last)) same
  · exact ⟨fun _ => rfl, nofun⟩

end Clou.Dataflow
