import Mathlib.Data.List.Induction

/-! Facts that events turn on and off, read from the sequence of the events so far. -/

namespace Clou.History

variable {E : Type}

/-- An event that turns the fact on occurred, and none that turns it off came after it. -/
def Since (on off : E → Prop) (events : List E) : Prop :=
  ∃ before event after, events = before ++ event :: after ∧ on event ∧ ∀ later ∈ after, ¬ off later

/-- Each event is allowed after those before it. -/
def Legal (allowed : List E → E → Prop) (events : List E) : Prop :=
  ∀ before event after, events = before ++ event :: after → allowed before event

variable {events : List E} {last : E}

theorem snoc_eq_append_cons {before after : List E} {event : E} :
    events ++ [last] = before ++ event :: after ↔
      (before = events ∧ event = last ∧ after = []) ∨
        ∃ middle, after = middle ++ [last] ∧ events = before ++ event :: middle := by
  induction after using List.reverseRecOn with
  | nil =>
    rw [List.append_singleton_inj, eq_comm, eq_comm (a := last)]
    simp
  | append_singleton middle other _ =>
    rw [← List.cons_append, ← List.append_assoc, List.append_singleton_inj]
    constructor
    · intro split
      exact .inr ⟨middle, by rw [split.2], split.1⟩
    · intro split
      rcases split with ⟨_, _, empty⟩ | ⟨rest, same, earlier⟩
      · simp at empty
      · rw [List.append_singleton_inj] at same
        exact ⟨same.1 ▸ earlier, same.2.symm⟩

variable {on off : E → Prop} {allowed : List E → E → Prop}

@[simp] theorem not_since_nil : ¬ Since on off [] := by
  intro since
  obtain ⟨before, event, after, split, _⟩ := since
  simp at split

@[simp] theorem since_snoc :
    Since on off (events ++ [last]) ↔ on last ∨ Since on off events ∧ ¬ off last := by
  simp only [Since, snoc_eq_append_cons]
  constructor
  · intro since
    obtain ⟨before, event, after, split, holds, kept⟩ := since
    rcases split with ⟨_, same, _⟩ | ⟨middle, rest, earlier⟩
    · exact .inl (same ▸ holds)
    · subst rest
      have later (other : E) (member : other ∈ middle) : ¬ off other :=
        kept other (List.mem_append_left _ member)
      exact .inr ⟨⟨before, event, middle, earlier, holds, later⟩, kept last (by simp)⟩
  · intro since
    rcases since with now | ⟨⟨before, event, after, split, holds, kept⟩, still⟩
    · exact ⟨events, last, [], .inl ⟨rfl, rfl, rfl⟩, now, by simp⟩
    · refine ⟨before, event, after ++ [last], .inr ⟨after, rfl, split⟩, holds, ?_⟩
      intro other member
      rcases List.mem_append.mp member with old | new
      · exact kept other old
      · rw [List.mem_singleton.mp new]
        exact still

theorem since_self (occurs : ∃ event ∈ events, on event) : Since on on events := by
  induction events using List.reverseRecOn with
  | nil => simp at occurs
  | append_singleton events last ih =>
    rw [since_snoc]
    by_cases now : on last
    · exact .inl now
    · obtain ⟨event, member, holds⟩ := occurs
      rcases List.mem_append.mp member with old | new
      · exact .inr ⟨ih ⟨event, old, holds⟩, now⟩
      · exact absurd (List.mem_singleton.mp new ▸ holds) now

@[simp] theorem legal_nil : Legal allowed [] := by
  intro before event after split
  simp at split

@[simp] theorem legal_snoc :
    Legal allowed (events ++ [last]) ↔ Legal allowed events ∧ allowed events last := by
  simp only [Legal, snoc_eq_append_cons]
  constructor
  · intro legal
    exact ⟨fun before event after split => legal before event (after ++ [last]) (.inr ⟨after, rfl, split⟩),
      legal events last [] (.inl ⟨rfl, rfl, rfl⟩)⟩
  · intro legal before event after split
    rcases split with ⟨all, same, _⟩ | ⟨middle, _, earlier⟩
    · subst all same
      exact legal.2
    · exact legal.1 before event middle earlier

end Clou.History
