import Mathlib.Data.List.Basic

/-! Backtracking searches that assert facts in the nested scopes of a solver, and rules for
reasoning about them. -/

namespace Clou.Backtrack

inductive CheckResult where
  | sat
  | unsat
  | unknown
  deriving DecidableEq, Repr

/-- How a search ends: by running to its end, by one of two exceptions, or with the program. -/
inductive Outcome where
  | done
  | found
  | next
  | aborted
  deriving DecidableEq, Repr

structure State (E A : Type) where
  asserted : List E
  events : List A
  checks : Nat

abbrev Search (E A : Type) := State E A → Outcome × State E A

/-- The solver's answer may depend on whether it has a time limit and on the call. -/
abbrev Oracle (E : Type) := Bool → Nat → List E → CheckResult

variable {E A : Type}

def skip : Search E A := fun s => (.done, s)

def throw (outcome : Outcome) : Search E A := fun s => (outcome, s)

def add (facts : List E) : Search E A := fun s =>
  (.done, { s with asserted := s.asserted ++ facts })

def emit (event : A) : Search E A := fun s => (.done, { s with events := s.events ++ [event] })

def seq (first second : Search E A) : Search E A := fun s =>
  match first s with
  | (.done, t) => second t
  | ended => ended

/-- A scope is closed however the search inside it ends. -/
def inScope (inner : Search E A) : Search E A := fun s =>
  ((inner s).1, { (inner s).2 with asserted := s.asserted })

theorem seq_done {first second : Search E A} {s : State E A}
    (ends : (seq first second s).1 = .done) :
    (first s).1 = .done ∧ seq first second s = second (first s).2 := by
  unfold seq at ends ⊢
  cases run : first s with
  | mk outcome t =>
    rw [run] at ends
    cases outcome with
    | done => exact ⟨rfl, rfl⟩
    | found => cases ends
    | next => cases ends
    | aborted => cases ends

def ask (oracle : Oracle E) (limit : Bool) (answer : CheckResult → Search E A) : Search E A := fun s =>
  answer (oracle limit s.checks s.asserted) { s with checks := s.checks + 1 }

/-- The rest is run only if the trial ends by the exception that says so. -/
def ifFound (trial rest : Search E A) : Search E A := fun s =>
  match trial s with
  | (.found, t) => rest t
  | ended => ended

def catchNext (inner : Search E A) : Search E A := fun s =>
  match inner s with
  | (.next, t) => (.done, t)
  | ended => ended

theorem catchNext_eq {inner : Search E A} (never : ∀ s, (inner s).1 ≠ .next) :
    catchNext inner = inner := by
  funext s
  unfold catchNext
  split
  · rename_i t run
    exact absurd (congrArg Prod.fst run) (never s)
  · rfl

/-! Pre- and postconditions -/

variable {answer : CheckResult → Search E A} {outcome : Outcome} {oracle : Oracle E} {limit : Bool}

section

/-- From states with `P`, the events only grow, `J` holds however the search ends, and `Q`
holds if it runs to its end. -/
def Triple (J P : State E A → Prop) (m : Search E A) (Q : State E A → Prop) : Prop :=
  ∀ s, P s → s.events <+: (m s).2.events ∧ J (m s).2 ∧ ((m s).1 = .done → Q (m s).2)

variable {J P Q R : State E A → Prop} {m n : Search E A}

theorem Triple.skip (safe : ∀ {s}, P s → J s) : Triple J P skip P :=
  fun _ holds => ⟨List.prefix_refl _, safe holds, fun _ => holds⟩

theorem Triple.throw (safe : ∀ {s}, P s → J s) (ended : outcome ≠ .done) :
    Triple J P (throw outcome) Q :=
  fun _ holds => ⟨List.prefix_refl _, safe holds, fun done => absurd done ended⟩

theorem Triple.add {facts : List E} (safe : ∀ {s : State E A}, P s →
      J { s with asserted := s.asserted ++ facts } ∧ Q { s with asserted := s.asserted ++ facts }) :
    Triple J P (add facts) Q :=
  fun _ holds => ⟨List.prefix_refl _, (safe holds).1, fun _ => (safe holds).2⟩

theorem Triple.emit {event : A} (safe : ∀ {s : State E A}, P s →
      J { s with events := s.events ++ [event] } ∧ Q { s with events := s.events ++ [event] }) :
    Triple J P (emit event) Q :=
  fun _ holds => ⟨List.prefix_append _ _, (safe holds).1, fun _ => (safe holds).2⟩

theorem Triple.seq (first : Triple J P m R) (second : Triple J R n Q) :
    Triple J P (seq m n) Q := by
  intro s holds
  rcases first s holds with ⟨grows, safe, middle⟩
  unfold Backtrack.seq
  cases run : m s with
  | mk outcome t =>
    rw [run] at grows safe middle
    cases outcome with
    | done =>
      rcases second t (middle rfl) with ⟨grows', safe', after⟩
      exact ⟨grows.trans grows', safe', after⟩
    | found => exact ⟨grows, safe, by simp⟩
    | next => exact ⟨grows, safe, by simp⟩
    | aborted => exact ⟨grows, safe, by simp⟩

theorem Triple.inScope (inner : Triple J P m R)
    (closed : ∀ {s t : State E A}, P s → s.events <+: t.events → J t →
      J { t with asserted := s.asserted } ∧ Q { t with asserted := s.asserted }) :
    Triple J P (inScope m) Q := by
  intro s holds
  rcases inner s holds with ⟨grows, safe, -⟩
  exact ⟨grows, (closed holds grows safe).1, fun _ => (closed holds grows safe).2⟩

theorem Triple.ask (stable : ∀ {s : State E A}, P s → P { s with checks := s.checks + 1 })
    (each : ∀ result, Triple J P (answer result) Q) : Triple J P (ask oracle limit answer) Q :=
  fun s holds => each (oracle limit s.checks s.asserted) _ (stable holds)

/-- A trial that leaves the state alone decides only whether the rest is run. -/
theorem Triple.ifFound {trial rest : Search E A} (quiet : ∀ s, (trial s).2 = s)
    (safe : ∀ {s}, P s → J s) (unfound : ∀ {s}, P s → Q s) (after : Triple J P rest Q) :
    Triple J P (ifFound trial rest) Q := by
  intro s holds
  unfold Backtrack.ifFound
  have same := quiet s
  cases run : trial s with
  | mk outcome t =>
    rw [run] at same
    subst same
    cases outcome with
    | found => exact after _ holds
    | done => exact ⟨List.prefix_refl _, safe holds, fun _ => unfound holds⟩
    | next => exact ⟨List.prefix_refl _, safe holds, by simp⟩
    | aborted => exact ⟨List.prefix_refl _, safe holds, by simp⟩

theorem Triple.weaken {P' Q' : State E A → Prop} (run : Triple J P m Q)
    (before : ∀ {s}, P' s → P s) (after : ∀ {s}, Q s → Q' s) : Triple J P' m Q' := by
  intro s holds
  rcases run s (before holds) with ⟨grows, safe, ends⟩
  exact ⟨grows, safe, fun done => after (ends done)⟩

end

/-! Searches that only decide how they end -/

section

def Quiet (m : Search E A) : Prop := ∃ outcome, ∀ s, m s = (outcome, s)

def Ends (m : Search E A) : Prop := ∃ s, (m s).1 = .done

variable {m n : Search E A}

theorem quiet_skip : Quiet (skip : Search E A) := ⟨.done, fun _ => rfl⟩

theorem quiet_throw (outcome : Outcome) : Quiet (throw outcome : Search E A) :=
  ⟨outcome, fun _ => rfl⟩

theorem Quiet.state (quiet : Quiet m) (s : State E A) : (m s).2 = s := by
  rcases quiet with ⟨outcome, run⟩
  rw [run]

theorem Quiet.seq (first : Quiet m) (second : Quiet n) : Quiet (seq m n) := by
  rcases first with ⟨outcome, run⟩
  rcases second with ⟨outcome', run'⟩
  cases outcome with
  | done => exact ⟨outcome', fun s => by simp [Backtrack.seq, run, run']⟩
  | found => exact ⟨.found, fun s => by simp [Backtrack.seq, run]⟩
  | next => exact ⟨.next, fun s => by simp [Backtrack.seq, run]⟩
  | aborted => exact ⟨.aborted, fun s => by simp [Backtrack.seq, run]⟩

theorem ends_seq (first : Quiet m) (ends : Ends (seq m n)) : Ends m ∧ Ends n := by
  rcases first with ⟨outcome, run⟩
  rcases ends with ⟨s, done⟩
  simp only [seq, run] at done
  cases outcome with
  | done => exact ⟨⟨s, by rw [run]⟩, ⟨s, done⟩⟩
  | found => cases done
  | next => cases done
  | aborted => cases done

theorem not_ends_throw (ended : outcome ≠ .done) : ¬ Ends (throw outcome : Search E A) := by
  rintro ⟨s, done⟩
  exact ended done

end

/-! Searches that put out nothing of interest -/

section

variable {L : Type} (mark : A → Option L)

def State.marked (s : State E A) : List L := s.events.filterMap mark

def Silent (m : Search E A) : Prop := ∀ s, (m s).2.marked mark = s.marked mark

variable {mark} {m n : Search E A}

theorem silent_skip : Silent mark (skip : Search E A) := fun _ => rfl

theorem silent_throw (outcome : Outcome) : Silent mark (throw outcome : Search E A) := fun _ => rfl

theorem silent_add (facts : List E) : Silent mark (add facts : Search E A) := fun _ => rfl

theorem silent_emit {event : A} (unmarked : mark event = none) :
    Silent mark (emit event : Search E A) := by
  intro s
  simp [emit, State.marked, unmarked]

theorem Silent.seq (first : Silent mark m) (second : Silent mark n) : Silent mark (seq m n) := by
  intro s
  have same := first s
  unfold Backtrack.seq
  cases run : m s with
  | mk outcome t =>
    rw [run] at same
    cases outcome with
    | done => exact (second t).trans same
    | found => exact same
    | next => exact same
    | aborted => exact same

theorem Silent.inScope (inner : Silent mark m) : Silent mark (inScope m) := fun s => inner s

theorem Silent.ask (each : ∀ result, Silent mark (answer result)) :
    Silent mark (ask oracle limit answer) :=
  fun s => each (oracle limit s.checks s.asserted) _

theorem Silent.ifFound (trial : Quiet m) (rest : Silent mark n) : Silent mark (ifFound m n) := by
  intro s
  rcases trial with ⟨outcome, run⟩
  cases outcome with
  | found => simpa [Backtrack.ifFound, run] using rest s
  | done => simp [Backtrack.ifFound, run]
  | next => simp [Backtrack.ifFound, run]
  | aborted => simp [Backtrack.ifFound, run]

end

/-! How searches can end -/

section

def EndsIn (allowed : Outcome → Prop) (m : Search E A) : Prop := ∀ s, allowed (m s).1

variable {allowed : Outcome → Prop} {m n : Search E A}

theorem endsIn_throw (this : allowed outcome) :
    EndsIn allowed (throw outcome : Search E A) := fun _ => this

theorem endsIn_skip (normal : allowed .done) : EndsIn allowed (skip : Search E A) := fun _ => normal

theorem endsIn_add (normal : allowed .done) (facts : List E) :
    EndsIn allowed (add facts : Search E A) := fun _ => normal

theorem endsIn_emit (normal : allowed .done) (event : A) :
    EndsIn allowed (emit event : Search E A) := fun _ => normal

theorem EndsIn.seq (first : EndsIn allowed m) (second : EndsIn allowed n) :
    EndsIn allowed (seq m n) := by
  intro s
  have ended := first s
  unfold Backtrack.seq
  cases run : m s with
  | mk outcome t =>
    rw [run] at ended
    cases outcome with
    | done => exact second t
    | found => exact ended
    | next => exact ended
    | aborted => exact ended

theorem EndsIn.inScope (inner : EndsIn allowed m) : EndsIn allowed (inScope m) := fun s => inner s

theorem EndsIn.ask
    (each : ∀ result, (∃ calls facts, oracle limit calls facts = result) → EndsIn allowed (answer
      result)) : EndsIn allowed (ask oracle limit answer) :=
  fun _ => each _ ⟨_, _, rfl⟩ _

theorem EndsIn.ifFound {caught : Outcome → Prop} (trial : EndsIn caught m)
    (uncaught : ∀ {outcome}, caught outcome → outcome ≠ .found → allowed outcome)
    (rest : EndsIn allowed n) : EndsIn allowed (ifFound m n) := by
  intro s
  have ended := trial s
  unfold Backtrack.ifFound
  cases run : m s with
  | mk outcome t =>
    rw [run] at ended
    cases outcome with
    | found => exact rest t
    | done => exact uncaught ended Outcome.noConfusion
    | next => exact uncaught ended Outcome.noConfusion
    | aborted => exact uncaught ended Outcome.noConfusion

end

/-! Searches that agree on what they put out -/

section

variable {L : Type} (mark : A → Option L)

def Same (s t : State E A) : Prop := s.asserted = t.asserted ∧ s.marked mark = t.marked mark

structure Agree (Q : State E A → State E A → Prop) (m n : Search E A) : Prop where
  after : ∀ s t, Same mark s t → (m s).1 = .done → (n t).1 = .done → Q (m s).2 (n t).2

abbrev Alike (m n : Search E A) : Prop := Agree mark (fun s t => s.marked mark = t.marked mark) m n

/-- The solver's answer does not depend on how often it has been asked. -/
def Oracle.Steady (oracle : Oracle E) : Prop :=
  ∀ limit calls calls' facts, oracle limit calls facts = oracle limit calls' facts

variable {mark} {Q : State E A → State E A → Prop} {m n m' n' : Search E A}

theorem Agree.alike (agree : Agree mark (Same mark) m n) : Alike mark m n :=
  ⟨fun s t same ends ends' => (agree.after s t same ends ends').2⟩

theorem agree_skip : Agree mark (Same mark) (skip : Search E A) skip := ⟨fun _ _ same _ _ => same⟩

theorem agree_throw (ended : outcome ≠ .done) : Agree mark Q (throw outcome) n :=
  ⟨fun _ _ _ ends _ => absurd ends ended⟩

theorem agree_add (facts : List E) : Agree mark (Same mark) (add facts) (add facts) :=
  ⟨fun _ _ same _ _ => ⟨congrArg (· ++ facts) same.1, same.2⟩⟩

theorem agree_emit (event : A) : Agree mark (Same mark) (emit event : Search E A) (emit event) := by
  constructor
  intro s t same _ _
  refine ⟨same.1, ?_⟩
  change (s.events ++ [event]).filterMap mark = (t.events ++ [event]).filterMap mark
  rw [List.filterMap_append, List.filterMap_append]
  exact congrArg (· ++ _) same.2

theorem Agree.seq (first : Agree mark (Same mark) m m') (second : Agree mark Q n n') :
    Agree mark Q (seq m n) (seq m' n') := by
  constructor
  intro s t same ends ends'
  rcases seq_done ends with ⟨middle, run⟩
  rcases seq_done ends' with ⟨middle', run'⟩
  rw [run] at ends ⊢
  rw [run'] at ends' ⊢
  exact second.after _ _ (first.after s t same middle middle') ends ends'

theorem Agree.inScope (inner : Alike mark m n) : Agree mark (Same mark) (inScope m) (inScope n) :=
  ⟨fun s t same ends ends' => ⟨same.1, inner.after s t same ends ends'⟩⟩

theorem Agree.ask (steady : oracle.Steady) {answer answer' : CheckResult → Search E A}
    (each : ∀ result, Agree mark Q (answer result) (answer' result)) :
    Agree mark Q (ask oracle limit answer) (ask oracle limit answer') := by
  constructor
  intro s t same
  have answers : oracle limit t.checks t.asserted = oracle limit s.checks s.asserted := by
    rw [← same.1]
    exact steady _ _ _ _
  simp only [Backtrack.ask, answers]
  exact (each _).after _ _ same

/-- A trial that leaves the state alone can be left out, if nothing is lost where it fails. -/
theorem Agree.ifFound {trial : Search E A} (quiet : Quiet trial)
    (pruned : Ends trial → Agree mark Q skip n) (found : Agree mark Q m n) :
    Agree mark Q (ifFound trial m) n := by
  rcases quiet with ⟨outcome, run⟩
  constructor
  intro s t same ends ends'
  cases outcome with
  | done =>
    have failed : Ends trial := ⟨s, by rw [run]⟩
    simpa [Backtrack.ifFound, run, skip] using (pruned failed).after s t same rfl ends'
  | found =>
    simp only [Backtrack.ifFound, run] at ends ⊢
    exact found.after s t same ends ends'
  | next => simp [Backtrack.ifFound, run] at ends
  | aborted => simp [Backtrack.ifFound, run] at ends

theorem Silent.alike_skip (silent : Silent mark n) : Alike mark skip n :=
  ⟨fun _ t same _ _ => same.2.trans (silent t).symm⟩

theorem Silent.agree_skip (silent : Silent mark n) :
    Agree mark (Same mark) skip (Backtrack.inScope n) :=
  ⟨fun _ t same _ _ => ⟨same.1, same.2.trans (silent t).symm⟩⟩

end

end Clou.Backtrack
