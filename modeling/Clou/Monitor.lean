import Mathlib.Data.List.AList
import Mathlib.Data.List.Perm.Basic
import Mathlib.Logic.Relation

/-! The job lists of the monitor. Clients connect, report jobs and disconnect in any order; every
handler runs under the monitor's lock. -/

namespace Clou.Monitor

abbrev Owner := Nat
abbrev Pid := UInt32

/-- The serial number, which the monitor does not keep, tells jobs apart. -/
structure Job where
  serial : Nat
  name : String
  pid : Pid
  properties : AList (fun _ : String => String)

/-- The progress is kept as the bits of a float. -/
structure RunningJob extends Job where
  owner : Owner
  frac : UInt32
  step : String

inductive Message where
  | funcStarted (name : String)
  | funcCompleted (name : String)
  | funcProgress (name : String) (frac : UInt32)
  | funcsAnalyzed (funcs : List String)
  | funcStep (name step : String)
  | funcProps (name : String) (properties : List (String × String))
  | messageNotSet

/-- A client has a process number once it has sent its connect packet. -/
structure State where
  nextId : Owner
  clients : AList (fun _ : Owner => Option Pid)
  running : List RunningJob
  completed : List Job
  aborted : List Job
  analyzed : List String
  created : Nat

section

variable (s : State)

/-- Jobs are looked up by process number and name. -/
def RunningJob.is (pid : Pid) (name : String) (job : RunningJob) : Bool :=
  decide (job.pid = pid ∧ job.name = name)

def handleFuncStarted (name : String) (owner : Owner) (pid : Pid) : State :=
  { s with
    running := s.running ++ [⟨⟨s.created, name, pid, ∅⟩, owner, 0, ""⟩]
    created := s.created + 1 }

/-- The first job that fits is completed. -/
def handleFuncCompleted (name : String) (pid : Pid) : State :=
  match s.running.find? (RunningJob.is pid name) with
  | none => s
  | some job =>
    { s with
      running := s.running.eraseP (RunningJob.is pid name)
      completed := s.completed ++ [job.toJob] }

def updateJobs (pid : Pid) (name : String) (update : RunningJob → RunningJob) : State :=
  { s with running := s.running.map fun job => if job.is pid name then update job else job }

def handleFuncProgress (name : String) (frac : UInt32) (pid : Pid) : State :=
  updateJobs s pid name fun job => { job with frac }

def handleFuncStep (name step : String) (pid : Pid) : State :=
  updateJobs s pid name fun job => { job with step }

def handleFuncProperties (name : String) (properties : List (String × String)) (pid : Pid) : State :=
  updateJobs s pid name fun job =>
    { job with properties := properties.foldl (fun map pair => map.insert pair.1 pair.2) job.properties }

def handleFuncsAnalyzed (funcs : List String) : State :=
  { s with analyzed := funcs.foldl (fun set func => set.insert func) s.analyzed }

def runBody (owner : Owner) (pid : Pid) : Message → State
  | .funcStarted name => handleFuncStarted s name owner pid
  | .funcCompleted name => handleFuncCompleted s name pid
  | .funcProgress name frac => handleFuncProgress s name frac pid
  | .funcsAnalyzed funcs => handleFuncsAnalyzed s funcs
  | .funcStep name step => handleFuncStep s name step pid
  | .funcProps name properties => handleFuncProperties s name properties pid
  | .messageNotSet => s

def cleanup (id : Owner) : State :=
  { s with
    clients := s.clients.erase id
    running := s.running.filter fun job => job.owner ≠ id
    aborted := s.aborted ++ (s.running.filter fun job => job.owner = id).map (·.toJob) }

end

inductive Event where
  | accept
  | clientConnect (id : Owner) (pid : Pid)
  | message (id : Owner) (msg : Message)
  | disconnect (id : Owner)
  | display

/-- One critical section. Displaying sorts the lists by times, in an order that may be any. -/
inductive Step : State → Event → State → Prop where
  | accept (s : State) :
      Step s .accept { s with nextId := s.nextId + 1, clients := s.clients.insert s.nextId none }
  | clientConnect (s : State) (id : Owner) (pid : Pid) (waiting : s.clients.lookup id = some none) :
      Step s (.clientConnect id pid) { s with clients := s.clients.insert id (some pid) }
  | message (s : State) (id : Owner) (pid : Pid) (msg : Message)
      (connected : s.clients.lookup id = some (some pid)) : Step s (.message id msg) (runBody s id pid msg)
  | disconnect (s : State) (id : Owner) (present : id ∈ s.clients) : Step s (.disconnect id) (cleanup s id)
  | display (s : State) (running : List RunningJob) (completed : List Job)
      (sorted : running.Perm s.running) (sorted' : completed.Perm s.completed) :
      Step s .display { s with running, completed }

def initial : State := ⟨0, ∅, [], [], [], [], 0⟩

def Reached (s : State) : Prop := Relation.ReflTransGen (fun s s' => ∃ e, Step s e s') initial s

/-! Every job is in one list -/

def serials (s : State) : List Nat :=
  s.running.map (·.serial) ++ (s.completed.map (·.serial) ++ s.aborted.map (·.serial))

def Accounted (s : State) : Prop := (serials s).Perm (List.range s.created)

variable {update : RunningJob → RunningJob}

section

variable {s : State}

variable {pid : Pid} {name : String}

theorem find_split {job : RunningJob} {running : List RunningJob}
    (found : running.find? (RunningJob.is pid name) = some job) :
    ∃ before after, running = before ++ job :: after ∧
      running.eraseP (RunningJob.is pid name) = before ++ after ∧ job.pid = pid ∧ job.name = name := by
  rcases List.find?_eq_some_iff_append.mp found with ⟨fits, before, after, split, others⟩
  refine ⟨before, after, split, ?_, of_decide_eq_true fits⟩
  rw [split, List.eraseP_append_right _ (by simpa using others), List.eraseP_cons_of_pos fits]

theorem serials_updateJobs (same : ∀ job, (update job).serial = job.serial) :
    serials (updateJobs s pid name update) = serials s := by
  have kept : (s.running.map fun job => if job.is pid name then update job else job).map (·.serial) =
      s.running.map (·.serial) := by
    rw [List.map_map]
    apply List.map_congr_left
    intro job _
    change (if job.is pid name then update job else job).serial = job.serial
    split
    · exact same job
    · rfl
  exact congrArg (· ++ _) kept

theorem serials_completed (name : String) (pid : Pid) :
    (serials (handleFuncCompleted s name pid)).Perm (serials s) := by
  unfold handleFuncCompleted
  split
  · exact .refl _
  · rename_i job found
    rcases find_split found with ⟨before, after, parts, erased, -⟩
    rw [List.perm_iff_count]
    intro n
    simp only [serials, erased]
    rw [parts]
    simp only [List.map_append, List.map_cons, List.map_nil, List.count_append, List.count_cons,
      List.count_nil]
    omega

theorem serials_cleanup (id : Owner) : (serials (cleanup s id)).Perm (serials s) := by
  have parts := (List.filter_append_perm (fun job : RunningJob => decide (job.owner = id)) s.running).map
    (·.serial)
  rw [List.perm_iff_count] at parts ⊢
  intro n
  have count := parts n
  simp only [serials, cleanup, List.map_append, List.map_map, List.count_append, Function.comp_def,
    decide_not] at count ⊢
  omega

theorem serials_started (name : String) (owner : Owner) (pid : Pid) :
    (serials (handleFuncStarted s name owner pid)).Perm (serials s ++ [s.created]) := by
  rw [List.perm_iff_count]
  intro n
  simp only [serials, handleFuncStarted, List.map_append, List.map_cons, List.map_nil, List.count_append]
  omega

theorem Accounted.updateJobs (accounted : Accounted s)
    (same : ∀ job, (update job).serial = job.serial) :
    Accounted (updateJobs s pid name update) := by
  unfold Accounted
  rw [serials_updateJobs same]
  exact accounted

theorem handleFuncCompleted_created (name : String) (pid : Pid) :
    (handleFuncCompleted s name pid).created = s.created := by
  unfold handleFuncCompleted
  split <;> rfl

theorem Step.accounted {e : Event} {s' : State} (step : Step s e s') (accounted : Accounted s) :
    Accounted s' := by
  cases step with
  | accept => exact accounted
  | clientConnect => exact accounted
  | message id pid msg =>
    cases msg with
    | funcStarted name =>
      refine (serials_started name id pid).trans ?_
      change (serials s ++ [s.created]).Perm (List.range (s.created + 1))
      rw [List.range_succ]
      exact accounted.append_right [s.created]
    | funcCompleted name =>
      refine (serials_completed name pid).trans ?_
      change (serials s).Perm (List.range (handleFuncCompleted s name pid).created)
      rwa [handleFuncCompleted_created]
    | funcProgress name frac => exact accounted.updateJobs fun _ => rfl
    | funcsAnalyzed funcs => exact accounted
    | funcStep name step => exact accounted.updateJobs fun _ => rfl
    | funcProps name properties => exact accounted.updateJobs fun _ => rfl
    | messageNotSet => exact accounted
  | disconnect id => exact (serials_cleanup id).trans accounted
  | display running completed sorted sorted' =>
    exact (List.Perm.append (sorted.map _) ((sorted'.map _).append_right _)).trans accounted

theorem Reached.accounted (reached : Reached s) : Accounted s := by
  induction reached with
  | refl => exact .refl _
  | tail _ step ih =>
    rcases step with ⟨e, step⟩
    exact step.accounted ih

end

/-! How a job leaves the running jobs -/

/-- A running job that is gone was completed by its client or lost it. -/
def Leaves (s : State) (e : Event) (s' : State) : Prop :=
  ∀ job ∈ s.running, (∀ other ∈ s'.running, other.serial ≠ job.serial) →
    (∃ name, e = .message job.owner (.funcCompleted name)) ∧ (∃ done ∈ s'.completed, done.serial = job.serial) ∨
    e = .disconnect job.owner ∧ ∃ done ∈ s'.aborted, done.serial = job.serial

/-- What a client completes can only be a job of its own. -/
def Unambiguous (s : State) (e : Event) : Prop :=
  ∀ {id pid name}, e = .message id (.funcCompleted name) → s.clients.lookup id = some (some pid) →
    ∀ job ∈ s.running, job.pid = pid → job.name = name → job.owner = id

section

variable {s s' : State}

variable {e : Event}

theorem leaves_of_kept (kept : ∀ job ∈ s.running, ∃ other ∈ s'.running, other.serial = job.serial) :
    Leaves s e s' := by
  intro job member gone
  rcases kept job member with ⟨other, there, same⟩
  exact absurd same (gone other there)

theorem leaves_updateJobs {pid : Pid} {name : String}
    (same : ∀ job, (update job).serial = job.serial) :
    Leaves s e (updateJobs s pid name update) := by
  apply leaves_of_kept
  intro job member
  refine ⟨_, List.mem_map_of_mem member, ?_⟩
  split
  · exact same job
  · rfl

theorem leaves_completed {id : Owner} {name : String} {pid : Pid}
    (connected : s.clients.lookup id = some (some pid))
    (unambiguous : Unambiguous s (.message id (.funcCompleted name))) :
    Leaves s (.message id (.funcCompleted name)) (handleFuncCompleted s name pid) := by
  unfold handleFuncCompleted
  split
  · exact leaves_of_kept fun job member => ⟨job, member, rfl⟩
  · rename_i job found
    rcases find_split found with ⟨before, after, parts, erased, hasPid, hasName⟩
    intro other member gone
    rw [erased] at gone
    rw [parts, List.mem_append, List.mem_cons] at member
    rcases member with early | rfl | late
    · exact absurd rfl (gone other (List.mem_append_left after early))
    · have own := unambiguous rfl connected other (List.mem_of_find?_eq_some found) hasPid hasName
      exact .inl ⟨⟨name, by rw [own]⟩, other.toJob, List.mem_append_right _ (List.mem_singleton_self _), rfl⟩
    · exact absurd rfl (gone other (List.mem_append_right before late))

theorem leaves_cleanup (id : Owner) : Leaves s (.disconnect id) (cleanup s id) := by
  intro job member gone
  by_cases own : job.owner = id
  · refine .inr ⟨by rw [own], job.toJob, List.mem_append_right _ (List.mem_map_of_mem ?_), rfl⟩
    exact List.mem_filter.mpr ⟨member, decide_eq_true own⟩
  · exact absurd rfl (gone job (List.mem_filter.mpr ⟨member, decide_eq_true own⟩))

theorem Step.leaves (step : Step s e s') (unambiguous : Unambiguous s e) : Leaves s e s' := by
  cases step with
  | accept => exact leaves_of_kept fun job member => ⟨job, member, rfl⟩
  | clientConnect => exact leaves_of_kept fun job member => ⟨job, member, rfl⟩
  | message id pid msg connected =>
    cases msg with
    | funcStarted name =>
      exact leaves_of_kept fun job member => ⟨job, List.mem_append_left _ member, rfl⟩
    | funcCompleted name => exact leaves_completed connected unambiguous
    | funcProgress name frac => exact leaves_updateJobs fun _ => rfl
    | funcsAnalyzed funcs => exact leaves_of_kept fun job member => ⟨job, member, rfl⟩
    | funcStep name step => exact leaves_updateJobs fun _ => rfl
    | funcProps name properties => exact leaves_updateJobs fun _ => rfl
    | messageNotSet => exact leaves_of_kept fun job member => ⟨job, member, rfl⟩
  | disconnect id => exact leaves_cleanup id
  | display running completed sorted sorted' =>
    exact leaves_of_kept fun job member => ⟨job, sorted.mem_iff.mpr member, rfl⟩

/-- If jobs of two clients fit, the one of the other client may come first. -/
theorem unambiguous_of_leaves (accounted : Accounted s)
    (leaves : ∀ s₁ s₂, Step s .display s₁ → Step s₁ e s₂ → Leaves s₁ e s₂) : Unambiguous s e := by
  intro id pid name same connected job member hasPid hasName
  subst same
  rcases List.append_of_mem member with ⟨before, after, parts⟩
  let s₁ : State := { s with running := job :: (before ++ after) }
  have sorted : (job :: (before ++ after)).Perm s.running := by
    rw [parts]
    exact List.perm_middle.symm
  have fits : job.is pid name = true := decide_eq_true ⟨hasPid, hasName⟩
  have handled : handleFuncCompleted s₁ name pid =
      { s₁ with running := before ++ after, completed := s₁.completed ++ [job.toJob] } := by
    simp only [handleFuncCompleted, s₁, List.find?_cons_of_pos fits, List.eraseP_cons_of_pos fits]
  have nodup : (job :: (before ++ after)).map (·.serial) |>.Nodup := by
    have all : (serials s).Nodup := accounted.nodup_iff.mpr List.nodup_range
    exact ((sorted.map _).nodup_iff.mpr (List.nodup_append'.mp all).1)
  have gone : ∀ other ∈ (handleFuncCompleted s₁ name pid).running, other.serial ≠ job.serial := by
    rw [handled]
    intro other there equal
    exact (List.nodup_cons.mp nodup).1 (List.mem_map.mpr ⟨other, there, equal⟩)
  rcases leaves s₁ _ (.display s _ _ sorted (.refl _)) (.message s₁ id pid _ connected) job
    List.mem_cons_self gone with ⟨⟨_, own⟩, -⟩ | ⟨own, -⟩
  · cases own
    rfl
  · cases own

/-- Every job is in one list at all times; and whatever the order in which running jobs are sorted, a
job leaves them through its own client only, exactly if no job of another client fits a completion. -/
theorem jobs_accounted (reached : Reached s) : Accounted s ∧
    ∀ e, (∀ s₁ s₂, Step s .display s₁ → Step s₁ e s₂ → Leaves s₁ e s₂) ↔ Unambiguous s e := by
  refine ⟨reached.accounted, fun e => ⟨unambiguous_of_leaves reached.accounted, ?_⟩⟩
  intro unambiguous s₁ s₂ display step
  apply step.leaves
  cases display with
  | display running completed sorted sorted' =>
    intro id pid name same connected job member
    exact unambiguous same connected job (sorted.mem_iff.mp member)

def twins : State :=
  ⟨2, AList.insert 1 (some 7) (AList.insert 0 (some 7) ∅),
    [⟨⟨0, "f", 7, ∅⟩, 0, 0, ""⟩, ⟨⟨1, "f", 7, ∅⟩, 1, 0, ""⟩], [], [], [], 2⟩

theorem twins_reached : Reached twins := by
  have one : Reached { initial with nextId := 1, clients := AList.insert 0 none ∅ } :=
    .single ⟨_, .accept initial⟩
  have two := one.tail ⟨_, .clientConnect _ 0 7 rfl⟩
  have three := two.tail ⟨_, .accept _⟩
  have four := three.tail ⟨_, .clientConnect _ 1 7 rfl⟩
  have five := four.tail ⟨_, .message _ 0 7 (.funcStarted "f") rfl⟩
  have six := five.tail ⟨_, .message _ 1 7 (.funcStarted "f") rfl⟩
  exact six

theorem twins_accounted : Accounted twins ∧
    ∀ e, (∀ s₁ s₂, Step twins .display s₁ → Step s₁ e s₂ → Leaves s₁ e s₂) ↔ Unambiguous twins e :=
  jobs_accounted twins_reached

/-- The job of the first client is completed by the second. -/
theorem twins_completed : ∃ s', Reached twins ∧ Step twins (.message 1 (.funcCompleted "f")) s' ∧
    s'.running.map (·.owner) = [1] ∧ s'.completed.map (·.serial) = [0] ∧
    ¬ Leaves twins (.message 1 (.funcCompleted "f")) s' := by
  refine ⟨_, twins_reached, .message twins 1 7 (.funcCompleted "f") rfl, by decide, by decide, ?_⟩
  intro leaves
  rcases leaves _ List.mem_cons_self (by decide) with ⟨⟨_, own⟩, -⟩ | ⟨own, -⟩
  · cases own
  · cases own

end

end Clou.Monitor
