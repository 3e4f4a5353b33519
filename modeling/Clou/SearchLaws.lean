import Clou.Leakage

/-! What relates two searches for leaks: a relation that the parts of the search keep holds of
the searches made of them, with one lemma for each function. -/

namespace Clou.Leakage

open Z3 Backtrack

variable {V C C' D R R' : Type}

def Config.withLookahead (config : Config) (use : Bool) : Config :=
  { config with useLookahead := use }

/-- Two trials are compared, a trial with a search that is none, or two searches that are none. -/
inductive Pairing where
  | trial
  | cross
  | main

namespace Pairing

def left : Pairing → CheckMode
  | trial => .fast
  | cross => .fast
  | main => .slow

def right : Pairing → CheckMode
  | trial => .fast
  | cross => .slow
  | main => .slow

end Pairing

namespace Step

/-- A step leads back, from its destination to its source. -/
def src : Step V → NodeRef
  | commit src _ _ _ _ => src
  | read load => load
  | source store _ _ _ => store
  | edge src _ _ _ => src

def dst : Step V → NodeRef
  | commit _ dst _ _ _ => dst
  | read load => load
  | source _ load _ _ => load
  | edge _ dst _ _ => dst

/-- How many dependencies are left after the step. -/
def left (todo : Nat) : Step V → Nat
  | commit _ _ _ _ _ => todo - 1
  | _ => todo

end Step

/-- Where two searches are that are compared. -/
structure World (C C' : Type) where
  pairing : Pairing
  chain : C
  chain' : C'
  node : NodeRef
  /-- The number of dependencies that are not committed yet. -/
  todo : Nat
  tracebacks : Nat
  /-- The last lookahead is known to have succeeded. -/
  armed : Bool

namespace World

section

variable (w : World C C')

abbrev mode : CheckMode := w.pairing.left

abbrev mode' : CheckMode := w.pairing.right

def trial (node : NodeRef) : World C C' := { w with pairing := .trial, node := node, armed := true }

def cross : World C C' := { w with pairing := .cross, armed := true }

def keep (known : Bool) : World C C' := { w with armed := known && w.armed }

def arm : World C C' := { w with armed := true }

def deeper : World C C' := { w with tracebacks := w.tracebacks - 1 }

variable (o : Ops V C D R) (o' : Ops V C' Nat R') (step : Step V)

def push : World C C' :=
  { w with
    chain := o.extend w.chain step
    chain' := o'.extend w.chain' step
    node := step.src
    todo := step.left w.todo }

/-- Only the second search has taken the step. -/
def pushCross : World C C' := { w.cross.push o o' step with chain := w.chain }

end

/-- Apart from a trial and the search that it is for, both searches are in the same mode. -/
theorem modes {w : World C C'} (here : w.pairing ≠ .cross) :
    (w.mode = .fast ∧ w.mode' = .fast) ∨ (w.pairing = .main ∧ w.mode = .slow ∧ w.mode' = .slow) := by
  rcases w with ⟨p, _, _, _, _, _, _⟩
  cases p with
  | trial => exact .inl ⟨rfl, rfl⟩
  | cross => exact absurd rfl here
  | main => exact .inr ⟨rfl, rfl, rfl⟩

theorem mode_eq {w : World C C'} (here : w.pairing ≠ .cross) : w.mode' = w.mode := by
  rcases modes here with ⟨fast, fast'⟩ | ⟨-, slow, slow'⟩
  · rw [fast, fast']
  · rw [slow, slow']

/-- Where a search in the second world may visit nodes. -/
structure Below (y w : World C C') : Prop where
  main : y.pairing = .main → w.pairing = .main
  todo : y.todo = w.todo
  tracebacks : y.tracebacks = w.tracebacks
  armed : y.armed = true

theorem Below.trans {w y z : World C C'} (inner : z.Below y) (outer : y.Below w) : z.Below w :=
  ⟨outer.main ∘ inner.main, inner.todo.trans outer.todo, inner.tracebacks.trans outer.tracebacks,
    inner.armed⟩

/-- Where detectors are called. -/
structure Ready (w : World C C') : Prop where
  todo : w.todo = 0
  armed : w.armed = true

end World

abbrev Comparison (C C' R R' : Type) := World C C' → R → R' → Prop

/-- The parts of the search keep `S`, where the visits of nodes that are traced back to, which
may be left out after a trial, are only related by `W`. The index of `S` says whether the last
lookahead is still known to have succeeded. -/
structure Laws (o : Ops V C D R) (o' : Ops V C' Nat R') (level : Nat → D) (G : Graph V)
    (config : Config) (use use' : Bool) (S : Bool → Comparison C C' R R') (W : Comparison C C' R R') :
    Prop where
  weaken : ∀ {w m m'}, S false w m m' → W w m m'
  forget : ∀ {k w m m'}, S true w m m' → S k w m m'
  disarm : ∀ {w m m'}, S false (w.keep false) m m' → S false w m m'
  skip : ∀ {w}, S true w o.skip o'.skip
  seq : ∀ {k l w m m' n n'}, S k w m m' → S l (w.keep k) n n' →
    S (k && l) w (o.seq m n) (o'.seq m' n')
  after : ∀ {w m m' n n'}, S true w m m' → W w n n' → W w (o.seq m n) (o'.seq m' n')
  step : ∀ {w m m'} (step : Step V), step.dst = w.node → W (w.push o o' step) m m' →
    S false w (o.inStep G w.mode step m) (o'.inStep G w.mode' step m')
  unlessUnsat : ∀ {k w m m'}, S k w m m' →
    S k w (o.unlessUnsat w.mode m) (o'.unlessUnsat w.mode' m')
  unlessLast : ∀ {w m m'}, (w.tracebacks ≠ 0 → S false w m m') →
    S false w (o.unlessLast (level w.tracebacks) m) (o'.unlessLast w.tracebacks m')
  deeper : ∀ {w m m'}, w.tracebacks ≠ 0 → S false w.deeper m m' →
    S false w (o.deeper m) (o'.deeper m')
  lookahead : ∀ {w t t'} (m : CheckMode → R) (m' : CheckMode → R'), W (w.trial w.node) t t' →
    W w.cross t (m' .slow) → W w.arm (m w.mode) (m' w.mode') →
    W w (o.lookahead (config.withLookahead use) w.mode t (m w.mode))
      (o'.lookahead (config.withLookahead use') w.mode' t' (m' w.mode'))
  lookaheadStep : ∀ {w t t'} (step : Step V) (m : CheckMode → R) (m' : CheckMode → R'),
    step.dst = w.node → W (w.trial step.src) t t' → W (w.pushCross o o' step) t (m' .slow) →
    W (w.arm.push o o' step) (m w.mode) (m' w.mode') →
    S false w (o.lookahead (config.withLookahead use) w.mode t (o.inStep G w.mode step (m w.mode)))
      (o'.lookahead (config.withLookahead use') w.mode' t' (o'.inStep G w.mode' step (m' w.mode')))

def Visits (W : Comparison C C' R R') (w : World C C') (func : Visit C R) (func' : Visit C' R') :
    Prop :=
  ∀ y : World C C', y.Below w → W y (func y.chain y.node y.mode) (func' y.chain' y.node y.mode')

/-- The nodes on the way of the two searches; trials have the last one twice. -/
structure Met (w : World C C') (vec vec' : List NodeRef) : Prop where
  head : vec.head? = vec'.head?
  last : vec.getLast? = some w.node
  last' : vec'.getLast? = some w.node
  same : w.pairing = .main → vec = vec'

/-- Searches from a node that are related if they begin with the same transmitter. -/
def Recs (W : Comparison C C' R R') (todo tracebacks : Nat) (rec : Rec C R) (rec' : Rec C' R') :
    Prop :=
  ∀ (w : World C C') {vec vec'}, w.todo = todo → w.tracebacks = tracebacks →
    (vec ++ [w.node]).head? = (vec' ++ [w.node]).head? → (w.pairing = .main → vec = vec') →
    W w (rec w.chain vec w.node w.mode) (rec' w.chain' vec' w.node w.mode')

section

variable (o : Ops V C D R) (o' : Ops V C' Nat R') (level : Nat → D) (G : Graph V) (config : Config)
  (use use' : Bool) (S : Bool → Comparison C C' R R') (W : Comparison C C' R R')

/-- Calls of detectors that are related if the nodes on the way end with the same one. -/
def Calls (callback : Callback C D R) (callback' : Callback C' Nat R') : Prop :=
  ∀ (w : World C C') {vec vec'}, w.Ready → vec.getLastD G.entry = w.node →
    vec'.getLastD G.entry = w.node → (w.pairing = .main → vec = vec') →
    S false w (callback (level w.tracebacks) w.chain vec w.mode)
      (callback' w.tracebacks w.chain' vec' w.mode')

/-- That the detector is called is put on record. -/
def Records : Prop :=
  ∀ (w : World C C') {vec vec' m m'}, (w.pairing = .main → vec = vec') → S false w m m' →
    S false w (if w.mode = .slow then o.call (level w.tracebacks) w.chain vec m else m)
      (if w.mode' = .slow then o'.call w.tracebacks w.chain' vec' m' else m')

/-- Nodes on the way of which the searches are related if those from the next nodes are. -/
def Bodies (callback : Callback C D R) (callback' : Callback C' Nat R') : Prop :=
  ∀ {w vec vec' deps rest rest' again again'}, w.todo = deps.length → w.armed = true →
    Met w vec vec' → (deps ≠ [] → Recs W (deps.length - 1) w.tracebacks rest rest') →
    (w.tracebacks ≠ 0 → Recs W deps.length (w.tracebacks - 1) again again') →
    W w
      (o.depsBody G (config.withLookahead use) callback (level w.tracebacks) deps rest again w.chain
        vec w.node w.mode)
      (o'.depsBody G (config.withLookahead use') callback' w.tracebacks deps rest' again' w.chain'
        vec' w.node w.mode')

end

namespace Laws

variable {o : Ops V C D R} {o' : Ops V C' Nat R'} {level : Nat → D} {G : Graph V} {config : Config}
  {use use' : Bool} {S : Bool → Comparison C C' R R'} {W : Comparison C C' R R'} {w : World C C'}
  {vec vec' : List NodeRef} {func : Visit C R} {func' : Visit C' R'}

section

variable (laws : Laws o o' level G config use use' S W)

include laws

/-- What is known after the first part is known after both. -/
theorem steady {k : Bool} {m n : R} {m' n' : R'} (first : S true w m m') (second : S k w n n') :
    S k w (o.seq m n) (o'.seq m' n') :=
  laws.seq first second

theorem append {m n : R} {m' n' : R'} (first : S false w m m')
    (second : S false (w.keep false) n n') :
    S false w (o.seq m n) (o'.seq m' n') :=
  laws.seq first second

theorem guard {k : Bool} {condition : Prop} [Decidable condition] {m : R} {m' : R'}
    (related : S k w m m') :
    S k w (if condition then m else o.skip) (if condition then m' else o'.skip) := by
  split
  · exact related
  · exact laws.forget laws.skip

theorem forEach {k : Bool} {B : Type} {list : List B} {body : B → R} {body' : B → R'}
    (each : ∀ b, S k (w.keep k) (body b) (body' b)) :
    S k (w.keep k) (o.forEach list body) (o'.forEach list body') := by
  induction list with
  | nil => exact laws.forget laws.skip
  | cons b rest ih =>
    cases k with
    | false => exact laws.append (each b) ih
    | true => exact laws.steady (each b) ih

theorem tracebackRf (visits : Visits W w func func') (execMode : ExecMode) :
    S false w (o.tracebackRf G (config.withLookahead use) w.chain w.node execMode func w.mode)
      (o'.tracebackRf G (config.withLookahead use') w.chain' w.node execMode func' w.mode') := by
  refine laws.disarm (laws.forEach fun source => laws.guard ?_)
  exact laws.lookaheadStep (.source source.1 w.node source.2 execMode) (func _ source.1)
    (func' _ source.1) rfl (visits _ ⟨Pairing.noConfusion, rfl, rfl, rfl⟩)
    (visits _ ⟨Pairing.noConfusion, rfl, rfl, rfl⟩) (visits _ ⟨id, rfl, rfl, rfl⟩)

theorem tracebackEdge (visits : Visits W w func func') (kind : EdgeKind) :
    S false w (o.tracebackEdge G (config.withLookahead use) w.chain kind w.node func w.mode)
      (o'.tracebackEdge G (config.withLookahead use') w.chain' kind w.node func' w.mode') := by
  refine laws.disarm (laws.forEach fun edge => laws.guard ?_)
  refine laws.step (.edge edge.1 w.node kind edge.2) rfl ?_
  exact laws.lookahead (func _ edge.1) (func' _ edge.1)
    (visits _ ⟨Pairing.noConfusion, rfl, rfl, rfl⟩) (visits _ ⟨Pairing.noConfusion, rfl, rfl, rfl⟩)
    (visits _ ⟨id, rfl, rfl, rfl⟩)

theorem traceback (visits : w.tracebacks ≠ 0 → Visits W w.deeper func func') (execMode : ExecMode) :
    S false w
      (o.traceback G (config.withLookahead use) (level w.tracebacks) w.chain w.node execMode func
        w.mode)
      (o'.traceback G (config.withLookahead use') w.tracebacks w.chain' w.node execMode func'
        w.mode') := by
  refine laws.unlessLast fun further => laws.step (.read w.node) rfl (laws.weaken ?_)
  refine laws.unlessUnsat (laws.deeper further ?_)
  have next (k : Bool) : Visits W ((w.push o o' (.read w.node)).deeper.keep k) func func' :=
    fun y below => visits further y ⟨below.main, below.todo, below.tracebacks, below.armed⟩
  refine laws.append (laws.tracebackRf (fun y below => laws.weaken ?_) execMode)
    (laws.tracebackEdge (next false) .addr)
  exact laws.tracebackEdge (fun z inner => next true z (inner.trans below)) .data

end

/-! The dependencies -/

theorem head_append (same : vec.head? = vec'.head?) (ref : NodeRef) :
    (vec ++ [ref]).head? = (vec' ++ [ref]).head? := by
  rw [List.head?_append, List.head?_append, same]

theorem getLastD_of_last {ref : NodeRef} (last : vec.getLast? = some ref) :
    vec.getLastD G.entry = ref := by
  rw [List.getLastD_eq_getLast?, last]
  rfl

section

variable (laws : Laws o o' level G config use use' S W) {callback : Callback C D R}
  {callback' : Callback C' Nat R'}

include laws

theorem tracebackFrom {again : Rec C R} {again' : Rec C' R'} (met : Met w vec vec')
    (back : w.tracebacks ≠ 0 → Recs W w.todo (w.tracebacks - 1) again again') :
    S false w
      (o.tracebackFrom G (config.withLookahead use) (level w.tracebacks) again w.chain vec w.node
        w.mode)
      (o'.tracebackFrom G (config.withLookahead use') w.tracebacks again' w.chain' vec' w.node
        w.mode') := by
  unfold Ops.tracebackFrom
  rw [← met.head]
  split
  · exact laws.forget laws.skip
  · refine laws.traceback (fun further y below => ?_) .exec
    exact back further y below.todo below.tracebacks (head_append met.head y.node)
      (met.same ∘ below.main)

theorem depsMore {dep : EdgeKind × ExecMode} {deps : List (EdgeKind × ExecMode)}
    {rest again : Rec C R} {rest' again' : Rec C' R'} (todo : w.todo = deps.length + 1)
    (met : Met w vec vec') (onward : Recs W deps.length w.tracebacks rest rest')
    (back : w.tracebacks ≠ 0 → Recs W w.todo (w.tracebacks - 1) again again') :
    S false w
      (o.depsBody G (config.withLookahead use) callback (level w.tracebacks) (dep :: deps) rest
        again w.chain vec w.node w.mode)
      (o'.depsBody G (config.withLookahead use') callback' w.tracebacks (dep :: deps) rest' again'
        w.chain' vec' w.node w.mode') := by
  have traced :=
    laws.tracebackFrom (w := w.keep false) ⟨met.head, met.last, met.last', met.same⟩ back
  simp only [Ops.depsBody]
  split
  · exact laws.disarm traced
  · refine laws.disarm (laws.unlessUnsat
      (laws.append (laws.forEach fun edge => laws.guard ?_) traced))
    refine laws.step (.commit edge.1 w.node dep.1 edge.2 dep.2) rfl ?_
    exact onward _ (congrArg (· - 1) todo) rfl (head_append met.head _) met.same

theorem depsBody (records : Records o o' level S) (called : Calls level G S callback callback') :
    Bodies o o' level G config use use' W callback callback' := by
  intro w vec vec' deps rest rest' again again' todo armed met onward back
  rw [← todo] at back
  apply laws.weaken
  cases deps with
  | nil =>
    have invoked := records w met.same
      (called w ⟨todo, armed⟩ (getLastD_of_last met.last) (getLastD_of_last met.last') met.same)
    refine laws.unlessUnsat (laws.append invoked ?_)
    exact laws.tracebackFrom (w := w.keep false) ⟨met.head, met.last, met.last', met.same⟩ back
  | cons dep deps => exact laws.depsMore todo met (onward (List.cons_ne_nil dep deps)) back

end

section

variable {o : Ops V C Nat R} (laws : Laws o o' id G config use use' S W) {callback : Callback C Nat R}
  {callback' : Callback C' Nat R'} (bodies : Bodies o o' id G config use use' W callback callback')

include laws bodies

theorem depsStep {rest again : Rec C R} {rest' again' : Rec C' R'} {tracebacks : Nat}
    {deps : List (EdgeKind × ExecMode)}
    (onward : deps ≠ [] → Recs W (deps.length - 1) tracebacks rest rest')
    (back : tracebacks ≠ 0 → Recs W deps.length (tracebacks - 1) again again') :
    Recs W deps.length tracebacks
      (o.depsStep G (config.withLookahead use) callback tracebacks deps rest again)
      (o'.depsStep G (config.withLookahead use') callback' tracebacks deps rest' again') := by
  intro w vec vec' todo here head same
  subst here
  have twice : (vec ++ [w.node] ++ [w.node]).head? = (vec' ++ [w.node]).head? := by
    rw [List.head?_append_of_ne_nil _ (by simp), head]
  exact laws.lookahead
    (o.depsBody G _ callback w.tracebacks deps rest again w.chain (vec ++ [w.node]) w.node)
    (o'.depsBody G _ callback' w.tracebacks deps rest' again' w.chain' (vec' ++ [w.node]) w.node)
    (bodies (w := w.trial w.node) todo rfl
      ⟨head_append head w.node, by simp [World.trial], by simp [World.trial], Pairing.noConfusion⟩
      onward back)
    (bodies (w := w.cross) todo rfl
      ⟨twice, by simp [World.cross], by simp [World.cross], Pairing.noConfusion⟩ onward back)
    (bodies (w := w.arm) todo rfl
      ⟨head, by simp [World.arm], by simp [World.arm], fun here => by rw [same here]⟩ onward back)

theorem depsLevel (tracebacks : Nat) {again : List (EdgeKind × ExecMode) → Rec C R}
    {again' : List (EdgeKind × ExecMode) → Rec C' R'}
    (back : tracebacks ≠ 0 → ∀ deps, Recs W deps.length (tracebacks - 1) (again deps) (again' deps))
    (deps : List (EdgeKind × ExecMode)) :
    Recs W deps.length tracebacks
      (o.depsLevel G (config.withLookahead use) callback tracebacks again deps)
      (o'.depsLevel G (config.withLookahead use') callback' tracebacks again' deps) := by
  induction deps with
  | nil => exact laws.depsStep bodies (fun more => absurd rfl more) fun further => back further []
  | cons dep deps ih =>
    exact laws.depsStep bodies (fun _ => ih) fun further => back further (dep :: deps)

theorem tracebackDepsRec (tracebacks : Nat) (deps : List (EdgeKind × ExecMode)) :
    Recs W deps.length tracebacks
      (o.tracebackDepsRec G (config.withLookahead use) callback tracebacks deps)
      (o'.tracebackDepsRec G (config.withLookahead use') callback' tracebacks deps) := by
  induction tracebacks generalizing deps with
  | zero => exact laws.depsLevel bodies 0 (fun further => absurd rfl further) deps
  | succ tracebacks ih => exact laws.depsLevel bodies (tracebacks + 1) (fun _ => ih) deps

end

end Laws

/-! The second detector -/

structure Leaves (o : Ops V C D R) (o' : Ops V C' Nat R') (G : Graph V) (config : Config)
    (use use' : Bool) (S : Bool → Comparison C C' R R') : Prop where
  add : ∀ {w facts facts'}, (w.pairing = .main → facts = facts') →
    S true w (o.whenSlow w.mode (o.add facts)) (o'.whenSlow w.mode' (o'.add facts'))
  scope : ∀ {w m m'}, S true w m m' → S true w (o.condScope w.mode m) (o'.condScope w.mode' m')
  aborted : ∀ {w load store}, config.diffNames = true → SpectreV4.differentNames G load store = none →
    S true w (o.throw .aborted) (o'.throw .aborted)
  checkSolution : ∀ {w vec vec'} load bypassedStore sourcedStore, w.Ready →
    (w.pairing = .main → vec = vec') → S true w
      (o.checkSolution G (config.withLookahead use) w.chain load bypassedStore sourcedStore vec
        w.mode)
      (o'.checkSolution G (config.withLookahead use') w.chain' load bypassedStore sourcedStore vec'
        w.mode')
  runBypassedStoreFast : ∀ {w vec vec'} load, w.Ready → (w.pairing = .main → vec = vec') →
    S true w (o.runBypassedStoreFast G (config.withLookahead use) w.chain load vec w.mode)
      (o'.runBypassedStoreFast G (config.withLookahead use') w.chain' load vec' w.mode')

namespace Leaves

variable {o : Ops V C D R} {o' : Ops V C' Nat R'} {level : Nat → D} {G : Graph V} {config : Config}
  {use use' : Bool} {S : Bool → Comparison C C' R R'} {W : Comparison C C' R R'} {w : World C C'}
  {vec vec' : List NodeRef}

section

variable (leaves : Leaves o o' G config use use' S) (laws : Laws o o' level G config use use' S W)

include leaves laws

theorem runSourcedStore (ready : w.Ready) (load bypassedStore : NodeRef)
    (same : w.pairing = .main → vec = vec') :
    S true w
      (o.runSourcedStore G (config.withLookahead use) w.chain load bypassedStore vec w.mode)
      (o'.runSourcedStore G (config.withLookahead use') w.chain' load bypassedStore vec'
        w.mode') := by
  refine laws.forEach (w := w) (k := true) fun sourcedStore => laws.guard (leaves.scope ?_)
  exact laws.steady (leaves.add fun _ => rfl)
    (leaves.checkSolution load bypassedStore sourcedStore ready same)

theorem bypass (empty : w.todo = 0) (load : NodeRef) (same : w.pairing = .main → vec = vec') :
    Visits W w (o.bypass G (config.withLookahead use) load vec)
      (o'.bypass G (config.withLookahead use') load vec') := by
  intro y below
  have ready : y.Ready := ⟨below.todo.trans empty, below.armed⟩
  have sourced := laws.steady
    (leaves.add fun _ : y.pairing = .main => Eq.refl [(G.lookup y.node).arch])
    (laws.unlessUnsat (leaves.runSourcedStore laws ready load y.node (same ∘ below.main)))
  apply laws.weaken
  apply laws.forget
  unfold Ops.bypass
  split
  · exact laws.skip
  · refine laws.steady (leaves.add fun _ => rfl) ?_
    change S true y (if config.diffNames = true then _ else _)
      (if config.diffNames = true then _ else _)
    split
    · rename_i different
      cases names : SpectreV4.differentNames G load y.node with
      | none => exact leaves.aborted different names
      | some distinct =>
        cases distinct with
        | false => exact laws.skip
        | true => exact sourced
    · exact sourced

theorem bypassedStoreBody {again : List NodeRef → Visit C R} {again' : List NodeRef → Visit C' R'}
    (visits : w.tracebacks ≠ 0 → ∀ (y : World C C') {vec vec'}, y.Below w.deeper →
      (y.pairing = .main → vec = vec') →
      W y (again vec y.chain y.node y.mode) (again' vec' y.chain' y.node y.mode'))
    (ready : w.Ready) (same : w.pairing = .main → vec = vec') :
    S false w
      (o.bypassedStoreBody G (config.withLookahead use) (level w.tracebacks) again w.chain w.node
        vec w.mode)
      (o'.bypassedStoreBody G (config.withLookahead use') w.tracebacks again' w.chain' w.node vec'
        w.mode') := by
  change S false w (if config.concreteSourcedStores = true then _ else _)
    (if config.concreteSourcedStores = true then _ else _)
  split
  · apply laws.unlessUnsat
    refine laws.append (laws.tracebackRf (leaves.bypass laws ready.todo w.node same) .arch) ?_
    refine laws.traceback (w := w.keep false) (fun further y below => ?_) .arch
    have longer (here : y.pairing = .main) : vec ++ [y.node] = vec' ++ [y.node] := by
      rw [same (below.main here)]
    exact laws.after (leaves.add fun _ => rfl)
      (visits further y ⟨below.main, below.todo, below.tracebacks, below.armed⟩ longer)
  · exact laws.forget (leaves.runBypassedStoreFast w.node ready same)

theorem examine {run : List NodeRef → Visit C R} {run' : List NodeRef → Visit C' R'}
    (ran : S false w (run vec w.chain w.node w.mode) (run' vec' w.chain' w.node w.mode'))
    (last : vec.getLastD G.entry = w.node) (last' : vec'.getLastD G.entry = w.node)
    (same : w.pairing = .main → vec = vec') :
    S false w (o.examine G (config.withLookahead use) run w.chain vec w.mode)
      (o'.examine G (config.withLookahead use') run' w.chain' vec' w.mode') := by
  unfold Ops.examine
  rw [last, last']
  refine laws.steady (leaves.add fun here => by rw [same here]) (laws.steady ?_ ran)
  change S true w (if config.concreteSourcedStores = true then _ else _)
    (if config.concreteSourcedStores = true then _ else _)
  split
  · exact laws.skip
  · exact leaves.add fun _ => rfl

end

section

variable {o : Ops V C Nat R} (leaves : Leaves o o' G config use use' S)
  (laws : Laws o o' id G config use use' S W)

include leaves laws

theorem runBypassedStore {tracebacks : Nat} (here : w.tracebacks = tracebacks) (ready : w.Ready)
    (same : w.pairing = .main → vec = vec') :
    S false w
      (o.runBypassedStore G (config.withLookahead use) tracebacks vec w.chain w.node w.mode)
      (o'.runBypassedStore G (config.withLookahead use') tracebacks vec' w.chain' w.node
        w.mode') := by
  induction tracebacks generalizing w vec vec' with
  | zero =>
    rw [Ops.runBypassedStore, Ops.runBypassedStore, ← here]
    exact leaves.bypassedStoreBody laws (fun further => absurd here further) ready same
  | succ tracebacks ih =>
    rw [Ops.runBypassedStore, Ops.runBypassedStore, ← here]
    refine leaves.bypassedStoreBody laws (fun _ y _ _ below same => laws.weaken ?_) ready same
    have fewer : y.tracebacks = tracebacks := below.tracebacks.trans (congrArg (· - 1) here)
    exact ih fewer ⟨below.todo.trans ready.todo, below.armed⟩ same

theorem examined : Calls id G S (o.callback G (config.withLookahead use) .spectreV4)
    (o'.callback G (config.withLookahead use') .spectreV4) :=
  fun _ _ _ ready last last' same =>
    leaves.examine laws (leaves.runBypassedStore laws rfl ready same) last last' same

theorem callback (detector : Detector)
    (first : Calls id G S (fun _ => o.runPostdeps G (config.withLookahead use))
      fun _ => o'.runPostdeps G (config.withLookahead use')) :
    Calls id G S (o.callback G (config.withLookahead use) detector)
      (o'.callback G (config.withLookahead use') detector) := by
  cases detector with
  | spectreV1 => exact first
  | spectreV4 => exact leaves.examined laws

end

end Leaves

/-! Two searches that do the same -/

structure Mirror (o : Ops V C D R) (o' : Ops V C' Nat R') (S : Bool → Comparison C C' R R') :
    Prop where
  cross : ∀ {k w m m'}, w.pairing = .cross → S k w m m'
  throw : ∀ {w} outcome, S true w (o.throw outcome) (o'.throw outcome)
  add : ∀ {w} facts, S true w (o.add facts) (o'.add facts)
  check : ∀ {w limit m m'}, (∀ result, S true w (m result) (m' result)) →
    S true w (o.check limit m) (o'.check limit m')
  scope : ∀ {w m m'}, S true w m m' → S true w (o.scope m) (o'.scope m')
  withActions : ∀ {w m m'}, (∀ actions, S true w (m actions) (m' actions)) →
    S true w (o.withActions w.chain m) (o'.withActions w.chain' m')
  pushSkip : ∀ {w} action, S true w (o.push action o.skip) (o'.push action o'.skip)
  pushThrow : ∀ {w} action outcome,
    S true w (o.push action (o.throw outcome)) (o'.push action (o'.throw outcome))
  output : ∀ {w}, w.Ready → w.mode = .slow → ∀ vec transmitter,
    S true w (o.output w.chain vec transmitter) (o'.output w.chain' vec transmitter)

namespace Mirror

variable {o : Ops V C D R} {o' : Ops V C' Nat R'} {level : Nat → D} {G : Graph V} {config : Config}
  {S : Bool → Comparison C C' R R'} {W : Comparison C C' R R'} {w : World C C'}
  {vec vec' : List NodeRef} (mirror : Mirror o o' S)
  (laws : Laws o o' level G config config.useLookahead config.useLookahead S W)

include mirror laws

theorem decideSat {m : R} {m' : R'} (related : S true w m m') :
    S true w (o.decideSat m) (o'.decideSat m') := by
  refine mirror.check fun result => ?_
  cases result with
  | sat => exact related
  | unsat => exact laws.skip
  | unknown => exact mirror.throw .aborted

theorem solution (ready : w.Ready) (slow : w.mode = .slow) (vec : List NodeRef)
    (transmitter : NodeRef) :
    S true w (o.decideSat (o.outputExecution config w.chain vec transmitter))
      (o'.decideSat (o'.outputExecution config w.chain' vec transmitter)) := by
  refine mirror.decideSat laws (laws.steady (mirror.output ready slow vec transmitter) ?_)
  split
  · exact mirror.throw .next
  · exact laws.skip

theorem runPostdeps :
    Calls level G S (fun _ => o.runPostdeps G config) fun _ => o'.runPostdeps G config := by
  intro w vec vec' ready last last' same
  by_cases here : w.pairing = .cross
  · exact mirror.cross here
  apply laws.forget
  simp only [Ops.runPostdeps, last, last']
  rcases World.modes here with ⟨fast, fast'⟩ | ⟨main, slow, slow'⟩
  · rw [fast, fast']
    change S true w (if _ then _ else o.throw .found) (if _ then _ else o'.throw .found)
    split
    · exact laws.skip
    · exact mirror.throw .found
  · rw [slow, slow', ← same main]
    refine mirror.decideSat laws ?_
    split
    · exact laws.skip
    · refine laws.steady ?_ (mirror.solution laws ready slow vec.reverse (vec.headD G.entry))
      split
      · exact mirror.add _
      · exact laws.skip

theorem checkSolution (load bypassedStore sourcedStore : NodeRef) (ready : w.Ready)
    (same : w.pairing = .main → vec = vec') : S true w
      (o.checkSolution G config w.chain load bypassedStore sourcedStore vec w.mode)
      (o'.checkSolution G config w.chain' load bypassedStore sourcedStore vec' w.mode') := by
  by_cases here : w.pairing = .cross
  · exact mirror.cross here
  refine mirror.withActions fun actions => ?_
  split
  · exact laws.skip
  rcases World.modes here with ⟨fast, fast'⟩ | ⟨main, slow, slow'⟩
  · rw [fast, fast']
    exact mirror.throw .found
  · rw [slow, slow', ← same main]
    exact mirror.solution laws ready slow _ _

omit laws in
theorem tryStore (load store : NodeRef) (mode : CheckMode) :
    S true w (o.tryStore G config load mode store) (o'.tryStore G config load mode store) := by
  unfold Ops.tryStore
  cases SpectreV4.bypassable G config load store with
  | none => exact mirror.pushThrow _ .aborted
  | some can =>
    cases can with
    | false => exact mirror.pushSkip _
    | true =>
      cases mode with
      | fast => exact mirror.pushThrow _ .found
      | slow => exact mirror.pushSkip _

theorem runBypassedStoreFast (load : NodeRef) (ready : w.Ready)
    (same : w.pairing = .main → vec = vec') :
    S true w (o.runBypassedStoreFast G config w.chain load vec w.mode)
      (o'.runBypassedStoreFast G config w.chain' load vec' w.mode') := by
  by_cases here : w.pairing = .cross
  · exact mirror.cross here
  have checked := mirror.checkSolution laws load G.entry G.entry ready same
  rw [World.mode_eq here] at checked ⊢
  refine laws.steady
    (laws.forEach (w := w) (k := true) fun store => mirror.tryStore load store w.mode) ?_
  split
  · split
    · exact mirror.throw .aborted
    · exact laws.steady (mirror.add _) checked
  · exact laws.skip

theorem leaves : Leaves o o' G config config.useLookahead config.useLookahead S where
  add {w} facts facts' same := by
    by_cases here : w.pairing = .cross
    · exact mirror.cross here
    rcases World.modes here with ⟨fast, fast'⟩ | ⟨main, slow, slow'⟩
    · rw [fast, fast']
      exact laws.skip
    · rw [slow, slow', ← same main]
      exact mirror.add facts
  scope {w} m m' related := by
    by_cases here : w.pairing = .cross
    · exact mirror.cross here
    rw [World.mode_eq here]
    unfold Ops.condScope
    split
    · exact mirror.scope related
    · exact related
  aborted _ _ := mirror.throw .aborted
  checkSolution := mirror.checkSolution laws
  runBypassedStoreFast := mirror.runBypassedStoreFast laws

end Mirror

end Clou.Leakage
