import Clou.Labelled
import Clou.Layout
import Clou.OptionFold

/-! What a graph under construction shows: every node stands for an instance of an
instruction, and its identity tells the calls and the loop iterations it lies in. -/

namespace Clou.Unrolled

open Cfg Labelled

section

variable (P : Program)

inductive Leaves : Config → Config → Prop
  | here {c} : entered P c = none → Leaves c c
  | callee {c g fr} : entered P c = some g → FrameIn P g fr → AtEnd P fr → successors P fr = [] →
      Leaves c (fr :: c)

inductive Inner : Config → Config → Config → Prop
  | link {p g fr fr' c d} : entered P p = some g → FrameIn P g fr → Link P fr fr' →
      Leaves P (fr :: p) c → Lands P (fr' :: p) d → Inner p c d
  | deeper {p g fr c d} : entered P p = some g → FrameIn P g fr → Inner (fr :: p) c d → Inner p c d

def Drawn (σ : Config) (R : Frame → Prop) (N : Frame → Frame → Prop) (c d : Config) : Prop :=
  (∃ fr, R fr ∧ Inner P (fr :: σ) c d) ∨
    ∃ fr fr', N fr fr' ∧ Leaves P (fr :: σ) c ∧ Lands P (fr' :: σ) d

end

inductive Label where
  | entry
  | exit
  | inst (c : Config)

/-- The nodes by their labels, the calls and the iterations by their numbers, and the edges. -/
structure Drawing where
  labels : List Label
  calls : List Config
  loops : List Config
  edge : Label → Label → Prop

/-! Identities -/

/-- The calls that a function instance is nested in, outermost first. -/
inductive FuncPath (calls : List Config) : Config → List FuncID → Prop
  | root : FuncPath calls [] []
  | call {fr σ path k} : FuncPath calls σ path → calls[k]? = some (fr :: σ) →
      FuncPath calls (fr :: σ) (path ++ [k])

/-- The iterations that a place in a function instance is nested in. An iteration is told by
its header. -/
inductive Levels (loops : List Config) (σ : Config) (f : FuncRef) : List Nat → List LoopID → Prop
  | own : Levels loops σ f [] []
  | inside {p ids header i k} : Levels loops σ f p ids →
      loops[k]? = some (⟨f, header, 0, p ++ [i]⟩ :: σ) → Levels loops σ f (p ++ [i]) (ids ++ [k])

inductive LoopPath (loops : List Config) : Config → List LoopID → Prop
  | root : LoopPath loops [] []
  | frame {fr σ path ids} : LoopPath loops σ path → Levels loops σ fr.func fr.iters ids →
      LoopPath loops (fr :: σ) (path ++ ids)

/-- The identity of what is laid out in the iterations `p` of a function instance. -/
structure Names (calls loops : List Config) (σ : Config) (f : FuncRef) (p : List Nat) (id : ID) :
    Prop where
  func : FuncPath calls σ id.func
  loop : ∃ outer own, id.loop = outer ++ own ∧ LoopPath loops σ outer ∧ Levels loops σ f p own

inductive Depicts (calls loops : List Config) : Label → Node → Prop
  | entry : Depicts calls loops .entry Node.makeEntry
  | exit : Depicts calls loops .exit Node.makeExit
  | inst {fr σ id} : Names calls loops σ fr.func fr.iters id →
      Depicts calls loops (.inst (fr :: σ)) ⟨.inst fr.inst, some id, ∅⟩

section

variable {calls calls' loops loops' : List Config} {σ : Config} {f : FuncRef}

theorem FuncPath.grow (more : calls <+: calls') {path : List FuncID} (func : FuncPath calls σ path) :
    FuncPath calls' σ path := by
  induction func with
  | root => exact .root
  | call _ found ih => exact .call ih (lookup_extend more found)

theorem Levels.grow (more : loops <+: loops') {p : List Nat} {ids : List LoopID}
    (levels : Levels loops σ f p ids) : Levels loops' σ f p ids := by
  induction levels with
  | own => exact .own
  | inside _ found ih => exact .inside ih (lookup_extend more found)

theorem LoopPath.grow (more : loops <+: loops') {path : List LoopID} (loop : LoopPath loops σ path) :
    LoopPath loops' σ path := by
  induction loop with
  | root => exact .root
  | frame _ levels ih => exact .frame ih (levels.grow more)

theorem Names.grow (more : calls <+: calls') (more' : loops <+: loops') {p : List Nat} {id : ID}
    (names : Names calls loops σ f p id) : Names calls' loops' σ f p id := by
  rcases names.loop with ⟨outer, own, split, path, levels⟩
  exact ⟨names.func.grow more, outer, own, split, path.grow more', levels.grow more'⟩

theorem Depicts.grow (more : calls <+: calls') (more' : loops <+: loops') {x : Label} {node : Node}
    (depicts : Depicts calls loops x node) : Depicts calls' loops' x node := by
  cases depicts with
  | entry => exact .entry
  | exit => exact .exit
  | inst names => exact .inst (names.grow more more')

end

/-! The state of the construction -/

structure Shows (s : State) (G : Drawing) : Prop where
  nodes : List.Forall₂ (Depicts G.calls G.loops) G.labels s.nodes
  denotes : Denotes G.labels s.po.Edge G.edge
  proper : s.po.Proper
  keys : ∀ n < G.labels.length, n ∈ s.po.fwd ∧ n ∈ s.po.rev
  nextFunc : s.nextFunc = G.calls.length
  nextLoop : s.nextLoop = G.loops.length

namespace Drawing

def addLabel (G : Drawing) (x : Label) : Drawing := { G with labels := G.labels ++ [x] }

def addCall (G : Drawing) (c : Config) : Drawing := { G with calls := G.calls ++ [c] }

def addLoop (G : Drawing) (c : Config) : Drawing := { G with loops := G.loops ++ [c] }

def addEdges (G : Drawing) (new : Label → Label → Prop) : Drawing :=
  { G with edge := fun x y => G.edge x y ∨ new x y }

def eraseInto (G : Drawing) (y : Label) : Drawing :=
  { G with edge := fun a b => G.edge a b ∧ b ≠ y }

end Drawing

def Listed (labels : List Label) (refs : List NodeRef) (x : Label) : Prop :=
  ∃ n ∈ refs, labels[n]? = some x

namespace Shows

variable {s : State} {G : Drawing}

section

variable (shows : Shows s G)

include shows

theorem size : s.nodes.length = G.labels.length := shows.nodes.length_eq.symm

theorem congr {edge : Label → Label → Prop} (same : ∀ x y, G.edge x y ↔ edge x y) :
    Shows s { G with edge := edge } :=
  { shows with denotes := shows.denotes.congr same }

theorem addNode {x : Label} {node : Node} (fresh : x ∉ G.labels)
    (depicts : Depicts G.calls G.loops x node) :
    (s.addNode node).1 = G.labels.length ∧ Shows (s.addNode node).2 (G.addLabel x) := by
  have size := shows.size
  refine ⟨size, ?_, ?_, ?_, ?_, shows.nextFunc, shows.nextLoop⟩
  · exact List.rel_append shows.nodes (.cons depicts .nil)
  · exact shows.denotes.append fresh fun n m => Binrel.edge_addNode ..
  · exact shows.proper.addNode _
  · intro n bound
    simp only [Drawing.addLabel, List.length_append, List.length_singleton] at bound
    simp only [State.addNode, Binrel.addNode, AList.mem_insert]
    rcases Nat.lt_succ_iff_lt_or_eq.mp bound with old | new
    · exact ⟨.inr (shows.keys n old).1, .inr (shows.keys n old).2⟩
    · exact ⟨.inl (new.trans size.symm), .inl (new.trans size.symm)⟩

theorem addEdge {n m : NodeRef} {x y : Label} (left : G.labels[n]? = some x)
    (right : G.labels[m]? = some y) :
    Shows (s.addEdge n m) (G.addEdges fun a b => a = x ∧ b = y) where
  nodes := shows.nodes
  denotes := shows.denotes.insert left right fun i j => Binrel.edge_insert ..
  proper := shows.proper.insert n m
  keys k bound := by
    simp only [State.addEdge, Binrel.insert, AList.mem_insert]
    exact ⟨.inr (shows.keys k bound).1, .inr (shows.keys k bound).2⟩
  nextFunc := shows.nextFunc
  nextLoop := shows.nextLoop

theorem connect {srcs : List NodeRef} (valid : ∀ n ∈ srcs, n < G.labels.length) {m : NodeRef}
    {y : Label} (right : G.labels[m]? = some y) : ∃ s', connect srcs (some m) s = some s' ∧
      Shows s' (G.addEdges fun a b => Listed G.labels srcs a ∧ b = y) := by
  induction srcs generalizing s G with
  | nil => exact ⟨s, rfl, shows.congr fun a b => by simp [Listed]⟩
  | cons n srcs ih =>
    obtain ⟨x, left⟩ : ∃ x, G.labels[n]? = some x :=
      ⟨_, List.getElem?_eq_getElem (valid n List.mem_cons_self)⟩
    rcases ih (shows.addEdge left right) (fun k later => valid k (List.mem_cons_of_mem n later))
      right with ⟨s', connected, after⟩
    refine ⟨s', connected, after.congr fun a b => ?_⟩
    simp only [Drawing.addEdges, Listed, List.exists_mem_cons_iff, left, or_and_right, or_assoc,
      Option.some.injEq, eq_comm (a := a)]

omit shows in
/-- What is left of a state when edges to one node are erased. -/
theorem erase_fold (proper : s.po.Proper) (m : NodeRef) (refs : List NodeRef) :
    let s' := refs.foldl (fun s n => s.eraseEdge n m) s
    s'.nodes = s.nodes ∧ s'.nextFunc = s.nextFunc ∧ s'.nextLoop = s.nextLoop ∧ s'.po.Proper ∧
      (∀ i j, s'.po.Edge i j ↔ s.po.Edge i j ∧ ¬ (i ∈ refs ∧ j = m)) ∧
      ∀ k, (k ∈ s.po.fwd → k ∈ s'.po.fwd) ∧ (k ∈ s.po.rev → k ∈ s'.po.rev) := by
  induction refs generalizing s with
  | nil => exact ⟨rfl, rfl, rfl, proper, by simp, fun k => ⟨id, id⟩⟩
  | cons n refs ih =>
    rcases ih (s := s.eraseEdge n m) (proper.eraseEdge n m) with ⟨nodes, nextFunc, nextLoop, proper', edges, keys⟩
    refine ⟨nodes, nextFunc, nextLoop, proper', ?_, ?_⟩
    · intro i j
      rw [List.foldl_cons, edges]
      change (s.po.eraseEdge n m).Edge i j ∧ _ ↔ _
      rw [proper.edge_eraseEdge, and_assoc, List.mem_cons, or_and_right, not_or]
    · intro k
      have kept : (k ∈ s.po.fwd → k ∈ (s.eraseEdge n m).po.fwd) ∧
          (k ∈ s.po.rev → k ∈ (s.eraseEdge n m).po.rev) := by
        simp only [State.eraseEdge, Binrel.eraseEdge, AList.mem_insert]
        exact ⟨.inr, .inr⟩
      exact ⟨fun old => (keys k).1 (kept.1 old), fun old => (keys k).2 (kept.2 old)⟩

/-- The edges to a node are erased by way of its predecessors. -/
theorem eraseInto {m : NodeRef} {y : Label} (right : G.labels[m]? = some y) :
    ∃ preds, s.po.rev.lookup m = some preds ∧ (∀ n ∈ preds, n < G.labels.length) ∧
      (∀ x, Listed G.labels preds x ↔ G.edge x y) ∧
      Shows (preds.foldl (fun s n => s.eraseEdge n m) s) (G.eraseInto y) := by
  have bound := (List.getElem?_eq_some_iff.mp right).1
  rcases shows.proper.lookup_rev (shows.keys m bound).2 with ⟨preds, found, mem_preds⟩
  rcases erase_fold shows.proper m preds with ⟨nodes, nextFunc, nextLoop, proper, edges, keys⟩
  refine ⟨preds, found, ?_, ?_, ?_⟩
  · intro n member
    rcases shows.denotes.edge_iff.mp ((mem_preds n).mp member) with ⟨x, _, left, -⟩
    exact (List.getElem?_eq_some_iff.mp left).1
  · intro x
    constructor
    · rintro ⟨n, member, left⟩
      exact (shows.denotes.edge_labels left right).mp ((mem_preds n).mp member)
    · intro edge
      rcases List.getElem?_of_mem (shows.denotes.within edge).1 with ⟨n, left⟩
      exact ⟨n, (mem_preds n).mpr ((shows.denotes.edge_labels left right).mpr edge), left⟩
  · constructor
    · rw [nodes]
      exact shows.nodes
    · apply shows.denotes.eraseInto right
      intro i j
      rw [edges, mem_preds]
      constructor
      · rintro ⟨edge, kept⟩
        exact ⟨edge, fun same => kept ⟨same ▸ edge, same⟩⟩
      · rintro ⟨edge, other⟩
        exact ⟨edge, fun both => other both.2⟩
    · exact proper
    · exact fun k bound => ⟨(keys k).1 (shows.keys k bound).1, (keys k).2 (shows.keys k bound).2⟩
    · rw [nextFunc]
      exact shows.nextFunc
    · rw [nextLoop]
      exact shows.nextLoop

theorem addCall (c : Config) (translations : Translations.Map) :
    Shows { s with nextFunc := s.nextFunc + 1, translations := translations } (G.addCall c) where
  nodes := shows.nodes.imp fun _ _ depicts =>
    depicts.grow (List.prefix_append _ _) List.prefix_rfl
  denotes := shows.denotes
  proper := shows.proper
  keys := shows.keys
  nextFunc := by simp [Drawing.addCall, shows.nextFunc]
  nextLoop := shows.nextLoop

theorem addLoop (c : Config) : Shows { s with nextLoop := s.nextLoop + 1 } (G.addLoop c) where
  nodes := shows.nodes.imp fun _ _ depicts =>
    depicts.grow List.prefix_rfl (List.prefix_append _ _)
  denotes := shows.denotes
  proper := shows.proper
  keys := shows.keys
  nextFunc := shows.nextFunc
  nextLoop := by simp [Drawing.addLoop, shows.nextLoop]

theorem record (translations : Translations.Map) (inlined : List Inlined) :
    Shows { s with translations := translations, inlined := inlined } G :=
  ⟨shows.nodes, shows.denotes, shows.proper, shows.keys, shows.nextFunc, shows.nextLoop⟩

end

end Shows

/-! Regions -/

section

variable (P : Program)

/-- A drawing is extended by what some frames of a function instance are laid out to, and by
the edges of the frames and of links. -/
structure Extends (σ : Config) (R : Frame → Prop) (N : Frame → Frame → Prop) (G G' : Drawing) :
    Prop where
  labels : ∃ new, G'.labels = G.labels ++ new ∧
    ∀ x, x ∈ new ↔ ∃ fr d, R fr ∧ Laid P (fr :: σ) d ∧ x = .inst d
  calls : G.calls <+: G'.calls
  loops : G.loops <+: G'.loops
  edge : ∀ x y, G'.edge x y ↔ G.edge x y ∨ ∃ c d, Drawn P σ R N c d ∧ x = .inst c ∧ y = .inst d

def Fresh (σ : Config) (R : Frame → Prop) (G : Drawing) : Prop :=
  ∀ fr d, R fr → Laid P (fr :: σ) d → .inst d ∉ G.labels

def Enters (σ : Config) (fr : Frame) (labels : List Label) (entry : Option NodeRef) : Prop :=
  ∃ n d, entry = some n ∧ labels[n]? = some (.inst d) ∧ Lands P (fr :: σ) d

structure Marks (labels : List Label) (exits : List (BlockRef × NodeRef)) (E : Config → Prop) :
    Prop where
  mem : ∀ {c}, E c → .inst c ∈ labels
  nonempty : ¬ E []
  iff : ∀ {B n}, (B, n) ∈ exits ↔
    ∃ fr σ, E (fr :: σ) ∧ fr.parent = B ∧ labels[n]? = some (.inst (fr :: σ))

end

section Regions

variable {P : Program} {σ : Config} {R R' : Frame → Prop} {N N' : Frame → Frame → Prop}
  {G G' G'' : Drawing}

theorem Drawn.union {c d : Config} : Drawn P σ (fun fr => R fr ∨ R' fr) (fun a b => N a b ∨ N' a b) c d ↔
    Drawn P σ R N c d ∨ Drawn P σ R' N' c d := by
  simp only [Drawn, or_and_right, exists_or]
  exact or_or_or_comm

namespace Extends

section

variable (extended : Extends P σ R N G G')

include extended

theorem grows : G.labels <+: G'.labels := by
  rcases extended.labels with ⟨new, same, -⟩
  exact ⟨new, same.symm⟩

theorem mem_labels {x : Label} :
    x ∈ G'.labels ↔ x ∈ G.labels ∨ ∃ fr d, R fr ∧ Laid P (fr :: σ) d ∧ x = .inst d := by
  rcases extended.labels with ⟨new, same, mem_new⟩
  rw [same, List.mem_append, mem_new]

theorem congr (frames : ∀ fr, R fr ↔ R' fr) (links : ∀ a b, N a b ↔ N' a b) :
    Extends P σ R' N' G G' := by
  obtain rfl : R = R' := funext fun fr => propext (frames fr)
  obtain rfl : N = N' := funext fun a => funext fun b => propext (links a b)
  exact extended

omit extended in
theorem trans (first : Extends P σ R N G G') (second : Extends P σ R' N' G' G'') :
    Extends P σ (fun fr => R fr ∨ R' fr) (fun a b => N a b ∨ N' a b) G G'' where
  labels := by
    rcases first.labels with ⟨new, same, mem_new⟩
    rcases second.labels with ⟨new', same', mem_new'⟩
    refine ⟨new ++ new', by rw [same', same, List.append_assoc], ?_⟩
    intro x
    simp only [List.mem_append, mem_new, mem_new', or_and_right, exists_or]
  calls := first.calls.trans second.calls
  loops := first.loops.trans second.loops
  edge x y := by
    rw [second.edge, first.edge, or_assoc]
    simp only [Drawn.union, or_and_right, exists_or]

theorem addEdges (new : Label → Label → Prop)
    (links : ∀ x y, new x y ↔ ∃ c d fr fr', N' fr fr' ∧ Leaves P (fr :: σ) c ∧ Lands P (fr' :: σ) d
      ∧ x = .inst c ∧ y = .inst d) :
    Extends P σ R (fun a b => N a b ∨ N' a b) G (G'.addEdges new) where
  labels := extended.labels
  calls := extended.calls
  loops := extended.loops
  edge x y := by
    simp only [Drawing.addEdges, extended.edge, links, Drawn, or_and_right, exists_or, or_assoc]
    simp only [← exists_and_right, and_assoc]

omit extended in
theorem refl (frames : ∀ fr, ¬ R fr) (links : ∀ a b, ¬ N a b) : Extends P σ R N G G where
  labels := ⟨[], (List.append_nil _).symm, by simp [frames]⟩
  calls := List.prefix_rfl
  loops := List.prefix_rfl
  edge x y := by simp [Drawn, frames, links]

/-- Connecting nodes to the entry of a frame adds the links to it. -/
theorem connect {s : State} (shows : Shows s G') {srcs : List NodeRef}
    (valid : ∀ n ∈ srcs, n < G'.labels.length) {L : Frame → Prop}
    (listed : ∀ x, Listed G'.labels srcs x ↔ ∃ c fr, L fr ∧ Leaves P (fr :: σ) c ∧ x = .inst c)
    {fr' : Frame} {entry : Option NodeRef} (enters : Enters P σ fr' G'.labels entry) :
    ∃ s' edge, Unrolled.connect srcs entry s = some s' ∧ Shows s' { G' with edge := edge } ∧
      Extends P σ R (fun a b => N a b ∨ L a ∧ b = fr') G { G' with edge := edge } := by
  rcases enters with ⟨m, d, rfl, found, lands⟩
  rcases shows.connect valid found with ⟨s', connected, after⟩
  refine ⟨s', _, connected, after, extended.addEdges _ fun x y => ?_⟩
  rw [listed]
  constructor
  · rintro ⟨⟨c, fr, source, leaves, rfl⟩, rfl⟩
    exact ⟨c, d, fr, fr', ⟨source, rfl⟩, leaves, lands, rfl, rfl⟩
  · rintro ⟨c, d', fr, _, ⟨source, rfl⟩, leaves, lands', rfl, rfl⟩
    exact ⟨⟨c, fr, source, leaves, rfl⟩, by rw [lands.unique lands']⟩

end

end Extends

theorem Fresh.extend (fresh : Fresh P σ R' G) (extended : Extends P σ R N G G')
    (disjoint : ∀ fr, R fr → ¬ R' fr) : Fresh P σ R' G' := by
  intro fr d inside laid present
  rcases extended.mem_labels.mp present with old | ⟨fr', d', other, laid', same⟩
  · exact fresh fr d inside laid old
  · cases same
    exact disjoint fr' other (laid'.frame_eq laid ▸ inside)

theorem Fresh.mono (fresh : Fresh P σ R' G) (fewer : ∀ fr, R fr → R' fr) : Fresh P σ R G :=
  fun fr d inside laid => fresh fr d (fewer fr inside) laid

theorem Fresh.callee (fresh : Fresh P σ R G) {fr : Frame} (inside : R fr) {g : FuncRef}
    (call : entered P (fr :: σ) = some g) : Fresh P (fr :: σ) (FrameIn P g) G :=
  fun _ d inner laid => fresh fr d inside (.call call inner laid)

theorem Enters.grow {fr : Frame} {labels labels' : List Label} {entry : Option NodeRef}
    (enters : Enters P σ fr labels entry) (more : labels <+: labels') :
    Enters P σ fr labels' entry := by
  rcases enters with ⟨n, d, same, found, lands⟩
  exact ⟨n, d, same, lookup_extend more found, lands⟩

namespace Marks

variable {labels labels' : List Label} {exits exits' : List (BlockRef × NodeRef)}
  {E E' : Config → Prop}

section

variable (marks : Marks labels exits E)

include marks

theorem congr (same : ∀ c, E c ↔ E' c) : Marks labels exits E' := by
  obtain rfl : E = E' := funext fun c => propext (same c)
  exact marks

theorem grow (more : labels <+: labels') (nodup : labels'.Nodup) : Marks labels' exits E where
  mem marked := more.subset (marks.mem marked)
  nonempty := marks.nonempty
  iff := by
    intro B n
    rw [marks.iff]
    constructor
    · rintro ⟨fr, σ, marked, parent, found⟩
      exact ⟨fr, σ, marked, parent, lookup_extend more found⟩
    · rintro ⟨fr, σ, marked, parent, found⟩
      rcases List.getElem?_of_mem (marks.mem marked) with ⟨m, found'⟩
      rw [number_unique nodup found (lookup_extend more found')]
      exact ⟨fr, σ, marked, parent, found'⟩

omit marks in
theorem nil : Marks labels [] (fun _ => False) := ⟨False.elim, id, by simp⟩

omit marks in
theorem append (first : Marks labels exits E) (second : Marks labels exits' E') :
    Marks labels (exits ++ exits') (fun c => E c ∨ E' c) where
  mem marked := marked.elim first.mem second.mem
  nonempty marked := marked.elim first.nonempty second.nonempty
  iff := by
    intro B n
    simp only [List.mem_append, first.iff, second.iff, or_and_right, exists_or]

theorem filter (B : BlockRef) : Marks labels (exits.filter fun exit => exit.1 = B)
      (fun c => E c ∧ ∃ fr, c.head? = some fr ∧ fr.parent = B) where
  mem marked := marks.mem marked.1
  nonempty marked := marks.nonempty marked.1
  iff := by
    intro C n
    simp only [List.mem_filter, marks.iff, decide_eq_true_eq, List.head?_cons, Option.some.injEq,
      exists_eq_left']
    constructor
    · rintro ⟨⟨fr, σ, marked, parent, found⟩, here⟩
      exact ⟨fr, σ, ⟨marked, parent.trans here⟩, parent, found⟩
    · rintro ⟨fr, σ, ⟨marked, here⟩, parent, found⟩
      exact ⟨⟨fr, σ, marked, parent, found⟩, parent.symm.trans here⟩

theorem listed (x : Label) : Listed labels (exits.map Prod.snd) x ↔ ∃ c, E c ∧ x = .inst c := by
  constructor
  · rintro ⟨n, member, found⟩
    rcases List.mem_map.mp member with ⟨⟨B, m⟩, exit, rfl⟩
    rcases marks.iff.mp exit with ⟨fr, σ, marked, -, found'⟩
    rw [found] at found'
    exact ⟨fr :: σ, marked, Option.some.inj found'⟩
  · rintro ⟨c, marked, rfl⟩
    rcases List.getElem?_of_mem (marks.mem marked) with ⟨n, found⟩
    cases c with
    | nil => exact absurd marked marks.nonempty
    | cons fr σ =>
      exact ⟨n, List.mem_map.mpr ⟨(fr.parent, n), marks.iff.mpr ⟨fr, σ, marked, rfl, found⟩, rfl⟩,
        found⟩

theorem valid {n : NodeRef} (member : n ∈ exits.map Prod.snd) : n < labels.length := by
  rcases List.mem_map.mp member with ⟨⟨B, m⟩, exit, rfl⟩
  rcases marks.iff.mp exit with ⟨fr, σ, -, -, found⟩
  exact (List.getElem?_eq_some_iff.mp found).1

end

end Marks

end Regions

end Clou.Unrolled
