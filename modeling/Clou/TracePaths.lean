import Clou.Calls
import Clou.Identity
import Clou.TraceSteps

/-! The paths through the unrolled graph of a function, and the ways of control through the
function. -/

namespace Clou.Unrolled

open Cfg Labelled

section

variable {P : Program} {F : FuncRef}

variable {l : List Config} {d : Config}

theorem Course.head (course : Course P F d l) : l.head? = some d := by
  cases course <;> rfl

theorem Placed.step (okay : P.Ok) (defined : (P.M.func F).isDeclaration = false) {c : Config}
    (placed : Placed P F (.inst c)) (step : Step P c d) : Placed P F (.inst d) := by
  rcases step with ⟨e, moves, lands⟩
  exact ((placed.stacked.move okay defined moves).lands okay lands).2

theorem Course.live (okay : P.Ok) (defined : (P.M.func F).isDeclaration = false)
    (course : Course P F d l) (placed : Placed P F (.inst d)) :
    ∀ c ∈ l, Placed P F (.inst c) ∧ ¬ Pointless P F (.inst c) := by
  induction course with
  | last ends =>
    refine List.forall_mem_singleton.mpr ⟨placed, fun ⟨_, dead⟩ => ?_⟩
    rcases dead _ (.last ends) with ⟨other, -⟩
    exact other rfl
  | step step course ih =>
    have onward := ih (placed.step okay defined step)
    refine List.forall_mem_cons.mpr ⟨⟨placed, fun ⟨_, dead⟩ => ?_⟩, onward⟩
    exact (onward _ (List.mem_of_mem_head? course.head)).2 (dead _ (.step placed step))

theorem exit_live : ¬ Pointless P F .exit := fun ⟨other, _⟩ => other rfl

theorem Course.chain (okay : P.Ok) (defined : (P.M.func F).isDeclaration = false)
    (course : Course P F d l) (placed : Placed P F (.inst d)) :
    (l.map Label.inst ++ [Label.exit]).IsChain fun x y => Arc P F x y ∧ ¬ Pointless P F y := by
  induction course with
  | last ends => simpa using ⟨Arc.last ends, exit_live⟩
  | step step course ih =>
    have next := placed.step okay defined step
    rw [List.map_cons, List.cons_append, List.isChain_cons]
    refine ⟨fun y first => ?_, ih next⟩
    rw [List.head?_append, List.head?_map, course.head] at first
    cases first
    exact ⟨.step placed step, (course.live okay defined next _ (List.mem_of_mem_head? course.head)).2⟩

theorem course_of_chain {ys : List Label}
    (chain : (Label.inst d :: ys).IsChain fun x y => Arc P F x y ∧ ¬ Pointless P F y)
    (last : (Label.inst d :: ys).getLast? = some .exit) :
    ∃ l, Label.inst d :: ys = l.map Label.inst ++ [.exit] ∧ Course P F d l := by
  induction ys generalizing d with
  | nil => cases last
  | cons y ys ih =>
    rw [List.isChain_cons_cons] at chain
    rcases chain with ⟨⟨arc, -⟩, rest⟩
    cases arc with
    | step placed step =>
      rcases ih rest (by rwa [List.getLast?_cons_cons] at last) with ⟨l, split, course⟩
      exact ⟨d :: l, congrArg (Label.inst d :: ·) split, .step step course⟩
    | last ends =>
      cases ys with
      | nil => exact ⟨[d], rfl, .last ends⟩
      | cons z ys =>
        rw [List.isChain_cons_cons] at rest
        exact absurd rest.1.1 arc_exit

end

def Label.variant : Label → Option Variant
  | .entry => some .entry
  | .exit => some .exit
  | .inst c => c.head?.map fun fr => .inst fr.inst

variable {x : Label}

theorem Stands.variant {node : Node} (stands : Stands x node) : x.variant = some node.v := by
  cases stands <;> rfl

theorem Label.variant_eq_entry : x.variant = some .entry ↔ x = .entry := by
  cases x with
  | entry => simp [variant]
  | exit => simp [variant]
  | inst c => cases c <;> simp [variant]

theorem Label.variant_eq_exit : x.variant = some .exit ↔ x = .exit := by
  cases x with
  | entry => simp [variant]
  | exit => simp [variant]
  | inst c => cases c <;> simp [variant]

variable {l : List Config} {path : List NodeRef}

section

variable {P : Program} {F : FuncRef} {cfg : Cfg} {labels : List Label}

section

variable (unrolls : Unrolls P F cfg labels)

include unrolls

theorem Unrolls.variant_eq (n : NodeRef) : cfg.variant n = labels[n]?.bind Label.variant := by
  cases found : labels[n]? with
  | none =>
    rw [List.getElem?_eq_none_iff, unrolls.nodes.length_eq] at found
    rw [variant, List.getElem?_eq_none found]
    rfl
  | some x =>
    rcases lookup_related unrolls.nodes found with ⟨node, here, stands⟩
    rw [variant, here]
    exact stands.variant.symm

theorem Unrolls.variant_entry {n : NodeRef} :
    cfg.variant n = some .entry ↔ labels[n]? = some .entry := by
  simp [unrolls.variant_eq, Option.bind_eq_some_iff, Label.variant_eq_entry]

theorem Unrolls.variant_exit {n : NodeRef} :
    cfg.variant n = some .exit ↔ labels[n]? = some .exit := by
  simp [unrolls.variant_eq, Option.bind_eq_some_iff, Label.variant_eq_exit]

def Passes (labels : List Label) (path : List NodeRef) (l : List Config) : Prop :=
  List.Forall₂ (fun n x => labels[n]? = some x) path (.entry :: (l.map Label.inst ++ [.exit]))

theorem Unrolls.passes (begins : cfg.variant cfg.entry = some .entry)
    (complete : Calls.Complete cfg path) :
    ∃ d l, Lands P [.start F] d ∧ Course P F d l ∧ Passes labels path l := by
  rcases complete with ⟨chain, head, e, last, exit⟩
  cases path with
  | nil => cases head
  | cons n path =>
    cases head
    have first := unrolls.variant_entry.mp begins
    rcases unrolls.denotes.labelled first chain with ⟨xs, labelled⟩
    have related := (unrolls.denotes.isChain_iff labelled).mp chain
    have final : (Label.entry :: xs).getLast? = some .exit := by
      rcases getLast_related labelled last with ⟨x, found, label⟩
      rw [unrolls.variant_exit.mp exit] at label
      rw [found, label]
    cases xs with
    | nil => cases final
    | cons x xs =>
      rw [List.isChain_cons_cons] at related
      rcases related with ⟨⟨arc, -⟩, rest⟩
      cases arc with
      | @first d lands =>
        rw [List.getLast?_cons_cons] at final
        rcases course_of_chain rest final with ⟨l, split, course⟩
        rw [split] at labelled
        exact ⟨d, l, lands, course, labelled⟩

theorem Unrolls.begins (kept : .entry ∈ labels) : ∃ rest, labels = .entry :: .exit :: rest := by
  have present : Label.exit ∈ labels := (unrolls.mem_labels _).mpr ⟨.exit, exit_live⟩
  rcases unrolls.front with ⟨rest, sublist, other, away⟩
  cases sublist with
  | cons _ sublist =>
    rcases List.mem_cons.mp (sublist.subset kept) with wrong | later
    · cases wrong
    · exact absurd later other
  | cons_cons _ sublist =>
    cases sublist with
    | cons _ sublist =>
      rcases List.mem_cons.mp present with wrong | later
      · cases wrong
      · exact absurd (sublist.subset later) away
    | cons_cons _ _ => exact ⟨_, rfl⟩

theorem Unrolls.entry_label (kept : .entry ∈ labels) : labels[0]? = some .entry := by
  rcases unrolls.begins kept with ⟨rest, rfl⟩
  rfl

theorem Unrolls.exit_label (kept : .entry ∈ labels) : labels[1]? = some .exit := by
  rcases unrolls.begins kept with ⟨rest, rfl⟩
  rfl

omit unrolls in
theorem Unrolls.complete (okay : P.Ok) (defined : (P.M.func F).isDeclaration = false)
    (unrolls : Unrolls P F cfg labels) {d : Config} (lands : Lands P [.start F] d)
    (course : Course P F d l) :
    cfg.variant cfg.entry = some .entry ∧ ∃ path, Calls.Complete cfg path ∧ Passes labels path l := by
  have placed := ((stacked_start okay defined).lands okay lands).2
  have live := course.live okay defined placed
  have here := live d (List.mem_of_mem_head? course.head)
  have chain : (Label.entry :: (l.map Label.inst ++ [.exit])).IsChain
      fun x y => Arc P F x y ∧ ¬ Pointless P F y := by
    rw [List.isChain_cons]
    refine ⟨fun y first => ?_, course.chain okay defined placed⟩
    rw [List.head?_append, List.head?_map, course.head] at first
    cases first
    exact ⟨.first lands, here.2⟩
  have present : ∀ x ∈ Label.entry :: (l.map Label.inst ++ [.exit]), x ∈ labels := by
    intro x member
    rw [unrolls.mem_labels]
    rcases List.mem_cons.mp member with rfl | later
    · exact ⟨.entry, fun ⟨_, dead⟩ => here.2 (dead _ (.first lands))⟩
    · rcases List.mem_append.mp later with inner | last
      · rcases List.mem_map.mp inner with ⟨c, listed, rfl⟩
        exact live c listed
      · rw [List.mem_singleton.mp last]
        exact ⟨.exit, exit_live⟩
  have first := unrolls.entry_label (present _ List.mem_cons_self)
  rcases numbered present with ⟨path, passes⟩
  refine ⟨unrolls.variant_entry.mpr (unrolls.entry ▸ first), path, ⟨?_, ?_, ?_⟩, passes⟩
  · exact (unrolls.denotes.isChain_iff passes).mpr chain
  · cases passes with
    | cons found _ =>
      rw [List.head?_cons, number_unique unrolls.denotes.nodup found first, unrolls.entry]
  · have last : (Label.entry :: (l.map Label.inst ++ [.exit])).getLast? = some .exit := by
      simp [List.getLast?_cons]
    rcases getLast_related passes.flip last with ⟨e, here, found⟩
    exact ⟨e, here, unrolls.variant_exit.mpr found⟩

theorem Unrolls.variants (passes : Passes labels path l) : path.map cfg.variant =
      some .entry :: (l.map (fun c => c.head?.map fun fr => .inst fr.inst) ++ [some .exit]) := by
  have same {path : List NodeRef} {xs : List Label}
      (labelled : List.Forall₂ (fun n x => labels[n]? = some x) path xs) :
      path.map cfg.variant = xs.map Label.variant := by
    induction labelled with
    | nil => rfl
    | cons found _ ih => rw [List.map_cons, List.map_cons, unrolls.variant_eq, found, ih]; rfl
  rw [same passes, List.map_cons, List.map_append, List.map_map]
  rfl

end

end

theorem same_insts {ways : List Control} (same : List.Forall₂ Same ways l) :
    ways.map (fun c => c.head?.map fun s => Variant.inst s.inst) =
      l.map (fun c => c.head?.map fun fr => Variant.inst fr.inst) := by
  induction same with
  | nil => rfl
  | cons here _ ih =>
    rw [List.map_cons, List.map_cons, ih]
    cases here with
    | nil => rfl
    | cons spot _ =>
      rcases spot with ⟨func, block, index⟩
      simp only [List.head?_cons, Option.map_some, Spot.inst, Frame.inst, func, block, index]

/-- Every way of control through a function is a path through its unrolled graph. The graph is
built, unless a function ends in a terminator that is not recognized. -/
theorem trace_kept {P : Program} {F : FuncRef} (okay : P.Ok) (terminated : P.Terminated)
    (defined : (P.M.func F).isDeclaration = false) (order : HashOrder) {ways : List Control}
    (trace : Trace P [.start F] ways) :
    (¬ Broken P → ∃ cfg, constructCfg order P F = some cfg) ∧
    ∀ cfg, constructCfg order P F = some cfg → ∃ path, Calls.Complete cfg path ∧
      path.map cfg.variant =
        some .entry :: (ways.map (fun c => c.head?.map fun s => .inst s.inst) ++ [some .exit]) := by
  have yields := constructCfg_yields okay defined order
  refine ⟨fun whole => ?_, fun cfg constructed => ?_⟩
  · rcases yields with ⟨-, broken⟩ | ⟨cfg, constructed, -⟩
    · exact absurd broken whole
    · exact ⟨cfg, constructed⟩
  · rcases trace_course okay terminated defined trace (stacked_start okay defined)
      (.cons (matched_start (okay F defined)) .nil) with ⟨d, l, lands, course, same⟩
    rcases yields.result constructed with ⟨labels, -, -, unrolls, -⟩
    rcases unrolls.complete okay defined lands course with ⟨-, path, complete, passes⟩
    refine ⟨path, complete, ?_⟩
    rw [unrolls.variants passes, same_insts same]

theorem FuncPath.nil_iff {calls : List Config} {σ : Config} {path : List FuncID}
    (func : FuncPath calls σ path) : path = [] ↔ σ = [] := by
  cases func <;> simp

theorem Passes.mem_iff {labels : List Label} (passes : Passes labels path l) {c : Config} :
    c ∈ l ↔ ∃ n ∈ path, labels[n]? = some (.inst c) := by
  constructor
  · intro member
    have listed : Label.inst c ∈ Label.entry :: (l.map Label.inst ++ [.exit]) := by simp [member]
    rcases List.getElem?_of_mem listed with ⟨i, found⟩
    rcases lookup_related (List.Forall₂.flip passes) found with ⟨n, here, label⟩
    exact ⟨n, List.mem_of_getElem? here, label⟩
  · rintro ⟨n, member, label⟩
    rcases List.getElem?_of_mem member with ⟨i, found⟩
    rcases lookup_related passes found with ⟨x, here, label'⟩
    obtain rfl := Option.some.inj (label'.symm.trans label)
    simpa using List.mem_of_getElem? here

theorem callInLoop_terminated : callInLoop.Terminated :=
  Program.terminated_of_test (by decide)

theorem callInLoop_few {B S : Nat} {taken : Loop → Nat}
    (few : backEdges B S taken (.mk 1 [1] []) ≤ 1) (L : Loop) (member : (callInLoop.loopInfo 0).Mem L) :
    backEdges B S taken L ≤ callInLoop.numUnrolls := by
  have only : L = .mk 1 [1] [] := LoopInfo.Mem.single member
  rw [only]
  exact few

/-- The loop is left after one call. -/
theorem callInLoop_kept : ∃ cfg path, constructCfg .listed callInLoop 0 = some cfg ∧
    Calls.Complete cfg path ∧ path.map cfg.variant = [some .entry, some (.inst ⟨0, 0, 0⟩),
      some (.inst ⟨1, 0, 0⟩), some (.inst ⟨1, 0, 1⟩), some (.inst ⟨0, 1, 1⟩), some (.inst ⟨0, 2, 0⟩),
      some .exit] := by
  rcases callInLoop_constructed with ⟨cfg, constructed⟩
  have kept := trace_kept callInLoop_ok callInLoop_terminated rfl .listed <|
    .visit rfl (.jump rfl (List.mem_singleton_self 1) (callInLoop_few (by decide))) <|
    .enter rfl <| .visit rfl (.seq (by decide)) <| .visit rfl (.ret rfl rfl) <|
    .visit rfl (.jump rfl (List.mem_cons_of_mem 1 (List.mem_singleton_self 2))
      (callInLoop_few (by decide))) <| .finish rfl (.inl rfl)
  rcases kept.2 cfg constructed with ⟨path, complete, passes⟩
  exact ⟨cfg, path, constructed, complete, passes⟩

/-- A path through the unrolled graph is a way of control if and only if no `unreachable` on it is
that of an inlined function. -/
theorem path_valid_iff {P : Program} {F : FuncRef} (okay : P.Ok) (terminated : P.Terminated)
    (defined : (P.M.func F).isDeclaration = false) {order : HashOrder} {cfg : Cfg}
    (constructed : constructCfg order P F = some cfg) :
    ∃ labels, Unrolls P F cfg labels ∧ ∀ path, cfg.variant cfg.entry = some .entry →
      Calls.Complete cfg path →
      ((∃ ways l, Trace P [.start F] ways ∧ List.Forall₂ Same ways l ∧ Passes labels path l) ↔
        ∀ n ∈ path, ∀ node, cfg.nodes[n]? = some node → ∀ I id, node.v = .inst I →
          node.id = some id → (P.M.deref I).isUnreachable = true → id.func = []) := by
  rcases (constructCfg_yields okay defined order).result constructed with
    ⟨labels, calls, loops, unrolls, depicted⟩
  refine ⟨labels, unrolls, fun path begins complete => ⟨?_, fun own => ?_⟩⟩
  · rintro ⟨ways, l, trace, same, passes⟩ n member node here I id inst named stops
    rcases lookup_related depicted.flip here with ⟨x, label, depicts⟩
    rcases Depicts.inst_of_id depicts named with ⟨fr, σ, rfl, inst', names⟩
    obtain rfl := Variant.inst.inj (inst.symm.trans inst')
    rcases List.getElem?_of_mem (passes.mem_iff.mpr ⟨n, member, label⟩) with ⟨i, found⟩
    rcases lookup_related same.flip found with ⟨c, listed, matched⟩
    have proper := trace_proper okay terminated defined trace (stacked_start okay defined)
      (.cons (matched_start (okay F defined)) .nil) c (List.mem_of_getElem? listed)
    cases matched with
    | @cons s _ τ _ spot below =>
      have there : s.inst = fr.inst := by
        rw [Spot.inst, Frame.inst, spot.1, spot.2.1, spot.2.2]
      cases proper s τ rfl (there ▸ stops)
      cases below
      exact names.func.nil_iff.mpr rfl
  · rcases unrolls.passes begins complete with ⟨d, l, lands, course, passes⟩
    have proper : ∀ e ∈ l, Proper P e := by
      intro e member
      cases e with
      | nil => trivial
      | cons fr σ =>
        intro stops
        rcases passes.mem_iff.mp member with ⟨n, listed, label⟩
        rcases lookup_related depicted label with ⟨node, here, depicts⟩
        cases depicts with
        | inst names => exact names.func.nil_iff.mp (own n listed _ here _ _ rfl rfl stops)
    rcases Option.bind_eq_some_iff.mp constructed with ⟨built, whole, -⟩
    rcases course_trace okay defined whole course lands (stacked_start okay defined)
      (.cons (matched_start (okay F defined)) .nil) proper with ⟨ways, trace, same⟩
    exact ⟨ways, l, trace, same, passes⟩

theorem callInLoop_valid_iff : ∃ cfg, constructCfg .listed callInLoop 0 = some cfg ∧
    ∃ labels, Unrolls callInLoop 0 cfg labels ∧ ∀ path, cfg.variant cfg.entry = some .entry →
      Calls.Complete cfg path →
      ((∃ ways l, Trace callInLoop [.start 0] ways ∧ List.Forall₂ Same ways l ∧ Passes labels path l) ↔
        ∀ n ∈ path, ∀ node, cfg.nodes[n]? = some node → ∀ I id, node.v = .inst I →
          node.id = some id → (callInLoop.M.deref I).isUnreachable = true → id.func = []) := by
  rcases callInLoop_constructed with ⟨cfg, constructed⟩
  exact ⟨cfg, constructed, path_valid_iff callInLoop_ok callInLoop_terminated rfl constructed⟩

def callStops : Program where
  M := ⟨[
    ⟨[[⟨.call (some 1) false false, [], [], [], true, false, false⟩,
      ⟨.ret, [], [], [], true, false, false⟩]], [[]], []⟩,
    ⟨[[⟨.unreachable, [], [], [], true, false, false⟩]], [[]], []⟩]⟩
  loopInfo _ := ⟨[]⟩
  numUnrolls := 1
  recursiveCallLimit := 2

theorem callStops_ok : callStops.Ok := by
  intro f defined
  match f with
  | 0 | 1 => exact ⟨Function.wellFormed_of_test (by decide), LoopInfo.Natural.none, by decide⟩
  | f + 2 => cases defined

/-- The graph goes on to the return, though control never leaves the function that is called. -/
theorem callStops_goes_on : callStops.Ok ∧ callStops.Terminated ∧
    ∃ cfg, constructCfg .listed callStops 0 = some cfg ∧ cfg.variant cfg.entry = some .entry ∧
    Calls.Complete cfg [0, 2, 3, 1] ∧ [0, 2, 3, 1].map cfg.variant =
      [some .entry, some (.inst ⟨1, 0, 0⟩), some (.inst ⟨0, 0, 1⟩), some .exit] ∧
    ∀ ways, ¬ Trace callStops [.start 0] ways := by
  have built : ∃ cfg ∈ constructCfg .listed callStops 0,
      cfg.entry = 0 ∧ [0, 2, 3, 1].IsChain cfg.po.Edge ∧ [0, 2, 3, 1].map cfg.variant =
        [some .entry, some (.inst ⟨1, 0, 0⟩), some (.inst ⟨0, 0, 1⟩), some .exit] := by decide +kernel
  rcases built with ⟨cfg, made, entry, chain, nodes⟩
  have first : cfg.variant 0 = some .entry := (List.cons.inj nodes).1
  have last : cfg.variant 1 = some .exit := by simpa using congrArg List.getLast? nodes
  refine ⟨callStops_ok, Program.terminated_of_test (by decide), cfg, made, entry ▸ first,
    ⟨chain, entry ▸ rfl, 1, rfl, last⟩, nodes, fun ways trace => ?_⟩
  have stuck (ways : List Control) : ¬ Trace callStops [.start 1, .start 0] ways := by
    intro trace
    cases trace with
    | visit _ goes _ =>
      cases goes with
      | seq further => exact absurd further (by decide)
      | jump _ flow _ => cases flow
      | ret _ returns => cases returns
    | enter call _ => cases call
  cases trace with
  | finish atEnd _ => exact absurd atEnd (by decide)
  | visit plain _ _ => cases plain
  | enter call rest =>
    cases call
    exact stuck _ rest

end Clou.Unrolled
