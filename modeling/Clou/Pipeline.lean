import Clou.LoopFree
import Clou.UnrolledShape

/-! The graphs that a function is turned into, one after the other, before references are resolved. -/

namespace Clou

namespace Cfg

def Variant.instruction : Variant → Option InstRef
  | .inst I => some I
  | .call C _ => some C
  | _ => none

/-- The instructions along a path; the entry and the exit have none. -/
def instructions (cfg : Cfg) (path : List NodeRef) : List (Option InstRef) :=
  (path.map cfg.variant).map (·.bind Variant.instruction)

variable {cfg cfg' : Cfg} {path : List NodeRef}

theorem variant_valid {n : NodeRef} {v : Variant} (found : cfg.variant n = some v) : n < cfg.size := by
  obtain ⟨node, here, -⟩ := Option.map_eq_some_iff.mp found
  exact (List.getElem?_eq_some_iff.mp here).1

namespace Calls

theorem Complete.valid (complete : Complete cfg path) (wellFormed : cfg.WellFormed) :
    ∀ n ∈ path, n < cfg.size := by
  obtain ⟨chain, -, e, last, exit⟩ := complete
  induction path with
  | nil => nofun
  | cons n path ih =>
    cases path with
    | nil =>
      cases last
      exact List.forall_mem_singleton.mpr (variant_valid exit)
    | cons m path =>
      rw [List.isChain_cons_cons] at chain
      rw [List.getLast?_cons_cons] at last
      exact List.forall_mem_cons.mpr ⟨(wellFormed.valid chain.1).1, ih chain.2 last⟩

variable {deref : InstRef → Inst} {isPointerTy : Value → Bool} {source : NodeRef → NodeRef}

theorem copies_instruction {node copy : Node} (member : copy ∈ copies deref isPointerTy node) :
    copy.v.instruction = node.v.instruction := by
  obtain rfl | ⟨I, arg, inst, rfl⟩ := mem_copies member
  · rfl
  · rw [inst]
    rfl

section

variable (constructed : Constructed deref isPointerTy cfg cfg' source) (wellFormed : cfg.WellFormed)
  (first : cfg.variant 0 = some .entry) (entry : cfg.entry = 0)

include constructed

theorem Constructed.exists_copy {n : NodeRef} (valid : n < cfg.size) : ∃ a < cfg'.size, source a = n := by
  obtain ⟨set, nonempty, -, mem_set, -⟩ := constructed.copies (List.getElem?_eq_getElem valid)
  obtain ⟨a, member⟩ := List.exists_mem_of_ne_nil set nonempty
  exact ⟨a, (mem_set a).mp member⟩

theorem Constructed.instruction_eq {a : NodeRef} (valid : a < cfg'.size) :
    (cfg'.variant a).bind Variant.instruction = (cfg.variant (source a)).bind Variant.instruction := by
  have found := List.getElem?_eq_getElem valid
  obtain ⟨node, original, member⟩ := constructed.copy found
  rw [variant, variant, found, original]
  exact copies_instruction member

include wellFormed first entry

theorem Constructed.exists_path (complete : Complete cfg path) :
    ∃ path', Complete cfg' path' ∧ cfg'.instructions path' = cfg.instructions path := by
  have valid := complete.valid wellFormed
  choose! pick inside copy using fun n (here : n < cfg.size) => constructed.exists_copy here
  have picked : ∀ a ∈ path.map pick, a < cfg'.size := by
    simpa using fun n member => inside n (valid n member)
  have back : (path.map pick).map source = path := by
    rw [List.map_map]
    exact (List.map_congr_left fun n member => copy n (valid n member)).trans path.map_id
  refine ⟨path.map pick, (constructed.complete_iff first entry picked).mpr (back.symm ▸ complete), ?_⟩
  nth_rewrite 2 [← back]
  simp only [instructions, List.map_map]
  refine List.map_congr_left fun n member => constructed.instruction_eq (inside n (valid n member))

theorem Constructed.reaches {n : NodeRef} (way : cfg.Reaches cfg.entry n) :
    ∀ a < cfg'.size, source a = n → cfg'.Reaches cfg'.entry a := by
  induction way with
  | refl =>
    intro a valid same
    rw [constructed.entry, (constructed.source_zero first valid).mp (same.trans entry)]
    exact .refl
  | tail _ edge ih =>
    intro a valid same
    obtain ⟨b, inside, copy⟩ := constructed.exists_copy (wellFormed.valid edge).1
    exact (ih b inside copy).tail (constructed.edge.mpr ⟨inside, valid, by rwa [copy, same]⟩)

end

end Calls

theorem Sorted.complete {f : NodeRef → NodeRef} (sorted : Sorted cfg cfg' f)
    (wellFormed : cfg.WellFormed) (complete : Calls.Complete cfg path) :
    Calls.Complete cfg' (path.map f) ∧ cfg'.instructions (path.map f) = cfg.instructions path := by
  have valid := complete.valid wellFormed
  have variant {u : NodeRef} (here : u < cfg.size) : cfg'.variant (f u) = cfg.variant u := by
    rw [Cfg.variant, Cfg.variant, sorted.nodes u here]
  obtain ⟨chain, head, e, last, exit⟩ := complete
  refine ⟨⟨?_, by rw [List.head?_map, head, sorted.entry]; rfl, f e, by rw [List.getLast?_map, last]; rfl, ?_⟩, ?_⟩
  · rw [List.isChain_map]
    refine chain.imp fun u v edge => ?_
    exact (sorted.edge u (wellFormed.valid edge).1 v (wellFormed.valid edge).2).mpr edge
  · rw [variant (variant_valid exit), exit]
  · simp only [instructions, List.map_map]
    exact List.map_congr_left fun n member => by simp [variant (valid n member)]

end Cfg

namespace Lcm

open Cfg Unrolled

def cfgCalls (order : HashOrder) (P : Program) (F : FuncRef) (isPointerTy : Value → Bool) : Option Cfg := do
  let unrolled ← constructCfg order P F
  let calls ← Calls.construct P.M.deref isPointerTy unrolled
  calls.sort

/-- No run is lost on the way to the graph that is analysed: each is a path of it. The nodes are
numbered along program order, beginning with the entry if all are reached from there. -/
theorem calls_keep_traces {P : Program} {F : FuncRef} (okay : P.Ok) (terminated : P.Terminated)
    (reducible : P.Reducible) (defined : (P.M.func F).isDeclaration = false) {order : HashOrder}
    {unrolled : Cfg} (constructed : constructCfg order P F = some unrolled)
    (isPointerTy : Value → Bool) {ways : List Control} (trace : Trace P [.start F] ways) :
    ∃ calls, cfgCalls order P F isPointerTy = some calls ∧ calls.Topological ∧
      (unrolled.Traversable → calls.entry = 0) ∧
      ∃ path, Calls.Complete calls path ∧ calls.instructions path =
        none :: (ways.map (fun c => c.head?.map Spot.inst) ++ [none]) := by
  obtain ⟨d, l, lands, course, same⟩ := trace_course okay terminated defined trace
    (stacked_start okay defined) (.cons (matched_start (okay F defined)) .nil)
  obtain ⟨labels, -, -, unrolls, -⟩ := (constructCfg_yields okay defined order).result constructed
  obtain ⟨begins, path, complete, passes⟩ := unrolls.complete okay defined lands course
  have first : unrolled.variant 0 = some .entry := unrolls.entry ▸ begins
  obtain ⟨split, source, made, spec⟩ := Calls.construct_spec P.M.deref isPointerTy unrolls.wellFormed
  obtain ⟨a, inside, -⟩ := spec.exists_copy (variant_valid first)
  have entry : split.entry < split.size := spec.entry ▸ Nat.zero_lt_of_lt inside
  have exits : ∀ e ∈ split.exits, e < split.size := by
    obtain ⟨edges, -, result⟩ := Option.bind_eq_some_iff.mp made
    cases result
    nofun
  have acyclic := spec.acyclic (unrolls.acyclic okay reducible defined)
  obtain ⟨postorder, computed, perm, pairwise⟩ := computePostorder_spec spec.wellFormed acyclic
  obtain ⟨calls, sorts, sorted⟩ := sort_sorted spec.wellFormed acyclic entry exits computed perm pairwise
  refine ⟨calls, by simp [cfgCalls, constructed, made, sorts], ?_, fun traversable => ?_, ?_⟩
  · exact ⟨fun edge => (sorted.increasing edge).1, fun edge => (sorted.increasing edge).2⟩
  · refine sorted.entry_zero (fun edge => spec.wellFormed.valid edge) entry fun n valid => ?_
    have way := (traversable.through _ (spec.source_lt n valid)).1
    exact spec.reaches unrolls.wellFormed first unrolls.entry way n valid rfl
  · obtain ⟨path', complete', kept⟩ := spec.exists_path unrolls.wellFormed first unrolls.entry complete
    obtain ⟨complete'', kept'⟩ := sorted.complete spec.wellFormed complete'
    refine ⟨_, complete'', kept'.trans (kept.trans ?_)⟩
    have variants := unrolls.variants passes
    rw [← same_insts same] at variants
    rw [instructions, variants]
    simp only [List.map_cons, List.map_append, List.map_map, List.map_nil]
    congr 2
    refine List.map_congr_left fun c _ => ?_
    cases c <;> rfl

/-- The loop is left after one call. -/
theorem callInLoop_keeps_trace : ∃ calls path, cfgCalls .listed callInLoop 0 (fun _ => true) = some calls ∧
    Calls.Complete calls path ∧ calls.instructions path = [none, some ⟨0, 0, 0⟩, some ⟨1, 0, 0⟩,
      some ⟨1, 0, 1⟩, some ⟨0, 1, 1⟩, some ⟨0, 2, 0⟩, none] := by
  obtain ⟨cfg, constructed⟩ := callInLoop_constructed
  obtain ⟨calls, made, -, -, path, complete, kept⟩ := calls_keep_traces callInLoop_ok
    callInLoop_terminated callInLoop_reducible rfl constructed (fun _ => true) <|
    .visit rfl (.jump rfl (List.mem_singleton_self 1) (callInLoop_few (by decide))) <|
    .enter rfl <| .visit rfl (.seq (by decide)) <| .visit rfl (.ret rfl rfl) <|
    .visit rfl (.jump rfl (List.mem_cons_of_mem 1 (List.mem_singleton_self 2))
      (callInLoop_few (by decide))) <| .finish rfl (.inl rfl)
  exact ⟨calls, path, made, complete, kept⟩

end Lcm

end Clou
