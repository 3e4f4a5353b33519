import Clou.Nest

/-! What the construction of loops and of the blocks around them adds to the drawing. -/

namespace Clou.Unrolled

open Cfg Labelled Edit

/-! Adding links to a finished set of frames -/

def Linked (P : Program) (σ : Config) (R : Frame → Prop) (G G' : Drawing) (s : State)
    (N : Frame → Frame → Prop) : Prop :=
  ∃ edge, Shows s { G' with edge := edge } ∧ Extends P σ R N G { G' with edge := edge }

section

variable {P : Program} {σ : Config} {R : Frame → Prop} {G G' : Drawing}

variable {s : State} {N : Frame → Frame → Prop}

theorem Linked.congr {N' : Frame → Frame → Prop} (linked : Linked P σ R G G' s N)
    (same : ∀ a b, N a b ↔ N' a b) : Linked P σ R G G' s N' := by
  rcases linked with ⟨edge, shows, extended⟩
  exact ⟨edge, shows, extended.congr (fun _ => Iff.rfl) same⟩

theorem Linked.foldlM {A : Type} {l : List A} {step : State → A → Option State}
    {new : A → Frame → Frame → Prop}
    (each : ∀ a ∈ l, ∀ s N, Linked P σ R G G' s N →
      ∃ s', step s a = some s' ∧ Linked P σ R G G' s' (fun x y => N x y ∨ new a x y))
    (linked : Linked P σ R G G' s N) :
    ∃ s', l.foldlM step s = some s' ∧
      Linked P σ R G G' s' (fun x y => N x y ∨ ∃ a ∈ l, new a x y) := by
  induction l generalizing s N with
  | nil => exact ⟨s, rfl, linked.congr (by simp)⟩
  | cons a l ih =>
    rcases each a List.mem_cons_self s N linked with ⟨s₁, first, linked₁⟩
    rcases ih (fun b later => each b (List.mem_cons_of_mem a later)) linked₁ with
      ⟨s₂, rest, linked₂⟩
    refine ⟨s₂, foldlM_cons_eq_some.mpr ⟨s₁, first, rest⟩, linked₂.congr fun x y => ?_⟩
    rw [List.exists_mem_cons_iff, or_assoc]

theorem Linked.connect (linked : Linked P σ R G G' s N) {srcs : List NodeRef}
    (valid : ∀ n ∈ srcs, n < G'.labels.length) {L : Frame → Prop}
    (listed : ∀ x, Listed G'.labels srcs x ↔ ∃ c fr, L fr ∧ Leaves P (fr :: σ) c ∧ x = .inst c)
    {fr' : Frame} {entry : Option NodeRef} (enters : Enters P σ fr' G'.labels entry) :
    ∃ s', connect srcs entry s = some s' ∧
      Linked P σ R G G' s' (fun a b => N a b ∨ L a ∧ b = fr') := by
  rcases linked with ⟨edge, shows, extended⟩
  rcases extended.connect shows valid listed enters with ⟨s', edge', connected, shows', extended'⟩
  exact ⟨s', connected, edge', shows', extended'⟩

end

/-! Parts -/

section

variable (P : Program) (f : FuncRef) (σ : Config) (p : List Nat) (loops : List Loop)

def EndsOf (blocks : List Nat) (X : Frame → Prop) (c : Config) : Prop :=
  ∃ fr, c = fr :: σ ∧ Region P f p loops blocks fr ∧ AtEnd P fr ∧ X fr

structure PartOk (labels : List Label) (part : Part) : Prop where
  entry : ∀ S ∈ part.blocks, LaidBlock P f S →
    Enters P σ (entryFrame f p loops S) labels part.port.entry
  exits : ∃ X, (∀ fr, fr.block ∈ part.exiting → X fr) ∧
    Marks labels part.port.exits (EndsOf P f σ p loops part.blocks X)

structure Tiles (blocks : List Nat) (parts : List Part) : Prop where
  mem : ∀ {B}, B ∈ blocks ↔ ∃ part ∈ parts, B ∈ part.blocks
  unique : ∀ {i j : Nat} {part part' : Part} {B}, parts[i]? = some part → parts[j]? = some part' →
    B ∈ part.blocks → B ∈ part'.blocks → i = j
  loop : ∀ part ∈ parts, part.loop = true →
    ∃ T ∈ loops, part.blocks = T.blocks ∧ part.exiting = exitingBlocks P f T
  own : ∀ part ∈ parts, part.loop = false →
    ∃ B, part.blocks = [B] ∧ part.exiting = [B] ∧ ∀ T ∈ loops, B ∉ T.blocks

end

variable {P : Program} {f : FuncRef} {σ : Config} {p : List Nat} {loops : List Loop}
  {blocks : List Nat} {labels labels' : List Label} {part : Part}

theorem PartOk.grow (okay : PartOk P f σ p loops labels part) (more : labels <+: labels')
    (nodup : labels'.Nodup) : PartOk P f σ p loops labels' part := by
  rcases okay.exits with ⟨X, exiting, marks⟩
  exact ⟨fun S member laid => (okay.entry S member laid).grow more,
    ⟨X, exiting, marks.grow more nodup⟩⟩

theorem Region.leaves (ok : FunctionOk P f) {fr : Frame} (region : Region P f p loops blocks fr)
    (last : AtEnd P fr) {c : Config} : Leaves P (fr :: σ) c ↔ c = fr :: σ :=
  leaves_none (entered_atEnd ok region.func region.laid last σ)

namespace Tiles

variable {parts : List Part}

variable {part : Part} {B : Nat}

section

variable (tiles : Tiles P f loops blocks parts)

include tiles

theorem getBlockPort_eq {i : Nat} (found : parts[i]? = some part) (here : B ∈ part.blocks) :
    getBlockPort parts B = some i := by
  cases index : getBlockPort parts B with
  | none =>
    have never := List.findIdx?_eq_none_iff.mp index part (List.mem_of_getElem? found)
    simp [here] at never
  | some j =>
    rcases List.findIdx?_eq_some_iff_getElem.mp index with ⟨bound, test, -⟩
    rw [tiles.unique (List.getElem?_eq_getElem bound) found (by simpa using test) here]

theorem exists_port (member : B ∈ blocks) :
    ∃ i part, getBlockPort parts B = some i ∧ parts[i]? = some part ∧ B ∈ part.blocks := by
  rcases tiles.mem.mp member with ⟨part, present, here⟩
  rcases List.getElem?_of_mem present with ⟨i, found⟩
  exact ⟨i, part, tiles.getBlockPort_eq found here, found, here⟩

theorem getBlockPort_none (outside : B ∉ blocks) : getBlockPort parts B = none := by
  apply List.findIdx?_eq_none_iff.mpr
  intro part present
  have absent : B ∉ part.blocks := fun here => outside (tiles.mem.mpr ⟨part, present, here⟩)
  simp [absent]

/-- A jump from a part crosses unless it stays in the same loop. -/
theorem crosses_iff (side : SideBySide (P.M.func f) (P.loopInfo f) loops) {i j : Nat} {part' : Part}
    (left : parts[i]? = some part) (right : parts[j]? = some part') {S : Nat}
    (here : B ∈ part.blocks) (there : S ∈ part'.blocks) :
    Crosses loops blocks B S ↔ ¬ (part.loop = true ∧ i = j) := by
  have member := List.mem_of_getElem? left
  have target : S ∈ blocks := tiles.mem.mpr ⟨part', List.mem_of_getElem? right, there⟩
  constructor
  · rintro crosses ⟨loop, rfl⟩
    rcases tiles.loop part member loop with ⟨T, present, blocks, -⟩
    obtain rfl := Option.some.inj (left.symm.trans right)
    exact crosses.2 T present (blocks ▸ here) (blocks ▸ there)
  · intro apart
    refine ⟨target, fun T present inside outside => ?_⟩
    cases loop : part.loop with
    | false =>
      rcases tiles.own part member loop with ⟨C, blocks, -, own⟩
      rw [blocks, List.mem_singleton] at here
      exact own T present (here ▸ inside)
    | true =>
      rcases tiles.loop part member loop with ⟨T', present', blocks, -⟩
      obtain rfl := side.disjoint T present T' present' B inside (blocks ▸ here)
      exact apart ⟨loop, tiles.unique left right (by rwa [blocks]) there⟩

theorem exiting_mem (member : part ∈ parts) (exiting : B ∈ part.exiting) : B ∈ part.blocks := by
  cases loop : part.loop with
  | false =>
    rcases tiles.own part member loop with ⟨C, blocks, exits, -⟩
    rw [blocks]
    rwa [exits] at exiting
  | true =>
    rcases tiles.loop part member loop with ⟨T, -, blocks, exits⟩
    rw [exits] at exiting
    rw [blocks]
    exact (List.mem_filter.mp exiting).1

/-- A block that is asked for is an exiting one of its part. -/
theorem exiting_of_asked (member : part ∈ parts) (here : B ∈ part.blocks)
    (asked : ∀ T ∈ loops, B ∈ T.blocks → B ∈ exitingBlocks P f T) : B ∈ part.exiting := by
  cases loop : part.loop with
  | false =>
    rcases tiles.own part member loop with ⟨C, blocks, exits, -⟩
    rw [exits]
    rwa [blocks] at here
  | true =>
    rcases tiles.loop part member loop with ⟨T, present, blocks, exits⟩
    rw [exits]
    exact asked T present (blocks ▸ here)

theorem exiting_of_crosses (member : part ∈ parts) {S : Nat} (here : B ∈ part.blocks)
    (flow : S ∈ ((P.M.func f).terminator B).successors) (crosses : Crosses loops blocks B S) :
    B ∈ part.exiting :=
  tiles.exiting_of_asked member here fun T present inside => List.mem_filter.mpr
    ⟨inside, List.any_eq_true.mpr ⟨S, flow, by simpa using crosses.2 T present inside⟩⟩

end

end Tiles

/-! Connecting the parts -/

variable {s : State} {N : Frame → Frame → Prop}

section

variable {parts : List Part} {R : Frame → Prop} {G G' : Drawing}
  (ok : FunctionOk P f) (side : SideBySide (P.M.func f) (P.loopInfo f) loops)
  (valid : ∀ B ∈ blocks, B < (P.M.func f).blocks.length) (tiles : Tiles P f loops blocks parts)
  (okay : ∀ part ∈ parts, PartOk P f σ p loops G'.labels part)

include ok side valid tiles okay

theorem doConnect_links {i : Nat} (found : parts[i]? = some part) {srcB : Nat}
    (exiting : srcB ∈ part.exiting) (linked : Linked P σ R G G' s N) :
    ∃ s', doConnect P f parts i part srcB s = some s' ∧
      Linked P σ R G G' s' (fun a b => N a b ∨
        ∃ S ∈ ((P.M.func f).terminator srcB).successors,
          (Region P f p loops part.blocks a ∧ AtEnd P a ∧ a.block = srcB ∧
            Crosses loops blocks srcB S) ∧ b = entryFrame f p loops S) := by
  have member := List.mem_of_getElem? found
  have here := tiles.exiting_mem member exiting
  rcases (okay part member).exits with ⟨X, marked, marks⟩
  apply Linked.foldlM _ linked
  intro S flow s N linked
  by_cases inside : S ∈ blocks
  · rcases tiles.exists_port inside with ⟨j, part', port, found', there⟩
    have crosses := tiles.crosses_iff side found found' here there
    simp only [port]
    split
    · rename_i same
      refine ⟨s, rfl, linked.congr fun a b => ?_⟩
      have stays : ¬ Crosses loops blocks srcB S := fun across => crosses.mp across same
      simp [stays]
    · rename_i apart
      have laid := laid_successor ok (valid srcB (tiles.mem.mpr ⟨part, member, here⟩)) flow
      have enters := (okay part' (List.mem_of_getElem? found')).entry S there laid
      have left := marks.filter ⟨f, srcB⟩
      have listed (x : Label) : Listed G'.labels
          ((part.port.exits.filter fun exit => exit.1 = ⟨f, srcB⟩).map Prod.snd) x ↔
          ∃ c fr, (Region P f p loops part.blocks fr ∧ AtEnd P fr ∧ fr.block = srcB) ∧
            Leaves P (fr :: σ) c ∧ x = .inst c := by
        rw [left.listed]
        constructor
        · rintro ⟨c, ⟨⟨fr, rfl, region, last, -⟩, fr', same, parent⟩, rfl⟩
          obtain rfl := Option.some.inj same
          exact ⟨_, fr, ⟨region, last, congrArg BlockRef.index parent⟩,
            (region.leaves ok last).mpr rfl, rfl⟩
        · rintro ⟨c, fr, ⟨region, last, rfl⟩, leaves, rfl⟩
          obtain rfl := (region.leaves ok last).mp leaves
          exact ⟨_, ⟨⟨fr, rfl, region, last, marked fr exiting⟩, fr, rfl,
            by rw [Frame.parent, region.func]⟩, rfl⟩
      rw [found']
      rcases linked.connect (fun n member => left.valid member) listed enters with
        ⟨s', connected, linked'⟩
      refine ⟨s', connected, linked'.congr fun a b => ?_⟩
      simp [crosses.mpr apart]
  · simp only [tiles.getBlockPort_none inside]
    refine ⟨s, rfl, linked.congr fun a b => ?_⟩
    have stays : ¬ Crosses loops blocks srcB S := fun across => inside across.1
    simp [stays]

theorem connectParts_links (linked : Linked P σ R G G' s N) :
    ∃ s', connectParts P f parts s = some s' ∧
      Linked P σ R G G' s' (fun a b => N a b ∨
        ∃ S, (Region P f p loops blocks a ∧ AtEnd P a ∧ S ∈ successors P a ∧
          Crosses loops blocks a.block S) ∧ b = entryFrame f p loops S) := by
  have each (part : Part × Nat) (present : part ∈ parts.zipIdx) (s : State)
      (N : Frame → Frame → Prop) (linked : Linked P σ R G G' s N) :
      ∃ s', part.1.exiting.foldlM (fun s srcB => doConnect P f parts part.2 part.1 srcB s) s = some s' ∧
        Linked P σ R G G' s' (fun a b => N a b ∨ ∃ srcB ∈ part.1.exiting,
          ∃ S ∈ ((P.M.func f).terminator srcB).successors,
            (Region P f p loops part.1.blocks a ∧ AtEnd P a ∧ a.block = srcB ∧
              Crosses loops blocks srcB S) ∧ b = entryFrame f p loops S) :=
    Linked.foldlM (fun srcB exiting s N linked => doConnect_links ok side valid tiles okay
      (List.mk_mem_zipIdx_iff_getElem?.mp present) exiting linked) linked
  rcases Linked.foldlM each linked with ⟨s', connected, linked'⟩
  refine ⟨s', connected, linked'.congr fun a b => or_congr_right ?_⟩
  constructor
  · rintro ⟨⟨part, i⟩, present, srcB, exiting, S, flow, ⟨region, last, rfl, crosses⟩, rfl⟩
    have member := List.mem_of_getElem? (List.mk_mem_zipIdx_iff_getElem?.mp present)
    refine ⟨S, ⟨region.of_blocks (tiles.mem.mpr ⟨part, member, region.block⟩), last, ?_, crosses⟩,
      rfl⟩
    rw [successors, region.func]
    exact flow
  · rintro ⟨S, ⟨region, last, flow, crosses⟩, rfl⟩
    rcases tiles.mem.mp region.block with ⟨part, member, here⟩
    rcases List.getElem?_of_mem member with ⟨i, found⟩
    rw [successors, region.func] at flow
    exact ⟨(part, i), List.mk_mem_zipIdx_iff_getElem?.mpr found, a.block,
      tiles.exiting_of_crosses member here flow crosses, S, flow,
      ⟨region.of_blocks here, last, rfl, crosses⟩, rfl⟩

end

variable {parts : List Part}

theorem getBlockPort_congr {parts' : List Part}
    (same : parts.map (·.blocks) = parts'.map (·.blocks)) (B : Nat) :
    getBlockPort parts B = getBlockPort parts' B := by
  have mapped (parts : List Part) : getBlockPort parts B =
      (parts.map (·.blocks)).findIdx? (fun blocks => decide (B ∈ blocks)) := by
    rw [List.findIdx?_map]
    rfl
  rw [mapped, mapped, same]

variable {exits : List Nat}

theorem mem_mergeExits
    (ports : ∀ B ∈ exits, ∃ i part, getBlockPort parts B = some i ∧ parts[i]? = some part) :
    ∃ merged, mergeExits exits parts = some merged ∧ ∀ e, e ∈ merged ↔
      ∃ B ∈ exits, ∃ i part, getBlockPort parts B = some i ∧ parts[i]? = some part ∧
        e ∈ part.port.exits := by
  induction exits generalizing parts with
  | nil => exact ⟨[], rfl, by simp⟩
  | cons B exits ih =>
    rcases ports B List.mem_cons_self with ⟨i, part, port, found⟩
    have bound := (List.getElem?_eq_some_iff.mp found).1
    have lookup (j : Nat) : (parts.set i { part with port := { part.port with exits := [] } })[j]? =
        if i = j then some { part with port := { part.port with exits := [] } }
        else parts[j]? := by
      simp [List.getElem?_set, bound]
    have same (C : Nat) : getBlockPort
        (parts.set i { part with port := { part.port with exits := [] } }) C =
        getBlockPort parts C := by
      apply getBlockPort_congr
      apply List.ext_getElem?
      intro j
      rw [List.getElem?_map, List.getElem?_map, lookup]
      split
      · rename_i here
        rw [← here, found]
        rfl
      · rfl
    have later (C : Nat) (later : C ∈ exits) : ∃ j part', getBlockPort
        (parts.set i { part with port := { part.port with exits := [] } }) C = some j ∧
        (parts.set i { part with port := { part.port with exits := [] } })[j]? = some part' := by
      rcases ports C (List.mem_cons_of_mem B later) with ⟨j, part', port', found'⟩
      rw [same]
      by_cases again : i = j
      · exact ⟨j, _, port', by rw [lookup, if_pos again]⟩
      · exact ⟨j, part', port', by rw [lookup, if_neg again, found']⟩
    rcases ih later with ⟨merged, rest, mem_merged⟩
    refine ⟨part.port.exits ++ merged, by simp [mergeExits, port, found, rest], fun e => ?_⟩
    simp only [List.mem_append, mem_merged, same, lookup]
    constructor
    · rintro (first | ⟨C, later, j, part', port', found', member⟩)
      · exact ⟨B, List.mem_cons_self, i, part, port, found, first⟩
      · split at found'
        · cases found'
          cases member
        · exact ⟨C, List.mem_cons_of_mem B later, j, part', port', found', member⟩
    · rintro ⟨C, here, j, part', port', found', member⟩
      by_cases again : i = j
      · subst again
        rw [found] at found'
        cases found'
        exact .inl member
      · rcases List.mem_cons.mp here with rfl | later
        · rw [port] at port'
          exact absurd (Option.some.inj port') again
        · exact .inr ⟨C, later, j, part', port', by rw [if_neg again, found'], member⟩

/-! Blocks outside of the loops -/

def Part.outline (part : Part) : Bool × List Nat × List Nat := (part.loop, part.blocks, part.exiting)

theorem partOk_block (ok : FunctionOk P f) {B : Nat} (laid : LaidBlock P f B)
    (outside : ∀ T ∈ loops, B ∉ T.blocks) {port : Port}
    (entry : Enters P σ ⟨f, B, 0, p⟩ labels port.entry)
    (exits : Marks labels port.exits
      (Leaves P (⟨f, B, ((P.M.func f).block B).length - 1, p⟩ :: σ))) :
    PartOk P f σ p loops labels ⟨false, [B], [B], port⟩ := by
  have nonempty := ok.wellFormed.nonempty laid.1
  have last : AtEnd P ⟨f, B, ((P.M.func f).block B).length - 1, p⟩ := Nat.sub_add_cancel nonempty
  have region : Region P f p loops [B] ⟨f, B, ((P.M.func f).block B).length - 1, p⟩ :=
    (region_own laid outside _).mp ⟨_, Nat.zero_le _, Nat.sub_lt nonempty Nat.one_pos, rfl⟩
  constructor
  · intro S member _
    obtain rfl := List.mem_singleton.mp member
    rw [entryFrame, enterBlock_own outside, List.append_nil]
    exact entry
  · refine ⟨(·.block = B), by simp, exits.congr fun c => ?_⟩
    rw [region.leaves ok last]
    constructor
    · rintro rfl
      exact ⟨_, rfl, region, last, rfl⟩
    · rintro ⟨fr, rfl, region', last', -⟩
      rcases (region_own laid outside fr).mpr region' with ⟨j, -, bound, rfl⟩
      have index : j = ((P.M.func f).block B).length - 1 := by
        have same : j + 1 = ((P.M.func f).block B).length := last'
        omega
      rw [index]

theorem partOk_none {B : Nat} (unlaid : ¬ LaidBlock P f B) :
    PartOk P f σ p loops labels ⟨false, [B], [B], ⟨none, []⟩⟩ := by
  constructor
  · intro S member laid
    exact absurd (List.mem_singleton.mp member ▸ laid) unlaid
  · refine ⟨fun _ => True, fun _ _ => trivial, Marks.nil.congr fun c => ?_⟩
    constructor
    · exact False.elim
    · rintro ⟨fr, -, region, -⟩
      exact unlaid (List.mem_singleton.mp region.block ▸ region.laid)

section

variable {construct : ConstructFunction} (ok : FunctionOk P f)
  (callees : ∀ fr g, fr.func = f → entered P (fr :: σ) = some g →
    BuildsFunction P construct g (fr :: σ))

include ok callees

theorem block_yields {B : Nat} (valid : B < (P.M.func f).blocks.length)
    (outside : ∀ T ∈ loops, B ∉ T.blocks) {id : ID} {G : Drawing} (shows : Shows s G)
    (fresh : Fresh P σ (Region P f p loops [B]) G) (names : Names G.calls G.loops σ f p id) :
    Yields (Broken P) (constructBlock P (onStack P construct (f :: σ.map Frame.func)) f B id s) fun r =>
      ∃ G', Shows r.2 G' ∧ Extends P σ (Region P f p loops [B])
          (Links P p loops (Region P f p loops [B]) (fun _ _ => False)) G G' ∧
        PartOk P f σ p loops G'.labels ⟨false, [B], [B], r.1⟩ := by
  by_cases laid : LaidBlock P f B
  · have nonempty := ok.wellFormed.nonempty valid
    have frames := region_own (p := p) laid outside
    refine (block_builds callees laid nonempty id s G shows
      (fresh.mono fun fr => (frames fr).mp) names).mono ?_
    rintro r ⟨G', built⟩
    exact ⟨G', built.shows, built.extended.congr frames (links_own laid outside),
      partOk_block ok laid outside built.entry built.exits⟩
  · have left : ((P.M.func f).preds B).isEmpty ∧ B ≠ 0 := by
      refine ⟨List.isEmpty_iff.mpr ?_, fun first => laid ⟨valid, .inr first⟩⟩
      by_contra some
      exact laid ⟨valid, .inl some⟩
    have empty (fr : Frame) : ¬ Region P f p loops [B] fr := fun region =>
      laid (List.mem_singleton.mp region.block ▸ region.laid)
    rw [constructBlock, if_pos left]
    refine .of_some ⟨G, shows, .refl empty fun a b link => empty a link.source, ?_⟩
    exact partOk_none laid

theorem blocks_yield {bs : List Nat} (valid : ∀ B ∈ bs, B < (P.M.func f).blocks.length)
    (outside : ∀ B ∈ bs, ∀ T ∈ loops, B ∉ T.blocks) (nodup : bs.Nodup) {id : ID} {G : Drawing}
    (shows : Shows s G) (fresh : Fresh P σ (Region P f p loops bs) G)
    (names : Names G.calls G.loops σ f p id) :
    Yields (Broken P) (constructBlocks P (onStack P construct (f :: σ.map Frame.func)) f id bs s) fun r =>
      ∃ G', Shows r.2 G' ∧ Extends P σ (Region P f p loops bs)
          (Links P p loops (Region P f p loops bs) (fun _ _ => False)) G G' ∧
        r.1.map Part.outline = bs.map (fun B => (false, [B], [B])) ∧
        ∀ part ∈ r.1, PartOk P f σ p loops G'.labels part := by
  induction bs generalizing s G with
  | nil =>
    refine .of_some ⟨G, shows, .refl ?_ ?_, rfl, by simp⟩
    · intro fr region
      cases region.block
    · intro a b link
      cases link.source.block
  | cons B bs ih =>
    have whole (fr : Frame) : Region P f p loops [B] fr ∨ Region P f p loops bs fr ↔
        Region P f p loops (B :: bs) fr := region_append.symm
    rw [constructBlocks, bind_apply]
    refine (block_yields ok callees (valid B List.mem_cons_self) (outside B List.mem_cons_self)
      shows (fresh.mono fun fr region => (whole fr).mp (.inl region)) names).bind ?_
    rintro ⟨port, s₁⟩ ⟨G₁, shows₁, extended₁, okay₁⟩
    have fresh₁ : Fresh P σ (Region P f p loops bs) G₁ := by
      refine (fresh.mono fun fr region => (whole fr).mp (.inr region)).extend extended₁ ?_
      intro fr left right
      exact (List.nodup_cons.mp nodup).1 (List.mem_singleton.mp left.block ▸ right.block)
    refine (ih (fun C later => valid C (List.mem_cons_of_mem B later))
      (fun C later => outside C (List.mem_cons_of_mem B later)) (List.nodup_cons.mp nodup).2 shows₁
      fresh₁ (names.grow extended₁.calls extended₁.loops)).bind ?_
    rintro ⟨parts, s₂⟩ ⟨G₂, shows₂, extended₂, outlines, okay₂⟩
    refine .of_some ⟨G₂, shows₂, (extended₁.trans extended₂).congr whole ?_, ?_, ?_⟩
    · intro a b
      rw [← links_union, funext fun fr => propext (whole fr)]
    · rw [List.map_cons, outlines]
      rfl
    · intro part member
      rcases List.mem_cons.mp member with rfl | later
      · exact okay₁.grow extended₂.grows shows₂.denotes.nodup
      · exact okay₂ part later

end

/-! Forests -/

section

variable {loopParts others : List Part}
  (outlines : loopParts.map Part.outline = loops.map (fun T => (true, T.blocks, exitingBlocks P f T)))

include outlines

theorem mem_loopPart (member : part ∈ loopParts) :
    ∃ T ∈ loops, part.loop = true ∧ part.blocks = T.blocks ∧ part.exiting = exitingBlocks P f T := by
  have outline : part.outline ∈ loopParts.map Part.outline := List.mem_map_of_mem member
  rw [outlines] at outline
  rcases List.mem_map.mp outline with ⟨T, present, same⟩
  rw [Part.outline, Prod.mk.injEq, Prod.mk.injEq] at same
  exact ⟨T, present, same.1.symm, same.2.1.symm, same.2.2.symm⟩

theorem exists_loopPart {T : Loop} (member : T ∈ loops) :
    ∃ part ∈ loopParts, part.blocks = T.blocks := by
  have outline : (true, T.blocks, exitingBlocks P f T) ∈ loopParts.map Part.outline := by
    rw [outlines]
    exact List.mem_map_of_mem member
  rcases List.mem_map.mp outline with ⟨part, present, same⟩
  rw [Part.outline, Prod.mk.injEq, Prod.mk.injEq] at same
  exact ⟨part, present, same.2.1⟩

theorem mem_own (B : Nat) :
    B ∈ blocks.filter (fun B => loopParts.all (fun part => B ∉ part.blocks)) ↔
      B ∈ blocks ∧ ∀ T ∈ loops, B ∉ T.blocks := by
  rw [List.mem_filter, List.all_eq_true]
  refine and_congr_right fun _ => ?_
  constructor
  · intro outside T member here
    rcases exists_loopPart outlines member with ⟨part, present, same⟩
    exact (by simpa using outside part present : B ∉ part.blocks) (same ▸ here)
  · intro outside part member
    rcases mem_loopPart outlines member with ⟨T, present, -, same, -⟩
    simpa [same] using outside T present

theorem tiles_of_outlines (side : SideBySide (P.M.func f) (P.loopInfo f) loops)
    (whole : ∀ T ∈ loops, ∀ B ∈ T.blocks, B ∈ blocks) {own : List Nat}
    (mem_own : ∀ B, B ∈ own ↔ B ∈ blocks ∧ ∀ T ∈ loops, B ∉ T.blocks) (distinct : own.Nodup)
    (blockOutlines : others.map Part.outline = own.map (fun B => (false, [B], [B]))) :
    Tiles P f loops blocks (loopParts ++ others) := by
  have mem_other {part : Part} (member : part ∈ others) :
      ∃ B ∈ own, part.loop = false ∧ part.blocks = [B] ∧ part.exiting = [B] := by
    have outline : part.outline ∈ others.map Part.outline := List.mem_map_of_mem member
    rw [blockOutlines] at outline
    rcases List.mem_map.mp outline with ⟨B, present, same⟩
    rw [Part.outline, Prod.mk.injEq, Prod.mk.injEq] at same
    exact ⟨B, present, same.1.symm, same.2.1.symm, same.2.2.symm⟩
  have apart : (loopParts ++ others).Pairwise
      (fun a b : Part => ∀ B ∈ a.blocks, B ∉ b.blocks) := by
    have mapped : ((loopParts ++ others).map Part.outline).Pairwise
        (fun a b => ∀ B ∈ a.2.1, B ∉ b.2.1) := by
      rw [List.map_append, outlines, blockOutlines, List.pairwise_append]
      refine ⟨?_, ?_, ?_⟩
      · rw [List.pairwise_map]
        refine side.nodup.imp_of_mem fun left right different B here there => ?_
        exact different (side.disjoint _ left _ right B here there)
      · rw [List.pairwise_map]
        refine distinct.imp fun different B here there => ?_
        exact different ((List.mem_singleton.mp here).symm.trans (List.mem_singleton.mp there))
      · intro a left b right B here there
        rcases List.mem_map.mp left with ⟨T, member, rfl⟩
        rcases List.mem_map.mp right with ⟨C, member', rfl⟩
        rw [List.mem_singleton.mp there] at here
        exact ((mem_own C).mp member').2 T member here
    exact List.pairwise_map.mp mapped
  constructor
  · intro B
    constructor
    · intro member
      by_cases inner : ∃ T ∈ loops, B ∈ T.blocks
      · rcases inner with ⟨T, present, here⟩
        rcases exists_loopPart outlines present with ⟨part, member', same⟩
        exact ⟨part, List.mem_append_left _ member', same ▸ here⟩
      · have here := (mem_own B).mpr ⟨member, fun T present here => inner ⟨T, present, here⟩⟩
        have outline : (false, [B], [B]) ∈ others.map Part.outline := by
          rw [blockOutlines]
          exact List.mem_map_of_mem here
        rcases List.mem_map.mp outline with ⟨part, present, same⟩
        rw [Part.outline, Prod.mk.injEq, Prod.mk.injEq] at same
        exact ⟨part, List.mem_append_right _ present, by simp [same.2.1]⟩
    · rintro ⟨part, present, here⟩
      rcases List.mem_append.mp present with loop | other
      · rcases mem_loopPart outlines loop with ⟨T, member, -, same, -⟩
        exact whole T member B (same ▸ here)
      · rcases mem_other other with ⟨C, member, -, same, -⟩
        rw [same, List.mem_singleton] at here
        exact here ▸ ((mem_own C).mp member).1
  · intro i j part part' B left right here there
    rcases List.getElem?_eq_some_iff.mp left with ⟨bound, rfl⟩
    rcases List.getElem?_eq_some_iff.mp right with ⟨bound', rfl⟩
    rcases Nat.lt_trichotomy i j with less | same | more
    · exact absurd there (List.pairwise_iff_getElem.mp apart i j bound bound' less B here)
    · exact same
    · exact absurd here (List.pairwise_iff_getElem.mp apart j i bound' bound more B there)
  · intro part member loop
    rcases List.mem_append.mp member with present | other
    · rcases mem_loopPart outlines present with ⟨T, member, -, same, exiting⟩
      exact ⟨T, member, same, exiting⟩
    · rcases mem_other other with ⟨C, -, block, -⟩
      rw [block] at loop
      cases loop
  · intro part member block
    rcases List.mem_append.mp member with present | other
    · rcases mem_loopPart outlines present with ⟨T, -, loop, -⟩
      rw [loop] at block
      cases block
    · rcases mem_other other with ⟨C, member, -, same, exiting⟩
      exact ⟨C, same, exiting, ((mem_own C).mp member).2⟩

end

theorem Tiles.merge (tiles : Tiles P f loops blocks parts)
    (okay : ∀ part ∈ parts, PartOk P f σ p loops labels part)
    (asked : ∀ B ∈ exits, B ∈ blocks ∧ ∀ T ∈ loops, B ∈ T.blocks → B ∈ exitingBlocks P f T) :
    ∃ merged, mergeExits exits parts = some merged ∧ ∃ X, (∀ fr, fr.block ∈ exits → X fr) ∧
      (∀ fr, X fr → fr.block ∈ exits ∨ ∃ B ∈ exits, ∃ T ∈ loops, B ∈ T.blocks) ∧
      Marks labels merged (EndsOf P f σ p loops blocks X) := by
  have ports (B : Nat) (member : B ∈ exits) := tiles.exists_port (asked B member).1
  rcases mem_mergeExits (fun B member => let ⟨i, part, port, found, _⟩ := ports B member
    ⟨i, part, port, found⟩) with ⟨merged, result, mem_merged⟩
  choose Y exiting marks using fun part member => (okay part member).exits
  -- A part that is asked for gives all of its exits.
  let X (fr : Frame) : Prop := ∃ B ∈ exits, ∃ part, ∃ member : part ∈ parts,
    B ∈ part.blocks ∧ fr.block ∈ part.blocks ∧ Y part member fr
  refine ⟨merged, result, X, ?_, ?_, ?_, ?_, ?_⟩
  · intro fr member
    rcases ports fr.block member with ⟨i, part, -, found, here⟩
    have present := List.mem_of_getElem? found
    exact ⟨fr.block, member, part, present, here, here, exiting part present fr
      (tiles.exiting_of_asked present here (asked _ member).2)⟩
  · rintro fr ⟨B, member, part, present, here, there, -⟩
    cases loop : part.loop with
    | false =>
      rcases tiles.own part present loop with ⟨C, blocks, -⟩
      rw [blocks, List.mem_singleton] at here there
      exact .inl (there.trans here.symm ▸ member)
    | true =>
      rcases tiles.loop part present loop with ⟨T, top, blocks, -⟩
      exact .inr ⟨B, member, T, top, blocks ▸ here⟩
  · rintro c ⟨fr, rfl, region, last, B, -, part, member, -, here, marked⟩
    exact (marks part member).mem ⟨fr, rfl, region.of_blocks here, last, marked⟩
  · rintro ⟨fr, never, -⟩
    cases never
  · intro C n
    rw [mem_merged]
    constructor
    · rintro ⟨B, member, i, part, port, found, exit⟩
      have present := List.mem_of_getElem? found
      have here : B ∈ part.blocks := by
        rcases ports B member with ⟨j, part', port', found', here⟩
        obtain rfl := Option.some.inj (port.symm.trans port')
        obtain rfl := Option.some.inj (found.symm.trans found')
        exact here
      rcases (marks part present).iff.mp exit with ⟨fr, τ, ⟨fr', same, region, last, marked⟩, rest⟩
      obtain ⟨rfl, rfl⟩ := List.cons.inj same
      exact ⟨fr, τ, ⟨fr, rfl, region.of_blocks (tiles.mem.mpr ⟨part, present, region.block⟩), last,
        B, member, part, present, here, region.block, marked⟩, rest⟩
    · rintro ⟨fr, τ, ⟨fr', same, region, last, B, member, part, present, here, there, marked⟩, rest⟩
      obtain ⟨rfl, rfl⟩ := List.cons.inj same
      rcases List.getElem?_of_mem present with ⟨i, found⟩
      exact ⟨B, member, i, part, tiles.getBlockPort_eq found here, found,
        (marks part present).iff.mpr
          ⟨fr, τ, ⟨fr, rfl, region.of_blocks there, last, marked⟩, rest⟩⟩

section

variable {construct : ConstructFunction} (ok : FunctionOk P f)
  (callees : ∀ fr g, fr.func = f → entered P (fr :: σ) = some g →
    BuildsFunction P construct g (fr :: σ))
  (side : SideBySide (P.M.func f) (P.loopInfo f) loops)
  (whole : ∀ T ∈ loops, ∀ B ∈ T.blocks, B ∈ blocks) (nodup : blocks.Nodup)
  (valid : ∀ B ∈ blocks, B < (P.M.func f).blocks.length)

include ok callees side whole nodup valid

/-- A nest is built from its loops, the blocks outside of them, and the links across. -/
theorem forest_yields {loopParts : List Part}
    (outlines : loopParts.map Part.outline = loops.map (fun T => (true, T.blocks, exitingBlocks P f
      T))) {entry : Nat} (first : entry ∈ blocks ∧ ∀ T ∈ loops, entry ∉ T.blocks)
    (laid : LaidBlock P f entry)
    (asked : ∀ B ∈ exits, B ∈ blocks ∧ ∀ T ∈ loops, B ∈ T.blocks → B ∈ exitingBlocks P f T)
    {id : ID} {G₀ G : Drawing} (shows : Shows s G)
    (before : Extends P σ (fun fr => ∃ T ∈ loops, Region P f p loops T.blocks fr) (fun a b => ∃ T ∈
      loops, Links P p loops (Region P f p loops T.blocks) (fun _ S => S ∈ T.blocks) a b) G₀ G)
    (okay : ∀ part ∈ loopParts, PartOk P f σ p loops G.labels part)
    (fresh : Fresh P σ (Region P f p loops blocks) G₀) (names : Names G.calls G.loops σ f p id) :
    Yields (Broken P) (finishForest P (onStack P construct (f :: σ.map Frame.func)) f entry exits blocks
        loopParts id s) fun r => ∃ X, (∀ fr, fr.block ∈ exits → X fr) ∧
      (∀ fr, X fr → fr.block ∈ exits ∨ ∃ B ∈ exits, ∃ T ∈ loops, B ∈ T.blocks) ∧
      ∃ G', Built P σ (Region P f p loops blocks)
        (Links P p loops (Region P f p loops blocks) (fun _ S => S ∈ blocks)) ⟨f, entry, 0, p⟩
        (EndsOf P f σ p loops blocks X) G₀ r G' := by
  have mem_own (B : Nat) :
      B ∈ blocks.filter (fun B => loopParts.all (fun part => B ∉ part.blocks)) ↔
        B ∈ blocks ∧ ∀ T ∈ loops, B ∉ T.blocks := mem_own outlines B
  have freshOwn : Fresh P σ (Region P f p loops
      (blocks.filter (fun B => loopParts.all (fun part => B ∉ part.blocks)))) G := by
    refine (fresh.mono ?_).extend before ?_
    · exact fun fr region => region.of_blocks ((mem_own fr.block).mp region.block).1
    · rintro fr ⟨T, member, inner⟩ own
      exact ((mem_own fr.block).mp own.block).2 T member inner.block
  rw [finishForest, bind_apply]
  refine (blocks_yield ok callees (fun B member => valid B ((mem_own B).mp member).1)
    (fun B member => ((mem_own B).mp member).2) (nodup.filter _) shows freshOwn names).bind ?_
  rintro ⟨others, s₁⟩ ⟨G₁, shows₁, extended₁, blockOutlines, okay₁⟩
  have tiles := tiles_of_outlines outlines side whole mem_own (nodup.filter _) blockOutlines
  have parts (part : Part) (member : part ∈ loopParts ++ others) :
      PartOk P f σ p loops G₁.labels part := by
    rcases List.mem_append.mp member with loop | other
    · exact (okay part loop).grow extended₁.grows shows₁.denotes.nodup
    · exact okay₁ part other
  have frames := (before.trans extended₁).congr (fun fr => region_split whole mem_own)
    fun a b => links_inside whole mem_own
  rcases connectParts_links ok side valid tiles parts ⟨G₁.edge, shows₁, frames⟩ with
    ⟨s₂, connected, edge, shows₂, extended₂⟩
  rcases tiles.exists_port first.1 with ⟨i, part, port, found, here⟩
  rcases tiles.merge parts asked with ⟨merged, result, X, kept, only, marks⟩
  have enters := (parts part (List.mem_of_getElem? found)).entry entry here laid
  rw [entryFrame, enterBlock_own first.2, List.append_nil] at enters
  simp only [bind_apply, monadLift_self, effect, require, connected, port, found, result,
    Option.map_some, Option.bind_some]
  exact .of_some ⟨X, kept, only, { G₁ with edge := edge }, shows₂,
    extended₂.congr (fun _ => Iff.rfl) (fun a b => (links_split side).symm), enters, marks⟩

end

end Clou.Unrolled
