import Clou.Building

/-! The frames and links of a nest of loops, taken apart into the loops and the blocks
outside of them, and a loop taken apart into its iterations. -/

namespace Clou.Unrolled

section

variable (P : Program) (f : FuncRef) (p : List Nat) (loops : List Loop)

structure Region (blocks : List Nat) (fr : Frame) : Prop where
  func : fr.func = f
  laid : LaidBlock P f fr.block
  index : fr.index < blockLength P fr
  iters : ∃ q, fr.iters = p ++ q ∧ Fits P loops fr.block q
  block : fr.block ∈ blocks

inductive Links (R : Frame → Prop) (T : Nat → Nat → Prop) : Frame → Frame → Prop
  | seq {fr} : R fr → fr.index + 1 < blockLength P fr → Links R T fr fr.next
  | jump {fr S q B q'} : R fr → AtEnd P fr → S ∈ successors P fr → T fr.block S →
      fr.iters = p ++ q → jumpTo loops fr.block S q = (B, q') → (∀ i ∈ q', i ≤ P.numUnrolls) →
      Links R T fr ⟨fr.func, B, 0, p ++ q'⟩

def Crosses (blocks : List Nat) (B S : Nat) : Prop :=
  S ∈ blocks ∧ ∀ T ∈ loops, B ∈ T.blocks → S ∉ T.blocks

end

variable {P : Program} {f : FuncRef} {p : List Nat} {loops : List Loop} {blocks : List Nat}
  {R R' : Frame → Prop} {T T' : Nat → Nat → Prop}

variable {fr fr' : Frame}

theorem Links.source (link : Links P p loops R T fr fr') : R fr := by
  cases link with
  | seq inside _ => exact inside
  | jump inside _ _ _ _ _ _ => exact inside

theorem Links.mono (link : Links P p loops R T fr fr') (more : ∀ fr, R fr → R' fr)
    (allowed : ∀ fr S, R fr → T fr.block S → T' fr.block S) : Links P p loops R' T' fr fr' := by
  cases link with
  | seq inside further => exact .seq (more _ inside) further
  | jump inside last flow target split jump bounded =>
    exact .jump (more _ inside) last flow (allowed _ _ inside target) split jump bounded

theorem links_union : Links P p loops (fun fr => R fr ∨ R' fr) T fr fr' ↔
    Links P p loops R T fr fr' ∨ Links P p loops R' T fr fr' := by
  constructor
  · intro link
    cases link with
    | seq inside further =>
      exact inside.imp (fun inside => .seq inside further) (fun inside => .seq inside further)
    | jump inside last flow target split jump bounded =>
      exact inside.imp (fun inside => .jump inside last flow target split jump bounded)
        (fun inside => .jump inside last flow target split jump bounded)
  · rintro (link | link)
    · exact link.mono (fun _ => .inl) fun _ _ _ target => target
    · exact link.mono (fun _ => .inr) fun _ _ _ target => target

theorem frameIn_iff : FrameIn P f fr ↔
    Region P f [] (P.loopInfo f).top (List.range (P.M.func f).blocks.length) fr := by
  constructor
  · intro inside
    exact ⟨inside.func, inside.laid, inside.index, ⟨fr.iters, rfl, inside.fits⟩,
      List.mem_range.mpr inside.laid.1⟩
  · intro region
    rcases region.iters with ⟨q, same, fits⟩
    exact ⟨region.func, region.laid, region.index, by rw [same]; exact fits⟩

theorem link_iff (ok : FunctionOk P f) : FrameIn P f fr ∧ Link P fr fr' ↔
    Links P [] (P.loopInfo f).top (FrameIn P f)
      (fun _ S => S ∈ List.range (P.M.func f).blocks.length) fr fr' := by
  constructor
  · rintro ⟨inside, link⟩
    cases link with
    | seq further => exact .seq inside further
    | jump last flow jump bounded =>
      have func := inside.func
      subst func
      exact .jump inside last flow
        (List.mem_range.mpr (ok.wellFormed.succ_lt inside.laid.1 flow)) rfl jump bounded
  · intro link
    cases link with
    | seq inside further => exact ⟨inside, .seq further⟩
    | jump inside last flow _ split jump bounded =>
      have func := inside.func
      subst func
      rw [List.nil_append] at split
      subst split
      exact ⟨inside, .jump last flow jump bounded⟩

/-! Loops and the blocks outside of them -/

variable {blocks' : List Nat} {fr' : Frame} {q : List Nat}

section

variable {F : Function} {LI : LoopInfo}

variable {fr : Frame} {B : Nat}

theorem Region.of_blocks (region : Region P f p loops blocks fr) (member : fr.block ∈ blocks') :
    Region P f p loops blocks' fr :=
  { region with block := member }

theorem region_append : Region P f p loops (blocks ++ blocks') fr ↔
      Region P f p loops blocks fr ∨ Region P f p loops blocks' fr := by
  constructor
  · intro region
    exact (List.mem_append.mp region.block).imp region.of_blocks region.of_blocks
  · rintro (region | region)
    · exact region.of_blocks (List.mem_append_left _ region.block)
    · exact region.of_blocks (List.mem_append_right _ region.block)

/-- Outside of the loops, a frame is in no iteration of them. -/
theorem Region.own (region : Region P f p loops blocks fr)
    (outside : ∀ T ∈ loops, fr.block ∉ T.blocks) : fr.iters = p := by
  rcases region.iters with ⟨q, same, fits⟩
  cases fits with
  | own _ => rw [same, List.append_nil]
  | inside member here _ _ => exact absurd here (outside _ member)

theorem region_own (laid : LaidBlock P f B) (outside : ∀ T ∈ loops, B ∉ T.blocks) (fr : Frame) :
    RestFrames P f B p 0 fr ↔ Region P f p loops [B] fr := by
  constructor
  · rintro ⟨j, -, bound, rfl⟩
    exact ⟨rfl, laid, bound, ⟨[], (List.append_nil p).symm, .own outside⟩,
      List.mem_singleton_self B⟩
  · intro region
    rcases fr with ⟨g, C, i, iters⟩
    obtain rfl := List.mem_singleton.mp region.block
    obtain rfl : g = f := region.func
    obtain rfl : iters = p := region.own outside
    exact ⟨i, Nat.zero_le i, region.index, rfl⟩

theorem links_own (laid : LaidBlock P f B) (outside : ∀ T ∈ loops, B ∉ T.blocks) (fr fr' : Frame) :
    RestLinks P f B p 0 fr fr' ↔
      Links P p loops (Region P f p loops [B]) (fun _ _ => False) fr fr' := by
  constructor
  · rintro ⟨j, -, bound, rfl, rfl⟩
    exact .seq ((region_own laid outside _).mp ⟨j, Nat.zero_le j, by omega, rfl⟩) bound
  · intro link
    cases link with
    | seq inside further =>
      rcases (region_own laid outside fr).mpr inside with ⟨j, -, bound, rfl⟩
      exact ⟨j, Nat.zero_le j, further, rfl, rfl⟩
    | jump _ _ _ never _ _ _ => exact never.elim

/-- Leaving a block or a loop leads to the entry of another. -/
theorem jumpTo_crosses (side : SideBySide F LI loops) {S : Nat} (crosses : Crosses loops blocks B S)
    (fits : Fits P loops B q) : jumpTo loops B S q = enterBlock loops S := by
  cases fits with
  | own _ => rfl
  | inside member here _ _ => exact jumpTo_out side member _ here (crosses.2 _ member here)

theorem enterBlock_bounded (n S : Nat) : ∀ i ∈ (enterBlock loops S).2, i ≤ n := by
  intro i member
  unfold enterBlock at member
  split at member
  · rw [List.mem_singleton.mp member]
    exact Nat.zero_le n
  · cases member

/-- The frame at which a block is entered from outside of its loop. -/
def entryFrame (f : FuncRef) (p : List Nat) (loops : List Loop) (S : Nat) : Frame :=
  ⟨f, (enterBlock loops S).1, 0, p ++ (enterBlock loops S).2⟩

/-- The links of a nest are those inside of its loops and blocks, and those across. -/
theorem links_split (side : SideBySide F LI loops) :
    Links P p loops (Region P f p loops blocks) (fun _ S => S ∈ blocks) fr fr' ↔
      Links P p loops (Region P f p loops blocks)
        (fun B S => S ∈ blocks ∧ ∃ T ∈ loops, B ∈ T.blocks ∧ S ∈ T.blocks) fr fr' ∨
      ∃ S, (Region P f p loops blocks fr ∧ AtEnd P fr ∧ S ∈ successors P fr ∧
        Crosses loops blocks fr.block S) ∧ fr' = entryFrame f p loops S := by
  constructor
  · intro link
    cases link with
    | seq inside further => exact .inl (.seq inside further)
    | @jump S q B q' inside last flow target split jump bounded =>
      by_cases stays : ∃ T ∈ loops, fr.block ∈ T.blocks ∧ S ∈ T.blocks
      · exact .inl (.jump inside last flow ⟨target, stays⟩ split jump bounded)
      · have crosses : Crosses loops blocks fr.block S :=
          ⟨target, fun T member here there => stays ⟨T, member, here, there⟩⟩
        rcases inside.iters with ⟨q'', same, fits⟩
        obtain rfl : q'' = q := List.append_cancel_left (same.symm.trans split)
        rw [jumpTo_crosses side crosses fits] at jump
        refine .inr ⟨S, ⟨inside, last, flow, crosses⟩, ?_⟩
        rw [entryFrame, jump, inside.func]
  · rintro (link | ⟨S, ⟨inside, last, flow, crosses⟩, rfl⟩)
    · exact link.mono (fun _ inside => inside) fun _ _ _ target => target.1
    · rcases inside.iters with ⟨q, same, fits⟩
      have jump := jumpTo_crosses side crosses fits
      have func := inside.func
      subst func
      exact .jump inside last flow crosses.1 same jump (enterBlock_bounded _ S)

/-- A nest is made of its loops and of the blocks outside of them. -/
theorem region_split {own : List Nat} (whole : ∀ T ∈ loops, ∀ B ∈ T.blocks, B ∈ blocks)
    (mem_own : ∀ B, B ∈ own ↔ B ∈ blocks ∧ ∀ T ∈ loops, B ∉ T.blocks) :
    (∃ T ∈ loops, Region P f p loops T.blocks fr) ∨ Region P f p loops own fr ↔
      Region P f p loops blocks fr := by
  constructor
  · rintro (⟨T, member, region⟩ | region)
    · exact region.of_blocks (whole T member _ region.block)
    · exact region.of_blocks ((mem_own _).mp region.block).1
  · intro region
    by_cases inner : ∃ T ∈ loops, fr.block ∈ T.blocks
    · rcases inner with ⟨T, member, here⟩
      exact .inl ⟨T, member, region.of_blocks here⟩
    · exact .inr (region.of_blocks ((mem_own _).mpr
        ⟨region.block, fun T member here => inner ⟨T, member, here⟩⟩))

theorem links_inside {own : List Nat} (whole : ∀ T ∈ loops, ∀ B ∈ T.blocks, B ∈ blocks)
    (mem_own : ∀ B, B ∈ own ↔ B ∈ blocks ∧ ∀ T ∈ loops, B ∉ T.blocks) :
    (∃ T ∈ loops, Links P p loops (Region P f p loops T.blocks) (fun _ S => S ∈ T.blocks) fr fr') ∨
        Links P p loops (Region P f p loops own) (fun _ _ => False) fr fr' ↔
      Links P p loops (Region P f p loops blocks)
        (fun B S => S ∈ blocks ∧ ∃ T ∈ loops, B ∈ T.blocks ∧ S ∈ T.blocks) fr fr' := by
  constructor
  · rintro (⟨T, member, link⟩ | link)
    · exact link.mono (fun _ region => region.of_blocks (whole T member _ region.block))
        fun _ S region target => ⟨whole T member S target, T, member, region.block, target⟩
    · exact link.mono (fun _ region => region.of_blocks ((mem_own _).mp region.block).1)
        fun _ _ _ => False.elim
  · intro link
    cases link with
    | seq region further =>
      exact ((region_split whole mem_own).mpr region).imp
        (fun ⟨T, member, region⟩ => ⟨T, member, .seq region further⟩)
        (fun region => .seq region further)
    | jump region last flow target split jump bounded =>
      rcases target with ⟨-, T, member, here, there⟩
      exact .inl ⟨T, member, .jump (region.of_blocks here) last flow there split jump bounded⟩

end

/-! The iterations of a loop -/

section

variable {F : Function} {LI : LoopInfo} {L : Loop}

variable {fr : Frame}

theorem region_loop (side : SideBySide F LI loops) (member : L ∈ loops) :
    Region P f p loops L.blocks fr ↔
      ∃ j ≤ P.numUnrolls, Region P f (p ++ [j]) L.subloops L.blocks fr := by
  constructor
  · intro region
    rcases region.iters with ⟨q, same, fits⟩
    cases fits with
    | own outside => exact absurd region.block (outside L member)
    | @inside _ T _ j q other here small inner =>
      obtain rfl := side.disjoint T other L member _ here region.block
      exact ⟨j, small, region.func, region.laid, region.index,
        ⟨q, by rw [same, List.append_assoc]; rfl, inner⟩, region.block⟩
  · rintro ⟨j, small, region⟩
    rcases region.iters with ⟨q, same, fits⟩
    exact ⟨region.func, region.laid, region.index,
      ⟨j :: q, by rw [same, List.append_assoc]; rfl, .inside member region.block small fits⟩,
      region.block⟩

theorem region_disjoint {i j : Nat} {loops' : List Loop}
    (left : Region P f (p ++ [i]) loops blocks fr) (right : Region P f (p ++ [j]) loops' blocks' fr) :
    i = j := by
  rcases left.iters with ⟨q, same, -⟩
  rcases right.iters with ⟨q', same', -⟩
  rw [same, List.append_assoc, List.append_assoc, List.append_cancel_left_eq] at same'
  exact (List.cons.inj same').1

theorem jumpTo_header (side : SideBySide F LI loops) {B header : Nat}
    (outside : ∀ T ∈ loops, header ∉ T.blocks) (fits : Fits P loops B q) :
    jumpTo loops B header q = (header, []) := by
  rw [← enterBlock_own outside]
  cases fits with
  | own _ => rfl
  | inside member here _ _ => exact jumpTo_out side member _ here (outside _ member)

theorem jumpTo_ne_header (side : SideBySide F LI loops) {B S header : Nat}
    (outside : ∀ T ∈ loops, header ∉ T.blocks) (other : S ≠ header) :
    (jumpTo loops B S q).1 ≠ header :=
  jumpTo_mem (Q := (· ≠ header)) side
    (fun T member _ inside same => outside T member (same ▸ inside)) other

variable {header : Nat} (side : SideBySide F LI loops)
  (outside : ∀ T ∈ loops, header ∉ T.blocks)

include side outside

theorem links_header (inside : header ∈ blocks) :
    Links P p loops (Region P f p loops blocks) (fun _ S => S ∈ blocks) fr ⟨f, header, 0, p⟩ ↔
      Region P f p loops blocks fr ∧ AtEnd P fr ∧ header ∈ successors P fr := by
  constructor
  · generalize target : (⟨f, header, 0, p⟩ : Frame) = fr'
    intro link
    cases link with
    | seq _ _ =>
      have never := congrArg Frame.index target
      simp [Frame.next] at never
    | @jump S q B q' region last flow _ _ jump _ =>
      obtain rfl : S = header := by
        by_contra other
        apply jumpTo_ne_header (B := fr.block) (q := q) side outside other
        rw [jump]
        exact (congrArg Frame.block target).symm
      exact ⟨region, last, flow⟩
  · rintro ⟨region, last, flow⟩
    rcases region.iters with ⟨q, same, fits⟩
    have jump := jumpTo_header side outside fits
    have link := Links.jump (T := fun _ S => S ∈ blocks) region last flow inside same jump (by simp)
    rwa [List.append_nil, region.func] at link

theorem links_onward :
    Links P p loops (Region P f p loops blocks) (fun _ S => S ∈ blocks ∧ S ≠ header) fr fr' ↔
      Links P p loops (Region P f p loops blocks) (fun _ S => S ∈ blocks) fr fr' ∧
        fr' ≠ ⟨f, header, 0, p⟩ := by
  constructor
  · intro link
    refine ⟨link.mono (fun _ inside => inside) fun _ _ _ target => target.1, ?_⟩
    cases link with
    | seq _ _ =>
      intro same
      have never := congrArg Frame.index same
      simp [Frame.next] at never
    | @jump S q B q' _ _ _ target _ jump _ =>
      intro same
      apply jumpTo_ne_header (B := fr.block) (q := q) side outside target.2
      rw [jump]
      exact congrArg Frame.block same
  · rintro ⟨link, other⟩
    cases link with
    | seq inside further => exact .seq inside further
    | @jump S q B q' region last flow target split jump bounded =>
      refine .jump region last flow ⟨target, ?_⟩ split jump bounded
      rintro rfl
      rcases region.iters with ⟨q'', same, fits⟩
      obtain rfl : q'' = q := List.append_cancel_left (same.symm.trans split)
      rw [jumpTo_header side outside fits] at jump
      cases jump
      exact other (by rw [List.append_nil, region.func])

end

section

variable {F : Function} {LI : LoopInfo} {L : Loop} (side : SideBySide F LI loops)
  (member : L ∈ loops)

include side member

/-- The links of a loop: those of its iterations, except to their headers, and from each
iteration to the header of the next. -/
theorem links_loop {fr fr' : Frame} :
    Links P p loops (Region P f p loops L.blocks) (fun _ S => S ∈ L.blocks) fr fr' ↔
      (∃ j ≤ P.numUnrolls, Links P (p ++ [j]) L.subloops
        (Region P f (p ++ [j]) L.subloops L.blocks)
        (fun _ S => S ∈ L.blocks ∧ S ≠ L.header) fr fr') ∨
      ∃ j, j + 1 ≤ P.numUnrolls ∧ (Region P f (p ++ [j]) L.subloops L.blocks fr ∧ AtEnd P fr ∧
        L.header ∈ successors P fr) ∧ fr' = ⟨f, L.header, 0, p ++ [j + 1]⟩ := by
  constructor
  · intro link
    cases link with
    | seq inside further =>
      rcases (region_loop side member).mp inside with ⟨j, small, region⟩
      exact .inl ⟨j, small, .seq region further⟩
    | @jump S q B q' inside last flow target split jump bounded =>
      rcases (region_loop side member).mp inside with ⟨j, small, region⟩
      rcases region.iters with ⟨r, same, fits⟩
      obtain rfl : q = j :: r := by
        apply (List.append_right_inj p).mp
        rw [← split, same, List.append_assoc]
        rfl
      rw [jumpTo_inside side member inside.block target] at jump
      by_cases back : S = L.header
      · rw [if_pos back] at jump
        cases jump
        refine .inr ⟨j, bounded _ (List.mem_singleton_self _), ⟨region, last, back ▸ flow⟩, ?_⟩
        rw [inside.func, back]
      · rw [if_neg back] at jump
        cases jump
        refine .inl ⟨j, small, ?_⟩
        have inner := Links.jump (T := fun _ S => S ∈ L.blocks ∧ S ≠ L.header) region last flow
          ⟨target, back⟩ same rfl fun i later => bounded i (List.mem_cons_of_mem j later)
        rwa [List.append_assoc] at inner
  · rintro (⟨j, small, link⟩ | ⟨j, small, ⟨region, last, flow⟩, rfl⟩)
    · cases link with
      | seq inside further =>
        exact .seq ((region_loop side member).mpr ⟨j, small, inside⟩) further
      | @jump S q B q' region last flow target split jump bounded =>
        have whole := (region_loop side member).mpr ⟨j, small, region⟩
        have outer : jumpTo loops fr.block S (j :: q) = (B, j :: q') := by
          rw [jumpTo_inside side member region.block target.1, if_neg target.2, jump]
        have link := Links.jump (T := fun _ S => S ∈ L.blocks) whole last flow target.1
          (by rw [split, List.append_assoc]; rfl) outer (by simpa [small] using bounded)
        rwa [List.append_assoc]
    · have whole := (region_loop side member).mpr ⟨j, by omega, region⟩
      rcases region.iters with ⟨q, same, fits⟩
      have outer : jumpTo loops fr.block L.header (j :: q) = (L.header, [j + 1]) := by
        rw [jumpTo_inside side member region.block (side.header_mem member), if_pos rfl]
      have link := Links.jump (T := fun _ S => S ∈ L.blocks) whole last flow
        (side.header_mem member) (by rw [same, List.append_assoc]; rfl) outer (by simpa using small)
      rwa [region.func] at link

end

/-! Nothing inside of a call leads to where it is entered -/

section

variable {c d σ : Config}

theorem Inner.suffix (inner : Inner P c σ d) : c <:+ d := by
  induction inner with
  | link _ _ _ _ lands => exact (List.suffix_cons _ _).trans lands.suffix
  | deeper _ _ _ ih => exact (List.suffix_cons _ _).trans ih

variable {fr : Frame}

theorem link_ne_start {g : FuncRef} (ok : FunctionOk P g) (inside : FrameIn P g fr)
    (link : Link P fr fr') : fr' ≠ .start g := by
  rintro rfl
  generalize start : Frame.start g = fr' at link
  cases link with
  | seq _ =>
    have never := congrArg Frame.index start
    simp [Frame.start, Frame.next] at never
  | @jump S B iters last flow jump _ =>
    have func := inside.func
    subst func
    have target : (jumpTo (P.loopInfo fr.func).top fr.block S fr.iters).1 ≠ 0 := by
      refine jumpTo_mem (Q := (· ≠ 0)) (SideBySide.top ok.natural) ?_ ?_
      · rintro T member _ inside rfl
        exact ok.natural.entry T member inside
      · rintro rfl
        have pred := ok.wellFormed.mem_preds.mpr ⟨inside.laid.1, flow⟩
        rw [ok.wellFormed.entry_preds] at pred
        cases pred
    rw [jump] at target
    exact target (congrArg Frame.block start).symm

theorem Inner.not_lands (okay : P.Ok) {p : Config} (inner : Inner P p c d) : ¬ Lands P p d := by
  induction inner with
  | @link p g fr fr' c d call inside link _ lands =>
    intro landing
    have start := (lands_call call).mp landing
    exact link_ne_start (okay g (entered_defined call)) inside link
      (lands.laid okay |>.frame_eq (start.laid okay))
  | @deeper p g fr c d call inside below ih =>
    intro landing
    have start := (lands_call call).mp landing
    have same := eq_of_suffix below.suffix start.suffix rfl
    exact ih (same ▸ start)

variable {N : Frame → Frame → Prop}

/-- The edges to the landing of a frame are the links to it. -/
theorem drawn_landing (okay : P.Ok) (landing : Lands P (fr :: σ) d) :
    Drawn P σ R N c d ↔ ∃ fr', N fr' fr ∧ Leaves P (fr' :: σ) c := by
  constructor
  · rintro (⟨fr', _, inner⟩ | ⟨fr', fr'', link, leaves, lands⟩)
    · obtain rfl : fr' = fr := by
        have same := eq_of_suffix inner.suffix landing.suffix rfl
        exact (List.cons.inj same).1
      exact absurd landing (inner.not_lands okay)
    · obtain rfl : fr'' = fr := (lands.laid okay).frame_eq (landing.laid okay)
      exact ⟨fr', link, leaves⟩
  · rintro ⟨fr', link, leaves⟩
    exact .inr ⟨fr', fr, link, leaves, landing⟩

/-- Without the links to a frame, the edges to its landing are gone. -/
theorem drawn_away (okay : P.Ok) {d₀ : Config} (landing : Lands P (fr :: σ) d₀) :
    Drawn P σ R (fun a b => N a b ∧ b ≠ fr) c d ↔ Drawn P σ R N c d ∧ d ≠ d₀ := by
  constructor
  · intro drawn
    constructor
    · exact drawn.imp_right fun ⟨a, b, link, leaves, lands⟩ => ⟨a, b, link.1, leaves, lands⟩
    · rintro rfl
      rcases (drawn_landing okay landing).mp drawn with ⟨fr', ⟨_, other⟩, _⟩
      exact other rfl
  · rintro ⟨inner | ⟨a, b, link, leaves, lands⟩, other⟩
    · exact .inl inner
    · refine .inr ⟨a, b, ⟨link, ?_⟩, leaves, lands⟩
      rintro rfl
      exact other (lands.unique landing)

end

end Clou.Unrolled
