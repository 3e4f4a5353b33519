import Clou.Drawing

/-! What the construction of instructions and blocks adds to the drawing. -/

namespace Clou.Unrolled

open Cfg Labelled Edit

section

variable (P : Program)

def Broken : Prop := ∃ f, (P.M.func f).isDeclaration = false ∧ functionExits P f = none

/-- What has been added for some frames of a function instance: the frames and the links
between them, entered at `first` and left at `E`. -/
structure Built (σ : Config) (R : Frame → Prop) (N : Frame → Frame → Prop) (first : Frame)
    (E : Config → Prop) (G : Drawing) (r : Port × State) (G' : Drawing) : Prop where
  shows : Shows r.2 G'
  extended : Extends P σ R N G G'
  entry : Enters P σ first G'.labels r.1.entry
  exits : Marks G'.labels r.1.exits E

def Builds (construct : Construct) (σ : Config) (f : FuncRef) (p : List Nat) (R : Frame → Prop)
    (N : Frame → Frame → Prop) (first : Frame) (E : Config → Prop) : Prop :=
  ∀ id s G, Shows s G → Fresh P σ R G → Names G.calls G.loops σ f p id →
    Yields (Broken P) (construct id s) fun r => ∃ G', Built P σ R N first E G r G'

def Ends (g : FuncRef) (σ : Config) (c : Config) : Prop :=
  ∃ fr, c = fr :: σ ∧ FrameIn P g fr ∧ AtEnd P fr ∧ successors P fr = []

def BuildsFunction (construct : ConstructFunction) (g : FuncRef) (σ : Config) : Prop :=
  Builds P (construct g (σ.map Frame.func)) σ g [] (FrameIn P g)
    (fun fr fr' => FrameIn P g fr ∧ Link P fr fr') (.start g) (Ends P g σ)

end

variable {P : Program}

/-! Instructions -/

section

variable {p c d : Config} {g : FuncRef}

theorem laid_none (none : entered P p = none) : Laid P p d ↔ d = p := by
  constructor
  · intro laid
    cases laid with
    | here _ => rfl
    | call call _ _ => simp [none] at call
  · rintro rfl
    exact .here none

theorem laid_call (call : entered P p = some g) :
    Laid P p d ↔ ∃ fr, FrameIn P g fr ∧ Laid P (fr :: p) d := by
  constructor
  · intro laid
    cases laid with
    | here none => simp [none] at call
    | call call' inside below =>
      rw [call] at call'
      cases call'
      exact ⟨_, inside, below⟩
  · rintro ⟨fr, inside, below⟩
    exact .call call inside below

theorem inner_none (none : entered P p = none) : ¬ Inner P p c d := by
  intro inner
  cases inner with
  | link call _ _ _ _ => simp [none] at call
  | deeper call _ _ => simp [none] at call

theorem inner_call (call : entered P p = some g) : Inner P p c d ↔
    Drawn P p (FrameIn P g) (fun fr fr' => FrameIn P g fr ∧ Link P fr fr') c d := by
  constructor
  · intro inner
    cases inner with
    | link call' inside link leaves lands =>
      rw [call] at call'
      cases call'
      exact .inr ⟨_, _, ⟨inside, link⟩, leaves, lands⟩
    | deeper call' inside below =>
      rw [call] at call'
      cases call'
      exact .inl ⟨_, inside, below⟩
  · rintro (⟨fr, inside, below⟩ | ⟨fr, fr', ⟨inside, link⟩, leaves, lands⟩)
    · exact .deeper call inside below
    · exact .link call inside link leaves lands

theorem drawn_single {σ : Config} {fr : Frame} :
    Drawn P σ (· = fr) (fun _ _ => False) c d ↔ Inner P (fr :: σ) c d := by
  simp [Drawn]

theorem leaves_none (none : entered P p = none) : Leaves P p c ↔ c = p := by
  constructor
  · intro leaves
    cases leaves with
    | here _ => rfl
    | callee call _ _ _ => simp [none] at call
  · rintro rfl
    exact .here none

theorem leaves_call (call : entered P p = some g) : Leaves P p c ↔ Ends P g p c := by
  constructor
  · intro leaves
    cases leaves with
    | here none => simp [none] at call
    | callee call' inside last ends =>
      rw [call] at call'
      cases call'
      exact ⟨_, rfl, inside, last, ends⟩
  · rintro ⟨fr, rfl, inside, last, ends⟩
    exact .callee call inside last ends

theorem lands_call (call : entered P p = some g) : Lands P p d ↔ Lands P (.start g :: p) d := by
  constructor
  · intro lands
    cases lands with
    | here none => simp [none] at call
    | enter call' below =>
      rw [call] at call'
      cases call'
      exact below
  · exact .enter call

end

section Build

variable {σ : Config} {f : FuncRef} {construct : ConstructFunction}

theorem node_builds (fr : Frame) (none : entered P (fr :: σ) = none) :
    Builds P (addInstruction fr.inst) σ fr.func fr.iters (· = fr) (fun _ _ => False) fr
      (Leaves P (fr :: σ)) := by
  intro id s G shows fresh names
  have new : .inst (fr :: σ) ∉ G.labels := fresh fr _ rfl (.here none)
  rcases shows.addNode new (.inst names) with ⟨number, shows⟩
  change s.nodes.length = G.labels.length at number
  have found : (G.labels ++ [.inst (fr :: σ)])[s.nodes.length]? = some (.inst (fr :: σ)) := by
    simp [number]
  refine .of_some ⟨G.addLabel (.inst (fr :: σ)), shows, ?_, ?_, ?_⟩
  · refine ⟨⟨[.inst (fr :: σ)], rfl, ?_⟩, List.prefix_rfl, List.prefix_rfl, ?_⟩
    · intro x
      simp [laid_none none]
    · intro x y
      simp [Drawing.addLabel, drawn_single, inner_none none]
  · exact ⟨_, _, rfl, found, .here none⟩
  · simp only [funext fun c => propext (leaves_none (c := c) none)]
    constructor
    · rintro c rfl
      exact List.mem_append_right _ (List.mem_singleton_self _)
    · exact List.cons_ne_nil _ _ ∘ Eq.symm
    · intro B n
      simp only [List.mem_singleton, Prod.mk.injEq, List.cons.injEq]
      constructor
      · rintro ⟨rfl, rfl⟩
        exact ⟨fr, σ, ⟨rfl, rfl⟩, rfl, found⟩
      · rintro ⟨fr', σ', ⟨rfl, rfl⟩, rfl, found'⟩
        exact ⟨rfl, number_unique shows.denotes.nodup found' found⟩

theorem call_builds {fr : Frame} {g : FuncRef} (call : entered P (fr :: σ) = some g)
    (callee : BuildsFunction P construct g (fr :: σ)) :
    Builds P (constructCall P (construct · ((fr :: σ).map Frame.func)) fr.inst g)
      σ fr.func fr.iters (· = fr) (fun _ _ => False) fr (Leaves P (fr :: σ)) := by
  intro id s G shows fresh names
  have named : Names (G.addCall (fr :: σ)).calls G.loops (fr :: σ) g []
      ⟨id.func ++ [s.nextFunc], id.loop⟩ := by
    rcases names.loop with ⟨outer, own, split, path, levels⟩
    constructor
    · refine .call (names.func.grow (List.prefix_append _ _)) ?_
      simp [Drawing.addCall, shows.nextFunc]
    · exact ⟨id.loop, [], by simp, split ▸ .frame path levels, .own⟩
  simp only [constructCall, monadLift_self, bind_apply, beginCall, Option.bind_some]
  refine (callee _ _ (G.addCall (fr :: σ)) (shows.addCall (fr :: σ) _) (fresh.callee rfl call)
    named).bind ?_
  rintro ⟨port, s'⟩ ⟨G', built⟩
  refine .of_some ⟨G', built.shows.record _ _, ?_, ?_, ?_⟩
  · rcases built.extended with ⟨⟨new, same, mem_new⟩, calls, loops, edge⟩
    refine ⟨⟨new, same, ?_⟩, (List.prefix_append _ _).trans calls, loops, ?_⟩
    · intro x
      rw [mem_new]
      constructor
      · rintro ⟨fr', d, inside, laid, rfl⟩
        exact ⟨fr, d, rfl, (laid_call call).mpr ⟨fr', inside, laid⟩, rfl⟩
      · rintro ⟨_, d, rfl, laid, rfl⟩
        rcases (laid_call call).mp laid with ⟨fr', inside, laid⟩
        exact ⟨fr', d, inside, laid, rfl⟩
    · intro x y
      simp only [edge, drawn_single, inner_call call]
      rfl
  · rcases built.entry with ⟨n, d, entry, found, lands⟩
    exact ⟨n, d, entry, found, (lands_call call).mpr lands⟩
  · exact built.exits.congr fun c => (leaves_call call).symm

theorem instruction_builds (fr : Frame)
    (callees : ∀ g, entered P (fr :: σ) = some g → BuildsFunction P construct g (fr :: σ)) :
    Builds P (onStack P construct ((fr :: σ).map Frame.func) fr.inst)
      σ fr.func fr.iters (· = fr) (fun _ _ => False) fr (Leaves P (fr :: σ)) := by
  intro id s G shows fresh names
  cases call : entered P (fr :: σ) with
  | none =>
    rw [onStack, constructInstruction, show callee P _ (P.M.deref fr.inst) = none from call]
    exact node_builds fr call id s G shows fresh names
  | some g =>
    rw [onStack, constructInstruction, show callee P _ (P.M.deref fr.inst) = some g from call]
    exact call_builds call (callees g call) id s G shows fresh names

/-! Blocks -/

def RestFrames (P : Program) (f : FuncRef) (B : Nat) (p : List Nat) (i : Nat) (fr : Frame) : Prop :=
  ∃ j, i ≤ j ∧ j < ((P.M.func f).block B).length ∧ fr = ⟨f, B, j, p⟩

def RestLinks (P : Program) (f : FuncRef) (B : Nat) (p : List Nat) (i : Nat) (fr fr' : Frame) :
    Prop :=
  ∃ j, i ≤ j ∧ j + 1 < ((P.M.func f).block B).length ∧ fr = ⟨f, B, j, p⟩ ∧ fr' = ⟨f, B, j + 1, p⟩

theorem restFrames_step {B : Nat} {p : List Nat} {i : Nat}
    (bound : i < ((P.M.func f).block B).length) (fr : Frame) :
    fr = ⟨f, B, i, p⟩ ∨ RestFrames P f B p (i + 1) fr ↔ RestFrames P f B p i fr := by
  constructor
  · rintro (rfl | ⟨j, later, below, rfl⟩)
    · exact ⟨i, le_rfl, bound, rfl⟩
    · exact ⟨j, by omega, below, rfl⟩
  · rintro ⟨j, from', below, rfl⟩
    rcases Nat.eq_or_lt_of_le from' with rfl | later
    · exact .inl rfl
    · exact .inr ⟨j, later, below, rfl⟩

theorem restLinks_step {B : Nat} {p : List Nat} {i : Nat}
    (bound : i + 1 < ((P.M.func f).block B).length) (fr fr' : Frame) :
    fr = ⟨f, B, i, p⟩ ∧ fr' = ⟨f, B, i + 1, p⟩ ∨ RestLinks P f B p (i + 1) fr fr' ↔
      RestLinks P f B p i fr fr' := by
  constructor
  · rintro (⟨rfl, rfl⟩ | ⟨j, later, below, rfl, rfl⟩)
    · exact ⟨i, le_rfl, bound, rfl, rfl⟩
    · exact ⟨j, by omega, below, rfl, rfl⟩
  · rintro ⟨j, from', below, rfl, rfl⟩
    rcases Nat.eq_or_lt_of_le from' with rfl | later
    · exact .inl ⟨rfl, rfl⟩
    · exact .inr ⟨j, later, below, rfl, rfl⟩

section

variable {B : Nat} {p : List Nat}
  (callees : ∀ fr g, fr.func = f → entered P (fr :: σ) = some g →
    BuildsFunction P construct g (fr :: σ))

include callees

theorem rest_yields {i n : Nat} (whole : i + 1 + n = ((P.M.func f).block B).length) {id : ID}
    {exits : List (BlockRef × NodeRef)} {s : State} {G : Drawing} (shows : Shows s G)
    (fresh : Fresh P σ (RestFrames P f B p (i + 1)) G)
    (names : Names G.calls G.loops σ f p id)
    (marks : Marks G.labels exits (Leaves P (⟨f, B, i, p⟩ :: σ))) :
    Yields (Broken P) (constructRest (onStack P construct (f :: σ.map Frame.func)) id
        ((List.range' (i + 1) n).map fun j => ⟨f, B, j⟩) exits s) fun r =>
      ∃ G', Shows r.2 G' ∧
        Extends P σ (RestFrames P f B p (i + 1)) (RestLinks P f B p i) G G' ∧
        Marks G'.labels r.1 (Leaves P (⟨f, B, ((P.M.func f).block B).length - 1, p⟩ :: σ)) := by
  induction n generalizing i exits s G with
  | zero =>
    refine .of_some ⟨G, shows, .refl ?_ ?_, ?_⟩
    · rintro fr ⟨j, later, below, -⟩
      omega
    · rintro fr fr' ⟨j, later, below, -⟩
      omega
    · rw [← whole]
      exact marks
  | succ n ih =>
    have bound : i + 1 < ((P.M.func f).block B).length := by omega
    have first := instruction_builds (⟨f, B, i + 1, p⟩ : Frame) (callees _ · rfl)
    rw [List.range'_succ, List.map_cons, constructRest, bind_apply]
    refine (first id s G shows (fresh.mono ?_) names).bind ?_
    · rintro fr rfl
      exact ⟨i + 1, le_rfl, bound, rfl⟩
    rintro ⟨port, s₁⟩ ⟨G₁, built⟩
    have before := marks.grow built.extended.grows built.shows.denotes.nodup
    rcases built.extended.connect built.shows (fun n member => before.valid member)
      (L := (· = ⟨f, B, i, p⟩)) (fun x => by simp [before.listed x]) built.entry with
      ⟨s₂, edge, connected, shows₂, extended⟩
    simp only [bind_apply, monadLift_self, effect, connected, Option.map_some, Option.bind_some]
    have fresh₂ : Fresh P σ (RestFrames P f B p (i + 1 + 1)) { G₁ with edge := edge } := by
      refine (fresh.mono ?_).extend extended ?_
      · rintro fr ⟨j, later, below, rfl⟩
        exact ⟨j, by omega, below, rfl⟩
      · rintro fr rfl ⟨j, later, -, same⟩
        have equal : i + 1 = j := congrArg Frame.index same
        omega
    refine (ih (by omega) shows₂ fresh₂ (names.grow extended.calls extended.loops)
      built.exits).mono ?_
    rintro r ⟨G', shows', extended', marks'⟩
    refine ⟨G', shows', (extended.trans extended').congr (restFrames_step bound) ?_, marks'⟩
    intro a b
    rw [false_or]
    exact restLinks_step bound a b

theorem block_builds (laid : LaidBlock P f B) (nonempty : 0 < ((P.M.func f).block B).length) :
    Builds P (constructBlock P (onStack P construct (f :: σ.map Frame.func)) f B) σ f p (RestFrames P f B p 0)
      (RestLinks P f B p 0) ⟨f, B, 0, p⟩
      (Leaves P (⟨f, B, ((P.M.func f).block B).length - 1, p⟩ :: σ)) := by
  intro id s G shows fresh names
  have kept : ¬ (((P.M.func f).preds B).isEmpty ∧ B ≠ 0) := by
    rintro ⟨none, other⟩
    exact laid.2.elim (fun some => some (List.isEmpty_iff.mp none)) other
  have insts : blockInsts P f B = ⟨f, B, 0⟩ ::
      (List.range' 1 (((P.M.func f).block B).length - 1)).map fun j => ⟨f, B, j⟩ := by
    rw [blockInsts, List.range_eq_range', ← Nat.sub_add_cancel nonempty, List.range'_succ]
    rfl
  rw [constructBlock, if_neg kept, insts]
  simp only [bind_apply]
  have first := instruction_builds (⟨f, B, 0, p⟩ : Frame) (callees _ · rfl)
  refine (first id s G shows (fresh.mono ?_) names).bind ?_
  · rintro fr rfl
    exact ⟨0, le_rfl, nonempty, rfl⟩
  rintro ⟨port, s₁⟩ ⟨G₁, built⟩
  have fresh₁ : Fresh P σ (RestFrames P f B p (0 + 1)) G₁ := by
    refine (fresh.mono ?_).extend built.extended ?_
    · rintro fr ⟨j, -, below, rfl⟩
      exact ⟨j, Nat.zero_le j, below, rfl⟩
    · rintro fr rfl ⟨j, later, -, same⟩
      have equal : 0 = j := congrArg Frame.index same
      omega
  refine (rest_yields callees (by omega) built.shows fresh₁
    (names.grow built.extended.calls built.extended.loops) built.exits).bind ?_
  rintro ⟨exits, s₂⟩ ⟨G₂, shows₂, extended, marks⟩
  refine .of_some ⟨G₂, shows₂, (built.extended.trans extended).congr (restFrames_step nonempty) ?_,
    built.entry.grow extended.grows, marks⟩
  intro a b
  rw [false_or]

end

end Build

end Clou.Unrolled
