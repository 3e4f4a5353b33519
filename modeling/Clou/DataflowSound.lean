import Clou.Dataflow
import Clou.FiniteMap
import Clou.PathFold

/-! What the dataflow iteration guarantees: where it stops, its values cover the values
that are folded along the paths of the function. -/

namespace Clou.Dataflow

open FiniteMap

variable {V : Type} {ctx : Context V} {M : Module} {f : FuncRef} {S : Type}

/-- A concrete step function and an order of the abstract values in which lower values
cover more. `Known` are the values that can stand before an instruction, `Out` those that
can stand after a terminator. -/
structure Simulation (ctx : Context V) (M : Module) (f : FuncRef) (S : Type) where
  step : InstRef → S → Option S
  ok : InstRef → S → Prop
  Covers : S → V → Prop
  le : V → V → Prop
  Known : InstRef → V → Prop
  Out : V → Prop
  le_refl : ∀ a, le a a
  le_trans : ∀ {a b c}, le a b → le b c → le a c
  covers_le : ∀ {s a b}, le a b → Covers s b → Covers s a
  meet_le_left : ∀ a b, le (ctx.meet a b) a
  meet_le_right : ∀ a b, le (ctx.meet a b) b
  le_meet : ∀ {a b c}, le c a → le c b → le c (ctx.meet a b)
  known_le_top : ∀ {I a}, Known I a → le a ctx.top
  out_le_top : ∀ {b}, Out b → le b ctx.top
  out_top : Out ctx.top
  known_top : ∀ {J}, J.index = 0 → J.block ≠ 0 → Known J ctx.top
  known_meet : ∀ {J P a b}, J.index = 0 → P ∈ (M.func f).preds J.block → Known J a → Out b →
    Known J (ctx.meet a b)
  known_seq : ∀ {I a b}, I ∈ M.insts f → I.index + 1 < ((M.func f).block I.block).length →
    Known I a → ctx.transfer I a = some b → Known ⟨f, I.block, I.index + 1⟩ b
  out_last : ∀ {I a b}, I ∈ M.insts f → I.index + 1 = ((M.func f).block I.block).length →
    Known I a → ctx.transfer I a = some b → Out b
  transfer_le : ∀ {I a b c d}, I ∈ M.insts f → Known I a → Known I b → le a b →
    ctx.transfer I a = some c → ctx.transfer I b = some d → le c d
  simulates : ∀ {I s t a b}, I ∈ M.insts f → Known I a → ok I s → Covers s a →
    step I s = some t → ctx.transfer I a = some b → Covers t b

variable (sim : Simulation ctx M f S)

abbrev Walk (edge : InstRef → InstRef → Prop) (start : InstRef) (s : S) : InstRef → S → Prop :=
  PathFold.Reach edge sim.step sim.ok start s

/-- A component does right by the paths along its own edges, from every value that the
one it has written before its entry covers. A transfer from a higher value has no lower
exit values. -/
structure Component.Sound (c : Component V) (edge : InstRef → InstRef → Prop) : Prop where
  entry_mem : c.entry ∈ c.insts
  entry_front : c.entry.index = 0
  insts_mem : ∀ {I}, I ∈ c.insts → I ∈ M.insts f
  exits_mem : ∀ {X}, X ∈ c.exits → X ∈ c.insts
  edge_mem : ∀ {I J}, edge I J → J ∈ c.insts
  writes : ∀ {e r I}, sim.Known c.entry e → c.transfer e = some r → I ∈ r.ins → I ∈ c.insts
  exit_keys : ∀ {e r X}, sim.Known c.entry e → c.transfer e = some r → X ∈ r.exits → X ∈ c.exits
  entered : ∀ {e r}, sim.Known c.entry e → c.transfer e = some r →
    ∃ x, r.ins.lookup c.entry = some x ∧ sim.Known c.entry x ∧ sim.le x e
  out_exits : ∀ {e r X b}, sim.Known c.entry e → c.transfer e = some r →
    r.exits.lookup X = some b → sim.Out b
  inside : ∀ {e r x s I v}, sim.Known c.entry e → c.transfer e = some r →
    r.ins.lookup c.entry = some x → sim.Covers s x → Walk sim edge c.entry s I v →
    ∃ a, r.ins.lookup I = some a ∧ sim.Covers v a
  exit : ∀ {e r x s X v w}, sim.Known c.entry e → c.transfer e = some r →
    r.ins.lookup c.entry = some x → sim.Covers s x → Walk sim edge c.entry s X v →
    X ∈ c.exits → sim.ok X v → sim.step X v = some w →
    ∃ b, r.exits.lookup X = some b ∧ sim.Covers w b
  mono : ∀ {e r e' r' x' X}, sim.Known c.entry e → c.transfer e = some r →
    sim.Known c.entry e' → c.transfer e' = some r' → r'.ins.lookup c.entry = some x' →
    sim.le x' e → X ∈ c.exits →
    ∃ b b', r.exits.lookup X = some b ∧ r'.exits.lookup X = some b' ∧ sim.le b' b

/-! Blocks -/

variable {B : Nat}

theorem mem_blockInsts {I : InstRef} : I ∈ blockInsts M f B ↔
    I.func = f ∧ I.block = B ∧ I.index < ((M.func f).block B).length := by
  simp only [blockInsts, List.mem_map, List.mem_range]
  constructor
  · rintro ⟨i, bound, rfl⟩
    exact ⟨rfl, rfl, bound⟩
  · rcases I with ⟨g, C, i⟩
    rintro ⟨rfl, rfl, bound⟩
    exact ⟨i, bound, rfl⟩

/-- From instruction `i` on, the values before the instructions of a block. -/
theorem transferInsts_spec {n i : Nat} {value final : V} {ins outs ins' outs' : Map V}
    (moved : transferInsts ctx ((List.range' i n).map (fun i => ⟨f, B, i⟩)) value ins outs =
      some (final, ins', outs')) :
    (∀ J, (∀ k, i ≤ k → k < i + n → J ≠ ⟨f, B, k⟩) →
      ins'.lookup J = ins.lookup J ∧ outs'.lookup J = outs.lookup J) ∧
    (n = 0 → final = value) ∧
    (0 < n → ins'.lookup ⟨f, B, i⟩ = some value) ∧
    ∀ k a, i ≤ k → k < i + n → ins'.lookup ⟨f, B, k⟩ = some a →
      ∃ b, ctx.transfer ⟨f, B, k⟩ a = some b ∧ outs'.lookup ⟨f, B, k⟩ = some b ∧
        if k + 1 < i + n then ins'.lookup ⟨f, B, k + 1⟩ = some b else final = b := by
  induction n generalizing i value ins outs with
  | zero =>
    obtain ⟨rfl, rfl, rfl⟩ : value = final ∧ ins = ins' ∧ outs = outs' := by
      simpa [transferInsts] using moved
    refine ⟨fun _ _ => ⟨rfl, rfl⟩, fun _ => rfl, by simp, ?_⟩
    intro k a low high
    omega
  | succ n ih =>
    rw [List.range'_succ, List.map_cons, transferInsts] at moved
    rcases Option.bind_eq_some_iff.mp moved with ⟨out, here, rest⟩
    rcases ih rest with ⟨frame, empty, first, chain⟩
    have own := frame ⟨f, B, i⟩ (by intro k low high same; simp at same; omega)
    rw [lookup_insert, lookup_insert, if_pos rfl, if_pos rfl] at own
    refine ⟨?_, by omega, fun _ => own.1, ?_⟩
    · intro J outside
      have other := outside i (by omega) (by omega)
      have kept := frame J (fun k low high => outside k (by omega) (by omega))
      rwa [lookup_insert, lookup_insert, if_neg other, if_neg other] at kept
    · intro k a low high found
      rcases Nat.eq_or_lt_of_le low with rfl | later
      · obtain rfl := Option.some.inj (own.1.symm.trans found)
        refine ⟨out, here, own.2, ?_⟩
        split
        · exact first (by omega)
        · exact empty (by omega)
      · rcases chain k a (by omega) (by omega) found with ⟨b, next, after, value⟩
        exact ⟨b, next, after, by rwa [show i + (n + 1) = i + 1 + n by omega]⟩

def SeqEdge (M : Module) (f : FuncRef) (B : Nat) (I J : InstRef) : Prop :=
  I.func = f ∧ I.block = B ∧ I.index + 1 < ((M.func f).block B).length ∧ J = ⟨f, B, I.index + 1⟩

structure BlockResult (ctx : Context V) (M : Module) (f : FuncRef) (B : Nat) (e : V)
    (r : Values V) : Prop where
  keys : ∀ {I}, I ∈ r.ins → I ∈ blockInsts M f B
  first : r.ins.lookup ⟨f, B, 0⟩ = some e
  chain : ∀ {i a}, i < ((M.func f).block B).length → r.ins.lookup ⟨f, B, i⟩ = some a →
    ∃ b, ctx.transfer ⟨f, B, i⟩ a = some b ∧
      if i + 1 < ((M.func f).block B).length then r.ins.lookup ⟨f, B, i + 1⟩ = some b
      else r.exits = AList.insert (M.terminator ⟨f, B⟩) b ∅
  out_keys : ∀ {I}, I ∈ r.outs → I ∈ blockInsts M f B
  outs : ∀ {i a}, i < ((M.func f).block B).length → r.ins.lookup ⟨f, B, i⟩ = some a →
    r.outs.lookup ⟨f, B, i⟩ = ctx.transfer ⟨f, B, i⟩ a

theorem block_result {e : V} {r : Values V} (nonempty : 0 < ((M.func f).block B).length)
    (moved : (block ctx M f B).transfer e = some r) : BlockResult ctx M f B e r := by
  rcases Option.map_eq_some_iff.mp moved with ⟨⟨final, ins, outs⟩, insts, rfl⟩
  rw [blockInsts, List.range_eq_range'] at insts
  rcases transferInsts_spec insts with ⟨frame, -, first, chain⟩
  have other {I : InstRef} (outside : I ∉ blockInsts M f B) (k : Nat) (_ : 0 ≤ k)
      (bound : k < 0 + ((M.func f).block B).length) : I ≠ ⟨f, B, k⟩ := by
    rintro rfl
    exact outside (mem_blockInsts.mpr ⟨rfl, rfl, by simpa using bound⟩)
  constructor
  · intro I member
    by_contra outside
    have absent := (frame I (other outside)).1
    rcases FiniteMap.exists_of_mem member with ⟨a, found⟩
    simp [absent] at found
  · exact first nonempty
  · intro i a bound found
    rcases chain i a (Nat.zero_le i) (by simpa using bound) found with ⟨b, next, -, value⟩
    refine ⟨b, next, ?_⟩
    simp only [Nat.zero_add] at value
    split
    · rename_i more
      rwa [if_pos more] at value
    · rename_i done
      rw [if_neg done] at value
      rw [value]
  · intro I member
    by_contra outside
    have absent := (frame I (other outside)).2
    rcases FiniteMap.exists_of_mem member with ⟨a, found⟩
    simp [absent] at found
  · intro i a bound found
    rcases chain i a (Nat.zero_le i) (by simpa using bound) found with ⟨b, next, after, -⟩
    rw [after, next]

section

variable {B : Nat} (valid : B < (M.func f).blocks.length)

include valid

variable {e : V} {r : Values V}

section

variable (result : BlockResult ctx M f B e r)

include result

theorem BlockResult.known (known : sim.Known ⟨f, B, 0⟩ e) {i : Nat}
    (bound : i < ((M.func f).block B).length) :
    ∃ a, r.ins.lookup ⟨f, B, i⟩ = some a ∧ sim.Known ⟨f, B, i⟩ a := by
  induction i with
  | zero => exact ⟨e, result.first, known⟩
  | succ i ih =>
    rcases ih (by omega) with ⟨a, found, before⟩
    rcases result.chain (by omega) found with ⟨b, next, value⟩
    rw [if_pos bound] at value
    have member : (⟨f, B, i⟩ : InstRef) ∈ M.insts f :=
      (Module.mem_insts ..).mpr ⟨rfl, valid, Nat.lt_of_succ_lt bound⟩
    exact ⟨b, value, sim.known_seq member bound before next⟩

theorem BlockResult.last (known : sim.Known ⟨f, B, 0⟩ e)
    (nonempty : 0 < ((M.func f).block B).length) :
    ∃ a b, r.ins.lookup (M.terminator ⟨f, B⟩) = some a ∧ sim.Known (M.terminator ⟨f, B⟩) a ∧
      ctx.transfer (M.terminator ⟨f, B⟩) a = some b ∧
      r.exits = AList.insert (M.terminator ⟨f, B⟩) b ∅ := by
  have bound : ((M.func f).block B).length - 1 < ((M.func f).block B).length :=
    Nat.sub_lt nonempty Nat.one_pos
  rcases result.known sim valid known bound with ⟨a, found, before⟩
  rcases result.chain bound found with ⟨b, next, value⟩
  rw [if_neg (by omega)] at value
  exact ⟨a, b, found, before, next, value⟩

theorem BlockResult.le {e' : V} {r' : Values V} (result' : BlockResult ctx M f B e' r')
    (known : sim.Known ⟨f, B, 0⟩ e) (known' : sim.Known ⟨f, B, 0⟩ e') (le : sim.le e' e) {i : Nat}
    (bound : i < ((M.func f).block B).length) {a a' : V} (found : r.ins.lookup ⟨f, B, i⟩ = some a)
    (found' : r'.ins.lookup ⟨f, B, i⟩ = some a') : sim.le a' a := by
  induction i generalizing a a' with
  | zero =>
    obtain rfl := Option.some.inj (result.first.symm.trans found)
    obtain rfl := Option.some.inj (result'.first.symm.trans found')
    exact le
  | succ i ih =>
    have smaller := Nat.lt_of_succ_lt bound
    rcases result.known sim valid known smaller with ⟨p, foundP, knownP⟩
    rcases result'.known sim valid known' smaller with ⟨p', foundP', knownP'⟩
    rcases result.chain smaller foundP with ⟨b, next, value⟩
    rcases result'.chain smaller foundP' with ⟨b', next', value'⟩
    rw [if_pos bound] at value value'
    obtain rfl := Option.some.inj (value.symm.trans found)
    obtain rfl := Option.some.inj (value'.symm.trans found')
    have member : (⟨f, B, i⟩ : InstRef) ∈ M.insts f :=
      (Module.mem_insts ..).mpr ⟨rfl, valid, smaller⟩
    exact sim.transfer_le member knownP' knownP (ih smaller foundP foundP') next' next

theorem BlockResult.walk (nonempty : 0 < ((M.func f).block B).length)
    (known : sim.Known ⟨f, B, 0⟩ e) {s v : S} {I : InstRef} (covers : sim.Covers s e)
    (walk : Walk sim (SeqEdge M f B) ⟨f, B, 0⟩ s I v) :
    I ∈ blockInsts M f B ∧ ∃ a, r.ins.lookup I = some a ∧ sim.Covers v a := by
  induction walk with
  | start =>
    exact ⟨mem_blockInsts.mpr ⟨rfl, rfl, nonempty⟩, e, result.first, covers⟩
  | @step I J v w _ ok moved edge ih =>
    rcases ih with ⟨member, a, found, holds⟩
    rcases edge with ⟨rfl, rfl, bound, rfl⟩
    have smaller := Nat.lt_of_succ_lt bound
    rcases result.chain smaller found with ⟨b, next, value⟩
    rw [if_pos bound] at value
    rcases result.known sim valid known smaller with ⟨a', found', before⟩
    obtain rfl := Option.some.inj (found.symm.trans found')
    have inside : I ∈ M.insts I.func := (Module.mem_insts ..).mpr ⟨rfl, valid, smaller⟩
    exact ⟨mem_blockInsts.mpr ⟨rfl, rfl, bound⟩, b, value,
      sim.simulates inside before ok holds moved next⟩

end

theorem block_sound (nonempty : 0 < ((M.func f).block B).length) :
    (block ctx M f B).Sound sim (SeqEdge M f B) := by
  have last : M.terminator ⟨f, B⟩ ∈ blockInsts M f B :=
    mem_blockInsts.mpr ⟨rfl, rfl, Nat.sub_lt nonempty Nat.one_pos⟩
  have lastMem : M.terminator ⟨f, B⟩ ∈ M.insts f :=
    (Module.mem_insts ..).mpr ⟨rfl, valid, (mem_blockInsts.mp last).2.2⟩
  constructor
  · exact mem_blockInsts.mpr ⟨rfl, rfl, nonempty⟩
  · rfl
  · intro I member
    rcases mem_blockInsts.mp member with ⟨rfl, rfl, bound⟩
    exact (Module.mem_insts ..).mpr ⟨rfl, valid, bound⟩
  · intro X member
    exact List.mem_singleton.mp member ▸ last
  · rintro I J ⟨-, -, bound, rfl⟩
    exact mem_blockInsts.mpr ⟨rfl, rfl, bound⟩
  · intro e r I _ moved member
    exact (block_result nonempty moved).keys member
  · intro e r X known moved member
    rcases (block_result nonempty moved).last sim valid known nonempty with ⟨a, b, -, -, -, exits⟩
    rw [exits] at member
    rcases (AList.mem_insert _).mp member with rfl | none
    · exact List.mem_singleton_self _
    · exact absurd none (AList.notMem_empty _)
  · intro e r known moved
    exact ⟨e, (block_result nonempty moved).first, known, sim.le_refl e⟩
  · intro e r X b known moved found
    rcases (block_result nonempty moved).last sim valid known nonempty with
      ⟨a, c, -, before, next, exits⟩
    have out := sim.out_last lastMem (Nat.sub_add_cancel nonempty) before next
    rw [exits, lookup_insert] at found
    split at found
    · exact Option.some.inj found ▸ out
    · simp at found
  · intro e r x s I v known moved value covers walk
    have result := block_result nonempty moved
    obtain rfl := Option.some.inj (result.first.symm.trans value)
    exact (result.walk sim valid nonempty known covers walk).2
  · intro e r x s X v w known moved value covers walk member ok stepped
    have result := block_result nonempty moved
    obtain rfl := Option.some.inj (result.first.symm.trans value)
    obtain rfl := List.mem_singleton.mp member
    rcases result.walk sim valid nonempty known covers walk with ⟨-, a, found, holds⟩
    rcases result.last sim valid known nonempty with ⟨a', b, found', before, next, exits⟩
    obtain rfl := Option.some.inj (found.symm.trans found')
    exact ⟨b, by rw [exits, AList.lookup_insert],
      sim.simulates lastMem before ok holds stepped next⟩
  · intro e r e' r' x' X known moved known' moved' value le member
    have result := block_result nonempty moved
    have result' := block_result nonempty moved'
    obtain rfl := Option.some.inj (result'.first.symm.trans value)
    obtain rfl := List.mem_singleton.mp member
    rcases result.last sim valid known nonempty with ⟨a, b, found, before, next, exits⟩
    rcases result'.last sim valid known' nonempty with ⟨a', b', found', before', next', exits'⟩
    refine ⟨b, b', by rw [exits, AList.lookup_insert], by rw [exits', AList.lookup_insert], ?_⟩
    have lower := result.le sim valid result' known known' le (mem_blockInsts.mp last).2.2 found found'
    exact sim.transfer_le lastMem before' before lower next' next

end

end Clou.Dataflow
