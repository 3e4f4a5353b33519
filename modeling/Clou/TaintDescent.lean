import Clou.TaintAnnotations

/-! Sweeps of the attacker-control pass only go down, whatever the alias oracle answers, as long
as must-aliasing is an equivalence. The pointers that the function stores to shrink and the
controlled instructions grow; the annotated pointers, which no store need name, do not count. -/

namespace Clou.AttackerTaint

namespace Oracle

open FiniteMap

structure MustEquivalence (oracle : Oracle) : Prop where
  refl : ∀ P, oracle P P = .mustAlias
  symm : ∀ {P Q}, oracle P Q = .mustAlias → oracle Q P = .mustAlias
  trans : ∀ {P Q R}, oracle P Q = .mustAlias → oracle Q R = .mustAlias → oracle P R = .mustAlias

variable {oracle : Oracle} {ctx : Context} {f : FuncRef}

/-! Values -/

structure Below (ctx : Context) (f : FuncRef) (v w : TaintValue) : Prop where
  insts : w.insts ⊆ v.insts
  stores : ∀ Q ∈ (top ctx f).stores, Q ∈ v.stores → Q ∈ w.stores

theorem Below.refl (v : TaintValue) : Below ctx f v v :=
  ⟨List.Subset.refl _, fun _ _ member => member⟩

variable {v w b a : TaintValue} {I : InstRef} {Q : Value}

theorem Below.trans {u : TaintValue} (first : Below ctx f u v) (second : Below ctx f v w) :
    Below ctx f u w :=
  ⟨List.Subset.trans second.insts first.insts,
    fun Q stored member => second.stores Q stored (first.stores Q stored member)⟩

theorem below_top (v : TaintValue) : Below ctx f v (top ctx f) :=
  ⟨List.nil_subset _, fun _ stored _ => stored⟩

/-- What is known of the value before an instruction. At the front of a block every pointer must
alias a stored-to one; elsewhere the annotated pointers are all there. -/
structure Seen (oracle : Oracle) (ctx : Context) (f : FuncRef) (I : InstRef) (v : TaintValue) : Prop where
  members : Members ctx f v
  front : I.index = 0 → ∀ S ∈ v.stores, ∃ Q ∈ v.stores, Q ∈ (top ctx f).stores ∧ oracle S Q = .mustAlias
  inner : I.index ≠ 0 → ctx.annotatedUncontrolled ⊆ v.stores

theorem Below.taints (equivalence : MustEquivalence oracle) (below : Below ctx f v w)
    (seen : Seen oracle ctx f I v) (seen' : Seen oracle ctx f I w)
    (taints : Taints oracle ctx I w) : Taints oracle ctx I v := by
  refine taints_of below.insts (fun P S member must => ?_) taints
  by_cases front : I.index = 0
  · obtain ⟨Q, present, stored, alike⟩ := seen.front front S member
    exact ⟨Q, below.stores Q stored present, equivalence.trans must alike⟩
  · rcases seen.members.stores S member with stored | annotated
    · exact ⟨S, below.stores S stored member, must⟩
    · exact ⟨S, seen'.inner front annotated, must⟩

/-- A pointer that is kept is kept if fewer instructions are controlled. -/
theorem keeps_of (insts : w.insts ⊆ v.insts) (stores : Q ∈ v.stores → Q ∈ w.stores)
    (keeps : Keeps oracle ctx I v Q) : Keeps oracle ctx I w Q := by
  unfold Keeps at keeps ⊢
  simp only at keeps ⊢
  split
  · rw [if_pos ‹_›] at keeps
    unfold StoreKeeps at keeps ⊢
    by_cases taint : inTaint ctx (ctx.M.deref I).valueOperand v = some true
    · rw [if_pos taint] at keeps
      have member := stores keeps.1
      split
      · exact ⟨member, keeps.2⟩
      · exact .inr ⟨member, must_of_aliasResult keeps.2⟩
    · have taint' : ¬ inTaint ctx (ctx.M.deref I).valueOperand w = some true :=
        fun taint' => taint (inTaint_mono insts taint')
      rw [if_neg taint] at keeps
      rw [if_neg taint']
      exact keeps.imp_right fun kept => ⟨stores kept.1, kept.2⟩
  · rw [if_neg ‹_›] at keeps
    exact ⟨stores keeps.1, keeps.2⟩

section MustEquivalence

variable (equivalence : MustEquivalence oracle)

include equivalence

theorem Below.transfer {v' w' : TaintValue} (below : Below ctx f v w) (seen : Seen oracle ctx f I v)
    (seen' : Seen oracle ctx f I w) (moved : transfer oracle ctx I v = some v')
    (moved' : transfer oracle ctx I w = some w') : Below ctx f v' w' := by
  constructor
  · intro J member
    rw [(transfer_spec moved').1] at member
    rw [(transfer_spec moved).1]
    exact member.imp (fun old => below.insts old)
      fun new => ⟨new.1, below.taints equivalence seen seen' new.2⟩
  · intro Q stored member
    rw [(transfer_spec moved).2] at member
    rw [(transfer_spec moved').2]
    exact member.imp_left (keeps_of below.insts (below.stores Q stored))

omit equivalence in
theorem annotated_after (moved : transfer oracle ctx I v = some w) :
    ctx.annotatedUncontrolled ⊆ w.stores :=
  fun Q annotated => ((transfer_spec moved).2 Q).mpr (.inr annotated)

/-! Meets at the front of a block -/

/-- What the meets at the front of a block keep. The stored-to pointers of the value are whole
classes of must-aliasing ones. -/
structure Front (oracle : Oracle) (ctx : Context) (f : FuncRef) (v : TaintValue) : Prop where
  members : Members ctx f v
  partner : ∀ S ∈ v.stores, ∃ Q ∈ v.stores, Q ∈ (top ctx f).stores ∧ oracle S Q = .mustAlias
  saturated : ∀ Q ∈ (top ctx f).stores, ∀ S ∈ v.stores, oracle Q S = .mustAlias → Q ∈ v.stores

theorem front_top : Front oracle ctx f (top ctx f) :=
  ⟨members_top, fun S stored => ⟨S, stored, stored, equivalence.refl S⟩, fun _ stored _ _ _ => stored⟩

theorem Front.meet (front : Front oracle ctx f a) (members : Members ctx f b) :
    Front oracle ctx f (meet oracle ctx a b) := by
  refine ⟨front.members.meet members, ?_, ?_⟩
  · intro R member
    obtain ⟨P, left, S, right, must, which⟩ := of_mem_meet member
    obtain ⟨Q, present, stored, alike⟩ := front.partner P left
    have kept : Q ∈ (Oracle.meet oracle ctx a b).stores :=
      mem_meet present right (equivalence.trans (equivalence.symm alike) must)
    rcases which with rfl | rfl
    · exact ⟨Q, kept, stored, alike⟩
    · exact ⟨Q, kept, stored, equivalence.trans (equivalence.symm must) alike⟩
  · intro Q stored R member alike
    obtain ⟨P, left, S, right, must, which⟩ := of_mem_meet member
    have both : oracle Q P = .mustAlias ∧ oracle Q S = .mustAlias := by
      rcases which with rfl | rfl
      · exact ⟨alike, equivalence.trans alike must⟩
      · exact ⟨equivalence.trans alike (equivalence.symm must), alike⟩
    exact mem_meet (front.saturated Q stored P left both.1) right both.2

/-- A stored-to pointer is kept if it was there and must alias something on the other side. -/
theorem Front.mem_meet_stored (front : Front oracle ctx f a) (stored : Q ∈ (top ctx f).stores) :
    Q ∈ (Oracle.meet oracle ctx a b).stores ↔
      Q ∈ a.stores ∧ ∃ S ∈ b.stores, oracle Q S = .mustAlias := by
  constructor
  · intro member
    obtain ⟨P, left, S, right, must, which⟩ := of_mem_meet member
    rcases which with rfl | rfl
    · exact ⟨left, S, right, must⟩
    · exact ⟨front.saturated Q stored P left (equivalence.symm must), Q, right, equivalence.refl Q⟩
  · intro both
    obtain ⟨left, S, right, must⟩ := both
    exact mem_meet left right must

/-- The value after an instruction that has been visited has the annotated pointers, the one it
starts with all stored-to ones. -/
def Shows (ctx : Context) (f : FuncRef) (v : TaintValue) : Prop :=
  ctx.annotatedUncontrolled ⊆ v.stores ∨ (top ctx f).stores ⊆ v.stores

theorem Below.meet {a' b' : TaintValue} (left : Below ctx f a' a) (right : Below ctx f b' b)
    (front : Front oracle ctx f a) (front' : Front oracle ctx f a') (members : Members ctx f b')
    (shows : Shows ctx f b) : Below ctx f (meet oracle ctx a' b') (meet oracle ctx a b) := by
  constructor
  · intro J member
    rcases List.mem_union_iff.mp member with old | new
    · exact List.mem_union_iff.mpr (.inl (left.insts old))
    · exact List.mem_union_iff.mpr (.inr (right.insts new))
  · intro Q stored member
    rw [front'.mem_meet_stored equivalence stored] at member
    rw [front.mem_meet_stored equivalence stored]
    obtain ⟨here, S, present, must⟩ := member
    refine ⟨left.stores Q stored here, ?_⟩
    rcases members.stores S present with inside | annotated
    · exact ⟨S, right.stores S inside present, must⟩
    · rcases shows with all | all
      · exact ⟨S, all annotated, must⟩
      · exact ⟨Q, all stored, equivalence.refl Q⟩

/-! States -/

/-- An instruction that has been visited. What another visit would find before it is lower. -/
structure Settled (oracle : Oracle) (ctx : Context) (f : FuncRef) (s : State) (I : InstRef)
    (i o : TaintValue) : Prop where
  ins : s.ins.lookup I = some i
  outs : s.outs.lookup I = some o
  seen : Seen oracle ctx f I i
  moved : transfer oracle ctx I i = some o
  lowers : ∀ {new}, newIn oracle ctx f s I = some new → Below ctx f new i

structure Descending (oracle : Oracle) (ctx : Context) (f : FuncRef) (visited : InstRef → Prop)
    (s : State) : Prop where
  start : s.ins.lookup (entry f) = some .empty
  inside : ∀ {I o}, s.outs.lookup I = some o → I ∈ ctx.M.insts f
  settled : ∀ {I o}, visited I → s.outs.lookup I = some o → ∃ i, Settled oracle ctx f s I i o
  fresh : ∀ {I o}, ¬ visited I → s.outs.lookup I = some o → o = top ctx f

variable {visited : InstRef → Prop} {s t : State}

section Descending

variable (descending : Descending oracle ctx f visited s)

include descending

omit equivalence in
theorem Descending.members {o : TaintValue} (found : s.outs.lookup I = some o) :
    Members ctx f o := by
  by_cases known : visited I
  · obtain ⟨i, settled⟩ := descending.settled known found
    exact settled.seen.members.transfer (descending.inside found) settled.moved
  · rw [descending.fresh known found]
    exact members_top

omit equivalence in
theorem Descending.shows {o : TaintValue} (found : s.outs.lookup I = some o) : Shows ctx f o := by
  by_cases known : visited I
  · obtain ⟨i, settled⟩ := descending.settled known found
    exact .inl (annotated_after settled.moved)
  · rw [descending.fresh known found]
    exact .inr (List.Subset.refl _)

theorem Descending.seen {new : TaintValue}
    (before : I.index ≠ 0 → visited ⟨I.func, I.block, I.index - 1⟩)
    (computed : newIn oracle ctx f s I = some new) : Seen oracle ctx f I new := by
  unfold newIn at computed
  split at computed
  · have first : I = entry f := ‹_›
    rw [first, descending.start] at computed
    cases computed
    subst first
    exact ⟨⟨List.nil_subset _, fun _ member => absurd member List.not_mem_nil⟩,
      fun _ _ member => absurd member List.not_mem_nil, fun inner => absurd rfl inner⟩
  · split at computed
    · have index : I.index = 0 := ‹_›
      have front : Front oracle ctx f new := by
        refine foldlM_invariant (motive := Front oracle ctx f) ?_ (front_top equivalence) computed
        intro a b P _ front met
        obtain ⟨out, found, rfl⟩ := Option.map_eq_some_iff.mp met
        exact front.meet equivalence (descending.members found)
      exact ⟨front.members, fun _ => front.partner, fun inner => absurd index inner⟩
    · have inner : I.index ≠ 0 := ‹_›
      obtain ⟨i, settled⟩ := descending.settled (before inner) computed
      exact ⟨descending.members computed, fun front => absurd front inner,
        fun _ => annotated_after settled.moved⟩

omit descending equivalence in
/-- How the values after instructions compare (`U`) decides how the meets at a front (`F`) and so
the values before an instruction (`R`) do. -/
theorem newIn_simulates {U F R : TaintValue → TaintValue → Prop}
    (start : s.ins.lookup (entry f) = t.ins.lookup (entry f)) (refl : ∀ v, R v v)
    (outs : ∀ {J o}, s.outs.lookup J = some o → ∃ o', t.outs.lookup J = some o' ∧ U o o')
    (inner : ∀ {o o'}, U o o' → R o o') (front : ∀ {a a'}, F a a' → R a a')
    (tops : F (top ctx f) (top ctx f))
    (meets : ∀ {a a' o o'}, F a a' → U o o' → F (meet oracle ctx a o) (meet oracle ctx a' o'))
    {new : TaintValue} (computed : newIn oracle ctx f s I = some new) :
    ∃ new', newIn oracle ctx f t I = some new' ∧ R new new' := by
  unfold newIn at computed ⊢
  split at computed
  · have first : I = entry f := ‹_›
    rw [first, start] at computed
    rw [if_pos first, first]
    exact ⟨new, computed, refl new⟩
  · rw [if_neg ‹_›]
    split at computed
    · rw [if_pos ‹_›]
      have both := foldlM_simulates (motive := F) (b := top ctx f)
        (g := fun new P => (t.outs.lookup (ctx.M.terminator ⟨f, P⟩)).map (meet oracle ctx new))
        ?_ tops computed
      · obtain ⟨new', folded, related⟩ := both
        exact ⟨new', folded, front related⟩
      · intro a c a' P _ related step
        obtain ⟨o, found, rfl⟩ := Option.map_eq_some_iff.mp step
        obtain ⟨o', found', compared⟩ := outs found
        exact ⟨_, Option.map_eq_some_iff.mpr ⟨o', found', rfl⟩, meets related compared⟩
    · rw [if_neg ‹_›]
      obtain ⟨o', found', compared⟩ := outs computed
      exact ⟨o', found', inner compared⟩

omit descending in
/-- When no value after an instruction rises, none before one does. -/
theorem newIn_below (start : t.ins.lookup (entry f) = s.ins.lookup (entry f))
    (outs : ∀ {J o'}, t.outs.lookup J = some o' → ∃ o, s.outs.lookup J = some o ∧ Below ctx f o' o ∧
      Members ctx f o ∧ Members ctx f o' ∧ Shows ctx f o) {new' : TaintValue}
    (computed : newIn oracle ctx f t I = some new') :
    ∃ new, newIn oracle ctx f s I = some new ∧ Below ctx f new' new := by
  refine newIn_simulates (R := Below ctx f)
    (F := fun a' a => Below ctx f a' a ∧ Front oracle ctx f a' ∧ Front oracle ctx f a)
    start .refl outs (fun after => after.1) (fun met => met.1)
    ⟨.refl _, front_top equivalence, front_top equivalence⟩ ?_ computed
  intro a' a o' o met after
  obtain ⟨below, front', front⟩ := met
  obtain ⟨lower, members, members', shows⟩ := after
  exact ⟨below.meet equivalence lower front front' members' shows, front'.meet equivalence members',
    front.meet equivalence members⟩

/-- A visit lowers the value after the instruction and leaves the others. -/
theorem Descending.visit (before : I.index ≠ 0 → visited ⟨I.func, I.block, I.index - 1⟩)
    (step : visit oracle ctx f s I = some t) :
    Descending oracle ctx f (fun J => visited J ∨ J = I) t ∧
      ∀ {J o'}, t.outs.lookup J = some o' → ∃ o, s.outs.lookup J = some o ∧ Below ctx f o' o := by
  obtain ⟨oldIn, new, oldOut, newOut, _, computed, foundOut, moved, rfl⟩ := visit_eq_some.mp step
  have listed := descending.inside foundOut
  have seen := descending.seen equivalence before computed
  have members := seen.members.transfer listed moved
  have lower : Below ctx f newOut oldOut := by
    by_cases known : visited I
    · obtain ⟨i, settled⟩ := descending.settled known foundOut
      exact (settled.lowers computed).transfer equivalence seen settled.seen moved settled.moved
    · rw [descending.fresh known foundOut]
      exact below_top newOut
  have outs : ∀ {J o'}, (s.outs.insert I newOut).lookup J = some o' → ∃ o, s.outs.lookup J = some o ∧
      Below ctx f o' o ∧ Members ctx f o ∧ Members ctx f o' ∧ Shows ctx f o := by
    intro J o' found
    rw [lookup_insert] at found
    split at found
    · have same : J = I := ‹_›
      cases found
      subst same
      exact ⟨oldOut, foundOut, lower, descending.members foundOut, members, descending.shows foundOut⟩
    · exact ⟨o', found, .refl o', descending.members found, descending.members found, descending.shows found⟩
  have start : (s.ins.insert I new).lookup (entry f) = s.ins.lookup (entry f) := by
    rw [lookup_insert]
    split
    · have same : entry f = I := ‹_›
      rw [← computed, ← same, newIn, if_pos rfl]
    · rfl
  refine ⟨⟨start.trans descending.start, ?_, ?_, ?_⟩, ?_⟩
  · intro J o found
    obtain ⟨_, found, _⟩ := outs found
    exact descending.inside found
  · intro J o known found
    by_cases same : J = I
    · subst same
      rw [lookup_insert, if_pos rfl] at found
      cases found
      refine ⟨new, by simp, by simp, seen, moved, ?_⟩
      intro new' again
      obtain ⟨was, computed', below⟩ := newIn_below equivalence start outs again
      rw [computed] at computed'
      cases computed'
      exact below
    · rw [lookup_insert, if_neg same] at found
      obtain ⟨i, settled⟩ := descending.settled (known.resolve_right same) found
      refine ⟨i, by simp [same, settled.ins], by simp [same, found],
        settled.seen, settled.moved, ?_⟩
      intro new' again
      obtain ⟨was, computed', below⟩ := newIn_below equivalence start outs again
      exact below.trans (settled.lowers computed')
  · intro J o unknown found
    obtain ⟨old, other⟩ := not_or.mp unknown
    rw [lookup_insert, if_neg other] at found
    exact descending.fresh old found
  · intro J o' found
    obtain ⟨o, found, below, _⟩ := outs found
    exact ⟨o, found, below⟩

omit equivalence in
theorem Descending.congr {visited' : InstRef → Prop}
    (same : ∀ I ∈ ctx.M.insts f, visited I ↔ visited' I) : Descending oracle ctx f visited' s :=
  ⟨descending.start, descending.inside,
    fun known found => descending.settled ((same _ (descending.inside found)).mpr known) found,
    fun unknown found => descending.fresh
      (fun known => unknown ((same _ (descending.inside found)).mp known)) found⟩

/-- A sweep visits every instruction and lowers the values after them. -/
theorem Descending.sweep (swept : sweep oracle ctx f s = some t) :
    Descending oracle ctx f (fun _ => True) t ∧
      ∀ {J o'}, t.outs.lookup J = some o' → ∃ o, s.outs.lookup J = some o ∧ Below ctx f o' o := by
  have run : Descending oracle ctx f (fun J => visited J ∨ J ∈ ctx.M.insts f) t ∧
      ∀ {J o'}, t.outs.lookup J = some o' → ∃ o, s.outs.lookup J = some o ∧ Below ctx f o' o := by
    refine sweep_invariant (motive := fun done r =>
      Descending oracle ctx f (fun J => visited J ∨ J ∈ done) r ∧
        ∀ {J o'}, r.outs.lookup J = some o' → ∃ o, s.outs.lookup J = some o ∧ Below ctx f o' o) ?_ ?_ swept
    · intro done I rest r r' split holds step
      obtain ⟨descending, below⟩ := holds
      obtain ⟨after, lower⟩ :=
        descending.visit equivalence (fun inner => .inr (previous_mem split inner)) step
      refine ⟨after.congr fun J _ => by simp [or_assoc], ?_⟩
      intro J o' found
      obtain ⟨o, found, below'⟩ := lower found
      obtain ⟨first, found, below⟩ := below found
      exact ⟨first, found, below'.trans below⟩
    · refine ⟨?_, fun found => ⟨_, found, .refl _⟩⟩
      have same : Descending oracle ctx f visited { s with changed := false } := by
        refine ⟨descending.start, descending.inside, ?_, descending.fresh⟩
        intro J o known found
        obtain ⟨i, settled⟩ := descending.settled known found
        exact ⟨i, settled.ins, settled.outs, settled.seen, settled.moved, settled.lowers⟩
      exact same.congr fun J _ => by simp
  exact ⟨run.1.congr fun J listed => by simp [listed], run.2⟩

end Descending

end MustEquivalence

theorem descending_initial (oracle : Oracle) (ctx : Context) (f : FuncRef) :
    Descending oracle ctx f (fun _ => False) (initial ctx f) := by
  refine ⟨by simp [initial], ?_, fun known => known.elim, fun _ found => initial_outs found⟩
  intro I o found
  rw [initial, lookup_foldl_insert] at found
  split at found
  · assumption
  · cases found

end Oracle

end Clou.AttackerTaint
