import Clou.Graph
import Clou.Inlining
import Clou.Translations

/-! What a call that is inlined stands for. A call in a loop is inlined once for every iteration,
but the instance that holds it has one entry for it, which the first of them makes. -/

namespace Clou.Unrolled

open Cfg Translations CallTree

namespace State

variable (s : State) (r : Inlined)

/-- A call translates to all that the values translate to which its callee returns. -/
def KeepsReturnValues : Prop :=
  ∀ V ∈ r.Vs, ∀ key ∈ lookup s.translations ⟨r.callee, V⟩, key ∈ lookup s.translations ⟨r.caller, .inst r.C⟩

/-- No instance of the call has been inlined into the caller's instance before. -/
def IsFirst : Prop := s.inlined.find? (fun q => decide (q.caller = r.caller ∧ q.C = r.C)) = some r

/-- In the calls that have been inlined, the callee returns what it has been given, and nothing
of its own. -/
def PassesThrough : Prop :=
  ∃ ts m t, Logged s ts ∧ Sits ts [] 0 r.caller m t ∧ r.callee = r.caller ++ [m] ∧ t.PassesThrough

end State

theorem callOf_eq_some {e : Entry} {q : Inlined} :
    callOf e = some q ↔ e = (⟨q.caller, .inst q.C⟩, ⟨q.callee, q.Vs⟩) := by
  rcases e with ⟨⟨id, V⟩, ⟨k, Vs⟩⟩
  rcases q with ⟨caller, C, callee, Vs'⟩
  cases V with
  | inst J => simp [callOf, and_assoc]
  | _ => simp [callOf]

/-- The entry of a call is that of the first of its instances. -/
theorem lookup_call (E : List Entry) (c : List FuncID) (C : InstRef) :
    E.lookup ⟨c, .inst C⟩ =
      ((E.filterMap callOf).find? fun q => decide (q.caller = c ∧ q.C = C)).map fun q => ⟨q.callee, q.Vs⟩ := by
  induction E with
  | nil => rfl
  | cons e E ih =>
    rw [List.lookup_cons, ih, List.filterMap_cons]
    cases called : callOf e with
    | none =>
      have other : (⟨c, .inst C⟩ : Key) ≠ e.1 := by
        intro same
        have recorded : callOf e = some ⟨c, C, e.2.id, e.2.Vs⟩ :=
          callOf_eq_some.mpr (Prod.ext same.symm rfl)
        rw [called] at recorded
        cases recorded
      rw [beq_false_of_ne other]
    | some q =>
      obtain rfl := callOf_eq_some.mp called
      by_cases same : q.caller = c ∧ q.C = C
      · rcases same with ⟨rfl, rfl⟩
        simp
      · have other : (⟨c, .inst C⟩ : Key) ≠ ⟨q.caller, .inst q.C⟩ := by
          intro equal
          cases equal
          exact same ⟨rfl, rfl⟩
        simp [same, beq_false_of_ne other]

namespace Logged

variable {s : State} {ts : List CallTree} {c : List FuncID} {m m' : FuncID} {t : CallTree}

theorem sits (logged : Logged s ts) {q : Inlined} (inlined : q ∈ s.inlined) :
    ∃ m t, Sits ts [] 0 q.caller m t ∧ t.C = q.C ∧ q.callee = q.caller ++ [m] ∧ q.Vs = t.Vs := by
  rw [logged.inlined] at inlined
  rcases List.mem_filterMap.mp inlined with ⟨e, member, called⟩
  rw [callOf_eq_some.mp called] at member
  rcases Sits.of_entry member with ⟨m, t, sits, call, same⟩
  exact ⟨m, t, sits, call, congrArg Target.id same, congrArg Target.Vs same⟩

/-- Each call has an entry, which its first instance has made. -/
theorem first (logged : Logged s ts) {r : Inlined} (inlined : r ∈ s.inlined) :
    ∃ q ∈ s.inlined, q.caller = r.caller ∧ q.C = r.C ∧ (s.IsFirst r ↔ q = r) ∧
      s.translations.lookup ⟨r.caller, .inst r.C⟩ = some ⟨q.callee, q.Vs⟩ := by
  cases first : s.inlined.find? fun q => decide (q.caller = r.caller ∧ q.C = r.C) with
  | none => simpa using List.find?_eq_none.mp first r inlined
  | some q =>
    have same := List.find?_some first
    rw [decide_eq_true_eq] at same
    refine ⟨q, List.mem_of_find?_eq_some first, same.1, same.2, ?_, ?_⟩
    · rw [State.IsFirst, first, Option.some.injEq]
    · rw [logged.translations, lookup_call, ← logged.inlined, first]
      rfl

/-- An instance of a call that has no entry is not entered. -/
theorem not_under (logged : Logged s ts) (sits : Sits ts [] 0 c m t)
    (other : s.translations.lookup ⟨c, .inst t.C⟩ ≠ some ⟨c ++ [m], t.Vs⟩) {key next : Key}
    (outside : ¬ c ++ [m] <+: key.id) (stands : StandsFor s.translations key next) :
    ¬ c ++ [m] <+: next.id := by
  intro under
  rcases stands with ⟨target, found, V, -, rfl⟩
  have member := FiniteMap.mem_of_lookup_pairs (logged.translations key ▸ found)
  rcases entry_kind member with ⟨C, number, inst, -⟩ | ⟨g, i, number, -, caller⟩
  · rcases key with ⟨id, K⟩
    obtain rfl : K = .inst C := inst
    rcases Sits.of_entry member with ⟨number, u, sits', rfl, rfl⟩
    rcases List.prefix_concat_iff.mp under with same | within
    · rcases List.append_inj same (by simpa using congrArg List.length same) with ⟨rfl, numbers⟩
      obtain rfl := List.singleton_inj.mp numbers
      obtain rfl := sits.unique sits'
      exact other found
    · exact outside within
  · exact outside (caller ▸ under.trans (List.prefix_append target.id [number]))

theorem not_reached (logged : Logged s ts) (sits : Sits ts [] 0 c m t)
    (other : s.translations.lookup ⟨c, .inst t.C⟩ ≠ some ⟨c ++ [m], t.Vs⟩) {key last : Key}
    (outside : ¬ c ++ [m] <+: key.id) (reaches : Relation.ReflTransGen (StandsFor s.translations) key last) :
    ¬ c ++ [m] <+: last.id := by
  induction reaches with
  | refl => exact outside
  | tail _ stands ih => exact logged.not_under sits other ih stands

/-! What the values of an instance lead to -/

section

variable (logged : Logged s ts) (sits : Sits ts [] 0 c m t) {V W : Value}

include logged sits

theorem lookup_instance : s.translations.lookup ⟨c ++ [m], V⟩ = ((t.given V).map fun W => ⟨c, [W]⟩).or
    ((allEntries t.inner (c ++ [m]) (m + 1)).lookup ⟨c ++ [m], V⟩) := by
  rw [logged.translations, sits.lookup List.prefix_rfl, CallTree.lookup_instance]

theorem stands_given (found : t.given V = some W) : StandsFor s.translations ⟨c ++ [m], V⟩ ⟨c, W⟩ := by
  refine ⟨⟨c, [W]⟩, ?_, W, List.mem_singleton_self W, rfl⟩
  rw [logged.lookup_instance sits, found, Option.map_some, Option.some_or]

theorem stands_call {u : CallTree} (call : u ∈ t.inner) : ∃ k, Sits ts [] 0 (c ++ [m]) k u ∧
    ∀ X ∈ u.Vs, StandsFor s.translations ⟨c ++ [m], .inst u.C⟩ ⟨c ++ [m] ++ [k], X⟩ := by
  rcases exists_lookup_call (sits.coherent_inner logged.coherent) call (m + 1) with ⟨k, deeper, found⟩
  refine ⟨k, sits.within deeper, fun X returns => ⟨⟨c ++ [m] ++ [k], u.Vs⟩, ?_, X, returns, rfl⟩⟩
  have free : t.given (.inst u.C) = none := by cases t; rfl
  rw [logged.lookup_instance sits, free, Option.map_none, Option.none_or, found]

theorem stands_cases {next : Key} (stands : StandsFor s.translations ⟨c ++ [m], V⟩ next) :
    (∃ W, t.given V = some W ∧ next = ⟨c, W⟩) ∨
      ∃ u ∈ t.inner, V = .inst u.C ∧ ∃ k, Sits ts [] 0 (c ++ [m]) k u ∧
        ∃ X ∈ u.Vs, next = ⟨c ++ [m] ++ [k], X⟩ := by
  rcases stands with ⟨target, found, X, returns, rfl⟩
  rw [logged.lookup_instance sits] at found
  cases given : t.given V with
  | some W =>
    rw [given] at found
    cases found
    exact .inl ⟨W, rfl, List.mem_singleton.mp returns ▸ rfl⟩
  | none =>
    rw [given, Option.map_none, Option.none_or] at found
    rcases of_lookup_call found with ⟨u, call, k, deeper, same, rfl⟩
    exact .inr ⟨u, call, same, k, sits.within deeper, X, returns, rfl⟩

theorem lookup_none_iff : s.translations.lookup ⟨c ++ [m], V⟩ = none ↔
    t.given V = none ∧ ∀ u ∈ t.inner, V ≠ .inst u.C := by
  rw [logged.lookup_instance sits, Option.or_eq_none_iff, Option.map_eq_none_iff]
  refine and_congr_right fun _ => ⟨fun missing u call same => ?_, fun plain => ?_⟩
  · rcases exists_lookup_call (sits.coherent_inner logged.coherent) call (m + 1) with ⟨k, -, found⟩
    rw [← same, missing] at found
    cases found
  · by_contra present
    rcases Option.ne_none_iff_exists'.mp present with ⟨target, found⟩
    rcases of_lookup_call found with ⟨u, call, -, -, same, -⟩
    exact plain u call same

omit sits in
theorem reaches_of_leaves (leaves : t.Leaves V W) {c : List FuncID} {m : FuncID}
    (sits : Sits ts [] 0 c m t) :
    Relation.ReflTransGen (StandsFor s.translations) ⟨c ++ [m], V⟩ ⟨c, W⟩ := by
  induction leaves generalizing c m with
  | given found => exact .single (logged.stands_given sits found)
  | through call returns _ _ inside onward =>
    rcases logged.stands_call sits call with ⟨k, deeper, stands⟩
    exact .head (stands _ returns) ((inside deeper).trans (onward sits))

omit sits in
theorem translates_of_stays (stays : t.Stays V) {c : List FuncID} {m : FuncID}
    (sits : Sits ts [] 0 c m t) :
    ∃ last, TranslatesTo s.translations ⟨c ++ [m], V⟩ last ∧ c ++ [m] <+: last.id := by
  induction stays generalizing c m with
  | own free plain =>
    exact ⟨_, ⟨.refl, (logged.lookup_none_iff sits).mpr ⟨free, plain⟩⟩, List.prefix_rfl⟩
  | inside call returns _ ih =>
    rcases logged.stands_call sits call with ⟨k, deeper, stands⟩
    rcases ih deeper with ⟨last, translates, under⟩
    exact ⟨last, ⟨.head (stands _ returns) translates.1, translates.2⟩,
      (List.prefix_append (c ++ [m]) [k]).trans under⟩
  | through call returns leaves _ ih =>
    rcases logged.stands_call sits call with ⟨k, deeper, stands⟩
    rcases ih sits with ⟨last, translates, under⟩
    have out := logged.reaches_of_leaves leaves deeper
    exact ⟨last, ⟨.head (stands _ returns) (out.trans translates.1), translates.2⟩, under⟩

end

/-- The calls around an instance, from the inside out, up to an instance `c`. -/
inductive Framed (ts : List CallTree) (c : List FuncID) : List CallTree → List FuncID → Prop
  | base : Framed ts c [] c
  | call {frames : List CallTree} {id : List FuncID} {m : FuncID} {t : CallTree}
      (sits : Sits ts [] 0 id m t) (outer : Framed ts c frames id) : Framed ts c (t :: frames) (id ++ [m])

/-- A value stays in one of the calls around it, or it leaves all of them. -/
def Ends (s : State) (c : List FuncID) (last : Key) : List CallTree → Value → Prop
  | [], V => Relation.ReflTransGen (StandsFor s.translations) ⟨c, V⟩ last
  | t :: frames, V => t.Stays V ∨ ∃ W, t.Leaves V W ∧ Ends s c last frames W

theorem ends (logged : Logged s ts) {key last : Key} (translates : TranslatesTo s.translations key last)
    {frames : List CallTree} (framed : Framed ts c frames key.id) : Ends s c last frames key.V := by
  rcases translates with ⟨reaches, missing⟩
  induction reaches using Relation.ReflTransGen.head_induction_on generalizing frames with
  | refl =>
    rcases last with ⟨id, V⟩
    cases framed with
    | base => exact .refl
    | call sits _ =>
      rcases (logged.lookup_none_iff sits).mp missing with ⟨free, plain⟩
      exact .inl (.own free plain)
  | @head key next stands rest ih =>
    rcases key with ⟨id, V⟩
    cases framed with
    | base => exact .head stands rest
    | @call frames id m t sits outer =>
      rcases logged.stands_cases sits stands with ⟨W, found, rfl⟩ | ⟨u, call, rfl, k, deeper, X, returns, rfl⟩
      · exact .inr ⟨W, .given found, ih outer⟩
      · rcases ih (.call deeper (.call sits outer)) with stays | ⟨Y, leaves, stays | ⟨W, onward, ends⟩⟩
        · exact .inl (.inside call returns stays)
        · exact .inl (.through call returns leaves stays)
        · exact .inr ⟨W, .through call returns leaves onward, ends⟩

/-- For an instance that is not entered again, passing through is seen in the lookups. -/
theorem passesThrough_iff (logged : Logged s ts) (sits : Sits ts [] 0 c m t)
    (other : s.translations.lookup ⟨c, .inst t.C⟩ ≠ some ⟨c ++ [m], t.Vs⟩) : t.PassesThrough ↔
      ∀ V ∈ t.Vs, ∀ key ∈ lookup s.translations ⟨c ++ [m], V⟩, ¬ c ++ [m] <+: key.id := by
  constructor
  · intro passes V returns key listed
    rcases logged.ends (mem_lookup.mp listed) (.call sits .base) with stays | ⟨W, -, reaches⟩
    · exact absurd stays (passes V returns)
    · exact logged.not_reached sits other not_under_self reaches
  · intro outside V returns stays
    rcases logged.translates_of_stays stays sits with ⟨last, translates, under⟩
    exact outside V returns last (mem_lookup.mpr translates) under

end Logged

/-! Copies -/

/-- A key and its copy for another instance of a call: outside of the instance they are the same. -/
def Twins (c : List FuncID) (m m' : FuncID) (key copy : Key) : Prop :=
  (key = copy ∧ ¬ c ++ [m] <+: key.id) ∨
    ∃ old : Key, c ++ [0] <+: old.id ∧ key = shiftKey c.length m old ∧ copy = shiftKey c.length m' old

namespace Twins

variable {s : State} {ts : List CallTree} {c : List FuncID} {m m' : FuncID} {t : CallTree} {key copy : Key}

theorem callee (c : List FuncID) (m m' : FuncID) (V : Value) : Twins c m m' ⟨c ++ [m], V⟩ ⟨c ++ [m'], V⟩ := by
  refine .inr ⟨⟨c ++ [0], V⟩, List.prefix_rfl, ?_, ?_⟩
  · rw [shiftKey, shift_callee]
  · rw [shiftKey, shift_callee]

theorem eq (twins : Twins c m m' key copy) (outside : ¬ c ++ [m] <+: key.id) : key = copy := by
  rcases twins with ⟨same, -⟩ | ⟨old, under, rfl, -⟩
  · exact same
  · exact absurd (shift_under under m) outside

section

variable (logged : Logged s ts) (sits : Sits ts [] 0 c m t) (sits' : Sits ts [] 0 c m' t)
  (other : s.translations.lookup ⟨c, .inst t.C⟩ ≠ some ⟨c ++ [m], t.Vs⟩)

include logged sits sits' other

theorem step {next : Key} (twins : Twins c m m' key copy) (stands : StandsFor s.translations key next) :
    ∃ next', StandsFor s.translations copy next' ∧ Twins c m m' next next' := by
  rcases twins with ⟨rfl, outside⟩ | ⟨old, under, rfl, rfl⟩
  · exact ⟨next, stands, .inl ⟨rfl, logged.not_under sits other outside stands⟩⟩
  · rcases stands with ⟨target, found, V, listed, rfl⟩
    rw [logged.translations] at found
    rcases sits.twin sits' (shift_under under m) found with ⟨old', was, same, rfl, -, place, copied⟩
    obtain rfl := shiftKey_injective same
    refine ⟨⟨shift c.length m' was.id, V⟩, ⟨_, (logged.translations _).trans copied, V, listed, rfl⟩, ?_⟩
    rcases place with home | inside
    · -- An actual argument: the caller's instance is not shifted.
      rw [shiftTarget, home, shift_self, shift_self]
      exact .inl ⟨rfl, not_under_self⟩
    · exact .inr ⟨⟨was.id, V⟩, inside, rfl, rfl⟩

theorem translatesTo {last : Key} (twins : Twins c m m' key copy)
    (translates : TranslatesTo s.translations key last) (outside : ¬ c ++ [m] <+: last.id) :
    TranslatesTo s.translations copy last := by
  rcases translates with ⟨reaches, missing⟩
  have follow : ∃ last', Relation.ReflTransGen (StandsFor s.translations) copy last' ∧
      Twins c m m' last last' := by
    clear missing outside
    induction reaches with
    | refl => exact ⟨copy, .refl, twins⟩
    | tail _ stands ih =>
      rcases ih with ⟨mid, reaches, twins⟩
      rcases twins.step logged sits sits' other stands with ⟨next, stands', twins⟩
      exact ⟨next, reaches.tail stands', twins⟩
  rcases follow with ⟨last', reaches', twins'⟩
  obtain rfl := twins'.eq outside
  exact ⟨reaches', missing⟩

end

end Twins

theorem Logged.keeps_iff {s : State} {ts : List CallTree} (logged : Logged s ts) {r : Inlined}
    (inlined : r ∈ s.inlined) {m : FuncID} {t : CallTree} (sits : Sits ts [] 0 r.caller m t)
    (callee : r.callee = r.caller ++ [m]) : s.KeepsReturnValues r ↔ s.IsFirst r ∨ t.PassesThrough := by
  rcases logged.first inlined with ⟨q, member, caller, call, isFirst, found⟩
  have keeps {V : Value} (returns : V ∈ q.Vs) {key : Key}
      (translates : TranslatesTo s.translations ⟨q.callee, V⟩ key) :
      key ∈ lookup s.translations ⟨r.caller, .inst r.C⟩ :=
    mem_lookup.mpr ⟨.head ⟨_, found, V, returns, rfl⟩ translates.1, translates.2⟩
  rw [isFirst]
  by_cases same : q = r
  · subst same
    exact iff_of_true (fun V returns key member => keeps returns (mem_lookup.mp member)) (.inl rfl)
  rcases logged.sits inlined with ⟨k, u, there, tCall, number, tVs⟩
  obtain rfl : m = k := by simpa [callee] using number
  obtain rfl := sits.unique there
  rcases logged.sits member with ⟨m', u, sits', uCall, uCallee, uVs⟩
  rw [caller] at sits' uCallee
  obtain rfl : t = u := sits.same logged.coherent sits' (by rw [tCall, uCall, call])
  have other : s.translations.lookup ⟨r.caller, .inst t.C⟩ ≠ some ⟨r.caller ++ [m], t.Vs⟩ := by
    rw [tCall, found, ← callee, ← tVs]
    intro equal
    cases q
    cases r
    simp_all
  rw [or_iff_right same, logged.passesThrough_iff sits other, ← tVs, ← callee]
  constructor
  · intro kept V returns key listed
    rw [callee]
    exact logged.not_reached sits other not_under_self (mem_lookup.mp (kept V returns key listed)).1
  · intro passes V returns key listed
    have outside := passes V returns key listed
    have translates := mem_lookup.mp listed
    rw [callee] at outside translates
    have copied := (Twins.callee r.caller m m' V).translatesTo logged sits sits' other translates outside
    rw [← uCallee] at copied
    exact keeps (uVs ▸ tVs ▸ returns) copied

/-- An instance of a call keeps its return values if and only if it is the first of the call in
its caller's instance, or returns nothing of its own. -/
theorem keepsReturnValues_iff {P : Program} {F : FuncRef} {s : State} (constructed : construct P F = some s)
    {r : Inlined} (inlined : r ∈ s.inlined) : s.KeepsReturnValues r ↔ s.IsFirst r ∨ s.PassesThrough r := by
  constructor
  · intro keeps
    rcases construct_logged constructed with ⟨ts, logged⟩
    rcases logged.sits inlined with ⟨m, t, sits, -, callee, -⟩
    exact ((logged.keeps_iff inlined sits callee).mp keeps).imp_right fun passes =>
      ⟨ts, m, t, logged, sits, callee, passes⟩
  · rintro (first | ⟨ts, m, t, logged, sits, callee, passes⟩)
    · rcases construct_logged constructed with ⟨ts, logged⟩
      rcases logged.sits inlined with ⟨m, t, sits, -, callee, -⟩
      exact (logged.keeps_iff inlined sits callee).mpr (.inl first)
    · exact (logged.keeps_iff inlined sits callee).mpr (.inr passes)

theorem callInLoop_keeps_iff : ∃ s, construct callInLoop 0 = some s ∧ ∃ r ∈ s.inlined,
    r.callee = [1] ∧ (s.KeepsReturnValues r ↔ s.IsFirst r ∨ s.PassesThrough r) := by
  have built : ∃ s ∈ construct callInLoop 0, ∃ r ∈ s.inlined, r.callee = [1] := by decide +kernel
  rcases built with ⟨s, made, r, inlined, callee⟩
  exact ⟨s, made, r, inlined, callee, keepsReturnValues_iff made inlined⟩

/-- The call of the second iteration does not translate to the load that its callee returns. -/
theorem callInLoop_loses_return_value : callInLoop.Ok ∧ ∃ s, construct callInLoop 0 = some s ∧
    ⟨[], ⟨0, 1, 0⟩, [1], [.inst ⟨1, 0, 0⟩]⟩ ∈ s.inlined ∧
    lookup s.translations ⟨[1], .inst ⟨1, 0, 0⟩⟩ = [⟨[1], .inst ⟨1, 0, 0⟩⟩] ∧
    lookup s.translations ⟨[], .inst ⟨0, 1, 0⟩⟩ = [⟨[0], .inst ⟨1, 0, 0⟩⟩] ∧
    ¬ s.KeepsReturnValues ⟨[], ⟨0, 1, 0⟩, [1], [.inst ⟨1, 0, 0⟩]⟩ := by
  have built : ∃ s ∈ construct callInLoop 0, ⟨[], ⟨0, 1, 0⟩, [1], [.inst ⟨1, 0, 0⟩]⟩ ∈ s.inlined ∧
      lookup s.translations ⟨[1], .inst ⟨1, 0, 0⟩⟩ = [⟨[1], .inst ⟨1, 0, 0⟩⟩] ∧
      lookup s.translations ⟨[], .inst ⟨0, 1, 0⟩⟩ = [⟨[0], .inst ⟨1, 0, 0⟩⟩] := by decide +kernel
  rcases built with ⟨s, made, inlined, returned, called⟩
  refine ⟨callInLoop_ok, s, made, inlined, returned, called, fun keeps => ?_⟩
  have kept := keeps _ List.mem_cons_self ⟨[1], .inst ⟨1, 0, 0⟩⟩ (returned ▸ List.mem_cons_self)
  rw [called] at kept
  exact absurd kept (by decide)

end Clou.Unrolled
