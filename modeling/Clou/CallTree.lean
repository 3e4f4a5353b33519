import Mathlib.Data.List.Infix
import Clou.Cfg
import Clou.FiniteMap

/-! The calls that are inlined below one another, and the translations that are emplaced for
them. A call takes the next number when it is entered, and its callee's instance is named by the
numbers of the calls around it. -/

namespace Clou.Unrolled

open Cfg Translations

/-- A call that is inlined: the actual arguments of its callee's parameters, the values that the
callee returns, and the calls inlined into the callee. -/
inductive CallTree where
  | call (C : InstRef) (g : FuncRef) (args : List (Nat × Value)) (Vs : List Value)
      (inner : List CallTree)

namespace CallTree

def C : CallTree → InstRef | .call C .. => C
def Vs : CallTree → List Value | .call _ _ _ Vs _ => Vs
def inner : CallTree → List CallTree | .call _ _ _ _ inner => inner

mutual

def size : CallTree → Nat
  | .call _ _ _ _ inner => 1 + sizes inner

def sizes : List CallTree → Nat
  | [] => 0
  | t :: ts => size t + sizes ts

end

abbrev Entry := Key × Target

def parameters (g : FuncRef) (args : List (Nat × Value)) (callerId calleeId : List Nat) : List Entry :=
  args.map fun arg => (⟨calleeId, .argument g arg.1⟩, ⟨callerId, [arg.2]⟩)

mutual

/-- What is emplaced for a call in an instance of its caller, when it takes a number. -/
def entries : CallTree → List Nat → Nat → List Entry
  | .call C g args Vs inner, id, n =>
    parameters g args id (id ++ [n]) ++
      (allEntries inner (id ++ [n]) (n + 1) ++ [(⟨id, .inst C⟩, ⟨id ++ [n], Vs⟩)])

def allEntries : List CallTree → List Nat → Nat → List Entry
  | [], _, _ => []
  | t :: ts, id, n => entries t id n ++ allEntries ts id (n + size t)

end

/-- The actual argument that a parameter of the callee stands for. -/
def given : CallTree → Value → Option Value
  | .call _ g args _ _, .argument f i => if f = g then args.lookup i else none
  | .call .., _ => none

/-- A value of the callee leads, through calls and parameters, to one of its caller. -/
inductive Leaves : CallTree → Value → Value → Prop
  | given {t : CallTree} {V W : Value} (found : t.given V = some W) : Leaves t V W
  | through {t u : CallTree} {X Y W : Value} (call : u ∈ t.inner) (returns : X ∈ u.Vs)
      (leaves : Leaves u X Y) (onward : Leaves t Y W) : Leaves t (.inst u.C) W

/-- A value of the callee leads, through calls and parameters, to one of the callee itself or of
a call inlined into it, which stands for nothing else. -/
inductive Stays : CallTree → Value → Prop
  | own {t : CallTree} {V : Value} (free : t.given V = none) (plain : ∀ u ∈ t.inner, V ≠ .inst u.C) :
      Stays t V
  | inside {t u : CallTree} {X : Value} (call : u ∈ t.inner) (returns : X ∈ u.Vs) (stays : Stays u X) :
      Stays t (.inst u.C)
  | through {t u : CallTree} {X Y : Value} (call : u ∈ t.inner) (returns : X ∈ u.Vs)
      (leaves : Leaves u X Y) (onward : Stays t Y) : Stays t (.inst u.C)

/-- The callee returns what it has been given, and nothing of its own. -/
def PassesThrough (t : CallTree) : Prop := ∀ V ∈ t.Vs, ¬ t.Stays V

theorem size_pos (t : CallTree) : 0 < t.size := by
  cases t
  rw [size]
  omega

theorem sizes_append (ts us : List CallTree) : sizes (ts ++ us) = sizes ts + sizes us := by
  induction ts with
  | nil => rw [List.nil_append, sizes, Nat.zero_add]
  | cons t ts ih => rw [List.cons_append, sizes, sizes, ih, Nat.add_assoc]

theorem allEntries_append (ts us : List CallTree) (id : List Nat) (n : Nat) :
    allEntries (ts ++ us) id n = allEntries ts id n ++ allEntries us id (n + sizes ts) := by
  induction ts generalizing n with
  | nil => rfl
  | cons t ts ih =>
    rw [List.cons_append, allEntries, allEntries, ih, List.append_assoc, sizes, Nat.add_assoc]

theorem allEntries_singleton (t : CallTree) (id : List Nat) (n : Nat) :
    allEntries [t] id n = entries t id n := by
  rw [allEntries, allEntries, List.append_nil]

theorem sizes_singleton (t : CallTree) : sizes [t] = size t := by
  rw [sizes, sizes, Nat.add_zero]

inductive Coherent : List CallTree → Prop
  | nest {ts : List CallTree} (same : ∀ t ∈ ts, ∀ u ∈ ts, t.C = u.C → t = u)
      (inner : ∀ t ∈ ts, Coherent t.inner) : Coherent ts

theorem Coherent.tail {t : CallTree} {ts : List CallTree} (coherent : Coherent (t :: ts)) : Coherent ts := by
  cases coherent with
  | nest same inner =>
    exact .nest (fun u here v there => same u (List.mem_cons_of_mem t here) v (List.mem_cons_of_mem t there))
      fun u later => inner u (List.mem_cons_of_mem t later)

theorem induct {motive : List CallTree → Prop} (nil : motive [])
    (cons : ∀ C g args Vs inner ts, motive inner → motive ts → motive (.call C g args Vs inner :: ts)) :
    ∀ ts, motive ts
  | [] => nil
  | .call C g args Vs inner :: ts => cons C g args Vs inner ts (induct nil cons inner) (induct nil cons ts)

/-! Where entries are -/

section

variable {ts : List CallTree} {id : List Nat} {n : Nat} {e : Entry} {args : List (Nat × Value)}

theorem allEntries_cons {C : InstRef} {g : FuncRef} {Vs : List Value} {inner : List CallTree} :
    allEntries (.call C g args Vs inner :: ts) id n =
      parameters g args id (id ++ [n]) ++ (allEntries inner (id ++ [n]) (n + 1) ++
        [(⟨id, .inst C⟩, ⟨id ++ [n], Vs⟩)]) ++ allEntries ts id (n + (1 + sizes inner)) := by
  rw [allEntries, entries, size]

theorem mem_allEntries_cons {C : InstRef} {g : FuncRef} {Vs : List Value} {inner : List CallTree} :
    e ∈ allEntries (.call C g args Vs inner :: ts) id n ↔
      (∃ arg ∈ args, e = (⟨id ++ [n], .argument g arg.1⟩, ⟨id, [arg.2]⟩)) ∨
      e ∈ allEntries inner (id ++ [n]) (n + 1) ∨ e = (⟨id, .inst C⟩, ⟨id ++ [n], Vs⟩) ∨
      e ∈ allEntries ts id (n + (1 + sizes inner)) := by
  rw [allEntries_cons, parameters]
  simp only [List.mem_append, List.mem_map, List.mem_singleton, or_assoc, eq_comm]

section

variable (member : e ∈ allEntries ts id n)

include member

/-- A key belongs to the instance itself or to one of a call in it. -/
theorem key_spot : e.1.id = id ∨ ∃ m, n ≤ m ∧ m < n + sizes ts ∧ id ++ [m] <+: e.1.id := by
  induction ts using induct generalizing id n with
  | nil => cases member
  | cons C g args Vs inner ts below beside =>
    rw [sizes, size]
    rcases mem_allEntries_cons.mp member with ⟨arg, -, rfl⟩ | inside | rfl | later
    · exact .inr ⟨n, by omega, by omega, List.prefix_rfl⟩
    · refine .inr ⟨n, by omega, by omega, ?_⟩
      rcases below inside with same | ⟨m, -, -, within⟩
      · exact same ▸ List.prefix_rfl
      · exact (List.prefix_append (id ++ [n]) [m]).trans within
    · exact .inl rfl
    · refine (beside later).imp_right ?_
      rintro ⟨m, low, high, within⟩
      exact ⟨m, by omega, by omega, within⟩

theorem key_under : id <+: e.1.id := by
  rcases key_spot member with same | ⟨m, -, -, within⟩
  · exact same ▸ List.prefix_rfl
  · exact (List.prefix_append id [m]).trans within

theorem target_under : id <+: e.2.id := by
  induction ts using induct generalizing id n with
  | nil => cases member
  | cons C g args Vs inner ts below beside =>
    rcases mem_allEntries_cons.mp member with ⟨arg, -, rfl⟩ | inside | rfl | later
    · exact List.prefix_rfl
    · exact (List.prefix_append id [n]).trans (below inside)
    · exact List.prefix_append id [n]
    · exact beside later

/-- A call leads into its callee, a parameter back out of it. -/
theorem entry_kind : (∃ C m, e.1.V = .inst C ∧ e.2.id = e.1.id ++ [m]) ∨
      ∃ g i m, e.1.V = .argument g i ∧ e.1.id = e.2.id ++ [m] := by
  induction ts using induct generalizing id n with
  | nil => cases member
  | cons C g args Vs inner ts below beside =>
    rcases mem_allEntries_cons.mp member with ⟨arg, -, rfl⟩ | inside | rfl | later
    · exact .inr ⟨g, arg.1, n, rfl, rfl⟩
    · exact below inside
    · exact .inl ⟨C, n, rfl, rfl⟩
    · exact beside later

end

theorem not_under_self {id : List Nat} {m : Nat} : ¬ id ++ [m] <+: id := by
  intro within
  have length := within.length_le
  rw [List.length_append, List.length_singleton] at length
  omega

theorem number_unique {id id' : List Nat} {m m' : Nat} (here : id ++ [m] <+: id')
    (there : id ++ [m'] <+: id') : m = m' := by
  have same := List.prefix_of_prefix_length_le here there (by simp)
  simpa using same.eq_of_length (by simp)

/-- Nothing is emplaced for the instance of a call that takes another number. -/
theorem lookup_other {m : Nat} {key : Key} (under : id ++ [m] <+: key.id)
    (other : m < n ∨ n + sizes ts ≤ m) : (allEntries ts id n).lookup key = none := by
  rw [List.lookup_eq_none_iff]
  intro e member
  rw [bne_iff_ne]
  rintro rfl
  rcases key_spot member with same | ⟨m', low, high, within⟩
  · exact not_under_self (same ▸ under)
  · obtain rfl := number_unique under within
    omega

end

/-! Where calls are -/

inductive Sits : List CallTree → List Nat → Nat → List Nat → Nat → CallTree → Prop
  | here {t : CallTree} {ts : List CallTree} {id : List Nat} {n : Nat} : Sits (t :: ts) id n id n t
  | inside {t : CallTree} {ts : List CallTree} {id : List Nat} {n : Nat} {c : List Nat}
      {m : Nat} {u : CallTree} (sits : Sits t.inner (id ++ [n]) (n + 1) c m u) : Sits (t :: ts) id n c m u
  | later {t : CallTree} {ts : List CallTree} {id : List Nat} {n : Nat} {c : List Nat}
      {m : Nat} {u : CallTree} (sits : Sits ts id (n + t.size) c m u) : Sits (t :: ts) id n c m u

namespace Sits

variable {ts : List CallTree} {id c : List Nat} {n m : Nat} {t u : CallTree}

theorem of_entry {C : InstRef} {target : Target}
    (member : (⟨c, .inst C⟩, target) ∈ allEntries ts id n) :
    ∃ m t, Sits ts id n c m t ∧ t.C = C ∧ target = ⟨c ++ [m], t.Vs⟩ := by
  induction ts using induct generalizing id n with
  | nil => cases member
  | cons C g args Vs inner ts below beside =>
    rcases mem_allEntries_cons.mp member with ⟨arg, -, wrong⟩ | inside | same | later
    · cases wrong
    · rcases below inside with ⟨m, t, sits, call⟩
      exact ⟨m, t, .inside sits, call⟩
    · cases same
      exact ⟨n, _, .here, rfl, rfl⟩
    · rcases beside later with ⟨m, t, sits, call⟩
      exact ⟨m, t, .later sits, call⟩

/-- The caller is the instance itself or one of a call in it. -/
theorem caller (sits : Sits ts id n c m t) :
    (c = id ∧ t ∈ ts ∧ n ≤ m ∧ m < n + sizes ts) ∨
      ∃ first, n ≤ first ∧ first < n + sizes ts ∧ id ++ [first] <+: c := by
  induction sits with
  | @here t ts id n =>
    have positive := size_pos t
    rw [sizes]
    exact .inl ⟨rfl, List.mem_cons_self, by omega, by omega⟩
  | @inside t ts id n c m u _ ih =>
    have positive := size_pos t
    rw [sizes]
    refine .inr ⟨n, by omega, by omega, ?_⟩
    rcases ih with ⟨rfl, -⟩ | ⟨first, -, -, within⟩
    · exact List.prefix_rfl
    · exact (List.prefix_append (id ++ [n]) [first]).trans within
  | @later t ts id n c m u _ ih =>
    rw [sizes]
    refine ih.imp ?_ ?_
    · rintro ⟨same, member, low, high⟩
      exact ⟨same, List.mem_cons_of_mem t member, by omega, by omega⟩
    · rintro ⟨first, low, high, within⟩
      exact ⟨first, by omega, by omega, within⟩

/-- The callee is in the instance of a call of the forest. -/
theorem callee (sits : Sits ts id n c m t) :
    ∃ first, n ≤ first ∧ first < n + sizes ts ∧ id ++ [first] <+: c ++ [m] := by
  rcases sits.caller with ⟨rfl, -, low, high⟩ | ⟨first, low, high, within⟩
  · exact ⟨m, low, high, List.prefix_rfl⟩
  · exact ⟨first, low, high, within.trans (List.prefix_append c [m])⟩

theorem not_inside_later (inside : Sits u.inner (id ++ [n]) (n + 1) c m t) {m' : Nat} {t' : CallTree} :
    ¬ Sits ts id (n + u.size) c m' t' := by
  intro later
  have positive := size_pos u
  have within : id ++ [n] <+: c := by
    rcases inside.caller with ⟨rfl, -⟩ | ⟨first, -, -, within⟩
    · exact List.prefix_rfl
    · exact (List.prefix_append (id ++ [n]) [first]).trans within
  rcases later.caller with ⟨rfl, -⟩ | ⟨first, low, -, within'⟩
  · exact not_under_self within
  · obtain rfl := number_unique within within'
    omega

theorem not_here_inside (inside : Sits u.inner (id ++ [n]) (n + 1) id m t) : False := by
  rcases inside.caller with ⟨same, -⟩ | ⟨first, -, -, within⟩
  · exact not_under_self (same ▸ List.prefix_rfl : id ++ [n] <+: id)
  · exact not_under_self ((List.prefix_append (id ++ [n]) [first]).trans within)

theorem top_mem (sits : Sits ts id n id m t) : t ∈ ts ∧ n ≤ m := by
  rcases sits.caller with ⟨-, member, low, -⟩ | ⟨first, -, -, within⟩
  · exact ⟨member, low⟩
  · exact absurd within not_under_self

theorem unique (sits : Sits ts id n c m t) (other : Sits ts id n c m u) : t = u := by
  induction sits with
  | @here t ts id n =>
    have positive := size_pos t
    cases other with
    | here => rfl
    | inside inside => exact inside.not_here_inside.elim
    | later later =>
      have low := later.top_mem.2
      omega
  | inside inside ih =>
    cases other with
    | here => exact inside.not_here_inside.elim
    | inside inside' => exact ih inside'
    | later later => exact absurd later inside.not_inside_later
  | @later t ts id n c m u later ih =>
    have positive := size_pos t
    cases other with
    | here =>
      have low := later.top_mem.2
      omega
    | inside inside => exact absurd later inside.not_inside_later
    | later later' => exact ih later'

/-- The calls of one instruction in one instance are the same. -/
theorem same (coherent : Coherent ts) (sits : Sits ts id n c m t) {m' : Nat}
    (other : Sits ts id n c m' u) (call : t.C = u.C) : t = u := by
  induction sits with
  | here =>
    cases other with
    | here => rfl
    | inside inside => exact inside.not_here_inside.elim
    | later later =>
      cases coherent with
      | nest same _ => exact same _ List.mem_cons_self _ (List.mem_cons_of_mem _ later.top_mem.1) call
  | inside inside ih =>
    cases other with
    | here => exact inside.not_here_inside.elim
    | inside inside' =>
      cases coherent with
      | nest _ inner => exact ih (inner _ List.mem_cons_self) inside' call
    | later later => exact absurd later inside.not_inside_later
  | later later ih =>
    cases other with
    | here =>
      cases coherent with
      | nest same _ => exact same _ (List.mem_cons_of_mem _ later.top_mem.1) _ List.mem_cons_self call
    | inside inside => exact absurd later inside.not_inside_later
    | later later' => exact ih coherent.tail later' call

/-- All that is emplaced for the callee's instance is emplaced for the call. -/
theorem lookup (sits : Sits ts id n c m t) {key : Key} (under : c ++ [m] <+: key.id) :
    (allEntries ts id n).lookup key = (entries t c m).lookup key := by
  induction sits with
  | @here t ts id n =>
    have positive := size_pos t
    rw [allEntries, List.lookup_append, lookup_other under (.inl (by omega)), Option.or_none]
  | @inside t ts id n c m u inside ih =>
    rcases inside.callee with ⟨first, -, -, within⟩
    have deeper : (id ++ [n]) ++ [first] <+: key.id := within.trans under
    have around : id ++ [n] <+: key.id := (List.prefix_append (id ++ [n]) [first]).trans deeper
    have positive := size_pos t
    rw [allEntries, List.lookup_append, lookup_other around (.inl (by omega)), Option.or_none, ← ih under]
    cases t with
    | call C g args Vs inner =>
      have outer : (parameters g args id (id ++ [n])).lookup key = none := by
        rw [List.lookup_eq_none_iff]
        intro e member
        rcases List.mem_map.mp member with ⟨arg, -, rfl⟩
        rw [bne_iff_ne]
        rintro rfl
        exact not_under_self deeper
      have last : List.lookup key [((⟨id, .inst C⟩ : Key), (⟨id ++ [n], Vs⟩ : Target))] = none := by
        rw [List.lookup_eq_none_iff]
        intro e member
        rw [List.mem_singleton.mp member, bne_iff_ne]
        rintro rfl
        exact not_under_self around
      rw [entries, List.lookup_append, List.lookup_append, outer, last, Option.or_none, Option.none_or]
      rfl
  | @later t ts id n c m u later ih =>
    rcases later.callee with ⟨first, low, -, within⟩
    have positive := size_pos t
    have others : (allEntries [t] id n).lookup key = none :=
      lookup_other (within.trans under) (.inr (by rw [sizes_singleton]; exact low))
    rw [allEntries_singleton] at others
    rw [allEntries, List.lookup_append, others, Option.none_or, ih under]

theorem within (sits : Sits ts id n c m t) {d : List Nat} {k : Nat}
    (deeper : Sits t.inner (c ++ [m]) (m + 1) d k u) : Sits ts id n d k u := by
  induction sits with
  | here => exact .inside deeper
  | inside _ ih => exact .inside (ih deeper)
  | later _ ih => exact .later (ih deeper)

theorem coherent_inner (coherent : Coherent ts) (sits : Sits ts id n c m t) : Coherent t.inner := by
  induction sits with
  | here =>
    cases coherent with
    | nest _ inner => exact inner _ List.mem_cons_self
  | inside _ ih =>
    cases coherent with
    | nest _ inner => exact ih (inner _ List.mem_cons_self)
  | later _ ih => exact ih coherent.tail

end Sits

/-! What the values of an instance stand for -/

section

variable {ts : List CallTree} {id : List Nat} {n : Nat} {t u : CallTree} {V : Value}

theorem lookup_parameters (g : FuncRef) (args : List (Nat × Value)) (c k : List Nat) (C : InstRef)
    (Vs : List Value) (inner : List CallTree) (V : Value) :
    (parameters g args c k).lookup ⟨k, V⟩ =
      ((CallTree.call C g args Vs inner).given V).map fun W => ⟨c, [W]⟩ := by
  have other (different : ∀ i, V ≠ .argument g i) : (parameters g args c k).lookup ⟨k, V⟩ = none := by
    rw [List.lookup_eq_none_iff]
    intro e member
    rcases List.mem_map.mp member with ⟨arg, -, rfl⟩
    rw [bne_iff_ne]
    exact fun same => different arg.1 (congrArg Key.V same)
  cases V with
  | argument f i =>
    by_cases same : f = g
    · subst same
      have injective : Function.Injective fun i => (⟨k, .argument f i⟩ : Key) := by
        intro i j same
        injection (congrArg Key.V same)
      rw [given, if_pos rfl]
      exact FiniteMap.lookup_map (g := fun W => (⟨c, [W]⟩ : Target)) injective args i
    · rw [given, if_neg same]
      exact other fun j equal => same (by injection equal)
  | _ => exact other nofun

/-- An instance has entries for its parameters, and for the calls in it. -/
theorem lookup_instance (t : CallTree) (c : List Nat) (m : Nat) (V : Value) :
    (entries t c m).lookup ⟨c ++ [m], V⟩ = ((t.given V).map fun W => ⟨c, [W]⟩).or
      ((allEntries t.inner (c ++ [m]) (m + 1)).lookup ⟨c ++ [m], V⟩) := by
  cases t with
  | call C g args Vs inner =>
    have last : List.lookup ⟨c ++ [m], V⟩ [((⟨c, .inst C⟩ : Key), (⟨c ++ [m], Vs⟩ : Target))] = none := by
      rw [List.lookup_eq_none_iff]
      intro e member
      rw [List.mem_singleton.mp member, bne_iff_ne]
      intro same
      have same : c ++ [m] = c := congrArg Key.id same
      exact List.cons_ne_nil m [] (List.append_right_eq_self.mp same)
    rw [entries, List.lookup_append, List.lookup_append, last, Option.or_none,
      lookup_parameters g args c _ C Vs inner]
    rfl

theorem of_lookup_call {target : Target} (found : (allEntries ts id n).lookup ⟨id, V⟩ = some target) :
    ∃ u ∈ ts, ∃ k, Sits ts id n id k u ∧ V = .inst u.C ∧ target = ⟨id ++ [k], u.Vs⟩ := by
  have member := FiniteMap.mem_of_lookup_pairs found
  rcases entry_kind member with ⟨C, k, inst, -⟩ | ⟨g, i, k, -, caller⟩
  · obtain rfl : V = .inst C := inst
    rcases Sits.of_entry member with ⟨k, u, sits, rfl, rfl⟩
    exact ⟨u, sits.top_mem.1, k, sits, rfl, rfl⟩
  · have under := target_under member
    rw [show id = target.id ++ [k] from caller] at under
    exact absurd under not_under_self

theorem exists_lookup_call (coherent : Coherent ts) (call : u ∈ ts) (n : Nat) :
    ∃ k, Sits ts id n id k u ∧ (allEntries ts id n).lookup ⟨id, .inst u.C⟩ = some ⟨id ++ [k], u.Vs⟩ := by
  have listed : ∃ target, (⟨id, .inst u.C⟩, target) ∈ allEntries ts id n := by
    clear coherent
    induction ts using induct generalizing n with
    | nil => cases call
    | cons C g args Vs inner ts _ beside =>
      rcases List.mem_cons.mp call with rfl | later
      · exact ⟨_, mem_allEntries_cons.mpr (.inr (.inr (.inl rfl)))⟩
      · rcases beside later _ with ⟨target, member⟩
        exact ⟨target, mem_allEntries_cons.mpr (.inr (.inr (.inr member)))⟩
  cases found : (allEntries ts id n).lookup ⟨id, .inst u.C⟩ with
  | none =>
    rcases listed with ⟨target, member⟩
    exact absurd rfl (bne_iff_ne.mp (List.lookup_eq_none_iff.mp found _ member))
  | some target =>
    rcases of_lookup_call found with ⟨v, member, k, sits, same, rfl⟩
    cases coherent with
    | nest equal _ =>
      obtain rfl := equal u call v member (Value.inst.inj same)
      exact ⟨k, sits, rfl⟩

end

/-! The same call with another number -/

section

def shift (depth k : Nat) (id : List Nat) : List Nat := id.take depth ++ (id.drop depth).map (· + k)

variable {depth k : Nat}

theorem shift_append {id : List Nat} (deep : depth ≤ id.length) (more : List Nat) :
    shift depth k (id ++ more) = shift depth k id ++ more.map (· + k) := by
  rw [shift, shift, List.take_append_of_le_length deep, List.drop_append_of_le_length deep,
    List.map_append, List.append_assoc]

theorem shift_self (id : List Nat) : shift id.length k id = id := by
  rw [shift, List.take_length, List.drop_length, List.map_nil, List.append_nil]

theorem shift_injective : Function.Injective (shift depth k) := by
  intro id id' same
  have lengths : id.length = id'.length := by
    have sums := congrArg List.length same
    simp only [shift, List.length_append, List.length_take, List.length_map, List.length_drop] at sums
    omega
  rcases List.append_inj same (by rw [List.length_take, List.length_take, lengths]) with ⟨front, back⟩
  have adding : Function.Injective (fun number => number + k) := fun _ _ => Nat.add_right_cancel
  rw [← List.take_append_drop depth id, ← List.take_append_drop depth id', front,
    List.map_injective_iff.mpr adding back]

def shiftKey (depth k : Nat) (key : Key) : Key := ⟨shift depth k key.id, key.V⟩

def shiftTarget (depth k : Nat) (target : Target) : Target := ⟨shift depth k target.id, target.Vs⟩

def shiftEntry (depth k : Nat) (e : Entry) : Entry := (shiftKey depth k e.1, shiftTarget depth k e.2)

theorem allEntries_shift {ts : List CallTree} {id : List Nat} {n : Nat} (deep : depth ≤ id.length) :
    allEntries ts (shift depth k id) (n + k) = (allEntries ts id n).map (shiftEntry depth k) := by
  induction ts using induct generalizing id n with
  | nil => rfl
  | cons C g args Vs inner ts below beside =>
    have named : shift depth k (id ++ [n]) = shift depth k id ++ [n + k] := shift_append deep [n]
    have deeper : depth ≤ (id ++ [n]).length := by
      rw [List.length_append]
      omega
    rw [allEntries_cons, allEntries_cons, List.map_append, List.map_append, List.map_append,
      ← beside deep, ← below deeper, named, Nat.add_right_comm n 1 k, Nat.add_right_comm n _ k]
    simp [parameters, shiftEntry, shiftKey, shiftTarget, named]

theorem shiftKey_injective : Function.Injective (shiftKey depth k) := by
  rintro ⟨id, V⟩ ⟨id', V'⟩ same
  rcases Key.mk.inj same with ⟨ids, rfl⟩
  obtain rfl : id = id' := shift_injective ids
  rfl

theorem shift_callee (c : List Nat) (m : Nat) : shift c.length m (c ++ [0]) = c ++ [m] := by
  rw [shift_append le_rfl, shift_self, List.map_singleton, Nat.zero_add]

theorem shift_under {c id : List Nat} (under : c ++ [0] <+: id) (m : Nat) :
    c ++ [m] <+: shift c.length m id := by
  rcases under with ⟨rest, rfl⟩
  rw [shift_append (by simp), shift_callee]
  exact List.prefix_append _ _

theorem entries_shift (t : CallTree) (c : List Nat) (m : Nat) :
    entries t c m = (entries t c 0).map (shiftEntry c.length m) := by
  have shifted := @allEntries_shift c.length m [t] c 0 le_rfl
  rwa [shift_self, Nat.zero_add, allEntries_singleton, allEntries_singleton] at shifted

/-- What is emplaced for an instance, another instance of the same call has as well. -/
theorem Sits.twin {ts : List CallTree} {id c : List Nat} {n m m' : Nat} {t : CallTree}
    (sits : Sits ts id n c m t) (other : Sits ts id n c m' t) {key : Key} {target : Target}
    (under : c ++ [m] <+: key.id) (found : (allEntries ts id n).lookup key = some target) :
    ∃ old was, key = shiftKey c.length m old ∧ target = shiftTarget c.length m was ∧
      c ++ [0] <+: old.id ∧ (was.id = c ∨ c ++ [0] <+: was.id) ∧
      (allEntries ts id n).lookup (shiftKey c.length m' old) = some (shiftTarget c.length m' was) := by
  have renamed (k : Nat) : entries t c k = (entries t c 0).map fun e =>
      (shiftKey c.length k e.1, shiftTarget c.length k e.2) := entries_shift t c k
  rw [sits.lookup under, renamed] at found
  rcases FiniteMap.exists_of_lookup_map shiftKey_injective found with ⟨old, was, rfl, rfl, first⟩
  have member := FiniteMap.mem_of_lookup_pairs first
  rw [← allEntries_singleton] at member
  have places : c ++ [0] <+: old.id ∧ (was.id = c ∨ c ++ [0] <+: was.id) := by
    cases t with
    | call C g args Vs inner =>
      rcases mem_allEntries_cons.mp member with ⟨arg, -, same⟩ | inside | same | later
      · cases same
        exact ⟨List.prefix_rfl, .inl rfl⟩
      · exact ⟨key_under inside, .inr (target_under inside)⟩
      · cases same
        rw [shiftKey, shift_self] at under
        exact absurd under not_under_self
      · cases later
  refine ⟨old, was, rfl, rfl, places.1, places.2, ?_⟩
  rw [other.lookup (shift_under places.1 m'), renamed, FiniteMap.lookup_map shiftKey_injective, first]
  rfl

end

end CallTree

end Clou.Unrolled
