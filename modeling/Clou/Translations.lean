import Mathlib.Algebra.Order.BigOperators.Group.List
import Mathlib.Algebra.Order.Group.Nat
import Clou.Cfg

/-! The keys that a lookup of translations ends in. -/

namespace Clou.Cfg.Translations

variable {map : Map} {key : Key} {fuel : Nat} {todo seen done : List Key}

def StandsFor (map : Map) (key next : Key) : Prop :=
  ∃ value, map.lookup key = some value ∧ ∃ V ∈ value.Vs, next = ⟨value.id, V⟩

def TranslatesTo (map : Map) (key last : Key) : Prop :=
  Relation.ReflTransGen (StandsFor map) key last ∧ map.lookup last = none

/-- The loop of a lookup, with a bound on its passes. There is no result when keys are left
on the stack after them. -/
def lookupPasses (map : Map) : Nat → List Key → List Key → List Key → Option (List Key)
  | _, [], _, done => some done
  | 0, _ :: _, _, _ => none
  | passes + 1, key :: todo, seen, done =>
    if key ∈ seen then lookupPasses map passes todo seen done
    else match map.lookup key with
      | none => lookupPasses map passes todo (key :: seen) (done.insert key)
      | some value => lookupPasses map passes
          ((value.Vs.map (Key.mk value.id)).reverse ++ todo) (key :: seen) done

section Expansion

def pending (map : Map) (seen : List Key) : Nat :=
  ((map.entries.filter fun entry => decide (entry.1 ∉ seen)).map fun entry => entry.2.Vs.length).sum

theorem sum_filter_le {A : Type} {p q : A → Bool} {size : A → Nat} (l : List A)
    (weaker : ∀ b, q b = true → p b = true) :
    ((l.filter q).map size).sum ≤ ((l.filter p).map size).sum :=
  ((List.monotone_filter_right l weaker).map size).sum_le_sum fun _ _ => Nat.zero_le _

theorem sum_filter_add_le {A : Type} {p q : A → Bool} {size : A → Nat} {l : List A} {a : A}
    (weaker : ∀ b, q b = true → p b = true) (member : a ∈ l) (here : p a = true) (gone : q a = false) :
    ((l.filter q).map size).sum + size a ≤ ((l.filter p).map size).sum := by
  obtain ⟨before, after, rfl⟩ := List.append_of_mem member
  have first : ((before.filter q).map size).sum ≤ _ := sum_filter_le before weaker
  have second : ((after.filter q).map size).sum ≤ _ := sum_filter_le after weaker
  simp only [List.filter_append, List.filter_cons, here, gone, if_true, Bool.false_eq_true, if_false,
    List.map_append, List.map_cons, List.sum_append, List.sum_cons]
  omega

theorem unseen_of_cons (entry : Sigma fun _ : Key => Target)
    (apart : decide (entry.1 ∉ key :: seen) = true) : decide (entry.1 ∉ seen) = true :=
  decide_eq_true fun old => of_decide_eq_true apart (List.mem_cons_of_mem key old)

theorem pending_cons_le : pending map (key :: seen) ≤ pending map seen :=
  sum_filter_le map.entries unseen_of_cons

theorem pending_cons_add {value : Target} (new : key ∉ seen) (found : map.lookup key = some value) :
    pending map (key :: seen) + value.Vs.length ≤ pending map seen := by
  have entry : (⟨key, value⟩ : Sigma fun _ : Key => Target) ∈ map.entries :=
    AList.mem_lookup_iff.mp found
  refine sum_filter_add_le unseen_of_cons entry (decide_eq_true new) ?_
  exact decide_eq_false fun apart => apart List.mem_cons_self

structure Explored (map : Map) (todo seen out all : List Key) : Prop where
  stack : ∀ {key}, key ∈ todo → key ∈ all
  before : ∀ {key}, key ∈ seen → key ∈ all
  closed : ∀ {key next}, key ∈ all → key ∉ seen → StandsFor map key next → next ∈ all
  answers : ∀ {key}, key ∈ all → key ∉ seen → map.lookup key = none → key ∈ out

namespace Explored

variable {out all : List Key}

theorem nothing : Explored map [] seen out seen where
  stack := nofun
  before := id
  closed old new := absurd old new
  answers old new := absurd old new

theorem again (explored : Explored map todo seen out all) (old : key ∈ seen) :
    Explored map (key :: todo) seen out all where
  stack := List.forall_mem_cons.mpr ⟨explored.before old, fun _ => explored.stack⟩ _
  before := explored.before
  closed := explored.closed
  answers := explored.answers

theorem first {pushed : List Key} (explored : Explored map (pushed ++ todo) (key :: seen) out all)
    (next : ∀ {next}, StandsFor map key next → next ∈ pushed)
    (answer : map.lookup key = none → key ∈ out) : Explored map (key :: todo) seen out all where
  stack := List.forall_mem_cons.mpr ⟨explored.before List.mem_cons_self,
    fun _ listed => explored.stack (List.mem_append_right pushed listed)⟩ _
  before old := explored.before (List.mem_cons_of_mem key old)
  closed := by
    intro other _ within new stands
    by_cases same : other = key
    · exact explored.stack (List.mem_append_left todo (next (same ▸ stands)))
    · exact explored.closed within (List.not_mem_cons_of_ne_of_not_mem same new) stands
  answers := by
    intro other within new missing
    by_cases same : other = key
    · exact same ▸ answer (same ▸ missing)
    · exact explored.answers within (List.not_mem_cons_of_ne_of_not_mem same new) missing

end Explored

/-- Every answer is a key that one on the stack translates to. -/
theorem mem_lookupLoop {root last : Key}
    (reached : ∀ key ∈ todo, Relation.ReflTransGen (StandsFor map) root key)
    (known : ∀ key ∈ done, TranslatesTo map root key)
    (answer : last ∈ lookupLoop map fuel todo seen done) : TranslatesTo map root last := by
  induction fuel generalizing todo seen done with
  | zero => exact known last answer
  | succ fuel ih =>
    cases todo with
    | nil => exact known last answer
    | cons key todo =>
      have rest : ∀ other ∈ todo, Relation.ReflTransGen (StandsFor map) root other :=
        fun other later => reached other (List.mem_cons_of_mem key later)
      have here := reached key List.mem_cons_self
      rw [lookupLoop] at answer
      split at answer
      · exact ih rest known answer
      · split at answer
        · rename_i missing
          apply ih rest _ answer
          intro other member
          rcases List.mem_insert_iff.mp member with rfl | old
          · exact ⟨here, missing⟩
          · exact known other old
        · rename_i value found
          apply ih _ known answer
          intro other member
          rcases List.mem_append.mp member with pushed | old
          · rcases List.mem_map.mp (List.mem_reverse.mp pushed) with ⟨V, listed, rfl⟩
            exact here.tail ⟨value, found, V, listed, rfl⟩
          · exact rest other old

/-- With enough fuel the stack is emptied, and everything on it is expanded, and all that it
leads to. -/
theorem lookupLoop_explores (enough : todo.length + pending map seen ≤ fuel) :
    lookupPasses map fuel todo seen done = some (lookupLoop map fuel todo seen done) ∧
      (∀ key ∈ done, key ∈ lookupLoop map fuel todo seen done) ∧
        ∃ all, Explored map todo seen (lookupLoop map fuel todo seen done) all := by
  induction fuel generalizing todo seen done with
  | zero =>
    obtain rfl : todo = [] := List.eq_nil_of_length_eq_zero (by omega)
    exact ⟨rfl, fun _ => id, seen, .nothing⟩
  | succ fuel ih =>
    cases todo with
    | nil => exact ⟨rfl, fun _ => id, seen, .nothing⟩
    | cons key todo =>
      rw [List.length_cons] at enough
      rw [lookupLoop, lookupPasses]
      split
      · rename_i old
        have fuelled : todo.length + pending map seen ≤ fuel := by omega
        rcases @ih todo seen done fuelled with ⟨ends, answers, all, explored⟩
        exact ⟨ends, answers, all, explored.again old⟩
      · rename_i new
        cases found : map.lookup key with
        | none =>
          have fewer : pending map (key :: seen) ≤ pending map seen := pending_cons_le
          have fuelled : todo.length + pending map (key :: seen) ≤ fuel := by omega
          obtain ⟨ends, answers, all, explored⟩ := @ih todo (key :: seen) (done.insert key) fuelled
          have nothing {next : Key} : StandsFor map key next → next ∈ ([] : List Key) := by
            intro stands
            obtain ⟨value, other, -⟩ := stands
            rw [found] at other
            cases other
          exact ⟨ends, fun other old => answers other (List.mem_insert_of_mem old), all,
            explored.first nothing fun _ => answers key List.mem_insert_self⟩
        | some value =>
          have fewer := pending_cons_add new found
          have fuelled : ((value.Vs.map (Key.mk value.id)).reverse ++ todo).length +
              pending map (key :: seen) ≤ fuel := by
            rw [List.length_append, List.length_reverse, List.length_map]
            omega
          obtain ⟨ends, answers, all, explored⟩ := @ih _ (key :: seen) done fuelled
          refine ⟨ends, answers, all, explored.first ?_ fun missing => ?_⟩
          · intro next stands
            obtain ⟨other, same, V, listed, rfl⟩ := stands
            rw [found] at same
            cases same
            exact List.mem_reverse.mpr (List.mem_map_of_mem listed)
          · rw [missing] at found
            cases found

theorem nodup_lookupLoop (nodup : done.Nodup) : (lookupLoop map fuel todo seen done).Nodup := by
  induction fuel generalizing todo seen done with
  | zero => exact nodup
  | succ fuel ih =>
    cases todo with
    | nil => exact nodup
    | cons key todo =>
      rw [lookupLoop]
      split
      · exact ih nodup
      · split
        · exact ih nodup.insert
        · exact ih nodup

end Expansion

theorem pops_enough : [key].length + pending map [] ≤ pops map := by
  simp [pending, pops]

/-- A lookup gives exactly the keys without an entry that its key translates to. -/
theorem mem_lookup {last : Key} : last ∈ lookup map key ↔ TranslatesTo map key last := by
  constructor
  · apply mem_lookupLoop
    · intro other listed
      rw [List.mem_singleton.mp listed]
    · exact nofun
  · rintro ⟨reaches, missing⟩
    obtain ⟨-, -, all, explored⟩ := @lookupLoop_explores map (pops map) [key] [] [] pops_enough
    have inside : last ∈ all :=
      reaches.head_induction_on (motive := fun key _ => key ∈ all → last ∈ all) id
        (fun stands _ ih within => ih (explored.closed within List.not_mem_nil stands))
        (explored.stack List.mem_cons_self)
    exact explored.answers inside List.not_mem_nil missing

/-- The loop of a lookup ends, for every map. However the set of results is ordered, what is
copied out of it are the keys without an entry that the key translates to, each once. -/
theorem lookup_exact (map : Map) (key : Key) :
    ∃ done : List Key, lookupPasses map (pops map) [key] [] [] = some done ∧
      ∀ out : List Key, out.Perm done →
        out.Nodup ∧ ∀ last, last ∈ out ↔ TranslatesTo map key last := by
  obtain ⟨ends, -⟩ := @lookupLoop_explores map (pops map) [key] [] [] pops_enough
  refine ⟨lookup map key, ends, fun out copied => ⟨?_, fun last => ?_⟩⟩
  · exact copied.nodup_iff.mpr (nodup_lookupLoop List.nodup_nil)
  · rw [copied.mem_iff]
    exact mem_lookup

end Clou.Cfg.Translations
