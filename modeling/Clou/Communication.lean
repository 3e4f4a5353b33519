import Mathlib.Data.Finset.Max
import Mathlib.Data.Set.Finite.Basic

/-! Communication through ordered accesses: a read takes its value from the last write
to the same location before it, and an initial write precedes all accesses and matches
every location. -/

namespace Clou.Communication

/-- Accesses placed in a linear order, and when two of them meet at one location. -/
structure System (N L : Type) where
  rank : N → L
  write : N → Prop
  read : N → Prop
  same : N → N → Prop

variable {N L : Type} [LinearOrder L]

namespace System

def Before (sys : System N L) (a b : N) : Prop := sys.rank a < sys.rank b

/-- No other write to the location stands between the write and the read. -/
def ReadsFrom (sys : System N L) (w r : N) : Prop :=
  sys.write w ∧ sys.read r ∧ sys.same w r ∧ sys.Before w r ∧
    ¬ ∃ u, sys.write u ∧ sys.same u w ∧ sys.same u r ∧ sys.Before w u ∧ sys.Before u r

def Coherence (sys : System N L) (w w' : N) : Prop :=
  sys.write w ∧ sys.write w' ∧ sys.same w w' ∧ sys.Before w w'

def FromRead (sys : System N L) (r w : N) : Prop :=
  sys.read r ∧ sys.write w ∧ sys.same r w ∧ sys.Before r w

/-- Locations are only compared like values among the `plain` accesses: the initial
write meets all of them. -/
structure Lawful (sys : System N L) (init : N) (plain : N → Prop) : Prop where
  finite : {n | sys.write n}.Finite
  injective : ∀ {a b}, sys.write a ∨ plain a → sys.write b ∨ plain b →
    sys.rank a = sys.rank b → a = b
  init_write : sys.write init
  init_before : ∀ {a}, plain a → sys.Before init a
  init_same : ∀ a, sys.same init a
  write_cases : ∀ {w}, sys.write w → w = init ∨ plain w
  symm : ∀ {a b}, sys.same a b → sys.same b a
  trans : ∀ {a b c}, plain a → plain b → plain c → sys.same a b → sys.same b c → sys.same a c

variable {sys : System N L} {init : N} {plain : N → Prop} (lawful : sys.Lawful init plain)

include lawful

namespace Lawful

/-- Two writes that meet a plain access at its location meet each other. -/
theorem same_of_common {w w' r : N} (write : sys.write w) (write' : sys.write w')
    (regular : plain r) (left : sys.same w r) (right : sys.same w' r) : sys.same w w' := by
  rcases lawful.write_cases write with rfl | plainLeft
  · exact lawful.init_same w'
  · rcases lawful.write_cases write' with rfl | plainRight
    · exact lawful.symm (lawful.init_same w)
    · exact lawful.trans plainLeft regular plainRight left (lawful.symm right)

theorem readsFrom_unique {w w' r : N} (regular : plain r) (source : sys.ReadsFrom w r)
    (source' : sys.ReadsFrom w' r) : w = w' := by
  have later {a b : N} (first : sys.ReadsFrom a r) (second : sys.ReadsFrom b r) :
      ¬ sys.Before a b := by
    intro between
    obtain ⟨writeA, -, sameA, -, none⟩ := first
    obtain ⟨writeB, -, sameB, beforeB, -⟩ := second
    exact none ⟨b, writeB, lawful.same_of_common writeB writeA regular sameB sameA, sameB,
      between, beforeB⟩
  have rank : sys.rank w = sys.rank w' :=
    le_antisymm (not_lt.mp (later source' source)) (not_lt.mp (later source source'))
  exact lawful.injective (.inl source.1) (.inl source'.1) rank

theorem readsFrom_exists {r : N} (regular : plain r) (read : sys.read r) :
    ∃ w, sys.ReadsFrom w r := by
  have finite : {w | sys.write w ∧ sys.same w r ∧ sys.Before w r}.Finite :=
    lawful.finite.subset (fun _ candidate => candidate.1)
  have nonempty : finite.toFinset.Nonempty :=
    ⟨init, by simpa using ⟨lawful.init_write, lawful.init_same r, lawful.init_before regular⟩⟩
  -- the source is the candidate of the greatest rank
  obtain ⟨w, member, greatest⟩ := finite.toFinset.exists_max_image sys.rank nonempty
  obtain ⟨write, same, before⟩ := finite.mem_toFinset.mp member
  refine ⟨w, write, read, same, before, ?_⟩
  rintro ⟨u, writeU, -, sameU, afterW, beforeR⟩
  have bounded := greatest u (finite.mem_toFinset.mpr ⟨writeU, sameU, beforeR⟩)
  exact absurd afterW (not_lt.mpr bounded)

/-- A plain read is before exactly the writes that its source is before. -/
theorem fromRead_iff {r w' : N} (regular : plain r) :
    sys.FromRead r w' ↔
      r ≠ w' ∧ sys.same r w' ∧ ∃ w, sys.ReadsFrom w r ∧ sys.Coherence w w' := by
  constructor
  · rintro ⟨read, write', same, before⟩
    obtain ⟨w, source⟩ := lawful.readsFrom_exists regular read
    have ordered : sys.Before w w' := lt_trans source.2.2.2.1 before
    have meet : sys.same w w' :=
      lawful.same_of_common source.1 write' regular source.2.2.1 (lawful.symm same)
    refine ⟨?_, same, w, source, source.1, write', meet, ordered⟩
    rintro rfl
    exact lt_irrefl _ before
  · rintro ⟨distinct, same, w, ⟨write, read, sameR, beforeR, none⟩, -, write', meet, ordered⟩
    refine ⟨read, write', same, ?_⟩
    rcases lt_trichotomy (sys.rank r) (sys.rank w') with before | tied | after
    · exact before
    · exact absurd (lawful.injective (.inr regular) (.inl write') tied) distinct
    · exact absurd ⟨w', write', lawful.symm meet, lawful.symm same, ordered, after⟩ none

end Lawful

end System

end Clou.Communication
