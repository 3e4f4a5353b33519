import Clou.Ir

/-! Answers of the compiler's alias analysis. -/

namespace Clou

inductive AliasResult where
  | noAlias
  | mayAlias
  | partialAlias
  | mustAlias
  deriving DecidableEq, Repr

/-- An alias analysis for which must-aliasing pointers are interchangeable. -/
structure AliasAnalysis where
  query : Value → Value → AliasResult
  refl : ∀ P, query P P = .mustAlias
  symm : ∀ {P Q}, query P Q = .mustAlias → query Q P = .mustAlias
  trans : ∀ {P Q R}, query P Q = .mustAlias → query Q R = .mustAlias → query P R = .mustAlias
  congr_right : ∀ {P Q} R, query P Q = .mustAlias → query R P = query R Q
  congr_left : ∀ {P Q} R, query P Q = .mustAlias → query P R = query Q R

/-- Must-aliasing pointers have the same representative; all others may alias. -/
def aliasByRepresentative (rep : Value → Value) : AliasAnalysis where
  query := fun P Q => if rep P = rep Q then .mustAlias else .mayAlias
  refl := by simp
  symm := by
    intro P Q must
    simp_all
  trans := by
    intro P Q R first second
    simp_all
  congr_right := by
    intro P Q R must
    simp_all
  congr_left := by
    intro P Q R must
    simp_all

def MustCovered (AA : AliasAnalysis) (concrete abstract : List Value) : Prop :=
  ∀ P ∈ abstract, ∃ Q ∈ concrete, AA.query P Q = .mustAlias

variable {AA : AliasAnalysis}

theorem MustCovered.refl (pointers : List Value) : MustCovered AA pointers pointers :=
  fun P member => ⟨P, member, AA.refl P⟩

theorem MustCovered.mono {concrete abstract fewer : List Value}
    (covered : MustCovered AA concrete abstract) (subset : fewer ⊆ abstract) :
    MustCovered AA concrete fewer :=
  fun P member => covered P (subset member)

end Clou
