import Mathlib
import ModalCalls.Formula.Normal

/-!
# Shapes of formulas

Conditions on the written form of a formula, all of which can be computed.

* `Formula.isNegationNormal` — negations stand on atoms and references only.  The normal form has this
  shape (`Formula.normal_isNegationNormal`).
* `Formula.isGuarded` — every reference is the immediate operand of a modality.
* `Formula.isFree` — a name occurs outside of all fixpoints of that name.
* `Formula.isAlternationFree` — no reference lies inside a fixpoint of the other kind than its own
  that is itself inside its own.
-/

namespace ModalCalls

namespace Formula

/-- Negations stand on atoms and references only. -/
def isNegationNormal : Formula → Bool
  | neg (atom _) | neg (ref _) => true
  | neg _ => false
  | box _ f | dia _ f | mu _ f | nu _ f => f.isNegationNormal
  | conj f g | disj f g => f.isNegationNormal && g.isNegationNormal
  | _ => true

/-- Every reference is the immediate operand of a modality. -/
def isGuarded : Formula → Bool
  | top | bot | atom _ => true
  | ref _ => false
  | box _ f | dia _ f => f.isRef || f.isGuarded
  | neg f | mu _ f | nu _ f | af f | ag f | ef f | eg f => f.isGuarded
  | conj f g | disj f g | au f g | aw f g | eu f g | ew f g => f.isGuarded && g.isGuarded

/-- A name occurs outside of all fixpoints of that name. -/
def isFree (x : String) : Formula → Bool
  | top | bot | atom _ => false
  | ref y => y == x
  | mu y f | nu y f => y != x && f.isFree x
  | neg f | box _ f | dia _ f | af f | ag f | ef f | eg f => f.isFree x
  | conj f g | disj f g | au f g | aw f g | eu f g | ew f g => f.isFree x || g.isFree x

/-- A name may be referred to inside the fixpoints in scope, innermost first, each given with its
kind: those inside the name's own fixpoint are of the same kind. -/
def mayReach (scope : List (String × Bool)) (x : String) : Bool :=
  match scope.lookup x with
  | some isMax => (scope.takeWhile fun b => b.1 ≠ x).all fun b => b.2 == isMax
  | none => true

/-- Alternation-freeness inside some fixpoints, innermost first, each with whether it is a greatest
one. -/
def isAlternationFreeIn : List (String × Bool) → Formula → Bool
  | _, top | _, bot | _, atom _ => true
  | scope, ref x => mayReach scope x
  | scope, mu x f => f.isAlternationFreeIn ((x, false) :: scope)
  | scope, nu x f => f.isAlternationFreeIn ((x, true) :: scope)
  | scope, neg f | scope, box _ f | scope, dia _ f | scope, af f | scope, ag f | scope, ef f
  | scope, eg f => f.isAlternationFreeIn scope
  | scope, conj f g | scope, disj f g | scope, au f g | scope, aw f g | scope, eu f g
  | scope, ew f g => f.isAlternationFreeIn scope && g.isAlternationFreeIn scope

/-- **Alternation-freeness**: no reference lies inside a fixpoint of the other kind that is itself
inside the reference's own fixpoint. -/
def isAlternationFree (f : Formula) : Bool :=
  f.isAlternationFreeIn []

lemma negIf_isNegationNormal (n : Bool) {f : Formula} (h : f.isNegationNormal = true)
    (h' : (neg f).isNegationNormal = true) : (negIf n f).isNegationNormal = true := by
  cases n
  · exact h
  · exact h'

lemma pushNeg_isNegationNormal (f : Formula) :
    ∀ (n : Bool) (σ : Turned), (pushNeg n σ f).isNegationNormal = true := by
  induction f with
  | atom p => exact fun n σ => negIf_isNegationNormal n rfl rfl
  | ref x => exact fun n σ => negIf_isNegationNormal _ rfl rfl
  | neg f ih => exact fun n σ => ih (!n) σ
  | conj f g ihf ihg =>
      intro n σ
      cases n <;> simp [pushNeg, isNegationNormal, ihf, ihg]
  | disj f g ihf ihg =>
      intro n σ
      cases n <;> simp [pushNeg, isNegationNormal, ihf, ihg]
  | box a f ih =>
      intro n σ
      cases n <;> simp [pushNeg, isNegationNormal, ih]
  | dia a f ih =>
      intro n σ
      cases n <;> simp [pushNeg, isNegationNormal, ih]
  | mu x f ih =>
      intro n σ
      cases n <;> simp [pushNeg, isNegationNormal, ih]
  | nu x f ih =>
      intro n σ
      cases n <;> simp [pushNeg, isNegationNormal, ih]
  | _ =>
      intro n σ
      cases n <;> rfl

/-- **The normal form has its negations on atoms and references.** -/
lemma normal_isNegationNormal (f : Formula) : f.normal.isNegationNormal = true :=
  pushNeg_isNegationNormal f.expand false []

end Formula

end ModalCalls
