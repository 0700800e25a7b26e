import Mathlib
import ModalCalls.Proofs.Semantics.Configuration

/-!
# Trails

A witness explains a formula by a path through configurations, each visited for the sake of one variable.
`Follows` says how it may go on.

* From a disjunction to one of its operands, at the same configuration.
* From a diamond along a must edge that it speaks about to its operand.
* From a diamond into a procedure that is called, and out of one that has ended, for the sake of the same
  variable.

A trail (`Trail`) is a path of this kind that begins somewhere, written down as a list of visits.  Entering
and leaving procedures is no step of the program, but whatever can be done after it could have been done
before.  So the actions along a trail are a word of must steps from where it begins (`Trail.mustRun`).
-/

namespace ModalCalls

variable {p : Program} {e : EquationSystem}

/-- **How a trail goes on**, from a configuration and a variable to others, perhaps by an action. -/
inductive Follows (e : EquationSystem) :
    Config p → Nat → Option String → Config p → Nat → Prop
  | operand {c : Config p} {v w left right : Nat} (hop : e.operator? v = some (.disj left right))
      (hw : w = left ∨ w = right) : Follows e c v none c w
  | along {l l' : Location p} {stack : List (Location p)} {v d : Nat} {action : Option String}
      {edge : Edge} (hop : e.operator? v = some (.dia action d)) (hjoined : l.Joined edge l')
      (hkind : edge.isCall = false) (hmust : edge.modality = .must)
      (hspeaks : Concerns action edge.label) :
      Follows e ⟨l, stack⟩ v (some edge.label) ⟨l', stack⟩ d
  | enter {l l' entry : Location p} {stack : List (Location p)} {v d : Nat} {action : Option String}
      {edge : Edge} (hop : e.operator? v = some (.dia action d)) (hjoined : l.Joined edge l')
      (hkind : edge.isCall = true) (hentry : entry.IsEntry edge.label) :
      Follows e ⟨l, stack⟩ v none ⟨entry, l' :: stack⟩ v
  | leave {l l' : Location p} {stack : List (Location p)} {v d : Nat} {action : Option String}
      (hop : e.operator? v = some (.dia action d)) (hexit : l.isExit = true) :
      Follows e ⟨l, l' :: stack⟩ v none ⟨l', stack⟩ v

/-- What is written down of a visit: the name of the procedure, the state, the variable, and the action
that led there. -/
structure Visit where
  procedure : String
  state : Nat
  var : Nat
  action : Option String
deriving DecidableEq

/-- The visit is one to the configuration. -/
def Visit.At (visit : Visit) (c : Config p) : Prop :=
  visit.state = c.control.state ∧
    ∃ q, p.procedures[c.control.procedure]? = some q ∧ visit.procedure = q.name

/-- **A trail**: the visits from a configuration and a variable to others. -/
inductive Trail (e : EquationSystem) (start : Config p) (first : Nat) :
    List Visit → Config p → Nat → Prop
  | root {visit : Visit} (hat : visit.At start) (hvar : visit.var = first)
      (haction : visit.action = none) : Trail e start first [visit] start first
  | snoc {visits : List Visit} {visit : Visit} {c c' : Config p} {v : Nat}
      (h : Trail e start first visits c v) (hfollows : Follows e c v visit.action c' visit.var)
      (hat : visit.At c') : Trail e start first (visits ++ [visit]) c' visit.var

/-- **A word of must steps** from one configuration to another. -/
inductive MustRun (start : Config p) : List String → Config p → Prop
  | nil : MustRun start [] start
  | snoc {word : List String} {label : String} {c c' : Config p} (h : MustRun start word c)
      (hstep : Step c ⟨label, .must, c'⟩) : MustRun start (word ++ [label]) c'

/-- Where a program is when a trail is somewhere: there, or where it was before procedures were entered
and left, if a diamond still asks for a step. -/
def Awaits (e : EquationSystem) (c : Config p) (v : Nat) (c₀ : Config p) : Prop :=
  c₀ = c ∨ (∃ action d, e.operator? v = some (.dia action d)) ∧ ∀ arrow, Step c arrow → Step c₀ arrow

lemma Awaits.step {c c₀ : Config p} {v : Nat} (h : Awaits e c v c₀) {arrow : Arrow (Config p)}
    (harrow : Step c arrow) : Step c₀ arrow := by
  rcases h with rfl | ⟨-, hstep⟩
  · exact harrow
  · exact hstep arrow harrow

/-- One more visit: either the program is where it was, or it takes a must step. -/
lemma Follows.mustRun {start c c' c₀ : Config p} {v w : Nat} {action : Option String}
    {word : List String} (h : Follows e c v action c' w) (hrun : MustRun start word c₀)
    (hawaits : Awaits e c v c₀) :
    ∃ c₁, MustRun start (word ++ action.toList) c₁ ∧ Awaits e c' w c₁ := by
  cases h with
  | operand hop hw =>
      rcases hawaits with rfl | ⟨⟨action, d, hdia⟩, -⟩
      · exact ⟨c₀, by simpa using hrun, Or.inl rfl⟩
      · simp [hop] at hdia
  | @along l l' stack _ d action edge hop hjoined hkind hmust hspeaks =>
      have hstep : Step ⟨l, stack⟩ ⟨edge.label, .must, ⟨l', stack⟩⟩ := by
        rw [← hmust]
        exact .internal hjoined hkind
      exact ⟨_, hrun.snoc (hawaits.step hstep), Or.inl rfl⟩
  | @enter l l' entry stack _ d action edge hop hjoined hkind hentry =>
      refine ⟨c₀, by simpa using hrun, Or.inr ⟨⟨action, d, hop⟩, fun arrow harrow => ?_⟩⟩
      exact hawaits.step (.call hjoined hkind hentry harrow)
  | @leave l l' stack _ d action hop hexit =>
      refine ⟨c₀, by simpa using hrun, Or.inr ⟨⟨action, d, hop⟩, fun arrow harrow => ?_⟩⟩
      exact hawaits.step (.pop hexit harrow)

lemma Trail.exists_mustRun {start c : Config p} {visits : List Visit} {first v : Nat}
    (h : Trail e start first visits c v) :
    ∃ c₀, MustRun start (visits.filterMap (·.action)) c₀ ∧ Awaits e c v c₀ := by
  induction h with
  | root _ _ haction =>
      refine ⟨start, ?_, Or.inl rfl⟩
      simpa [haction] using MustRun.nil
  | @snoc visits visit c c' v h hfollows hat ih =>
      obtain ⟨c₀, hrun, hawaits⟩ := ih
      obtain ⟨c₁, hrun', hawaits'⟩ := hfollows.mustRun hrun hawaits
      refine ⟨c₁, ?_, hawaits'⟩
      rw [List.filterMap_append]
      cases haction : visit.action <;> simpa [haction] using hrun'

/-- **The actions along a trail are a word of must steps**, if no diamond is left in the end. -/
theorem Trail.mustRun {start c : Config p} {visits : List Visit} {first v : Nat}
    (h : Trail e start first visits c v) (hv : ∀ action d, e.operator? v ≠ some (.dia action d)) :
    MustRun start (visits.filterMap (·.action)) c := by
  obtain ⟨c₀, hrun, rfl | ⟨⟨action, d, hop⟩, -⟩⟩ := h.exists_mustRun
  · exact hrun
  · exact absurd hop (hv action d)

end ModalCalls
