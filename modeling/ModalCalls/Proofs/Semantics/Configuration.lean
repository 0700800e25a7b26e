import Mathlib
import ModalCalls.Proofs.Iteration.Assignment
import ModalCalls.Proofs.Semantics.Denotation

/-!
# Configurations of a program

A program with recursive calls has infinitely many configurations: control is at some state of some
procedure, and a stack says where the calls under way return to.  They make up a transition system
(`Program.configurations`).

* An internal edge is a step, with its label and modality.
* A call edge takes the steps of the callee's initial state, with the target of the edge pushed on
  the stack.  The modality of the call edge does not count.
* Where a procedure has ended, control is where it returns to: the steps and atoms are those of the
  configuration with the stack popped (`Config.resume`).  With nothing to return to there is no step.
-/

namespace ModalCalls

/-- A state of a procedure of a program. -/
@[ext]
structure Location (p : Program) where
  procedure : Nat
  state : Nat
  exists_state : ∃ q, p.procedures[procedure]? = some q ∧ state < q.size

/-- **A configuration**: where control is, and where the calls under way return to, the last one
first. -/
@[ext]
structure Config (p : Program) where
  control : Location p
  stack : List (Location p)

variable {p : Program}

namespace Location

/-- The final state of a procedure. -/
def isExit (l : Location p) : Bool :=
  (p.procedures[l.procedure]?).any fun q => q.final = l.state

/-- An edge leads from one location to another, in the same procedure. -/
structure Joined (l : Location p) (edge : Edge) (l' : Location p) : Prop where
  leaving : edge ∈ p.leaving l.procedure l.state
  procedure_eq : l'.procedure = l.procedure
  target_eq : l'.state = edge.target

/-- A call of the procedure of a name begins here. -/
def IsEntry (l : Location p) (name : String) : Prop :=
  p.entryOf? name = some (l.procedure, l.state)

end Location

/-- Where control is if it is at `l` and calls return to the stack: a procedure that has ended
returns. -/
def resumeAt : Location p → List (Location p) → Config p
  | l, [] => ⟨l, []⟩
  | l, l' :: stack => if l.isExit then resumeAt l' stack else ⟨l, l' :: stack⟩

/-- The configuration after all returns that are due. -/
def Config.resume (c : Config p) : Config p :=
  resumeAt c.control c.stack

/-- **The steps of a configuration.** -/
inductive Step : Config p → Arrow (Config p) → Prop
  | internal {l l' : Location p} {stack : List (Location p)} {edge : Edge}
      (hedge : l.Joined edge l') (hkind : edge.isCall = false) :
      Step ⟨l, stack⟩ ⟨edge.label, edge.modality, ⟨l', stack⟩⟩
  | call {l l' entry : Location p} {stack : List (Location p)} {edge : Edge}
      {arrow : Arrow (Config p)} (hedge : l.Joined edge l') (hkind : edge.isCall = true)
      (hentry : entry.IsEntry edge.label) (harrow : Step ⟨entry, l' :: stack⟩ arrow) :
      Step ⟨l, stack⟩ arrow
  | pop {l l' : Location p} {stack : List (Location p)} {arrow : Arrow (Config p)}
      (hexit : l.isExit = true) (harrow : Step ⟨l', stack⟩ arrow) :
      Step ⟨l, l' :: stack⟩ arrow

namespace Program

/-- **The transition system of a program.** -/
def configurations (p : Program) : TransitionSystem where
  State := Config p
  holds c a := (p.atomsAt c.resume.control.procedure c.resume.control.state).contains a
  arrows c := {arrow | Step c arrow}

/-- The initial state of the main procedure, with nothing to return to. -/
def WellFormed.start (hp : p.WellFormed) : Config p where
  control :=
    { procedure := p.main
      state := ((p.procedures[p.main]?).map (·.initial)).getD 0
      exists_state := by
        obtain ⟨q, hq⟩ := hp.main
        exact ⟨q, hq, by simpa [hq] using hp.initial_lt p.main q hq⟩ }
  stack := []

end Program

/-! ## Locations

A location carries the proof that it exists, so that configurations with a stack of them need no side
conditions.  What validation guarantees is translated to locations here: edges lead somewhere, calls begin
somewhere, and nothing leaves the end of a procedure.
-/

namespace Location

variable {l l' : Location p} {edge : Edge} {name : String}

/-- Every location is either updated or final. -/
lemma isInner_eq (l : Location p) : p.isInner l.procedure l.state = !l.isExit := by
  obtain ⟨q, hq, hlt⟩ := l.exists_state
  simp only [isExit, Program.isInner, hq, Option.any_some, hlt, decide_true, Bool.true_and]
  simp [eq_comm]

lemma isInner_iff : p.isInner l.procedure l.state = true ↔ l.isExit = false := by
  rw [isInner_eq]
  cases l.isExit <;> simp

lemma not_isInner_iff : ¬ p.isInner l.procedure l.state = true ↔ l.isExit = true := by
  rw [isInner_eq]
  cases l.isExit <;> simp

/-- Nothing leaves a final state. -/
lemma leaving_of_isExit (hp : p.WellFormed) (hl : l.isExit = true) :
    p.leaving l.procedure l.state = [] := by
  obtain ⟨q, hq, -⟩ := l.exists_state
  simp only [isExit, hq, Option.any_some, decide_eq_true_eq] at hl
  rw [Program.leaving_eq hq, ← hl]
  exact hp.final_edges l.procedure q hq

/-- Every procedure has a final state. -/
lemma exists_isExit (hp : p.WellFormed) (l : Location p) :
    ∃ l' : Location p, l'.procedure = l.procedure ∧ l'.isExit = true := by
  obtain ⟨q, hq, -⟩ := l.exists_state
  exact ⟨⟨l.procedure, q.final, q, hq, hp.final_lt _ q hq⟩, rfl, by simp [isExit, hq]⟩

/-- Every edge leads somewhere. -/
lemma exists_joined (hedge : edge ∈ p.leaving l.procedure l.state) : ∃ l', l.Joined edge l' := by
  obtain ⟨q, hq, -⟩ := l.exists_state
  have hlt : edge.target < q.size := by
    rw [Program.leaving_eq hq] at hedge
    exact ProcessGraph.target_lt hedge
  exact ⟨⟨l.procedure, edge.target, q, hq, hlt⟩, hedge, rfl, rfl⟩

/-- Every call begins somewhere. -/
lemma exists_isEntry (hp : p.WellFormed) (hedge : edge ∈ p.leaving l.procedure l.state)
    (hcall : edge.isCall = true) : ∃ entry : Location p, entry.IsEntry edge.label := by
  obtain ⟨j, q, hentry, hq⟩ := hp.entryOf? hedge hcall
  exact ⟨⟨j, q.initial, q, hq, hp.initial_lt j q hq⟩, hentry⟩

/-- No call leaves the beginning of a procedure. -/
lemma IsEntry.isCall_eq (hp : p.WellFormed) (hl : l.IsEntry name) (hedge : l.Joined edge l') :
    edge.isCall = false := by
  obtain ⟨-, q, hq, hinitial⟩ := Program.entryOf?_eq_some.1 hl
  have hleaving := hedge.leaving
  rw [Program.leaving_eq hq, ← hinitial] at hleaving
  exact hp.initial_edges l.procedure q hq edge hleaving

/-- Where no procedure ends where it begins, the beginning of a procedure is not final. -/
lemma IsEntry.isExit_eq (hproper : ∀ (i : Nat) (q : Procedure), p.procedures[i]? = some q →
    q.initial ≠ q.final) (hl : l.IsEntry name) : l.isExit = false := by
  obtain ⟨-, q, hq, hinitial⟩ := Program.entryOf?_eq_some.1 hl
  simp only [isExit, hq, Option.any_some, decide_eq_false_iff_not, ← hinitial]
  exact (hproper l.procedure q hq).symm

end Location

/-! ## Returning

A procedure that has ended may return to one that has ended as well, so several returns may be due.
`resume` makes them all.  The steps and the atoms of a configuration are those after all returns, and a
property that survives a single return is therefore settled where none is due.
-/

section Resume

variable {l l' : Location p} {stack : List (Location p)} {c : Config p} {arrow : Arrow (Config p)}

lemma resume_of_isExit (hl : l.isExit = true) :
    (⟨l, l' :: stack⟩ : Config p).resume = (⟨l', stack⟩ : Config p).resume := by
  simp [Config.resume, resumeAt, hl]

lemma resume_of_not_isExit (hl : l.isExit = false) :
    (⟨l, stack⟩ : Config p).resume = ⟨l, stack⟩ := by
  cases stack <;> simp [Config.resume, resumeAt, hl]

/-- The atoms are those of where control is in effect. -/
lemma holds_of_resume_eq (hc : c.resume = ⟨l, stack⟩) :
    p.configurations.holds c = ((p.atomsAt l.procedure l.state).contains ·) := by
  simp only [Program.configurations, hc]

/-- **Induction over returns**: what holds where no return is due, and is kept by returning, holds
everywhere. -/
lemma Config.resume_induction {motive : Config p → Prop}
    (hinner : ∀ l stack, l.isExit = false → motive ⟨l, stack⟩)
    (hend : ∀ l, l.isExit = true → motive ⟨l, []⟩)
    (hreturn : ∀ l l' stack, l.isExit = true → motive ⟨l', stack⟩ → motive ⟨l, l' :: stack⟩)
    (c : Config p) : motive c := by
  obtain ⟨l, stack⟩ := c
  induction stack generalizing l with
  | nil =>
      cases hl : l.isExit with
      | false => exact hinner l [] hl
      | true => exact hend l hl
  | cons l' stack ih =>
      cases hl : l.isExit with
      | false => exact hinner l (l' :: stack) hl
      | true => exact hreturn l l' stack hl (ih l')

/-- After all returns either the procedure has not ended, or there is nothing to return to. -/
lemma Config.resume_cases (c : Config p) :
    (∃ l stack, c.resume = ⟨l, stack⟩ ∧ l.isExit = false) ∨
      ∃ l, c.resume = ⟨l, []⟩ ∧ l.isExit = true := by
  induction c using Config.resume_induction with
  | hinner l stack hl => exact Or.inl ⟨l, stack, resume_of_not_isExit hl, hl⟩
  | hend l hl => exact Or.inr ⟨l, rfl, hl⟩
  | hreturn l l' stack hl ih => rwa [resume_of_isExit hl]

/-- What survives each return is the same after all of them. -/
lemma Config.resume_invariant {motive : Config p → Prop}
    (h : ∀ l l' stack, l.isExit = true → (motive ⟨l, l' :: stack⟩ ↔ motive ⟨l', stack⟩))
    (c : Config p) : motive c.resume ↔ motive c := by
  induction c using Config.resume_induction with
  | hinner l stack hl => rw [resume_of_not_isExit hl]
  | hend l hl => exact Iff.rfl
  | hreturn l l' stack hl ih => rw [resume_of_isExit hl, ih, h l l' stack hl]

variable (hp : p.WellFormed)

include hp

lemma not_step_of_isExit (hl : l.isExit = true) : ¬ Step ⟨l, []⟩ arrow := by
  intro h
  cases h with
  | internal hedge _ => simpa [Location.leaving_of_isExit hp hl] using hedge.leaving
  | call hedge _ _ _ => simpa [Location.leaving_of_isExit hp hl] using hedge.leaving

lemma step_return_iff (hl : l.isExit = true) :
    Step ⟨l, l' :: stack⟩ arrow ↔ Step ⟨l', stack⟩ arrow := by
  constructor
  · intro h
    cases h with
    | internal hedge _ => simpa [Location.leaving_of_isExit hp hl] using hedge.leaving
    | call hedge _ _ _ => simpa [Location.leaving_of_isExit hp hl] using hedge.leaving
    | pop _ harrow => exact harrow
  · exact .pop hl

/-- **Returning does not change the steps.** -/
lemma step_resume_iff : Step c.resume arrow ↔ Step c arrow :=
  c.resume_invariant (motive := fun c => Step c arrow) fun _ _ _ hl => step_return_iff hp hl

end Resume

end ModalCalls
