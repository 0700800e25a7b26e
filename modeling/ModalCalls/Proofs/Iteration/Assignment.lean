import Mathlib
import ModalCalls.Proofs.Equation.WellFormed
import ModalCalls.Proofs.Process.WellFormed

/-!
# Assignments of summaries to states

An assignment has a summary for each state of each procedure.  The equations of a state say what its
summary is to be: the right-hand sides of its variables, from its own summary and from the summaries along
the edges that leave it (`Program.nodeRhs`).  Along an edge a summary is that of the step, composed with
that of the target; the step of a call is the callee's initial state.

`Program.nodeRhs_below` is the one comparison lemma: it compares the right-hand sides under two
assignments and at two inputs, in the order of a block.  Monotonicity, extremality and independence of
inputs are all read off it.
-/

namespace ModalCalls

/-- A summary for each state of each procedure, by their numbers. -/
abbrev Assignment := Nat → Nat → Summary

namespace Program

/-- A state that is updated: it exists and is not the final one of its procedure. -/
def isInner (p : Program) (i n : Nat) : Bool :=
  match p.procedures[i]? with
  | some q => decide (n < q.size) && decide (n ≠ q.final)
  | none => false

/-- The edges that leave a state. -/
def leaving (p : Program) (i n : Nat) : List Edge :=
  match p.procedures[i]? with
  | some q => q.graph.edgesFrom n
  | none => []

/-- The atoms of a state. -/
def atomsAt (p : Program) (i n : Nat) : List String :=
  match p.procedures[i]? with
  | some q => q.graph.propsOf n
  | none => []

/-- Where a call of a procedure begins. -/
def entryOf? (p : Program) (name : String) : Option (Nat × Nat) := do
  let j ← p.indexOf? name
  let q ← p.procedures[j]?
  return (j, q.initial)

/-- The summary of the step that an edge takes. -/
def stepSummary (p : Program) (e : EquationSystem) (A : Assignment) (edge : Edge) : Summary :=
  if edge.isCall then
    match p.entryOf? edge.label with
    | some (j, m) => A j m
    | none => fun v x => x v
  else e.edgeSummary edge.label edge.modality

/-- The summary along an edge of procedure `i`. -/
def alongSummary (p : Program) (e : EquationSystem) (A : Assignment) (i : Nat) (edge : Edge) :
    Summary := fun v x =>
  p.stepSummary e A edge v fun w => A i edge.target w x

/-- **The right-hand sides of the equations of a state**, with `own` as the summary of the state
itself. -/
def nodeRhs (p : Program) (e : EquationSystem) (A : Assignment) (i n : Nat) (own : Summary) :
    Summary :=
  e.rhs ((p.atomsAt i n).contains ·) ((p.leaving i n).map (p.alongSummary e A i)) own

/-- The equations of state `n` of procedure `i` read the summary of state `m` of procedure `j`. -/
def Reads (p : Program) (i n j m : Nat) : Prop :=
  ∃ edge ∈ p.leaving i n, (i = j ∧ edge.target = m) ∨
    (edge.isCall = true ∧ p.entryOf? edge.label = some (j, m))

/-! ## Comparing right-hand sides

Only the states that edges lead to, and the entries of callees, are read.  Along a call the inner summary is
applied to the outer one, so a comparison needs both: the summary of the callee at two inputs, and these
inputs are the summary of the target.  That is why the lemma takes its hypotheses about calls at composed
inputs.
-/

variable {p : Program} {e : EquationSystem} {A A' : Assignment} {i n v : Nat} {own own' : Summary}

section Procedure

variable {q : Procedure}

lemma isInner_iff (hq : p.procedures[i]? = some q) :
    p.isInner i n = true ↔ n < q.size ∧ n ≠ q.final := by
  simp only [isInner, hq, Bool.and_eq_true, decide_eq_true_eq]

lemma exists_of_isInner (h : p.isInner i n = true) :
    ∃ q, p.procedures[i]? = some q ∧ n < q.size ∧ n ≠ q.final := by
  simp only [isInner] at h
  split at h
  · next q hq =>
      simp only [Bool.and_eq_true, decide_eq_true_eq] at h
      exact ⟨q, hq, h⟩
  · cases h

lemma leaving_eq (hq : p.procedures[i]? = some q) : p.leaving i n = q.graph.edgesFrom n := by
  simp only [leaving, hq]

lemma atomsAt_eq (hq : p.procedures[i]? = some q) : p.atomsAt i n = q.graph.propsOf n := by
  simp only [atomsAt, hq]

lemma mem_innerStates (hq : p.procedures[i]? = some q) :
    n ∈ q.innerStates ↔ p.isInner i n = true := by
  simp [Procedure.innerStates, ProcessGraph.stateNumbers, isInner_iff hq, Procedure.size]

end Procedure

/-- Only the states that are read count. -/
lemma nodeRhs_congr (h : ∀ j m, p.Reads i n j m → A j m = A' j m) :
    p.nodeRhs e A i n own = p.nodeRhs e A' i n own := by
  have hmap : (p.leaving i n).map (p.alongSummary e A i)
      = (p.leaving i n).map (p.alongSummary e A' i) := by
    refine List.map_congr_left fun edge hedge => ?_
    have htarget := h i edge.target ⟨edge, hedge, Or.inl ⟨rfl, rfl⟩⟩
    funext v x
    simp only [alongSummary, stepSummary, htarget]
    split
    · next hcall =>
        cases hentry : p.entryOf? edge.label with
        | none => rfl
        | some start =>
            obtain ⟨j, m⟩ := start
            simp only [h j m ⟨edge, hedge, Or.inr ⟨hcall, hentry⟩⟩]
    · rfl
  simp only [nodeRhs, hmap]

/-- What two summaries along an edge have to satisfy to be comparable at a modality with operand
`c`. -/
lemma alongSummary_below {k : Bool} {op : Operator} {c : Nat} (hop : e.operator? v = some op)
    (hc : op.child? = some c) {edge : Edge} {x x' : Nat → Bool}
    (hinternal : edge.isCall = false →
      Below k (A i edge.target c x) (A' i edge.target c x'))
    (hcall : ∀ j m, edge.isCall = true → p.entryOf? edge.label = some (j, m) →
      Below k (A j m v fun w => A i edge.target w x) (A' j m v fun w => A' i edge.target w x'))
    (hnone : edge.isCall = true → p.entryOf? edge.label ≠ none) :
    Below k (p.alongSummary e A i edge v x) (p.alongSummary e A' i edge v x') := by
  simp only [alongSummary, stepSummary]
  cases hcase : edge.isCall with
  | false => exact EquationSystem.edgeSummary_below hop hc (hinternal hcase)
  | true =>
      cases hentry : p.entryOf? edge.label with
      | none => exact absurd hentry (hnone hcase)
      | some start =>
          obtain ⟨j, m⟩ := start
          exact hcall j m hcase hentry

/-- **Comparison of right-hand sides** under two assignments and at two inputs. -/
lemma nodeRhs_below {k : Bool} {op : Operator} (hop : e.operator? v = some op)
    {x x' : Nat → Bool} (hreads : ∀ w ∈ op.reads, Below k (own w x) (own' w x'))
    (hneg : ∀ c, op = .neg c → own c x = own' c x')
    (halong : ∀ c, op.child? = some c → ∀ edge ∈ p.leaving i n,
      Below k (p.alongSummary e A i edge v x) (p.alongSummary e A' i edge v x')) :
    Below k (p.nodeRhs e A i n own v x) (p.nodeRhs e A' i n own' v x') :=
  EquationSystem.rhs_below hop hreads hneg halong

lemma entryOf?_eq_some {name : String} {j m : Nat} : p.entryOf? name = some (j, m) ↔
    p.indexOf? name = some j ∧ ∃ q, p.procedures[j]? = some q ∧ q.initial = m := by
  simp only [entryOf?, Option.bind_eq_bind, Option.bind_eq_some_iff, Option.pure_def,
    Option.some.injEq, Prod.mk.injEq]
  constructor
  · rintro ⟨k, hk, q, hq, rfl, hm⟩
    exact ⟨hk, q, hq, hm⟩
  · rintro ⟨hj, q, hq, hm⟩
    exact ⟨j, hj, q, hq, rfl, hm⟩

/-- Every call has somewhere to begin. -/
lemma WellFormed.entryOf? (hp : p.WellFormed) {edge : Edge} (hedge : edge ∈ p.leaving i n)
    (hcall : edge.isCall = true) : ∃ j q, p.entryOf? edge.label = some (j, q.initial) ∧
      p.procedures[j]? = some q := by
  simp only [leaving] at hedge
  split at hedge
  · next q hq =>
      obtain ⟨j, r, hj, hr⟩ := hp.callee i q n hq edge hedge hcall
      exact ⟨j, r, entryOf?_eq_some.2 ⟨hj, r, hr, rfl⟩, hr⟩
  · simp at hedge

end Program

end ModalCalls
