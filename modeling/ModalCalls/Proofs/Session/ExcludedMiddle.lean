import Mathlib
import ModalCalls.Proofs.Semantics.Negation
import ModalCalls.Proofs.Session.Verdict
import ModalCalls.Proofs.Witness.Search

/-!
# Excluded middle across two runs

Model checking a formula and its negation are two runs over different equations: the negation is pushed to
the atoms, so least blocks of the one are greatest blocks of the other, and neither run knows of the
other.  `Program.solve_neg`: for branching-time formulas, if both runs end well, exactly one of the verdicts
is positive.

* Where all internal edges are must edges, so are all steps of configurations
  (`Program.InternalMust.allMust`).  A call has the steps of its callee.
* A formula without fixpoints and names of its own has only the fixpoints of its branching operators.  In
  their expansion a name is referred to right under a modality of its own fixpoint and with no negation in
  between.  So the normal form is guarded and alternation-free (`Formula.Expands.pushNeg_tame`), and verdicts
  speak about its meaning.
-/

namespace ModalCalls

/-! ## Formulas without fixpoints of their own

The fixpoints of a normal form then come from branching operators.  Their expansions are closed, refer to
themselves under modalities only, and stay so when negations are pushed through.  So there is no alternation
however deep the operators are nested, and verdicts are right for the formula and for its negation.
-/

namespace Formula

/-- No fixpoints and no names: atoms, Boolean operators, modalities and branching operators. -/
def isFixpointFree : Formula → Bool
  | top | bot | atom _ => true
  | mu .. | nu .. | ref _ => false
  | neg f | box _ f | dia _ f | af f | ag f | ef f | eg f => f.isFixpointFree
  | conj f g | disj f g | au f g | aw f g | eu f g | ew f g => f.isFixpointFree && g.isFixpointFree

/-- A formula on which verdicts can be relied, inside any fixpoints. -/
structure Tame (f : Formula) : Prop where
  guarded : f.isGuarded = true
  free : ∀ scope, f.isAlternationFreeIn scope = true

variable {f f' : Formula}

/-- **The expansion of a formula without fixpoints of its own is tame**, and so is its dual. -/
lemma Expands.pushNeg_tame (h : Expands f f') (hf : f.isFixpointFree = true) :
    ∀ (n : Bool) (σ : Turned), (pushNeg n σ f').Tame := by
  induction h with
  | top | bot | atom =>
      intro n σ
      cases n <;> exact ⟨rfl, fun _ => rfl⟩
  | ref | mu | nu => cases hf
  | neg _ ih => exact fun n σ => ih hf (!n) σ
  | aw _ ih | ew _ ih =>
      simp only [isFixpointFree, Bool.and_eq_true] at hf
      exact ih (by simp only [isFixpointFree, hf, Bool.and_self])
  | conj _ _ ihp ihq | disj _ _ ihp ihq =>
      intro n σ
      simp only [isFixpointFree, Bool.and_eq_true] at hf
      obtain ⟨hguarded, hfree⟩ := ihp hf.1 n σ
      obtain ⟨hguarded', hfree'⟩ := ihq hf.2 n σ
      cases n <;> refine ⟨?_, fun scope => ?_⟩ <;>
        simp [pushNeg, isGuarded, isAlternationFreeIn, hguarded, hguarded', hfree, hfree']
  | box _ _ ih | dia _ _ ih =>
      intro n σ
      obtain ⟨hguarded, hfree⟩ := ih hf n σ
      cases n <;> refine ⟨?_, fun scope => ?_⟩ <;>
        simp [pushNeg, isGuarded, isAlternationFreeIn, hguarded, hfree]
  -- A reference to the fixpoint of an operator is turned together with it, so no negation stays on it, and
  -- that fixpoint is the innermost one around it.
  | @af _ _ z _ _ ih | @ag _ _ z _ _ ih | @ef _ _ z _ _ ih | @eg _ _ z _ _ ih =>
      intro n σ
      obtain ⟨hguarded, hfree⟩ := ih hf n ((z, n) :: σ)
      cases n <;> refine ⟨?_, fun scope => ?_⟩ <;>
        simp [afFix, agFix, efFix, egFix, allNext, pushNeg, negIf, isRef, isGuarded,
          isAlternationFreeIn, mayReach, hguarded, hfree]
  | @au _ _ _ _ z _ _ _ _ ihp ihq | @eu _ _ _ _ z _ _ _ _ ihp ihq =>
      intro n σ
      simp only [isFixpointFree, Bool.and_eq_true] at hf
      obtain ⟨hguarded, hfree⟩ := ihp hf.1 n ((z, n) :: σ)
      obtain ⟨hguarded', hfree'⟩ := ihq hf.2 n ((z, n) :: σ)
      cases n <;> refine ⟨?_, fun scope => ?_⟩ <;>
        simp [auFix, euFix, allNext, pushNeg, negIf, isRef, isGuarded, isAlternationFreeIn, mayReach,
          hguarded, hguarded', hfree, hfree']

/-- The normal form of a formula without fixpoints of its own. -/
lemma normal_tame (hf : f.isFixpointFree = true) : f.normal.Tame :=
  (expands_expandFrom (List.Subset.refl _) 0).pushNeg_tame hf false []

end Formula

/-! ## Programs without may edges

A diamond asks for a must step and a box is about all steps.  The two are dual where all steps are must
steps.  Call edges do not count here, because a call has the steps of its callee.
-/

namespace Program

variable {system : System} {p : Program} {o o' : Options} {f : Formula} {j j' k k' : Journal}

/-- **Every internal edge is a must edge.** -/
def InternalMust (p : Program) : Prop :=
  ∀ (i : Nat) (q : Procedure), p.procedures[i]? = some q → ∀ edge ∈ q.graph.edges,
    edge.isCall = false → edge.modality = .must

lemma InternalMust.step (h : p.InternalMust) {c : Config p} {arrow : Arrow (Config p)}
    (hstep : Step c arrow) : arrow.modality = .must := by
  induction hstep with
  | @internal l l' stack edge hedge hkind =>
      obtain ⟨q, hq, -⟩ := l.exists_state
      have hleaving := hedge.leaving
      rw [leaving_eq hq, ProcessGraph.edgesFrom, List.mem_filter, Array.mem_toList_iff] at hleaving
      exact h _ q hq edge hleaving.1 hkind
  | call _ _ _ _ ih => exact ih
  | pop _ _ ih => exact ih

/-- **All steps of configurations are must steps.** -/
lemma InternalMust.allMust (h : p.InternalMust) : p.configurations.AllMust :=
  fun _ _ harrow => h.step harrow

/-- A verdict on a formula without fixpoints of its own is about the meaning of its normal form. -/
lemma mem_denote_of_solve (hp : p.WellFormed)
    (hproper : ∀ (i : Nat) (q : Procedure), p.procedures[i]? = some q → q.initial ≠ q.final)
    (hbits : Store.validBits o.storageBits = true) (hf : f.isFixpointFree = true) {b : Bool}
    (hsolve : p.solve o f j = .ok b k) (ρ : String → Set p.configurations.State) :
    hp.start ∈ f.normal.denote p.configurations ρ ↔ b = true := by
  obtain ⟨s, hconverged, hsat⟩ := exists_converged_of_solve hp hbits hsolve
  obtain ⟨hguarded, hfree⟩ := Formula.normal_tame hf
  rw [hconverged.denote_eq hproper (hfree []) hguarded ρ]
  exact (hconverged.isSat_eq_truth hsat).symm

/-- **Excluded middle.**  Take a program whose internal edges are all must edges and in which no procedure
ends where it begins, and a formula made of atoms, Boolean operators, modalities and branching operators.
If one run gives a verdict on the formula and another one, with whatever options, on its negation, then
exactly one of the verdicts is positive. -/
theorem solve_neg (hsystem : ofSystem system = .ok p)
    (hproper : ∀ (i : Nat) (q : Procedure), p.procedures[i]? = some q → q.initial ≠ q.final)
    (hmust : p.InternalMust) (hbits : Store.validBits o.storageBits = true)
    (hbits' : Store.validBits o'.storageBits = true) (hf : f.isFixpointFree = true) {b b' : Bool}
    (hsolve : p.solve o f j = .ok b k) (hsolve' : p.solve o' (.neg f) j' = .ok b' k') :
    b' = !b := by
  have hp := wellFormed_of_system hsystem
  have hexpands : f.Expands f.expand := Formula.expands_expandFrom (List.Subset.refl _) 0
  have hpush := Formula.pushNeg_denote hmust.allMust hexpands.isBranching_eq
  have hverdict := mem_denote_of_solve hp hproper hbits hf hsolve fun _ => ∅
  have hverdict' := mem_denote_of_solve hp hproper hbits' (f := .neg f) hf hsolve' fun _ => ∅
  have hdual : (Formula.neg f).normal.denote p.configurations (fun _ => ∅)
      = (f.normal.denote p.configurations fun _ => ∅)ᶜ :=
    (hpush true [] _).trans (congrArg _ (hpush false [] _).symm)
  have hdiffer : b' = true ↔ ¬ b = true :=
    hverdict'.symm.trans ((Set.ext_iff.1 hdual hp.start).trans (not_congr hverdict))
  cases b <;> simpa using hdiffer

/-- Wherever one gets, some way on leads to `q`. -/
def alwaysReachable : Formula :=
  .ag (.ef (.atom "q"))

theorem solve_neg_nestingProgram :
    ofSystem { main := "main", procedures := [("main", nestingGraph)] } = .ok nestingProgram ∧
    nestingProgram.InternalMust ∧ alwaysReachable.isFixpointFree = true ∧
    ∃ b b', answer (nestingProgram.solve { storageBits := 5 } alwaysReachable) #[] = .ok b ∧
      answer (nestingProgram.solve { storageBits := 4, pick := .newest } (.neg alwaysReachable)) #[]
        = .ok b' ∧ b' = !b := by
  have hanswer : answer (nestingProgram.solve { storageBits := 5 } alwaysReachable) #[] = .ok false := by
    decide +kernel
  have hanswer' : answer (nestingProgram.solve { storageBits := 4, pick := .newest }
      (.neg alwaysReachable)) #[] = .ok true := by
    decide +kernel
  have hsystem : ofSystem { main := "main", procedures := [("main", nestingGraph)] }
      = .ok nestingProgram := rfl
  have hall : ∀ (i : Nat) (q : Procedure), nestingProgram.procedures[i]? = some q →
      q = ⟨"main", nestingGraph, 0, 3⟩ := by
    intro i q hq
    match i with
    | 0 => exact (Option.some.inj hq).symm
    | i + 1 => simp [nestingProgram] at hq
  have hproper : ∀ (i : Nat) (q : Procedure), nestingProgram.procedures[i]? = some q →
      q.initial ≠ q.final := by
    intro i q hq
    rw [hall i q hq]
    decide
  have hmust : nestingProgram.InternalMust := by
    intro i q hq
    rw [hall i q hq]
    decide
  exact ⟨hsystem, hmust, rfl, false, true, hanswer, hanswer',
    solve_neg hsystem hproper hmust rfl rfl rfl (answer_eq_ok_iff.1 hanswer)
      (answer_eq_ok_iff.1 hanswer')⟩

end Program

end ModalCalls
