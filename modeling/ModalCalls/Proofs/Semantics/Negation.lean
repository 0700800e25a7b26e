import Mathlib
import ModalCalls.Proofs.Semantics.Expansion

/-!
# What the normal form means

Negations are pushed to the atoms and references by duality.  `Formula.normal_denote`: where all steps
are must steps, the normal form has the meaning of the expansion, and the normal form of the negation
has the complement.  This asks nothing of the formula.  It may have free names, binders may shadow
each other, and a name may be under negations, so that the body of its fixpoint need not be monotone.

A fixpoint that was turned into its dual stands for the complement of what it stood for, hence inside
of it the name stands for a complement as well (`Formula.Turned.outside`).  The two sides of
`Formula.pushNeg_denote` are therefore read under different environments.  No induction over stages of
a fixpoint is needed: complements exchange the sets that a body maps into themselves and the sets that
the dual body maps over themselves (`Formula.sUnion_dual`, `Formula.sInter_dual`).
-/

namespace ModalCalls

namespace Formula

/-! ## Complements

Duality is a fact about arbitrary functions on sets.  Complementing the family of sets that a function maps
into themselves gives the family that its dual maps over themselves, and monotonicity does not come into it.
-/

section Complements

variable {α : Type}

/-- A set, or its complement if asked for. -/
def complIf (negate : Bool) (A : Set α) : Set α :=
  if negate then Aᶜ else A

@[simp] lemma complIf_false (A : Set α) : complIf false A = A := rfl

@[simp] lemma complIf_true (A : Set α) : complIf true A = Aᶜ := rfl

lemma complIf_complIf (m n : Bool) (A : Set α) : complIf m (complIf n A) = complIf (m != n) A := by
  cases m <;> cases n <;> simp

/-- The greatest set of the dual body is the complement of the least one. -/
lemma sUnion_dual (F : Set α → Set α) : ⋃₀ {A | A ⊆ (F Aᶜ)ᶜ} = (⋂₀ {A | F A ⊆ A})ᶜ := by
  rw [Set.compl_sInter]
  congr 1
  ext A
  simp only [Set.mem_image, Set.mem_ofPred_eq]
  constructor
  · exact fun hA => ⟨Aᶜ, Set.subset_compl_comm.1 hA, compl_compl A⟩
  · rintro ⟨B, hB, rfl⟩
    rw [compl_compl]
    exact Set.compl_subset_compl.2 hB

/-- The least set of the dual body is the complement of the greatest one. -/
lemma sInter_dual (F : Set α → Set α) : ⋂₀ {A | (F Aᶜ)ᶜ ⊆ A} = (⋃₀ {A | A ⊆ F A})ᶜ := by
  have h := sUnion_dual fun A => (F Aᶜ)ᶜ
  simp only [compl_compl] at h
  rw [h, compl_compl]

end Complements

/-! ## The meaning of a formula whose negations are pushed in

Inside a fixpoint that was turned, the name stands for a set of the dual, while the formula before the pass
has the complement in mind.  So the two sides are read under two environments, and the environment of the
formula is computed from the list of turned names.
-/

variable {T : TransitionSystem} {f : Formula} {x : String} {ρ : String → Set T.State}

/-- What names stand for outside of the fixpoints that were turned: a turned one stands for its
complement there. -/
def Turned.outside (σ : Turned) (ρ : String → Set T.State) : String → Set T.State := fun x =>
  complIf ((σ.lookup x).getD false) (ρ x)

/-- Only the innermost fixpoint of a name counts. -/
lemma Turned.outside_cons (σ : Turned) (n : Bool) (A : Set T.State) :
    Turned.outside ((x, n) :: σ) (Function.update ρ x A)
      = Function.update (σ.outside ρ) x (complIf n A) := by
  funext y
  by_cases hy : y = x
  · subst hy
    simp [Turned.outside]
  · simp [Turned.outside, List.lookup_cons, beq_false_of_ne hy, hy]

/-- A box and a diamond are dual where all steps are must steps. -/
lemma compl_box (hmust : T.AllMust) (action : Option String) (A : Set T.State) :
    {s | ∀ a ∈ T.arrows s, Concerns action a.label → a.target ∈ A}ᶜ
      = {s | ∃ a ∈ T.arrows s, Concerns action a.label ∧ a.modality = .must ∧ a.target ∈ Aᶜ} := by
  ext s
  simp only [Set.mem_compl_iff, Set.mem_ofPred_eq, not_forall]
  constructor
  · rintro ⟨a, ha, hspeaks, htarget⟩
    exact ⟨a, ha, hspeaks, hmust s a ha, htarget⟩
  · rintro ⟨a, ha, hspeaks, -, htarget⟩
    exact ⟨a, ha, hspeaks, htarget⟩

/-- **Pushing negations in keeps the meaning**, read where the turned names stand for complements. -/
lemma pushNeg_denote (hmust : T.AllMust) (hf : f.isBranching = false) :
    ∀ (n : Bool) (σ : Turned) (ρ : String → Set T.State),
      (pushNeg n σ f).denote T ρ = complIf n (f.denote T (σ.outside ρ)) := by
  induction f with
  | top | bot | atom p =>
      intro n σ ρ
      cases n <;> simp [pushNeg, negIf, denote]
  | ref x =>
      intro n σ ρ
      show (negIf (n != (σ.lookup x).getD false) (ref x)).denote T ρ = complIf n (σ.outside ρ x)
      rw [Turned.outside, complIf_complIf]
      cases n != (σ.lookup x).getD false <;> rfl
  | neg f ih =>
      intro n σ ρ
      simp only [pushNeg, denote, ih hf]
      cases n <;> simp
  | conj f g ihf ihg | disj f g ihf ihg =>
      intro n σ ρ
      simp only [isBranching, Bool.or_eq_false_iff] at hf
      cases n <;> simp [pushNeg, denote, ihf hf.1, ihg hf.2, Set.compl_inter, Set.compl_union]
  | box a f ih =>
      intro n σ ρ
      cases n with
      | false => simp [pushNeg, denote, ih hf]
      | true =>
          simp only [pushNeg, denote, ih hf, complIf_true, if_true]
          exact (compl_box hmust a _).symm
  | dia a f ih =>
      intro n σ ρ
      cases n with
      | false => simp [pushNeg, denote, ih hf]
      | true =>
          have hdual := compl_box hmust a (f.denote T (σ.outside ρ))ᶜ
          simp only [compl_compl] at hdual
          simp only [pushNeg, denote, ih hf, complIf_true, if_true]
          rw [← hdual, compl_compl]
  | mu x f ih =>
      intro n σ ρ
      cases n with
      | false => simp [pushNeg, denote, ih hf, Turned.outside_cons]
      | true =>
          simp only [pushNeg, denote, ih hf, Turned.outside_cons, complIf_true, if_true]
          exact sUnion_dual fun A => f.denote T (Function.update (σ.outside ρ) x A)
  | nu x f ih =>
      intro n σ ρ
      cases n with
      | false => simp [pushNeg, denote, ih hf, Turned.outside_cons]
      | true =>
          simp only [pushNeg, denote, ih hf, Turned.outside_cons, complIf_true, if_true]
          exact sInter_dual fun A => f.denote T (Function.update (σ.outside ρ) x A)
  | _ => cases hf

/-- **The normal form keeps the meaning.**  Where all steps are must steps, the normal form of a formula
denotes what its expansion denotes, and the normal form of its negation denotes the complement, under
every environment.  In both, negations stand on atoms and references only. -/
theorem normal_denote (hmust : T.AllMust) (f : Formula) (ρ : String → Set T.State) :
    f.normal.denote T ρ = f.expand.denote T ρ ∧
      (neg f).normal.denote T ρ = (f.expand.denote T ρ)ᶜ ∧
      f.normal.isNegationNormal = true ∧ (neg f).normal.isNegationNormal = true := by
  have hexpands : Expands f f.expand := expands_expandFrom (List.Subset.refl _) 0
  have hpush := pushNeg_denote hmust hexpands.isBranching_eq
  exact ⟨hpush false [] ρ, hpush true [] ρ, normal_isNegationNormal f, normal_isNegationNormal (neg f)⟩

/-- A negated fixpoint with a free name, whose own name is bound once more inside and stands under a
negation there. -/
def shadowing : Formula :=
  .neg (.mu "X" (.conj (.nu "X" (.neg (.dia none (.conj (.ref "X") (.ref "Y"))))) (.ag (.neg (.ref "X")))))

theorem normal_denote_shadowing : oneStep.AllMust ∧
    shadowing.normal.denote oneStep (fun _ => {true})
      = shadowing.expand.denote oneStep (fun _ => {true}) ∧
    (neg shadowing).normal.denote oneStep (fun _ => {true})
      = (shadowing.expand.denote oneStep (fun _ => {true}))ᶜ ∧
    shadowing.normal.isNegationNormal = true ∧ (neg shadowing).normal.isNegationNormal = true := by
  have hmust : oneStep.AllMust := by
    rintro s a ⟨-, rfl⟩
    rfl
  exact ⟨hmust, normal_denote hmust shadowing fun _ => {true}⟩

end Formula

end ModalCalls
