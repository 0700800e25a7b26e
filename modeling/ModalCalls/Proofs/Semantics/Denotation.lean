import Mathlib
import ModalCalls.Proofs.Equation.Numbered

/-!
# What formulas mean

A formula denotes a set of states of a transition system, once its free names stand for sets of states
(`Formula.denote`).  Steps have a label and a modality.  A box looks at all steps, a diamond at must
steps only.  A least fixpoint is the intersection of all sets that its body maps into themselves, a greatest
one the union of all sets that its body maps over themselves, and branching operators speak about
maximal paths.

For formulas that have a numbering, names are never under a negation.  Then bodies are monotone
(`Numbered.denote_mono`), so a fixpoint is what its body makes of it (`Numbered.denote_fixpoint`).
-/

namespace ModalCalls

/-! ## Transition systems

Nothing is assumed about the number of states or of steps.  Paths are sequences in time that may end, and a
path that ends does so only where there is no step.
-/

/-- A step to a state. -/
structure Arrow (State : Type) where
  label : String
  modality : Modality
  target : State

/-- **A transition system** with labels and modalities on its steps. -/
structure TransitionSystem where
  State : Type
  /-- Whether an atom holds in a state. -/
  holds : State → String → Bool
  /-- The steps from a state. -/
  arrows : State → Set (Arrow State)

namespace TransitionSystem

variable (T : TransitionSystem)

/-- **A maximal path** has a state at each time until it ends, and ends only where there is no step. -/
structure MaximalPath where
  /-- The state at a time, if the path has not ended by then. -/
  at? : Nat → Option T.State
  step : ∀ n s t, at? n = some s → at? (n + 1) = some t → ∃ a ∈ T.arrows s, a.target = t
  ends : ∀ n s, at? n = some s → at? (n + 1) = none → T.arrows s = ∅
  ended : ∀ n, at? n = none → at? (n + 1) = none

variable {T}

namespace MaximalPath

/-- At some time. -/
def Eventually (path : T.MaximalPath) (A : Set T.State) : Prop :=
  ∃ n s, path.at? n = some s ∧ s ∈ A

/-- At all times. -/
def Always (path : T.MaximalPath) (A : Set T.State) : Prop :=
  ∀ n s, path.at? n = some s → s ∈ A

/-- The first until the second, which has to come. -/
def Until (path : T.MaximalPath) (A B : Set T.State) : Prop :=
  ∃ n s, path.at? n = some s ∧ s ∈ B ∧ ∀ m < n, ∀ t, path.at? m = some t → t ∈ A

end MaximalPath

end TransitionSystem

/-! ## The denotation

Fixpoints are defined by the sets that their bodies map into or over themselves, which makes sense for any
body.  That they are fixpoints is a theorem, and it needs monotonicity.  A may step does not count for a
diamond, and for a box it counts like any other.
-/

namespace Formula

/-- **The states that satisfy a formula**, if names stand for the sets that `ρ` gives. -/
def denote (T : TransitionSystem) : Formula → (String → Set T.State) → Set T.State
  | top, _ => Set.univ
  | bot, _ => ∅
  | atom p, _ => {s | T.holds s p = true}
  | neg f, ρ => (f.denote T ρ)ᶜ
  | conj f g, ρ => f.denote T ρ ∩ g.denote T ρ
  | disj f g, ρ => f.denote T ρ ∪ g.denote T ρ
  | box action f, ρ =>
    {s | ∀ a ∈ T.arrows s, Concerns action a.label → a.target ∈ f.denote T ρ}
  | dia action f, ρ =>
    {s | ∃ a ∈ T.arrows s, Concerns action a.label ∧ a.modality = .must ∧ a.target ∈ f.denote T ρ}
  | mu x f, ρ => ⋂₀ {A | f.denote T (Function.update ρ x A) ⊆ A}
  | nu x f, ρ => ⋃₀ {A | A ⊆ f.denote T (Function.update ρ x A)}
  | ref x, ρ => ρ x
  | af f, ρ => {s | ∀ path : T.MaximalPath, path.at? 0 = some s → path.Eventually (f.denote T ρ)}
  | ag f, ρ => {s | ∀ path : T.MaximalPath, path.at? 0 = some s → path.Always (f.denote T ρ)}
  | au f g, ρ =>
    {s | ∀ path : T.MaximalPath, path.at? 0 = some s → path.Until (f.denote T ρ) (g.denote T ρ)}
  | aw f g, ρ =>
    {s | ∀ path : T.MaximalPath, path.at? 0 = some s →
      path.Until (f.denote T ρ) (g.denote T ρ) ∨ path.Always (f.denote T ρ)}
  | ef f, ρ => {s | ∃ path : T.MaximalPath, path.at? 0 = some s ∧ path.Eventually (f.denote T ρ)}
  | eg f, ρ => {s | ∃ path : T.MaximalPath, path.at? 0 = some s ∧ path.Always (f.denote T ρ)}
  | eu f g, ρ =>
    {s | ∃ path : T.MaximalPath, path.at? 0 = some s ∧ path.Until (f.denote T ρ) (g.denote T ρ)}
  | ew f g, ρ =>
    {s | ∃ path : T.MaximalPath, path.at? 0 = some s ∧
      (path.Until (f.denote T ρ) (g.denote T ρ) ∨ path.Always (f.denote T ρ))}

variable {T : TransitionSystem} {ρ ρ' : String → Set T.State} {isMax : Bool} {x : String}
  {f : Formula}

/-- Only what the free names stand for counts. -/
lemma denote_congr : ∀ {f : Formula} {ρ ρ' : String → Set T.State},
    (∀ x, f.isFree x = true → ρ x = ρ' x) → f.denote T ρ = f.denote T ρ' := by
  intro f
  -- The body of a fixpoint has its name free as well, which stands for the same set on both sides.
  have hbody : ∀ {x : String} {f : Formula} {ρ ρ' : String → Set T.State},
      (∀ y, (y != x && f.isFree y) = true → ρ y = ρ' y) → ∀ A y, f.isFree y = true →
        Function.update ρ x A y = Function.update ρ' x A y := by
    intro x f ρ ρ' h A y hy
    by_cases hyx : y = x
    · simp [hyx]
    · simpa [hyx] using h y (by simp [hy, hyx])
  induction f with
  | top | bot | atom p => exact fun _ => rfl
  | ref x => exact fun h => h x (by simp [isFree])
  | mu x f ih =>
      intro ρ ρ' h
      simp only [isFree, bne_comm (a := x)] at h
      simp only [denote, fun A => ih (hbody h A)]
  | nu x f ih =>
      intro ρ ρ' h
      simp only [isFree, bne_comm (a := x)] at h
      simp only [denote, fun A => ih (hbody h A)]
  | neg f ih | box a f ih | dia a f ih | af f ih | ag f ih | ef f ih | eg f ih =>
      intro ρ ρ' h
      have hf : f.denote T ρ = f.denote T ρ' := ih h
      simp only [denote, hf]
  | conj f g ihf ihg | disj f g ihf ihg | au f g ihf ihg | aw f g ihf ihg | eu f g ihf ihg
  | ew f g ihf ihg =>
      intro ρ ρ' h
      have hf : f.denote T ρ = f.denote T ρ' := ihf fun x hx => h x (by simp [isFree, hx])
      have hg : g.denote T ρ = g.denote T ρ' := ihg fun x hx => h x (by simp [isFree, hx])
      simp only [denote, hf, hg]

/-- A least fixpoint lies in each set that its body maps into itself. -/
lemma denote_mu_subset {A : Set T.State} (h : f.denote T (Function.update ρ x A) ⊆ A) :
    (mu x f).denote T ρ ⊆ A :=
  Set.sInter_subset_of_mem h

/-- A greatest fixpoint contains each set that its body maps over itself. -/
lemma subset_denote_nu {A : Set T.State} (h : A ⊆ f.denote T (Function.update ρ x A)) :
    A ⊆ (nu x f).denote T ρ :=
  Set.subset_sUnion_of_mem h

end Formula

/-! ## Monotonicity

In a numbered formula negations stand on atoms, so names occur positively only.  The induction is on the
numbering and not on the formula, because it is the numbering that says so.
-/

namespace Numbering

open Formula

variable {T : TransitionSystem} {f : Formula} {p : Place} {part : Part}

lemma update_mono {ρ ρ' : String → Set T.State} (h : ∀ y, ρ y ⊆ ρ' y) (x : String)
    {A B : Set T.State} (hAB : A ⊆ B) (y : String) :
    Function.update ρ x A y ⊆ Function.update ρ' x B y := by
  by_cases hy : y = x
  · subst hy
    simpa using hAB
  · simpa [hy] using h y

/-- **A numbered formula is monotone** in what its names stand for. -/
lemma Numbered.denote_mono (h : Numbered f p part) :
    ∀ {ρ ρ' : String → Set T.State}, (∀ x, ρ x ⊆ ρ' x) → f.denote T ρ ⊆ f.denote T ρ' := by
  induction h with
  | @ref x _ _ _ => exact fun hρ => hρ x
  | @fixpoint isMax x f _ _ _ _ ih =>
      intro ρ ρ' hρ
      have hbody : ∀ A, f.denote T (Function.update ρ x A) ⊆ f.denote T (Function.update ρ' x A) :=
        fun A => ih (update_mono hρ x subset_rfl)
      cases isMax with
      | false => exact Set.subset_sInter fun A hA => denote_mu_subset ((hbody A).trans hA)
      | true => exact Set.sUnion_subset fun A hA => subset_denote_nu (hA.trans (hbody A))
  | leaf hf =>
      intro ρ ρ' _
      cases hf <;> exact subset_rfl
  | unary hf _ ih =>
      intro ρ ρ' hρ
      cases hf with
      | neg a => exact subset_rfl
      | box a g => exact fun s hs arrow ha hspeaks => ih hρ (hs arrow ha hspeaks)
      | dia a g =>
          rintro s ⟨arrow, ha, hspeaks, hmust, htarget⟩
          exact ⟨arrow, ha, hspeaks, hmust, ih hρ htarget⟩
  | binary hf _ _ ihl ihr =>
      intro ρ ρ' hρ
      cases hf with
      | conj g h => exact Set.inter_subset_inter (ihl hρ) (ihr hρ)
      | disj g h => exact Set.union_subset_union (ihl hρ) (ihr hρ)

/-- **A fixpoint is what its body makes of it.** -/
lemma Numbered.denote_fixpoint (h : Numbered f p part) (isMax : Bool) (x : String)
    (ρ : String → Set T.State) :
    f.denote T (Function.update ρ x ((Formula.fixpoint isMax x f).denote T ρ))
      = (Formula.fixpoint isMax x f).denote T ρ := by
  let body : Set T.State →o Set T.State :=
    ⟨fun A => f.denote T (Function.update ρ x A),
      fun A B hAB => h.denote_mono (update_mono (fun _ => subset_rfl) x hAB)⟩
  cases isMax with
  | false => exact body.map_lfp
  | true => exact body.map_gfp

end Numbering

end ModalCalls
