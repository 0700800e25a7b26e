import Mathlib
import ModalCalls.Proofs.Transformer.Extensional

/-!
# Laws of composition

A composition evaluates like one transformer after the other.  Functions have only one handle, so compositions
that evaluate alike are equal, whatever was computed before them and in between.

* `Transformer.evaluate_of_compose` — evaluation of a composition.
* `Transformer.compose_laws` — **composition is associative and has the identity of final states as its
  neutral element**, as equality of handles.
-/

namespace ModalCalls

namespace Transformer

open Store

variable {e : EquationSystem} {s : Store} {t u r : Transformer} {n : Nat}

/-! ## Evaluation

An evaluation ends with a set of variables.  To go on from there the set is turned into a vector again, with
a place for each variable.  Inputs beyond the variables are lost by this, so the vectors at the beginning
have to have the right size.
-/

/-- What `u` yields, as a vector of inputs for another transformer. -/
lemma getD_toBools_evaluate (hs : s.Shaped) (hu : u.Lives s n) {inputs : Array Bool} {held : VarSet}
    (hsize : inputs.size = n) (hheld : u.evaluate s inputs = .ok held) (w : Nat) :
    (held.toBools n).getD w false = u.summary s w (inputs.getD · false) := by
  obtain ⟨vars, hvars, hcontains⟩ := evaluate_ok hs hu inputs
  obtain rfl : held = vars := Except.ok.inj (hheld.symm.trans hvars)
  by_cases hw : w < n
  · rw [VarSet.getD_toBools _ _ hw, hcontains, decide_eq_true hw, Bool.true_and]
  · -- the vector has no such input, and `u` has no such entry
    rw [hu.summary_of_le (Nat.le_of_not_lt hw)]
    simp [VarSet.toBools, hw, hsize]

/-- **A composition evaluates like `t` on what `u` yields.** -/
lemma evaluate_of_compose (hs : s.Shaped) (ht : t.Lives s n) (hu : u.Lives s n) (hr : r.Lives s n)
    (hsummary : r.summary s = fun v x => t.summary s v fun w => u.summary s w x) {inputs : Array Bool}
    (hsize : inputs.size = n) : ∃ held vars, u.evaluate s inputs = .ok held ∧
      r.evaluate s inputs = .ok vars ∧ t.evaluate s (held.toBools n) = .ok vars := by
  obtain ⟨held, hheld, -⟩ := evaluate_ok hs hu inputs
  obtain ⟨vars, hvars, -⟩ := evaluate_ok hs hr inputs
  refine ⟨held, vars, hheld, hvars, ?_⟩
  rw [← hvars]
  refine (evaluate_eq_iff hs ht hr).2 fun v _ => ?_
  rw [hsummary, funext (getD_toBools_evaluate hs hu hsize hheld)]

variable {log : List (Call × Transformer)} {rs : List Transformer}

/-! ## Laws

Composition of functions is associative and has the identity for its neutral element.  The laws for
transformers are the same, read through their summaries: two transformers of a store with the same summary
have the same handles.
-/

/-- What a composition of a history means. -/
lemma Recorded.summary_compose (h : Recorded e s log rs) (ho : s.overflowed = false)
    (hr : (.compose t u, r) ∈ log) : r.summary s = fun v x => t.summary s v fun w => u.summary s w x :=
  (h.done _ _ hr).summary ho

/-- What was made is equal to what has the same summary. -/
lemma Recorded.eq_of_summary_eq (h : Recorded e s log rs) {c : Call} (hr : (c, r) ∈ log)
    (ht : t.Lives s e.size) (hsummary : r.summary s = t.summary s) : r = t :=
  Transformer.eq_of_summary_eq h.sound.toShaped (h.done _ _ hr).lives ht fun v _ => congrFun hsummary v

/-- **The laws of composition.**  In any history over the equations of a formula, the identity of final states
can be made, and any two transformers can be composed.  If the store has not overflowed, then a composition
evaluates like its second transformer and then its first, on all vectors with an input for each variable;
compositions of three transformers are equal, whichever two are composed first; and composition with the
identity, on either side, makes no difference. -/
theorem compose_laws {f : Formula} (hf : EquationSystem.ofFormula f = .ok e)
    (h : History e s log rs) :
    (∃ i s', identity e s = .ok i s') ∧
    (∀ t ∈ given log rs, ∀ u ∈ given log rs, ∃ r s', t.compose u s = .ok r s') ∧
    (s.overflowed = false →
      (∀ t u r, (.compose t u, r) ∈ log → ∀ inputs, inputs.size = e.size →
        ∃ held vars, u.evaluate s inputs = .ok held ∧ r.evaluate s inputs = .ok vars ∧
          t.evaluate s (held.toBools e.size) = .ok vars) ∧
      (∀ t u w tu uw r r', (.compose t u, tu) ∈ log → (.compose tu w, r) ∈ log →
        (.compose u w, uw) ∈ log → (.compose t uw, r') ∈ log → r = r') ∧
      ∀ i t r, (.identity, i) ∈ log → (.compose i t, r) ∈ log ∨ (.compose t i, r) ∈ log → r = t) := by
  have he := EquationSystem.wellFormed_of_formula hf
  have hkept := h.kept he
  refine ⟨hkept.runs (c := .identity) he (by simp [Call.arguments]) trivial, fun t ht u hu =>
    hkept.runs (c := .compose t u) he (by simp [Call.arguments, ht, hu]) trivial, fun ho => ⟨?_, ?_, ?_⟩⟩
  · intro t u r hr inputs hsize
    obtain ⟨-, hargs, hlives, -, -⟩ := hkept.done _ _ hr
    exact evaluate_of_compose hkept.sound.toShaped (hargs t (by simp [Call.arguments]))
      (hargs u (by simp [Call.arguments])) hlives (hkept.summary_compose ho hr) hsize
  · intro t u w tu uw r r' htu hr huw hr'
    refine hkept.eq_of_summary_eq hr (hkept.done _ _ hr').lives ?_
    rw [hkept.summary_compose ho hr, hkept.summary_compose ho htu, hkept.summary_compose ho hr',
      hkept.summary_compose ho huw]
  · intro i t r hi hr
    have hid : i.summary s = fun v x => x v := (hkept.done _ _ hi).summary ho
    rcases hr with hr | hr
    all_goals
      have ht : t.Lives s e.size := (hkept.done _ _ hr).arguments t (by simp [Call.arguments])
      refine hkept.eq_of_summary_eq hr ht ?_
      rw [hkept.summary_compose ho hr, hid]

/-- The equations of "some two steps by `a` lead to `p`". -/
def twoStepEquations : EquationSystem where
  equations := #[⟨0, .dia (some "a") 1, "<a><a>\"p\""⟩, ⟨1, .dia (some "a") 2, "<a>\"p\""⟩,
    ⟨2, .atom "p", "\"p\""⟩]
  blocks := #[⟨true, [2, 1, 0]⟩]
  fixpoints := []

/-- The summaries of one, two and three steps.  After three steps nothing is left to ask for. -/
theorem compose_laws_steps :
    EquationSystem.ofFormula (.dia (some "a") (.dia (some "a") (.atom "p"))) = .ok twoStepEquations ∧
    ∃ s log one two, History twoStepEquations s log [] ∧ s.overflowed = false ∧ one ≠ two ∧
      (.compose one one, two) ∈ log ∧
      (∀ inputs, inputs.size = twoStepEquations.size → ∃ held vars, one.evaluate s inputs = .ok held ∧
        two.evaluate s inputs = .ok vars ∧ one.evaluate s (held.toBools twoStepEquations.size) = .ok vars) ∧
      (∃ r r', (.compose two one, r) ∈ log ∧ (.compose one two, r') ∈ log ∧ r = r') ∧
      ∃ i r, (.identity, i) ∈ log ∧ (.compose one i, r) ∈ log ∧ r = one := by
  let one : Transformer := ⟨#[.positive 2, .positive 3, .zero]⟩
  let two : Transformer := ⟨#[.positive 3, .zero, .zero]⟩
  let nothing : Transformer := ⟨#[.zero, .zero, .zero]⟩
  let identity : Transformer := ⟨#[.positive 4, .positive 2, .positive 3]⟩
  have hf : EquationSystem.ofFormula (.dia (some "a") (.dia (some "a") (.atom "p")))
      = .ok twoStepEquations := rfl
  have h₁ : History twoStepEquations _ [(.edge "a" .must, one)] [] :=
    .call (.edge "a" .must) (@History.create _ 4 _ rfl) (by simp [Call.arguments]) trivial
      (answer_eq_ok_iff.1 (by decide +kernel))
  have h₂ := History.call (.identity) (t := identity) h₁ (by simp [Call.arguments]) trivial
    (answer_eq_ok_iff.1 (by decide +kernel))
  have h₃ := History.call (.compose one one) (t := two) h₂ (by decide) trivial
    (answer_eq_ok_iff.1 (by decide +kernel))
  have h₄ := History.call (.compose two one) (t := nothing) h₃ (by decide) trivial
    (answer_eq_ok_iff.1 (by decide +kernel))
  have h₅ := History.call (.compose one two) (t := nothing) h₄ (by decide) trivial
    (answer_eq_ok_iff.1 (by decide +kernel))
  have h₆ := History.call (.compose one identity) (t := one) h₅ (by decide) trivial
    (answer_eq_ok_iff.1 (by decide +kernel))
  obtain ⟨heval, hassoc, hid⟩ := (compose_laws hf h₆).2.2 (by decide +kernel)
  refine ⟨hf, _, _, one, two, h₆, by decide +kernel, by decide, by simp, heval one one two (by simp),
    ⟨nothing, nothing, by simp, by simp, ?_⟩, identity, one, by simp, by simp, ?_⟩
  · exact hassoc one one one two two nothing nothing (by simp) (by simp) (by simp) (by simp)
  · exact hid identity one one (by simp) (Or.inr (by simp))

end Transformer

end ModalCalls
