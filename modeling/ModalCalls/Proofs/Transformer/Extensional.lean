import Mathlib
import ModalCalls.Equation.Numbering
import ModalCalls.Proofs.Transformer.History

/-!
# Equality of transformers

Transformers are compared by comparing handles.  A function has one handle, so transformers of a store are
equal exactly if evaluation cannot tell them apart on vectors of any length.  Over `n` variables one would
rather look at vectors of length `n`, and that is enough as long as no entry depends on an input beyond them
(`Transformer.Confined`).

* `Transformer.inherited_confined` — the step lemma: what is made from confined transformers is confined.
* `Transformer.made_extensional` — **equality is extensional**: always over vectors of any length, and over
  vectors of length `n` if all transformers that were read from serial forms are confined.
* `Transformer.read_not_extensional` — reading does not see to that.  A serial form may test a variable that
  stands for no input, and two transformers that differ there alone are unequal.
-/

namespace ModalCalls

namespace Transformer

open Store

variable {e : EquationSystem} {s : Store} {t u : Transformer} {n : Nat}

/-! ## Dependence on inputs

A diagram may test any variable, also one that stands for no input.  Transformers that are built from
equations never do: constants test nothing, an input is tested where it is read, and what a modality or an
operator reads is a variable of the equations.
-/

/-- No entry depends on inputs other than the first `n`. -/
def Confined (n : Nat) (m : Summary) : Prop :=
  ∀ v x y, v < n → (∀ w, w < n → x w = y w) → m v x = m v y

lemma Confined.compose {m k : Summary} (hm : Confined n m) (hk : Confined n k) :
    Confined n fun v x => m v fun w => k w x :=
  fun v _ _ hv hxy => hm v _ _ hv fun w hw => hk w _ _ hw hxy

/-- The operands of a modality are variables. -/
lemma confined_edgeSummary (he : e.WellFormed) (label : String) (modality : Modality) :
    Confined e.size (e.edgeSummary label modality) := by
  intro v x y hv hxy
  obtain ⟨op, hop⟩ := EquationSystem.operator?_of_lt hv
  have hoperand : ∀ w ∈ op.operands, x w = y w := fun w hw => hxy w (he.operands_lt v op hop w hw)
  simp only [EquationSystem.edgeSummary, hop]
  cases op with
  | box a c => simp only [hoperand c (by simp [Operator.operands])]
  | dia a c => simp only [hoperand c (by simp [Operator.operands])]
  | _ => rfl

/-- A pass over equations reads nothing but entries. -/
lemma Confined.pass {holds : String → Bool} {along : List Summary} {own : Summary} {vars : List Nat}
    (hvars : Readable e vars) (halong : ∀ m ∈ along, Confined e.size m) (hown : Confined e.size own) :
    Confined e.size (e.pass holds along vars own) := by
  refine EquationSystem.pass_induction (motive := fun _ m => Confined e.size m) own hown ?_
  intro before v after own' hv hown' w x y hw hxy
  rcases eq_or_ne w v with rfl | hne
  · obtain ⟨op, hop, hreads⟩ := hvars w (by simp [hv])
    simp only [EquationSystem.refresh, Function.update_self, EquationSystem.rhs, hop]
    rw [all_congr_of_mem fun m hm => halong m hm w x y hw hxy,
      any_congr_of_mem fun m hm => halong m hm w x y hw hxy]
    exact Operator.eval_congr fun z hz => hown' z x y (hreads z hz) hxy
  · simp only [EquationSystem.refresh, Function.update_of_ne hne]
    exact hown' w x y hw hxy

/-! ## What evaluation can tell apart

Evaluation fixes the inputs of a vector and takes those beyond it to be false.  A vector that is long enough
fixes every variable that some node of the store tests, so vectors of all lengths together tell apart what
differs.  Vectors of length `n` only tell apart what differs in the first `n` inputs.
-/

/-- The first `n` inputs. -/
def restrict (n : Nat) (inputs : Array Bool) : Array Bool :=
  Array.ofFn fun i : Fin n => inputs.getD i false

lemma getD_restrict (inputs : Array Bool) {w : Nat} (hw : w < n) :
    (restrict n inputs).getD w false = inputs.getD w false := by
  simp [restrict, hw]

/-- Whether two transformers evaluate to sets that compare equal. -/
def alike (s : Store) (t u : Transformer) (inputs : Array Bool) : Bool :=
  match t.evaluate s inputs, u.evaluate s inputs with
  | .ok a, .ok b => a == b
  | _, _ => false

lemma evaluate_eq_iff (hs : s.Shaped) (ht : t.Lives s n) (hu : u.Lives s n) {a b : Array Bool} :
    t.evaluate s a = u.evaluate s b
      ↔ ∀ v, v < n → t.summary s v (a.getD · false) = u.summary s v (b.getD · false) := by
  constructor
  · intro h v hv
    obtain ⟨vars, hvars, hcontains⟩ := evaluate_ok hs ht a
    obtain ⟨vars', hvars', hcontains'⟩ := evaluate_ok hs hu b
    obtain rfl : vars = vars' := Except.ok.inj (hvars.symm.trans (h.trans hvars'))
    simpa [hv] using (hcontains v).symm.trans (hcontains' v)
  · intro h
    rw [evaluate_eq hs ht, evaluate_eq hs hu,
      List.map_congr_left fun v hv => h v (List.mem_range.1 hv)]

/-- Sets that come from evaluation compare equal only if they are the same. -/
lemma alike_iff (hs : s.Shaped) (ht : t.Lives s n) (hu : u.Lives s n) {inputs : Array Bool} :
    alike s t u inputs = true ↔ t.evaluate s inputs = u.evaluate s inputs := by
  obtain ⟨vars, hvars, hcontains⟩ := evaluate_ok hs ht inputs
  obtain ⟨vars', hvars', hcontains'⟩ := evaluate_ok hs hu inputs
  simp only [alike, hvars, hvars', Except.ok.injEq]
  constructor
  · intro hbeq
    refine Except.ok.inj (hvars.symm.trans (Eq.trans ?_ hvars'))
    refine (evaluate_eq_iff hs ht hu).2 fun v hv => ?_
    simpa [hcontains, hcontains', hv] using VarSet.contains_eq_of_beq hbeq v
  · rintro rfl
    exact vars.beq_refl

lemma getD_inputsUpTo (m : Nat) (x : Nat → Bool) (w : Nat) :
    (inputsUpTo m (shifted x)).getD w false = (decide (w < m) && x w) := by
  by_cases hw : w < m <;> simp [inputsUpTo, shifted, hw]

/-- Vectors of some length can stand for any values of all inputs. -/
lemma exists_length_like (hs : s.Shaped) (n : Nat) :
    ∃ m, n ≤ m ∧ ∀ (x : Nat → Bool) (t : Transformer), t.Lives s n → ∀ v, v < n →
      t.summary s v ((inputsUpTo m (shifted x)).getD · false) = t.summary s v x := by
  obtain ⟨bound, hbound⟩ := s.exists_var_le
  refine ⟨max bound n, le_max_right _ _, fun x t ht v hv => ?_⟩
  obtain ⟨f, hf, hvalid⟩ := ht.getElem? hv
  simp only [summary, meaningAt, hf]
  exact meaning_eq_of_tested hs hvalid fun i m hi hm =>
    inputValue_inputsUpTo (hs.fits i m hi hm).var_pos ((hbound i m hi hm).trans (le_max_left _ _))

/-- A vector of inputs can stand for any values of all inputs. -/
lemma exists_inputs_like (hs : s.Shaped) (n : Nat) (x : Nat → Bool) :
    ∃ inputs : Array Bool, (∀ w, w < n → inputs.getD w false = x w) ∧
      ∀ t : Transformer, t.Lives s n → ∀ v, v < n →
        t.summary s v (inputs.getD · false) = t.summary s v x := by
  obtain ⟨m, hle, hlike⟩ := exists_length_like hs n
  refine ⟨inputsUpTo m (shifted x), fun w hw => ?_, hlike x⟩
  rw [getD_inputsUpTo, decide_eq_true (Nat.lt_of_lt_of_le hw hle), Bool.true_and]

/-- **Transformers that evaluate alike on vectors of any length are equal.** -/
theorem eq_iff_alike (hs : s.Shaped) (ht : t.Lives s n) (hu : u.Lives s n) :
    t = u ↔ ∀ inputs, alike s t u inputs = true := by
  constructor
  · rintro rfl inputs
    exact (alike_iff hs ht ht).2 rfl
  · refine fun h => eq_of_summary_eq hs ht hu fun v hv => funext fun x => ?_
    obtain ⟨inputs, -, hlike⟩ := exists_inputs_like hs n x
    rw [← hlike t ht v hv, ← hlike u hu v hv]
    exact (evaluate_eq_iff hs ht hu).1 ((alike_iff hs ht hu).1 (h inputs)) v hv

/-- Confined transformers are those that evaluate alike on a vector and on its first inputs. -/
theorem confined_iff (hs : s.Shaped) (ht : t.Lives s n) :
    Confined n (t.summary s) ↔
      ∀ inputs, t.evaluate s (restrict n inputs) = t.evaluate s inputs := by
  constructor
  · refine fun h inputs => (evaluate_eq_iff hs ht ht).2 fun v hv => ?_
    exact h v _ _ hv fun w hw => getD_restrict inputs hw
  · intro h v x y hv hxy
    have hrestrict : ∀ inputs : Array Bool, t.summary s v ((restrict n inputs).getD · false)
        = t.summary s v (inputs.getD · false) := fun inputs =>
      (evaluate_eq_iff hs ht ht).1 (h inputs) v hv
    obtain ⟨a, ha, hlike⟩ := exists_inputs_like hs n x
    obtain ⟨b, hb, hlike'⟩ := exists_inputs_like hs n y
    have hab : restrict n a = restrict n b := by
      simp only [restrict]
      congr 1
      funext i
      rw [ha i i.isLt, hb i i.isLt, hxy i i.isLt]
    rw [← hlike t ht v hv, ← hlike' t ht v hv, ← hrestrict a, ← hrestrict b, hab]

/-- **Confined transformers that evaluate alike on vectors of length `n` are equal.** -/
theorem eq_iff_alike_of_confined (hs : s.Shaped) (ht : t.Lives s n) (hu : u.Lives s n)
    (htc : Confined n (t.summary s)) (huc : Confined n (u.summary s)) :
    t = u ↔ ∀ inputs, inputs.size = n → alike s t u inputs = true := by
  rw [eq_iff_alike hs ht hu]
  refine ⟨fun h inputs _ => h inputs, fun h inputs => (alike_iff hs ht hu).2 ?_⟩
  rw [← (confined_iff hs ht).1 htc, ← (confined_iff hs hu).1 huc]
  exact (alike_iff hs ht hu).1 (h (restrict n inputs) (by simp [restrict]))

/-! ## Everything that was made

Confinement is a property of summaries, and the operations keep it.  Hence it holds of everything in a history
whose readings have it (`Recorded.inherits`).
-/

/-- **What is made from confined transformers is confined.** -/
lemma inherited_confined (he : e.WellFormed) : Inherited e (Confined e.size) := by
  intro s c hblock hargs
  cases c with
  | start =>
      intro v x y hv _
      simp only [Call.summary, if_pos hv]
  | identity => exact fun v x y hv hxy => hxy v hv
  | edge label modality => exact confined_edgeSummary he label modality
  | compose t u => exact (hargs t (by simp [Call.arguments])).compose (hargs u (by simp [Call.arguments]))
  | update t props along block =>
      refine Confined.pass (Call.readable_vars he hblock) ?_ (hargs t (by simp [Call.arguments]))
      intro m hm
      obtain ⟨u, hu, rfl⟩ := List.mem_map.1 hm
      exact hargs u (by simp [Call.arguments, hu])

variable {log : List (Call × Transformer)} {rs : List Transformer}

/-- **Equality of transformers is extensional.**  All transformers that were made or read in a history over the
equations of a formula evaluate to a set on every vector of inputs.  Two of them are equal exactly if they
evaluate alike on vectors of any length.  If the store has not overflowed and everything that was read evaluates
alike on a vector and on its first inputs, as many as there are variables, then vectors of this length are
enough. -/
theorem made_extensional {f : Formula} (hf : EquationSystem.ofFormula f = .ok e)
    (h : History e s log rs) :
    (∀ t ∈ given log rs, ∀ inputs, ∃ vars, t.evaluate s inputs = .ok vars) ∧
    (∀ t ∈ given log rs, ∀ u ∈ given log rs, t = u ↔ ∀ inputs, alike s t u inputs = true) ∧
    (s.overflowed = false →
      (∀ r ∈ rs, ∀ inputs, r.evaluate s (restrict e.size inputs) = r.evaluate s inputs) →
      ∀ t ∈ given log rs, ∀ u ∈ given log rs,
        t = u ↔ ∀ inputs, inputs.size = e.size → alike s t u inputs = true) := by
  have he := EquationSystem.wellFormed_of_formula hf
  have hkept := h.kept he
  have hs := hkept.sound.toShaped
  refine ⟨fun t ht inputs => ⟨_, evaluate_eq hs (hkept.lives t ht) inputs⟩,
    fun t ht u hu => eq_iff_alike hs (hkept.lives t ht) (hkept.lives u hu), fun ho hrs t ht u hu => ?_⟩
  have hconfined := hkept.inherits _ (inherited_confined he) ho fun r hr =>
    (confined_iff hs (hkept.lives r (List.mem_append_right _ hr))).2 (hrs r hr)
  exact eq_iff_alike_of_confined hs (hkept.lives t ht) (hkept.lives u hu) (hconfined t ht)
    (hconfined u hu)

/-- The equations of "some step by `a` leads to `p`". -/
def stepEquations : EquationSystem where
  equations := #[⟨0, .dia (some "a") 1, "<a>\"p\""⟩, ⟨1, .atom "p", "\"p\""⟩]
  blocks := #[⟨true, [1, 0]⟩]
  fixpoints := []

/-- A transformer that was read, the identity, the composition of the two, and the edge that the serial form
describes.  All but the identity are equal. -/
theorem made_extensional_edge :
    EquationSystem.ofFormula (.dia (some "a") (.atom "p")) = .ok stepEquations ∧
    ∃ s log edge identity, History stepEquations s log [edge] ∧
      given log [edge] = [edge, edge, identity, edge] ∧ s.overflowed = false ∧ edge ≠ identity ∧
      (∀ inputs, edge.evaluate s (restrict stepEquations.size inputs) = edge.evaluate s inputs) ∧
      ∀ t ∈ given log [edge], ∀ u ∈ given log [edge],
        t = u ↔ ∀ inputs, inputs.size = stepEquations.size → alike s t u inputs = true := by
  let edge : Transformer := ⟨#[.positive 2, .zero]⟩
  let identity : Transformer := ⟨#[.positive 3, .positive 2]⟩
  have hf : EquationSystem.ofFormula (.dia (some "a") (.atom "p")) = .ok stepEquations := rfl
  have he := EquationSystem.wellFormed_of_formula hf
  have h₁ : History stepEquations _ [] [edge] :=
    @History.read _ _ _ _ _ ["2,-1,1|2", "|-1"] (.ok edge) (@History.create _ 4 _ rfl)
      (answer_eq_ok_iff.1 (by decide +kernel))
  have h₂ := History.call .identity (t := identity) h₁ (by simp [Call.arguments]) trivial
    (answer_eq_ok_iff.1 (by decide +kernel))
  have h₃ := History.call (.compose edge identity) (t := edge) h₂ (by simp [Call.arguments, given]) trivial
    (answer_eq_ok_iff.1 (by decide +kernel))
  have h₄ := History.call (.edge "a" .must) (t := edge) h₃ (by simp [Call.arguments]) trivial
    (answer_eq_ok_iff.1 (by decide +kernel))
  -- an edge is confined, and what was read is the edge
  have hedge : ∀ {s log}, History stepEquations s log [edge] → (.edge "a" .must, edge) ∈ log →
      s.overflowed = false →
      ∀ inputs, edge.evaluate s (restrict stepEquations.size inputs) = edge.evaluate s inputs := by
    intro s log h hmem hroom
    have hdone := (h.kept he).done _ _ hmem
    refine (confined_iff (h.kept he).sound.toShaped hdone.lives).1 ?_
    rw [hdone.summary hroom]
    exact inherited_confined he s (.edge "a" .must) trivial (by simp [Call.arguments])
  have hread := hedge h₄ (by simp) (by decide +kernel)
  exact ⟨hf, _, _, edge, identity, h₄, rfl, by decide +kernel, by decide, hread,
    (made_extensional hf h₄).2.2 (by decide +kernel) (by simpa using hread)⟩

/-- The equation of an atom. -/
def atomEquations : EquationSystem where
  equations := #[⟨0, .atom "p", "\"p\""⟩]
  blocks := #[⟨true, [0]⟩]
  fixpoints := []

/-- **Reading lets equality be finer than evaluation.**  For one variable, a serial form may test an input
that no vector of length one has.  It evaluates to nothing on all of them, as the constant does, and is not
equal to it. -/
theorem read_not_extensional :
    EquationSystem.ofFormula (.atom "p") = .ok atomEquations ∧
    ∃ s t u, History atomEquations s [] [u, t] ∧ s.overflowed = false ∧ t ≠ u ∧
      ∀ inputs, inputs.size = atomEquations.size → alike s t u inputs = true := by
  have h₁ : History atomEquations _ [] [⟨#[.positive 2]⟩] :=
    @History.read _ _ _ _ _ ["2,-1,1|2"] (.ok ⟨#[.positive 2]⟩) (@History.create _ 4 _ rfl)
      (answer_eq_ok_iff.1 (by decide +kernel))
  have h₂ : History atomEquations _ [] [⟨#[.zero]⟩, ⟨#[.positive 2]⟩] :=
    @History.read _ _ _ _ _ ["|-1"] (.ok ⟨#[.zero]⟩) h₁ (answer_eq_ok_iff.1 (by decide +kernel))
  refine ⟨rfl, _, ⟨#[.positive 2]⟩, ⟨#[.zero]⟩, h₂, by decide +kernel, by decide, fun inputs hsize => ?_⟩
  obtain ⟨b, rfl⟩ : ∃ b, inputs = #[b] := Array.size_eq_one_iff.1 hsize
  revert b
  decide +kernel

end Transformer

end ModalCalls
