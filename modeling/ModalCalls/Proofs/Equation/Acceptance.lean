import Mathlib
import ModalCalls.Proofs.Equation.Transcription
import ModalCalls.Proofs.Semantics.Expansion

/-!
# The formulas that have equations

Numbering works on the normal form and rejects what it meets there.  What a formula must be like to be
accepted can be said without it, of the formula before negations are pushed inwards
(`Formula.Meaningful`): every reference has a fixpoint of its name around it, with an even number of
negations between the two, and no fixpoint is put on a reference alone.

**What goes along with the way down.**  Pushing negations inwards keeps two things, the polarity of the
place and the names whose fixpoints were turned into their duals.  Both together are the parity of the
negations between a place and the fixpoint of a name (`Numbering.Aligned`).  So a reference keeps a
negation exactly if that number is odd.

**What comes out of it.**  `Numbering.Judged` puts both outcomes into one statement, so that one induction
proves them: numbering ends well only if nothing is wrong below, and otherwise it names something that
is.  Exactly the meaningful formulas are accepted (`EquationSystem.ofFormula_exact`).
-/

namespace ModalCalls

namespace Formula

/-! ## Meaningful formulas

The condition is said of places in the formula: what stands at a path, which fixpoint binds a name there,
and how many negations lie between.  An error is given a meaning of its own, as something wrong at some
place, so that the theorem can say of a rejected formula that the error is right and not only that there is
one.
-/

/-- Whether a formula is a reference under any number of negations. -/
def isRefUnderNegs : Formula → Bool
  | ref _ => true
  | neg f => f.isRefUnderNegs
  | _ => false

/-- **A formula that is a system of monotone equations.** -/
structure Meaningful (f : Formula) : Prop where
  /-- Every reference has a fixpoint of its name around it. -/
  bound : ∀ π x, f.at? π = some (ref x) → (f.binder? x π).isSome = true
  /-- There is an even number of negations between the two. -/
  monotone : ∀ π x, f.at? π = some (ref x) → Even (f.negationsOver x π)
  /-- No fixpoint is put on a reference alone. -/
  proper : ∀ π k x g, f.at? π = some (fixpoint k x g) → g.isRefUnderNegs = false

/-- What an error says of a place in a formula. -/
def Violates (f : Formula) (π : Path) : FormulaError → Prop
  | .unboundVariable x => f.at? π = some (ref x) ∧ f.binder? x π = none
  | .negativeVariable x =>
    f.at? π = some (ref x) ∧ (f.binder? x π).isSome = true ∧ ¬ Even (f.negationsOver x π)
  | .bareFixpoint x => ∃ k g, f.at? π = some (fixpoint k x g) ∧ g.isRefUnderNegs = true
  | .branchingOperator _ => False

variable {f g : Formula} {π : Path} {err : FormulaError}

/-- A formula is meaningful if there is nothing to be said against any place in it. -/
lemma meaningful_iff : f.Meaningful ↔ ∀ π err, ¬ f.Violates π err := by
  constructor
  · rintro hf π (x | x | x | label) herr
    · have hbound := hf.bound π x herr.1
      simp [herr.2] at hbound
    · obtain ⟨k, g, hg, hbare⟩ := herr
      exact Bool.false_ne_true ((hf.proper π k x g hg).symm.trans hbare)
    · exact herr.2.2 (hf.monotone π x herr.1)
    · exact herr
  · intro hf
    have hbound : ∀ π x, f.at? π = some (ref x) → (f.binder? x π).isSome = true := by
      intro π x hx
      by_contra hnone
      exact hf π (.unboundVariable x) ⟨hx, by simpa using hnone⟩
    refine ⟨hbound, fun π x hx => ?_, fun π k x g hg => ?_⟩
    · by_contra hodd
      exact hf π (.negativeVariable x) ⟨hx, hbound π x hx, hodd⟩
    · by_contra hbare
      exact hf π (.bareFixpoint x) ⟨k, g, hg, by simpa using hbare⟩

lemma not_violates_of_isOperator (hg : f.at? π = some g) (hop : g.isOperator = true) :
    ¬ f.Violates π err := by
  cases err with
  | unboundVariable x | negativeVariable x =>
      rintro ⟨hx, -⟩
      rw [hg] at hx
      cases hx
      cases hop
  | bareFixpoint x =>
      rintro ⟨k, h, hh, -⟩
      rw [hg] at hh
      cases hh
      cases k <;> cases hop
  | branchingOperator label => exact id

/-- What is wrong has a place in the formula. -/
lemma Violates.at?_isSome (h : f.Violates π err) : (f.at? π).isSome = true := by
  cases err with
  | unboundVariable x | negativeVariable x => simp [h.1]
  | bareFixpoint x =>
      obtain ⟨k, g, hg, -⟩ := h
      simp [hg]
  | branchingOperator label => exact h.elim

/-- Nothing is wrong from a place on downwards. -/
def Sound (f : Formula) (π : Path) : Prop :=
  ∀ ρ err, ¬ f.Violates (π ++ ρ) err

/-- A place and the places below its operands are all there is. -/
lemma sound_of_children (hg : f.at? π = some g) (hself : ∀ err, ¬ f.Violates π err)
    (hbelow : ∀ i h, g.children[i]? = some h → f.Sound (π ++ [i])) : f.Sound π := by
  intro ρ err hρ
  cases ρ with
  | nil => exact hself err (by simpa using hρ)
  | cons i ρ =>
      have hsome := hρ.at?_isSome
      rw [at?_append, hg, Option.bind_some, at?_cons] at hsome
      cases hi : g.children[i]? with
      | none => simp [hi] at hsome
      | some h => exact hbelow i h hi ρ err (by simpa using hρ)

lemma sound_of_one {h : Formula} (hg : f.at? π = some g) (hself : ∀ err, ¬ f.Violates π err)
    (hchildren : g.children = [h]) (hbelow : f.Sound (π ++ [0])) : f.Sound π := by
  refine sound_of_children hg hself fun i h' hi => ?_
  rw [hchildren] at hi
  match i, hi with
  | 0, _ => exact hbelow

lemma sound_of_two {h h' : Formula} (hg : f.at? π = some g) (hself : ∀ err, ¬ f.Violates π err)
    (hchildren : g.children = [h, h']) (hleft : f.Sound (π ++ [0])) (hright : f.Sound (π ++ [1])) :
    f.Sound π := by
  refine sound_of_children hg hself fun i h'' hi => ?_
  rw [hchildren] at hi
  match i, hi with
  | 0, _ => exact hleft
  | 1, _ => exact hright

/-- In the normal form a reference under negations is a reference under at most one. -/
lemma pushNeg_of_isRefUnderNegs {f : Formula} (hf : f.isRefUnderNegs = true) :
    ∀ (n : Bool) (σ : Turned), ∃ b x, pushNeg n σ f = negIf b (ref x) := by
  induction f with
  | ref x => exact fun n σ => ⟨_, x, rfl⟩
  | neg f ih => exact fun n σ => ih hf (!n) σ
  | _ => cases hf

lemma isRefUnderNegs_of_pushNeg {f : Formula} :
    ∀ (n : Bool) (σ : Turned), (pushNeg n σ f).isRef = true → f.isRefUnderNegs = true := by
  induction f with
  | ref x => exact fun _ _ _ => rfl
  | neg f ih => exact fun n σ => ih (!n) σ
  | _ =>
      intro n σ h
      cases n <;> cases h

lemma pushNeg_fixpoint (n : Bool) (σ : Turned) (k : Bool) (x : String) (f : Formula) :
    pushNeg n σ (fixpoint k x f) = fixpoint (k != n) x (pushNeg n ((x, n) :: σ) f) := by
  cases n <;> cases k <;> rfl

end Formula

namespace Numbering

open Formula

variable {H f g : Formula} {π : Path} {n : Bool} {σ : Turned} {p : Place} {j : Journal}

/-! ## Polarity on the way down

Two walks go down the formula together, one through the original and one through its normal form.  The first
counts negations, the second keeps a polarity and a list of turned names.  What holds between them at a
place is handed to every operand, and the interesting cases are the negation, which flips the polarity, and
the fixpoint, from which the count of its name begins anew.
-/

/-- **A place in a formula and where numbering is** in its normal form: the same names are in scope, and
polarity and turned fixpoints tell the parity of negations. -/
structure Aligned (H : Formula) (π : Path) (n : Bool) (σ : Turned) (p : Place) : Prop where
  bound : ∀ x, (p.scope.lookup x).isSome = (H.binder? x π).isSome
  parity : ∀ x, (H.binder? x π).isSome = true →
    ((n != (σ.lookup x).getD false) = false ↔ Even (H.negationsOver x π))

namespace Aligned

lemma start (H f : Formula) : Aligned H [] false [] (.start f) where
  bound := fun x => by simp [Place.start, binder?]
  parity := fun x hx => by simp [binder?] at hx

lemma operand (ha : Aligned H π n σ p) (hg : H.at? π = some g) (hop : g.isOperator = true)
    (hneg : g.isNeg = false) (i : Nat) (p' : Place) (hscope : p'.scope = p.scope) :
    Aligned H (π ++ [i]) n σ p' := by
  refine ⟨fun x => ?_, fun x => ?_⟩
  · rw [hscope, binder?_snoc hg i (binds_of_isOperator hop)]
    exact ha.bound x
  · rw [binder?_snoc hg i (binds_of_isOperator hop),
      negationsOver_snoc hg i (binds_of_isOperator hop), hneg]
    exact ha.parity x

/-- A negation turns the polarity and adds to all numbers of negations. -/
lemma neg (ha : Aligned H π n σ p) (hg : H.at? π = some (.neg f)) :
    Aligned H (π ++ [0]) (!n) σ p := by
  refine ⟨fun x => ?_, fun x hx => ?_⟩
  · rw [binder?_snoc hg 0 rfl]
    exact ha.bound x
  · rw [binder?_snoc hg 0 rfl] at hx
    rw [negationsOver_snoc hg 0 rfl]
    have hparity := ha.parity x hx
    simp only [isNeg, if_true, Nat.even_add_one, ← hparity]
    cases n <;> simp

/-- From its own fixpoint on a name starts again, with no negation and the polarity of the place. -/
lemma enter {k k' : Bool} {x : String} (ha : Aligned H π n σ p)
    (hg : H.at? π = some (fixpoint k x f)) :
    Aligned H (π ++ [0]) n ((x, n) :: σ) (p.enter x k') := by
  refine ⟨fun y => ?_, fun y hy => ?_⟩
  · by_cases hyx : y = x
    · subst hyx
      rw [lookup_enter_self, binder?_snoc_of_binds hg 0 (by simp)]
      rfl
    · rw [lookup_enter_of_ne hyx, binder?_snoc hg 0 (by simpa using Ne.symm hyx)]
      exact ha.bound y
  · by_cases hyx : y = x
    · subst hyx
      rw [negationsOver_snoc_of_binds hg 0 (by simp)]
      simp
    · have hbinds : (fixpoint k x f).binds y = false := by simpa using Ne.symm hyx
      have hisNeg : (fixpoint k x f).isNeg = false := by cases k <;> rfl
      have hne : (y == x) = false := by simpa using hyx
      rw [binder?_snoc hg 0 hbinds] at hy
      rw [negationsOver_snoc hg 0 hbinds, hisNeg, List.lookup_cons, hne]
      exact ha.parity y hy

end Aligned

/-! ## Both outcomes

Success and failure are proved by one induction, since a failure in a later operand needs the success of the
earlier ones.  There is a lemma for each shape of formula, and the induction only has to say which shape a
constructor has.
-/

/-- **What an outcome of numbering says**: a part, that nothing is wrong from the place on downwards, and
an error, that it names something wrong. -/
def Judged (H : Formula) (π : Path) : EStateM.Result FormulaError Journal Part → Prop
  | .ok _ _ => H.Sound π
  | .error err _ => ∃ ρ, H.Violates ρ err

/-- An operator is done when its operands are. -/
lemma judged_finish (hs : H.Sound π) (op : Operator) (operands : Part) :
    Judged H π (finish p f op operands j) := hs

section Operators

variable (hg : H.at? π = some g) (hop : g.isOperator = true)

include hg hop

lemma judged_leaf (hchildren : g.children = []) (op : Operator) :
    Judged H π (finish p f op .none j) := by
  refine judged_finish (sound_of_children hg (fun _ => not_violates_of_isOperator hg hop)
    fun i h hi => ?_) _ _
  simp [hchildren] at hi

lemma judged_unary {x : NumberM Part} (hchildren : g.children = [f])
    (hf : Judged H (π ++ [0]) (x j)) (f' : Formula) (op : Nat → Operator) :
    Judged H π ((x >>= fun operand => finish p f' (op operand.root) operand) j) := by
  cases hx : x j with
  | error err j' =>
      rw [bind_of_error hx]
      rwa [hx] at hf
  | ok operand j' =>
      rw [bind_of_ok hx]
      rw [hx] at hf
      exact judged_finish
        (sound_of_one hg (fun _ => not_violates_of_isOperator hg hop) hchildren hf) _ _

lemma judged_binary {x : NumberM Part} {y : Part → NumberM Part} {a b : Formula}
    (hchildren : g.children = [a, b]) (ha : Judged H (π ++ [0]) (x j))
    (hb : ∀ l j', Judged H (π ++ [1]) (y l j')) (f' : Formula) (op : Nat → Nat → Operator) :
    Judged H π ((x >>= fun l => y l >>= fun r =>
      finish p f' (op l.root r.root) (l.append r)) j) := by
  cases hx : x j with
  | error err j' =>
      rw [bind_of_error hx]
      rwa [hx] at ha
  | ok l j₁ =>
      rw [bind_of_ok hx]
      rw [hx] at ha
      have hbl := hb l j₁
      cases hy : y l j₁ with
      | error err j' =>
          rw [bind_of_error hy]
          rwa [hy] at hbl
      | ok r j₂ =>
          rw [bind_of_ok hy]
          rw [hy] at hbl
          exact judged_finish
            (sound_of_two hg (fun _ => not_violates_of_isOperator hg hop) hchildren ha hbl) _ _

end Operators

section References

variable {x : String}

/-- A reference is accepted if it is bound and the number of negations over it is even. -/
lemma judged_ref (ha : Aligned H π n σ p) (hx : H.at? π = some (.ref x)) :
    Judged H π (number (negIf (n != (σ.lookup x).getD false) (.ref x)) p j) := by
  have hbound := ha.bound x
  cases hlookup : p.scope.lookup x with
  | none =>
      have hnone : H.binder? x π = none := by simpa [hlookup] using hbound.symm
      cases n != (σ.lookup x).getD false with
      | false =>
          rw [negIf, if_neg Bool.false_ne_true, number_ref_of_none hlookup]
          exact ⟨π, hx, hnone⟩
      | true =>
          rw [negIf, if_pos rfl, number_neg_ref, hlookup]
          exact ⟨π, hx, hnone⟩
  | some v =>
      have hsome : (H.binder? x π).isSome = true := by simpa [hlookup] using hbound.symm
      have hparity := ha.parity x hsome
      cases hb : n != (σ.lookup x).getD false with
      | false =>
          rw [negIf, if_neg Bool.false_ne_true, number_ref_of_some hlookup]
          refine sound_of_children hx (fun err herr => ?_) (by simp [children])
          cases err with
          | unboundVariable y =>
              obtain ⟨hy, hnone⟩ := herr
              cases hx.symm.trans hy
              simp [hnone] at hsome
          | negativeVariable y =>
              obtain ⟨hy, -, hodd⟩ := herr
              cases hx.symm.trans hy
              exact hodd (hparity.1 hb)
          | bareFixpoint y =>
              obtain ⟨k, h, hh, -⟩ := herr
              rw [hx] at hh
              cases k <;> cases hh
          | branchingOperator label => exact herr
      | true =>
          rw [negIf, if_pos rfl, number_neg_ref, hlookup]
          refine ⟨π, hx, hsome, fun heven => ?_⟩
          rw [hparity.2 heven] at hb
          cases hb

end References

/-- A fixpoint is accepted if its body is, and is not a reference under negations. -/
lemma judged_fixpoint {k k' : Bool} {x : String} (hg : H.at? π = some (fixpoint k x f))
    (hbody : Judged H (π ++ [0]) (number (pushNeg n σ f) (p.enter x k') j)) :
    Judged H π (number (fixpoint k' x (pushNeg n σ f)) p j) := by
  rw [number_fixpoint]
  cases href : (pushNeg n σ f).isRef with
  | true =>
      rw [if_pos rfl]
      exact ⟨π, k, f, hg, isRefUnderNegs_of_pushNeg n σ href⟩
  | false =>
      rw [if_neg Bool.false_ne_true]
      cases hnum : number (pushNeg n σ f) (p.enter x k') j with
      | error err j' =>
          rw [bind_of_error hnum]
          rwa [hnum] at hbody
      | ok body j' =>
          rw [bind_of_ok hnum]
          rw [hnum] at hbody
          refine sound_of_one hg (fun err herr => ?_) (children_fixpoint k x f) hbody
          cases err with
          | unboundVariable y | negativeVariable y =>
              have hy := hg.symm.trans herr.1
              cases k <;> cases hy
          | bareFixpoint y =>
              obtain ⟨k₁, f₁, hf₁, hbare⟩ := herr
              have heq := hg.symm.trans hf₁
              have hff₁ : f = f₁ := by cases k <;> cases k₁ <;> cases heq <;> rfl
              -- the body is then a reference or its negation, and neither has come this far
              obtain ⟨b, y, hpush⟩ := pushNeg_of_isRefUnderNegs (hff₁ ▸ hbare) n σ
              rw [hpush] at href hnum
              cases b with
              | false => cases href
              | true =>
                  rw [negIf, if_pos rfl, number_neg_ref] at hnum
                  cases hnum
          | branchingOperator label => exact herr

/-- **Numbering judges what it is given.** -/
lemma judged_number : ∀ {g : Formula} {π : Path} {n : Bool} {σ : Turned} {p : Place} {j : Journal},
    g.isBranching = false → H.at? π = some g → Aligned H π n σ p →
      Judged H π (number (pushNeg n σ g) p j) := by
  intro g
  induction g with
  | top | bot =>
      intro π n σ p j _ hg _
      cases n <;> exact judged_leaf hg rfl rfl _
  | atom a =>
      intro π n σ p j _ hg _
      cases n with
      | false => exact judged_leaf hg rfl rfl _
      | true =>
          exact judged_finish (sound_of_children hg (fun _ => not_violates_of_isOperator hg rfl)
            (by simp [children])) _ _
  | ref x => exact fun _ hg ha => judged_ref ha hg
  | neg f ih =>
      intro π n σ p j hbr hg ha
      have hf := ih (j := j) hbr (at?_snoc hg 0) (ha.neg hg)
      show Judged H π (number (pushNeg (!n) σ f) p j)
      cases hnum : number (pushNeg (!n) σ f) p j with
      | error err j' => rwa [hnum] at hf
      | ok part j' =>
          rw [hnum] at hf
          exact sound_of_one hg (fun _ => not_violates_of_isOperator hg rfl) rfl hf
  | conj f g ihf ihg | disj f g ihf ihg =>
      intro π n σ p j hbr hg ha
      simp only [isBranching, Bool.or_eq_false_iff] at hbr
      have hl := ihf (j := j) hbr.1 (at?_snoc hg 0) (ha.operand hg rfl rfl 0 p.inside rfl)
      have hr := fun (l : Part) (j' : Journal) => ihg (j := j') hbr.2 (at?_snoc hg 1)
        (ha.operand hg rfl rfl 1 (p.inside.after l) rfl)
      cases n <;> exact judged_binary hg rfl rfl hl hr _ _
  | box a f ih | dia a f ih =>
      intro π n σ p j hbr hg ha
      have hf := ih (j := j) hbr (at?_snoc hg 0) (ha.operand hg rfl rfl 0 p.inside rfl)
      cases n <;> exact judged_unary hg rfl rfl hf _ _
  | mu x f ih =>
      intro π n σ p j hbr hg ha
      have hg' : H.at? π = some (fixpoint false x f) := hg
      show Judged H π (number (pushNeg n σ (fixpoint false x f)) p j)
      rw [pushNeg_fixpoint]
      exact judged_fixpoint hg' (ih hbr (at?_snoc hg 0) (ha.enter hg'))
  | nu x f ih =>
      intro π n σ p j hbr hg ha
      have hg' : H.at? π = some (fixpoint true x f) := hg
      show Judged H π (number (pushNeg n σ (fixpoint true x f)) p j)
      rw [pushNeg_fixpoint]
      exact judged_fixpoint hg' (ih hbr (at?_snoc hg 0) (ha.enter hg'))
  | _ => exact fun hbr => by cases hbr

/-! ## Numbers that are given out

Numbers are given out in the order in which operators are entered, and each operator takes the next one.  So
the equations of a part have consecutive numbers, and its root has the first of them unless it is a
reference to something before.
-/

/-- **The numbers of a part** that starts at a place. -/
structure Part.Assigned (part : Part) (f : Formula) (p : Place) : Prop where
  /-- Everything but a reference, a fixpoint too, has the number that comes next. -/
  root : f.isRef = false → part.root = p.next
  /-- The numbers given out are those of the equations. -/
  vars : part.equations.map (·.2.var) = List.range' p.next part.equations.length

lemma Numbered.assigned {part : Part} (hf : Numbered f p part) : part.Assigned f p := by
  refine ⟨fun href => (hf.root_eq href).1, ?_⟩
  induction hf with
  | ref hx => rfl
  | fixpoint _ _ ih => exact ih
  | leaf _ => rfl
  | unary _ _ ih =>
      simp only [Part.ofOperator, List.map_cons, List.length_cons, List.range'_succ, ih]
      rfl
  | @binary _ _ _ _ p l r _ _ _ ihl ihr =>
      simp only [Part.ofOperator, Part.append, List.map_cons, List.map_append, List.length_cons,
        List.length_append, List.range'_succ, ihl, ihr]
      rw [← List.range'_append_1]
      rfl

end Numbering

/-! ## Acceptance

Branching operators are expanded before numbering starts, so the error that complains about one is never
given.  What is left is the judgement of the expanded formula, from the top.
-/

namespace EquationSystem

open Formula ModalCalls.Numbering

variable {f : Formula}

/-- Accepting a formula is a matter of its numbering. -/
lemma ofFormula_cases (f : Formula) :
    (∃ e, ofFormula f = .ok e ∧ f.expand.Meaningful) ∨
    (∃ err π, ofFormula f = .error err ∧ f.expand.Violates π err) := by
  have hexpands := expands_expandFrom (List.Subset.refl f.names) 0
  have hjudged : Judged f.expand [] (number f.normal (.start f.normal) #[]) :=
    judged_number hexpands.isBranching_eq rfl (.start _ _)
  cases hnum : number f.normal (.start f.normal) #[] with
  | ok part j =>
      rw [hnum] at hjudged
      refine Or.inl ⟨assemble f.normal part, ?_, meaningful_iff.2 hjudged⟩
      simp only [ofFormula, ofNormal, bind_of_ok hnum]
      rfl
  | error err j =>
      rw [hnum] at hjudged
      obtain ⟨π, hπ⟩ := hjudged
      refine Or.inr ⟨err, π, ?_, hπ⟩
      simp only [ofFormula, ofNormal, bind_of_error hnum]

/-- **Exactly the meaningful formulas are accepted**, and an error names what is wrong.  No branching
operator is met, and whatever is numbered gets the numbers that come next. -/
theorem ofFormula_exact (f : Formula) :
    ((∃ e, ofFormula f = .ok e) ↔ f.expand.Meaningful) ∧
    (∀ err, ofFormula f = .error err → ∃ π, f.expand.Violates π err) ∧
    ∀ g p part j j', g.isNegationNormal = true → number g p j = .ok part j' → part.Assigned g p := by
  refine ⟨?_, ?_, fun g p part j j' hg hnum => (numbered_of_number g hg hnum).assigned⟩
  · rcases ofFormula_cases f with ⟨e, he, hf⟩ | ⟨err, π, herr, hπ⟩
    · exact ⟨fun _ => hf, fun _ => ⟨e, he⟩⟩
    · refine ⟨?_, fun hf => absurd hπ (meaningful_iff.1 hf π err)⟩
      rintro ⟨e, he⟩
      cases herr.symm.trans he
  · intro err herr
    rcases ofFormula_cases f with ⟨e, he, -⟩ | ⟨err', π, herr', hπ⟩
    · cases he.symm.trans herr
    · cases herr'.symm.trans herr
      exact ⟨π, hπ⟩

/-- A negated fixpoint, with `count` negations over the reference to it. -/
def negatedFixpoint (count : Nat) : Formula :=
  .neg (.mu "X" (.disj (.atom "p") (.af (Nat.iterate .neg count (.dia none (.ref "X"))))))

theorem negatedFixpoint_two_meaningful : (negatedFixpoint 2).expand.Meaningful ∧
    ¬ (negatedFixpoint 1).expand.Meaningful ∧
    ∃ π, (negatedFixpoint 1).expand.Violates π (.negativeVariable "X") := by
  have heven : (ofFormula (negatedFixpoint 2)).isOk = true := by decide +kernel
  have hodd : ofFormula (negatedFixpoint 1) = .error (.negativeVariable "X") := by decide +kernel
  refine ⟨(ofFormula_exact (negatedFixpoint 2)).1.1 ?_, fun hf => ?_,
    (ofFormula_exact (negatedFixpoint 1)).2.1 _ hodd⟩
  · cases he : ofFormula (negatedFixpoint 2) with
    | error err => simp [he, Except.isOk, Except.toBool] at heven
    | ok e => exact ⟨e, rfl⟩
  · obtain ⟨e, he⟩ := (ofFormula_exact (negatedFixpoint 1)).1.2 hf
    cases hodd.symm.trans he

end EquationSystem

end ModalCalls
