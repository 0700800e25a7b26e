import Mathlib
import ModalCalls.Proofs.Equation.Transcription
import ModalCalls.Proofs.Semantics.Denotation
import ModalCalls.Proofs.VarSet

/-!
# What holds where no step is possible

A state without steps is a transition system of its own (`TransitionSystem.deadlocked`): every box holds
there, no diamond does, and what formulas mean depends on atoms only.  The values at a deadlock come from
one pass over the equations, and the question is how they compare with what formulas mean there.

**What the pass computes.**  It comes to an operator before it comes to the fixpoints around it.  So a
reference that is read counts as false, and the pass computes the value of each subformula with its
references false unless they are under a modality (`Formula.atDeadlock`).

**When that is right.**  Being false is the right start for a least fixpoint and the wrong one for a greatest
one.  What is computed to hold always holds (`Numbered.mem_denote_of_atDeadlock`).  The converse is true
of a subformula whose references are under modalities or belong to least fixpoints inside it
(`Formula.isSettled`).  If every reference is the immediate operand of a modality, as `Formula.isGuarded`
has it, this is so for all of them, and the values solve the equations
(`EquationSystem.deadlock_exact`).  In general neither is (`EquationSystem.deadlock_misses`).
-/

namespace ModalCalls

/-- **One state without steps**, where `holds` gives the atoms. -/
def TransitionSystem.deadlocked (holds : String → Bool) : TransitionSystem where
  State := Unit
  holds := fun _ => holds
  arrows := fun _ => ∅

namespace Formula

/-- **The value of a formula without branching operators at a deadlock**, if references that are not under
a modality count as false. -/
def atDeadlock (holds : String → Bool) : Formula → Bool
  | top => true
  | bot => false
  | atom p => holds p
  | neg f => !f.atDeadlock holds
  | conj f g => f.atDeadlock holds && g.atDeadlock holds
  | disj f g => f.atDeadlock holds || g.atDeadlock holds
  | box .. => true
  | dia .. => false
  | mu _ f | nu _ f => f.atDeadlock holds
  | _ => false

/-- Every reference is under a modality, or belongs to a least fixpoint inside the formula, or is one of
some names. -/
def isSettledIn : List String → Formula → Bool
  | _, top | _, bot | _, atom _ | _, box .. | _, dia .. => true
  | names, ref x => names.contains x
  | names, mu x f => f.isSettledIn (x :: names)
  | names, nu x f => f.isSettledIn (names.filter (· != x))
  | names, neg f | names, af f | names, ag f | names, ef f | names, eg f => f.isSettledIn names
  | names, conj f g | names, disj f g | names, au f g | names, aw f g | names, eu f g
  | names, ew f g => f.isSettledIn names && g.isSettledIn names

/-- **Every reference is under a modality or belongs to a least fixpoint inside the formula.** -/
def isSettled (f : Formula) : Bool :=
  f.isSettledIn []

/-- Whether an operator other than a modality has a reference as an operand. -/
def readsReference : Formula → Bool
  | neg f => f.isRef
  | conj f g | disj f g => f.isRef || g.isRef
  | _ => false

lemma readsReference_of_isGuarded {f : Formula} (hf : f.isGuarded = true) :
    f.readsReference = false := by
  have hisRef : ∀ {g : Formula}, g.isGuarded = true → g.isRef = false :=
    Numbering.isRef_eq_false_of_isGuarded
  cases f with
  | neg f => exact hisRef hf
  | conj f g | disj f g =>
      simp only [isGuarded, Bool.and_eq_true] at hf
      simp only [readsReference, hisRef hf.1, hisRef hf.2, Bool.or_self]
  | _ => rfl

lemma isSettledIn_of_isGuarded {f : Formula} (hf : f.isGuarded = true) :
    ∀ names : List String, f.isSettledIn names = true := by
  induction f with
  | top | bot | atom p | box a f | dia a f => exact fun _ => rfl
  | ref x => cases hf
  | mu x f ih | nu x f ih => exact fun names => ih hf _
  | neg f ih | af f ih | ag f ih | ef f ih | eg f ih => exact fun names => ih hf names
  | conj f g ihf ihg | disj f g ihf ihg | au f g ihf ihg | aw f g ihf ihg | eu f g ihf ihg
  | ew f g ihf ihg =>
      intro names
      simp only [isGuarded, Bool.and_eq_true] at hf
      simp only [isSettledIn, ihf hf.1 names, ihg hf.2 names, Bool.and_self]

lemma isGuarded_or_isRef_of_mem_children {f g : Formula} (hf : f.isGuarded = true)
    (hg : g ∈ f.children) : g.isGuarded = true ∨ g.isRef = true := by
  cases f <;> grind [isGuarded, children]

/-- References are guarded in all subformulas if they are in the whole formula. -/
lemma isGuarded_of_at? {f g : Formula} {π : Path} (hf : f.isGuarded = true) (hg : f.at? π = some g)
    (href : g.isRef = false) : g.isGuarded = true := by
  induction π generalizing f with
  | nil =>
      cases hg
      exact hf
  | cons i π ih =>
      obtain ⟨h, hi, hπ⟩ := Option.bind_eq_some_iff.1 hg
      rcases isGuarded_or_isRef_of_mem_children hf (List.mem_of_getElem? hi) with hguarded | hisRef
      · exact ih hguarded hπ
      · -- a path ends at a reference
        cases h with
        | ref x =>
            cases π with
            | nil =>
                cases hπ
                cases href
            | cons j π => cases hπ
        | _ => cases hisRef

lemma isGuarded_of_operatorAt? {f g : Formula} {v : Nat} (hf : f.isGuarded = true)
    (hg : f.operatorAt? v = some g) : g.isGuarded = true := by
  have hop := isOperator_of_operatorAt? hg
  obtain ⟨π, -, hg⟩ := Option.bind_eq_some_iff.1 hg
  exact isGuarded_of_at? hf hg (isRef_eq_false_of_isOperator hop)

end Formula

namespace Numbering

open Formula EquationSystem

variable {F f g : Formula} {p p' : Place} {part part₀ : Part} {holds : String → Bool}

/-! ## Computed values and what formulas mean

The value with references false is compared with the denotation, by induction on the numbering.  One
direction needs nothing but monotonicity.  In the other one a reference that counts as false has to denote
nothing.  A least fixpoint may take this for granted of its own name: if its body is computed to fail then
it maps the empty set into itself, and the fixpoint is empty.
-/

/-- **What is computed to hold does hold**, whatever the free names stand for. -/
lemma Numbered.mem_denote_of_atDeadlock (hf : Numbered f p part) :
    ∀ ρ, f.atDeadlock holds = true → () ∈ f.denote (.deadlocked holds) ρ := by
  induction hf with
  | ref hx => exact fun ρ h => by cases h
  | @fixpoint k x f p body hf hbody ih =>
      intro ρ h
      rw [← hbody.denote_fixpoint]
      exact ih _ (by cases k <;> exact h)
  | leaf hleaf =>
      intro ρ h
      cases hleaf with
      | top => trivial
      | bot => cases h
      | atom a => exact h
  | unary hun hoperand ih =>
      intro ρ h
      cases hun with
      | neg a =>
          have hfalse : holds a = false := by simpa [atDeadlock] using h
          exact fun hs => by cases hfalse.symm.trans hs
      | box a g => exact fun arrow harrow => harrow.elim
      | dia a g => cases h
  | binary hbin hl hr ihl ihr =>
      intro ρ h
      cases hbin with
      | conj f g =>
          simp only [atDeadlock, Bool.and_eq_true] at h
          exact ⟨ihl ρ h.1, ihr ρ h.2⟩
      | disj f g =>
          simp only [atDeadlock, Bool.or_eq_true] at h
          exact h.imp (ihl ρ) (ihr ρ)

/-- **What holds is computed to hold** if references that are read stand for nothing. -/
lemma Numbered.atDeadlock_of_mem_denote (hf : Numbered f p part) :
    ∀ {names : List String} {ρ}, f.isSettledIn names = true → (∀ x ∈ names, ρ x = ∅) →
      () ∈ f.denote (.deadlocked holds) ρ → f.atDeadlock holds = true := by
  induction hf with
  | @ref x p v hx =>
      intro names ρ hsettled hnames h
      have hempty := hnames x (by simpa [isSettledIn] using hsettled)
      have hmem : () ∈ ρ x := h
      rw [hempty] at hmem
      exact hmem.elim
  | @fixpoint k x f p body hf hbody ih =>
      intro names ρ hsettled hnames h
      cases k with
      | false =>
          -- a least fixpoint is empty if its body makes nothing of nothing
          by_contra hfalse
          refine denote_mu_subset (A := ∅) (fun s hs => hfalse (ih hsettled (fun y hy => ?_) hs)) h
          rcases List.mem_cons.1 hy with rfl | hy
          · exact Function.update_self ..
          · by_cases hyx : y = x
            · rw [hyx, Function.update_self]
            · rw [Function.update_of_ne hyx]
              exact hnames y hy
      | true =>
          rw [← hbody.denote_fixpoint true x ρ] at h
          refine ih hsettled (fun y hy => ?_) h
          obtain ⟨hy, hyx⟩ := List.mem_filter.1 hy
          rw [Function.update_of_ne (by simpa using hyx)]
          exact hnames y hy
  | leaf hleaf =>
      intro names ρ _ _ h
      cases hleaf with
      | top => rfl
      | bot => exact h.elim
      | atom a => exact h
  | unary hun hoperand ih =>
      intro names ρ hsettled hnames h
      cases hun with
      | neg a =>
          have hnot : ¬ holds a = true := h
          simpa [atDeadlock] using hnot
      | box a g => rfl
      | dia a g =>
          obtain ⟨arrow, harrow, -⟩ := h
          exact harrow.elim
  | binary hbin hl hr ihl ihr =>
      intro names ρ hsettled hnames h
      cases hbin with
      | conj f g =>
          simp only [isSettledIn, Bool.and_eq_true] at hsettled
          simp only [atDeadlock, Bool.and_eq_true]
          exact ⟨ihl hsettled.1 hnames h.1, ihr hsettled.2 hnames h.2⟩
      | disj f g =>
          simp only [isSettledIn, Bool.and_eq_true] at hsettled
          simp only [atDeadlock, Bool.or_eq_true]
          exact h.imp (ihl hsettled.1 hnames) (ihr hsettled.2 hnames)

/-! ## What the pass computes

The pass is tied to the formula by the visit to all its subformulas.  An operand that is not a reference has
its value before it is read.  A reference is read too early in any case, because the fixpoint it belongs to
is around the operator that reads it.
-/

lemma operator?_of_situated {op : Operator} {operands : Part}
    (hp : Situated part₀.equations (kinds F part₀) f p (.ofOperator p f op operands)) :
    (assemble F part₀).operator? p.next = some op :=
  operator?_assemble.2 ⟨_, _, hp.stands.head.1, rfl⟩

section Pass

variable (hF : Numbered F (.start F) part₀)

include hF

/-- The pass has come to an operand when it comes to the operator, unless the operand is a reference. -/
lemma Situated.sooner_iff {op : Operator} {operands : Part}
    (hp : Situated part₀.equations (kinds F part₀) f p (.ofOperator p f op operands))
    (hg : Situated part₀.equations (kinds F part₀) g p' part) (hscope : p'.scope = p.scope)
    (hblock : p'.block = p.block) (hlt : p.next < p'.next) :
    (assemble F part₀).Sooner part.root p.next ↔ g.isRef = false := by
  have hget := hp.stands.head.1
  cases href : g.isRef with
  | true =>
      obtain ⟨x, rfl, hx⟩ := hg.numbered.of_isRef href
      rw [hscope] at hx
      obtain ⟨hle, b, q, hq, hb⟩ := hp.names_of_operator hx
      have hblocks := (hF.blockOf_le hq hget).2 hb
      simp only [Sooner, Bool.true_eq_false, iff_false]
      omega
  | false =>
      obtain ⟨hroot, b, q, hq, hb⟩ := hg.root_of_not_isRef href
      have hblocks := (hF.blockOf_le hget hq).2 (hblock ▸ hb)
      simp only [Sooner, iff_true]
      omega

/-- What an operator reads of an operand. -/
lemma Situated.read_eq {op : Operator} {operands : Part}
    (hp : Situated part₀.equations (kinds F part₀) f p (.ofOperator p f op operands))
    (hg : Situated part₀.equations (kinds F part₀) g p' part) (hscope : p'.scope = p.scope)
    (hblock : p'.block = p.block) (hlt : p.next < p'.next)
    (hvalue : g.isRef = false →
      ((assemble F part₀).deadlockValues holds).getD part.root false = g.atDeadlock holds) :
    (decide ((assemble F part₀).Sooner part.root p.next) &&
      ((assemble F part₀).deadlockValues holds).getD part.root false) = g.atDeadlock holds := by
  have hiff := hp.sooner_iff hF hg hscope hblock hlt
  cases href : g.isRef with
  | true =>
      obtain ⟨x, rfl, -⟩ := hg.numbered.of_isRef href
      rw [decide_eq_false fun hs => by simp [hiff.1 hs] at href]
      rfl
  | false => rw [decide_eq_true (hiff.2 href), Bool.true_and, hvalue href]

/-- **The pass computes the value of each subformula** with its references false. -/
lemma Situated.getD_deadlockValues
    (hp : Situated part₀.equations (kinds F part₀) f p part) (hf : f.isRef = false) :
    ((assemble F part₀).deadlockValues holds).getD part.root false = f.atDeadlock holds := by
  have he := hF.wellFormed
  have hnum := hp.numbered
  induction hnum with
  | ref hx => cases hf
  | @fixpoint k x f p body href hbody ih =>
      rw [show (fixpoint k x f).atDeadlock holds = f.atDeadlock holds by cases k <;> rfl]
      exact ih (hp.enter hbody) href
  | leaf hleaf =>
      rw [Part.ofOperator, getD_deadlockValues_of_operator he (operator?_of_situated hp)]
      cases hleaf <;> rfl
  | unary hun hoperand ih =>
      have hg := hp.unary hoperand
      have hvalue := hp.read_eq hF hg rfl rfl (Nat.lt_succ_self _) (ih hg)
      rw [Part.ofOperator, getD_deadlockValues_of_operator he (operator?_of_situated hp)]
      cases hun with
      | neg a => simp only [Operator.eval, atDeadlock, hvalue]
      | box a g => rfl
      | dia a g => rfl
  | binary hbin hl hr ihl ihr =>
      have hgl := hp.left hl
      have hgr := hp.right hr
      have hvaluel := hp.read_eq hF hgl rfl rfl (Nat.lt_succ_self _) (ihl hgl)
      have hvaluer := hp.read_eq hF hgr rfl rfl (by simp only [Place.after, Place.inside]; omega)
        (ihr hgr)
      rw [Part.ofOperator, getD_deadlockValues_of_operator he (operator?_of_situated hp)]
      cases hbin <;> simp only [Operator.eval, atDeadlock, hvaluel, hvaluer]

/-- The pass has come to all that an operator reads, unless it reads a reference. -/
lemma Situated.sooner_of_reads (hp : Situated part₀.equations (kinds F part₀) f p part)
    (hf : f.readsReference = false) {op : Operator}
    (hop : (assemble F part₀).operator? p.next = some op) (hisOp : f.isOperator = true) :
    ∀ w ∈ op.reads, (assemble F part₀).Sooner w p.next := by
  have hnum := hp.numbered
  cases hnum with
  | ref hx => cases hisOp
  | @fixpoint k _ _ _ _ _ _ => cases k <;> cases hisOp
  | leaf hleaf =>
      cases (operator?_of_situated hp).symm.trans hop
      cases hleaf <;> simp [Operator.reads]
  | unary hun hoperand =>
      cases (operator?_of_situated hp).symm.trans hop
      cases hun with
      | neg a =>
          have hsooner := hp.sooner_iff hF (hp.unary hoperand) rfl rfl (Nat.lt_succ_self _)
          simpa [Operator.reads] using hsooner.2 rfl
      | box a g => simp [Operator.reads]
      | dia a g => simp [Operator.reads]
  | binary hbin hl hr =>
      cases (operator?_of_situated hp).symm.trans hop
      have hleft := hp.sooner_iff hF (hp.left hl) rfl rfl (Nat.lt_succ_self _)
      have hright := hp.sooner_iff hF (hp.right hr) rfl rfl
        (by simp only [Place.after, Place.inside]; omega)
      cases hbin
      all_goals
        simp only [readsReference, Bool.or_eq_false_iff] at hf
        simpa [Operator.reads] using ⟨hleft.2 hf.1, hright.2 hf.2⟩

end Pass

end Numbering

/-! ## The variables that hold at a deadlock

What is known of a variable is collected in one structure, soundness without a condition and completeness
with one.  The last theorem has the two formulas for which nothing better is true.
-/

namespace EquationSystem

open Formula ModalCalls.Numbering

variable {e : EquationSystem} {f g : Formula} {holds : String → Bool} {v : Nat} {π : Path}

lemma contains_deadlock (e : EquationSystem) (holds : String → Bool) (v : Nat) :
    (e.deadlock holds).contains v = (e.deadlockValues holds).getD v false := by
  rw [deadlock, VarSet.contains_ofBools]

/-- **What is known of a variable at a deadlock**, whose subformula is `g`. -/
structure Evaluates (e : EquationSystem) (holds : String → Bool) (v : Nat) (g : Formula) : Prop where
  /-- References that are not under a modality count as false. -/
  value : (e.deadlock holds).contains v = g.atDeadlock holds
  /-- What is computed to hold does hold, whatever free names stand for. -/
  sound : ∀ ρ, (e.deadlock holds).contains v = true → () ∈ g.denote (.deadlocked holds) ρ
  complete : g.isSettled = true → ∀ ρ, () ∈ g.denote (.deadlocked holds) ρ →
    (e.deadlock holds).contains v = true
  solves : g.readsReference = false → ∀ op, e.operator? v = some op →
    (e.deadlock holds).contains v = op.atDeadlock holds (e.deadlock holds).contains

lemma evaluates_of_numbered {part : Part} (hf : Numbered f (.start f) part)
    (hv : f.operatorAt? v = some g) : (assemble f part).Evaluates holds v g := by
  obtain ⟨π, hπ, hg⟩ := Option.bind_eq_some_iff.1 hv
  obtain ⟨π', g', p, q, rfl, hop, hs, hp⟩ :=
    hf.exists_stationed v (hf.length_operatorPaths ▸ (List.getElem?_eq_some_iff.1 hπ).1)
  obtain ⟨op, heq⟩ := hs.equationAt hp hop
  obtain rfl := Option.some.inj (heq.path.symm.trans hπ)
  obtain rfl := Option.some.inj (hs.at_path.symm.trans hg)
  have href := isRef_eq_false_of_isOperator hop
  have hvalue : ((assemble f part).deadlock holds).contains p.next = g'.atDeadlock holds := by
    rw [contains_deadlock, ← (hp.root_of_not_isRef href).1]
    exact hp.getD_deadlockValues hf href
  refine ⟨hvalue, fun ρ h => ?_, fun hsettled ρ h => ?_, fun hreads op hop' => ?_⟩
  · exact hp.numbered.mem_denote_of_atDeadlock ρ (hvalue ▸ h)
  · exact hvalue ▸ hp.numbered.atDeadlock_of_mem_denote hsettled (by simp) h
  · rw [funext (contains_deadlock (assemble f part) holds), Operator.atDeadlock_eq_eval]
    exact deadlockValues_solves_of_sooner hf.wellFormed hop'
      (hp.sooner_of_reads hf hreads hop' hop)

/-- **What holds at a deadlock.**  If every reference is the immediate operand of a modality, the values solve
the equations, and a variable is computed to hold exactly if its subformula does, whatever its free names
stand for and in particular for the fixpoints they belong to. -/
theorem deadlock_exact (h : ofFormula f = .ok e) (holds : String → Bool) :
    (∀ v g, f.normal.operatorAt? v = some g → e.Evaluates holds v g) ∧
    (f.normal.isGuarded = true →
      (∀ v op, e.operator? v = some op →
        (e.deadlock holds).contains v = op.atDeadlock holds (e.deadlock holds).contains) ∧
      ∀ v g, f.normal.operatorAt? v = some g → ∀ ρ,
        ((e.deadlock holds).contains v = true ↔ () ∈ g.denote (.deadlocked holds) ρ)) := by
  obtain ⟨part, hnum, rfl⟩ := exists_numbered h
  have hall : ∀ v g, f.normal.operatorAt? v = some g → (assemble f.normal part).Evaluates holds v g :=
    fun v g hg => evaluates_of_numbered hnum hg
  refine ⟨hall, fun hguarded => ⟨fun v op hop => ?_, fun v g hg ρ => ?_⟩⟩
  · have hv := lt_size_of_operator? hop
    rw [size_assemble, ← hnum.length_operatorPaths] at hv
    obtain ⟨g, hg⟩ := exists_operatorAt? hv
    have hg' := isGuarded_of_operatorAt? hguarded hg
    exact (hall v g hg).solves (readsReference_of_isGuarded hg') op hop
  · have hg' := isGuarded_of_operatorAt? hguarded hg
    exact ⟨(hall v g hg).sound ρ, (hall v g hg).complete (isSettledIn_of_isGuarded hg' []) ρ⟩

/-- An atom holds now and ever after. -/
def forever : Formula :=
  .nu "X" (.conj (.atom "p") (.box none (.ref "X")))

theorem deadlock_exact_forever : ∃ e, ofFormula forever = .ok e ∧ forever.normal.isGuarded = true ∧
    (e.deadlock fun _ => true).contains 0 = true ∧
    ∀ ρ, () ∈ (Formula.conj (.atom "p") (.box none (.ref "X"))).denote
      (.deadlocked fun _ => true) ρ := by
  refine ⟨_, rfl, rfl, by decide +kernel, fun ρ => ?_⟩
  exact (((deadlock_exact (f := forever) rfl fun _ => true).2 rfl).2 0 _ rfl ρ).1 (by decide +kernel)

/-- An atom holds and so does the whole, which is read where it stands. -/
def heldByItself : Formula :=
  .nu "X" (.conj (.atom "p") (.ref "X"))

/-- An atom holds or the whole does, which is read before it has its value. -/
def readTooSoon : Formula :=
  .mu "X" (.disj (.atom "p") (.disj (.ref "X") .bot))

/-- **A reference that is read counts as false**, and the pass does not come back to it.  So a greatest
fixpoint may be missed, and an equation may be left unsolved, without any alternation. -/
theorem deadlock_misses :
    (∃ e, ofFormula heldByItself = .ok e ∧ heldByItself.isAlternationFree = true ∧
      (e.deadlock fun _ => true).contains 0 = false ∧
      ∀ ρ, () ∈ heldByItself.denote (.deadlocked fun _ => true) ρ) ∧
    ∃ e, ofFormula readTooSoon = .ok e ∧ readTooSoon.isAlternationFree = true ∧
      e.operator? 2 = some (.disj 0 3) ∧ (e.deadlock fun _ => true).contains 2 = false ∧
      (Operator.disj 0 3).atDeadlock (fun _ => true) (e.deadlock fun _ => true).contains = true := by
  refine ⟨⟨_, rfl, rfl, by decide +kernel, fun ρ => ?_⟩, _, rfl, rfl, rfl, by decide +kernel,
    by decide +kernel⟩
  have hbody : Set.univ ⊆ (Formula.conj (.atom "p") (.ref "X")).denote (.deadlocked fun _ => true)
      (Function.update ρ "X" Set.univ) :=
    fun s _ => ⟨rfl, by simp [denote]⟩
  exact subset_denote_nu hbody (Set.mem_univ _)

end EquationSystem

end ModalCalls
