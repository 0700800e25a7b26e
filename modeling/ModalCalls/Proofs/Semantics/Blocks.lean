import Mathlib
import ModalCalls.Proofs.Equation.WellFormed
import ModalCalls.Proofs.Semantics.Denotation

/-!
# Equations over a transition system

An equation system can be read over any transition system: its variables stand for sets of states, and
an operator makes a set out of those of its operands (`Operator.denote`).  Sets that solve all equations,
each block the least or the greatest way once the blocks further in are given, are **extremal**
(`EquationSystem.ExtremalOn`).

* `Moved`, `Leads` — both kinds of block at once: how far a set has moved away from the start.
* `Operator.eval_moved` — values against sets, at one state.
* `EquationSystem.ExtremalOn.leads_of_some` — extremality among the sets that follow only some
  equations of a block.
-/

namespace ModalCalls

/-! ## Least and greatest at once

A set of a least block starts empty and gains states, a set of a greatest block starts full and loses
states.  Both move away from the start.
-/

section Order

variable {α : Type} {k : Bool} {A B C D : Set α}

/-- A state at which a set differs from the start. -/
def Moved (k : Bool) (A : Set α) (s : α) : Prop :=
  s ∈ A ↔ k = false

/-- The first set has moved no further than the second. -/
def Leads (k : Bool) (A B : Set α) : Prop :=
  ∀ s, Moved k A s → Moved k B s

lemma moved_false_iff {s : α} : Moved false A s ↔ s ∈ A := by
  simp [Moved]

lemma leads_false : Leads false A B ↔ A ⊆ B := by
  simp [Leads, Moved, Set.subset_def]

lemma leads_true : Leads true A B ↔ B ⊆ A := by
  simp only [Leads, Moved, Bool.true_eq_false, iff_false]
  exact ⟨fun h s hB => not_not.1 fun hA => h s hA hB, fun h s hA hB => hA (h hB)⟩

lemma Leads.refl (k : Bool) (A : Set α) : Leads k A A :=
  fun _ h => h

lemma Leads.of_eq (h : A = B) : Leads k A B :=
  h ▸ Leads.refl k A

lemma Leads.trans (h : Leads k A B) (h' : Leads k B C) : Leads k A C :=
  fun s hs => h' s (h s hs)

lemma Leads.inter (h : Leads k A B) (h' : Leads k C D) : Leads k (A ∩ C) (B ∩ D) := by
  cases k with
  | false => exact leads_false.2 (Set.inter_subset_inter (leads_false.1 h) (leads_false.1 h'))
  | true => exact leads_true.2 (Set.inter_subset_inter (leads_true.1 h) (leads_true.1 h'))

lemma Leads.union (h : Leads k A B) (h' : Leads k C D) : Leads k (A ∪ C) (B ∪ D) := by
  cases k with
  | false => exact leads_false.2 (Set.union_subset_union (leads_false.1 h) (leads_false.1 h'))
  | true => exact leads_true.2 (Set.union_subset_union (leads_true.1 h) (leads_true.1 h'))

/-- What has moved in both of two sets. -/
def common (k : Bool) (A B : Set α) : Set α :=
  if k then A ∪ B else A ∩ B

lemma moved_common {s : α} : Moved k (common k A B) s ↔ Moved k A s ∧ Moved k B s := by
  cases k <;> simp [Moved, common]

lemma common_self (k : Bool) (A : Set α) : common k A A = A := by
  cases k <;> simp [common]

lemma common_leads_left : Leads k (common k A B) A :=
  fun _ h => (moved_common.1 h).1

lemma common_leads_right : Leads k (common k A B) B :=
  fun _ h => (moved_common.1 h).2

lemma Leads.common (h : Leads k C A) (h' : Leads k C B) : Leads k C (ModalCalls.common k A B) :=
  fun s hs => moved_common.2 ⟨h s hs, h' s hs⟩

end Order

/-! ## Equations over a transition system

Extremality is asked for block by block.  A rival may be anything that follows the equations of the block in
its direction and has the solution further in; it does not have to solve anything.  This form is the one
that is easy to use: to bound the solution one shows that some sets follow the equations, and to check that
they do is a matter of one operator at a time.
-/

namespace Operator

variable {T : TransitionSystem} {N M : Nat → Set T.State} {k : Bool} {op : Operator}

/-- The set that an operator makes out of what its operands stand for. -/
def denote (T : TransitionSystem) (N : Nat → Set T.State) : Operator → Set T.State
  | top => Set.univ
  | bot => ∅
  | atom p => {s | T.holds s p = true}
  | neg c => (N c)ᶜ
  | conj l r => N l ∩ N r
  | disj l r => N l ∪ N r
  | box action c =>
    {s | ∀ a ∈ T.arrows s, Concerns action a.label → a.target ∈ N c}
  | dia action c =>
    {s | ∃ a ∈ T.arrows s, Concerns action a.label ∧ a.modality = .must ∧ a.target ∈ N c}

lemma denote_congr (h : ∀ w ∈ op.operands, N w = M w) : op.denote T N = op.denote T M := by
  cases op <;> simp_all [operands, reads, denote]

/-- Operators follow the moves of their operands, negation apart. -/
lemma denote_leads (h : ∀ w ∈ op.operands, Leads k (N w) (M w))
    (hneg : ∀ c, op = .neg c → N c = M c) : Leads k (op.denote T N) (op.denote T M) := by
  cases op with
  | top => exact Leads.refl _ _
  | bot => exact Leads.refl _ _
  | atom p => exact Leads.refl _ _
  | neg c => exact Leads.of_eq (congrArg compl (hneg c rfl))
  | conj l r =>
      exact (h l (by simp [operands, reads])).inter (h r (by simp [operands, reads]))
  | disj l r =>
      exact (h l (by simp [operands, reads])).union (h r (by simp [operands, reads]))
  | box action c =>
      have hc := h c (by simp [operands])
      cases k with
      | false =>
          exact leads_false.2 fun s hs a ha hspeaks => leads_false.1 hc (hs a ha hspeaks)
      | true => exact leads_true.2 fun s hs a ha hspeaks => leads_true.1 hc (hs a ha hspeaks)
  | dia action c =>
      have hc := h c (by simp [operands])
      cases k with
      | false =>
          refine leads_false.2 ?_
          rintro s ⟨a, ha, hspeaks, hmust, hs⟩
          exact ⟨a, ha, hspeaks, hmust, leads_false.1 hc hs⟩
      | true =>
          refine leads_true.2 ?_
          rintro s ⟨a, ha, hspeaks, hmust, hs⟩
          exact ⟨a, ha, hspeaks, hmust, leads_true.1 hc hs⟩

variable {s t : T.State}

/-- A modality looks at the steps only. -/
lemma mem_modality_congr (h : T.arrows s = T.arrows t) {c : Nat} (hc : op.child? = some c) :
    s ∈ op.denote T N ↔ t ∈ op.denote T N := by
  cases op with
  | box action c =>
      show (∀ a ∈ T.arrows s, _) ↔ ∀ a ∈ T.arrows t, _
      rw [h]
  | dia action c =>
      show (∃ a ∈ T.arrows s, _) ↔ ∃ a ∈ T.arrows t, _
      rw [h]
  | _ => cases hc

/-- **Values against sets**: at a state, the value of an operator has left the start value only if the set
has, if that is so of its operands and of its steps. -/
lemma eval_moved {value : Nat → Bool} {every some : Bool}
    (hreads : ∀ w ∈ op.reads, value w = !k → Moved k (N w) s)
    (hneg : ∀ c, op = .neg c → (s ∈ N c ↔ value c = true))
    (hbox : ∀ action c, op = .box action c → every = !k → Moved k (op.denote T N) s)
    (hdia : ∀ action c, op = .dia action c → some = !k → Moved k (op.denote T N) s)
    (h : op.eval (T.holds s) value every some = !k) : Moved k (op.denote T N) s := by
  cases op with
  | top => exact iff_of_true trivial (by simpa [eval] using h)
  | bot => exact iff_of_false (fun hs => hs) (by simpa [eval] using h)
  | atom p =>
      simp only [eval] at h
      show T.holds s p = true ↔ k = false
      rw [h]
      cases k <;> simp
  | neg c =>
      simp only [eval, Bool.not_inj_iff] at h
      show ¬ s ∈ N c ↔ k = false
      rw [hneg c rfl, h]
      cases k <;> simp
  | conj l r =>
      have hl := hreads l (by simp [reads])
      have hr := hreads r (by simp [reads])
      show s ∈ N l ∧ s ∈ N r ↔ k = false
      simp only [eval] at h
      cases k with
      | false =>
          rw [Bool.not_false, Bool.and_eq_true] at h
          exact iff_of_true ⟨(hl h.1).2 rfl, (hr h.2).2 rfl⟩ rfl
      | true =>
          rw [Bool.not_true, Bool.and_eq_false_iff] at h
          refine iff_of_false (fun hs => ?_) (by simp)
          rcases h with h | h
          · simpa using (hl h).1 hs.1
          · simpa using (hr h).1 hs.2
  | disj l r =>
      have hl := hreads l (by simp [reads])
      have hr := hreads r (by simp [reads])
      show s ∈ N l ∨ s ∈ N r ↔ k = false
      simp only [eval] at h
      cases k with
      | false =>
          rw [Bool.not_false, Bool.or_eq_true] at h
          exact iff_of_true (h.imp (fun h => (hl h).2 rfl) fun h => (hr h).2 rfl) rfl
      | true =>
          rw [Bool.not_true, Bool.or_eq_false_iff] at h
          refine iff_of_false (fun hs => ?_) (by simp)
          rcases hs with hs | hs
          · simpa using (hl h.1).1 hs
          · simpa using (hr h.2).1 hs
  | box action c => exact hbox action c rfl h
  | dia action c => exact hdia action c rfl h

end Operator

namespace EquationSystem

/-- **An extremal solution** of the equations over a transition system: in each block it moves away from
the start no further than anything that follows the equations of the block, given what it has further
in. -/
structure ExtremalOn (e : EquationSystem) (T : TransitionSystem) (N : Nat → Set T.State) :
    Prop where
  solves : ∀ v op, e.operator? v = some op → op.denote T N = N v
  extremal : ∀ (b : Nat) (M : Nat → Set T.State), (∀ v, b < e.blockOf v → M v = N v) →
    (∀ v a, e.operator? v = some (.atom a) → M v = N v) →
    (∀ v op, e.operator? v = some op → e.blockOf v = b →
      Leads (e.isMax v) (op.denote T M) (M v)) →
    ∀ v op, e.operator? v = some op → e.blockOf v = b → Leads (e.isMax v) (N v) (M v)

variable {e : EquationSystem} {T : TransitionSystem} {N M : Nat → Set T.State} {b : Nat}

/-- It is enough to follow the equations of some variables of a block, and to agree with the
solution about the others. -/
lemma ExtremalOn.leads_of_some (h : e.ExtremalOn T N) (he : e.WellFormed) {R : Nat → Prop}
    (hout : ∀ v, ¬ R v → M v = N v) (hinner : ∀ v, R v → b < e.blockOf v → M v = N v)
    (hatoms : ∀ v a, R v → e.operator? v = some (.atom a) → M v = N v)
    (hpre : ∀ v op, R v → e.operator? v = some op → e.blockOf v = b →
      Leads (e.isMax v) (op.denote T M) (M v)) :
    ∀ v op, e.operator? v = some op → e.blockOf v = b → Leads (e.isMax v) (N v) (M v) := by
  intro v op hop hv
  have hkind : ∀ w op', e.operator? w = some op' → e.blockOf w = b → e.isMax w = e.isMax v :=
    fun w op' hop' hw => he.isMax_congr (he.blockOf_lt (lt_size_of_operator? hop)) (hw.trans hv.symm)
  have hatoms' : ∀ w a, e.operator? w = some (.atom a) → M w = N w := by
    intro w a ha
    by_cases hR : R w
    · exact hatoms w a hR ha
    · exact hout w hR
  have hneg : ∀ w op' c, e.operator? w = some op' → op' = .neg c → M c = N c := by
    rintro w op' c hop' rfl
    obtain ⟨-, ⟨a, ha⟩, -⟩ := he.neg_atom w c hop'
    exact hatoms' c a ha
  -- What has moved in both follows all equations of the block.
  have hboth := h.extremal b (fun w => common (e.isMax v) (M w) (N w)) ?_ ?_ ?_ v op hop hv
  · exact hboth.trans common_leads_left
  · intro w hw
    have hMN : M w = N w := by
      by_cases hR : R w
      · exact hinner w hR hw
      · exact hout w hR
    simp only [hMN, common_self]
  · intro w a ha
    simp only [hatoms' w a ha, common_self]
  · intro w op' hop' hw
    rw [hkind w op' hop' hw]
    have hN : Leads (e.isMax v)
        (op'.denote T fun w => common (e.isMax v) (M w) (N w)) (N w) := by
      rw [← h.solves w op' hop']
      refine Operator.denote_leads (fun _ _ => common_leads_right) fun c hc => ?_
      simp only [hneg w op' c hop' hc, common_self]
    refine Leads.common ?_ hN
    by_cases hR : R w
    · have hM := hpre w op' hR hop' hw
      rw [hkind w op' hop' hw] at hM
      refine (Operator.denote_leads (fun _ _ => common_leads_left) fun c hc => ?_).trans hM
      simp only [hneg w op' c hop' hc, common_self]
    · rw [hout w hR]
      exact hN

end EquationSystem

end ModalCalls
