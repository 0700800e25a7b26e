import Mathlib
import ModalCalls.Proofs.Semantics.Summaries

/-!
# Where a witness may end

Truth, atoms and negated atoms need no further explanation.  `EquationSystem.leafValue` is their value where
certain atoms hold.  Their equations read nothing but an atom that is computed before, so a finished iteration
has this value at every state, a deadlock has it, and by the summaries a configuration has it, with the atoms
of where control is in effect (`mem_truth_of_leaf`).  This is so for all formulas that have equations.
-/

namespace ModalCalls

namespace EquationSystem

/-- **The value of a variable that stands for truth, an atom or a negated atom.** -/
def leafValue (e : EquationSystem) (holds : String → Bool) (v : Nat) : Option Bool :=
  match e.operator? v with
  | some .top => some true
  | some (.atom a) => some (holds a)
  | some (.neg c) =>
    match e.operator? c with
    | some (.atom a) => some (!holds a)
    | _ => none
  | _ => none

variable {e : EquationSystem} {holds : String → Bool} {v : Nat} {k : Bool}

/-- The three kinds of leaves. -/
lemma leafValue_cases (h : e.leafValue holds v = some k) :
    (e.operator? v = some .top ∧ k = true) ∨ (∃ a, e.operator? v = some (.atom a) ∧ k = holds a) ∨
      ∃ c a, e.operator? v = some (.neg c) ∧ e.operator? c = some (.atom a) ∧ k = !holds a := by
  simp only [leafValue] at h
  split at h
  · next hop => exact Or.inl ⟨hop, (Option.some.inj h).symm⟩
  · next a hop => exact Or.inr (Or.inl ⟨a, hop, (Option.some.inj h).symm⟩)
  · next c hop =>
      split at h
      · next a hatom => exact Or.inr (Or.inr ⟨c, a, hop, hatom, (Option.some.inj h).symm⟩)
      · cases h
  · cases h

/-- A leaf does not ask for a step. -/
lemma not_dia_of_leaf (h : e.leafValue holds v = some k) (action : Option String) (d : Nat) :
    e.operator? v ≠ some (.dia action d) := by
  rcases leafValue_cases h with ⟨hop, -⟩ | ⟨a, hop, -⟩ | ⟨c, a, hop, -⟩ <;> simp [hop]

/-- The atom under a negation is computed before it. -/
lemma WellFormed.sooner_of_neg (he : e.WellFormed) {c : Nat} (hop : e.operator? v = some (.neg c)) :
    e.blockOf c = e.blockOf v ∧ v < c := by
  obtain ⟨hlt, -, hsame⟩ := he.neg_atom v c hop
  exact ⟨he.blockOf_eq (hsame _ (he.inBlock_blockOf (lt_size_of_operator? hop))), hlt⟩

/-- **Leaves at a deadlock.** -/
lemma deadlockValues_of_leaf (he : e.WellFormed) (h : e.leafValue holds v = some k) :
    (e.deadlockValues holds).getD v false = k := by
  have hatom : ∀ {c a}, e.operator? c = some (.atom a) →
      (e.deadlockValues holds).getD c false = holds a := fun hop =>
    deadlockValues_solves_of_sooner he hop (by simp [Operator.reads])
  rcases leafValue_cases h with ⟨hop, rfl⟩ | ⟨a, hop, rfl⟩ | ⟨c, a, hop, hc, rfl⟩
  · exact deadlockValues_solves_of_sooner he hop (by simp [Operator.reads])
  · exact hatom hop
  · have hsooner := he.sooner_of_neg hop
    rw [deadlockValues_solves_of_sooner he hop fun w hw => ?_, Operator.eval, hatom hc]
    obtain rfl := List.mem_singleton.1 hw
    exact Or.inr ⟨hsooner.1.symm, hsooner.2⟩

end EquationSystem

namespace Snapshot

variable {p : Program} {e : EquationSystem} {S : Snapshot} {i n v : Nat} {k : Bool}

/-- **Leaves at a state**, in a finished iteration. -/
lemma Reached.value_of_leaf (he : e.WellFormed) (h : Reached p e S) (hdone : S.Finished p)
    (hi : p.isInner i n = true) (hleaf : e.leafValue ((p.atomsAt i n).contains ·) v = some k) :
    S.value i n v = fun _ => k := by
  have hequation : ∀ {u op}, e.operator? u = some op → e.Ahead u →
      S.value i n u = p.nodeRhs e (framed p e (e.blockOf u) S.value) i n
        (framed p e (e.blockOf u) S.value i n) u := fun hop hahead =>
    h.equation he hdone (he.blockOf_lt (EquationSystem.lt_size_of_operator? hop)) hi rfl hahead
  have hatom : ∀ {c a}, e.operator? c = some (.atom a) →
      S.value i n c = fun _ => (p.atomsAt i n).contains a := by
    intro c a hop
    rw [hequation hop (by simp [EquationSystem.Ahead, EquationSystem.readsOf, hop, Operator.reads])]
    funext x
    simp only [Program.nodeRhs, EquationSystem.rhs, hop, Operator.eval]
  rcases EquationSystem.leafValue_cases hleaf with ⟨hop, rfl⟩ | ⟨a, hop, rfl⟩ | ⟨c, a, hop, hc, rfl⟩
  · rw [hequation hop (by simp [EquationSystem.Ahead, EquationSystem.readsOf, hop, Operator.reads])]
    funext x
    simp only [Program.nodeRhs, EquationSystem.rhs, hop, Operator.eval]
  · exact hatom hop
  · obtain ⟨hblock, hlt⟩ := he.sooner_of_neg hop
    have hahead : e.Ahead v := by
      intro w hw _
      simp only [EquationSystem.readsOf, hop, Option.map_some, Option.getD_some, Operator.reads,
        List.mem_singleton] at hw
      exact hw ▸ hlt
    rw [hequation hop hahead]
    funext x
    simp only [Program.nodeRhs, EquationSystem.rhs, hop, Operator.eval, framed_of_le hblock.ge,
      hatom hc]

end Snapshot

/-! ## Configurations

At a configuration whose procedure has not ended the summary of its state decides, and a leaf does not
depend on the input.  Where the procedure has ended one looks further down the stack, to the first frame
that has not, or to the deadlock at the bottom.
-/

section Truth

open Snapshot

variable {p : Program} {e : EquationSystem} {S : Snapshot} {v : Nat} {k : Bool} {l l' : Location p}
  {stack : List (Location p)} {c : Config p}

/-- Where the outermost procedure has ended, the atoms are those of its final state. -/
lemma holds_of_isExit (hl : l.isExit = true) :
    p.configurations.holds (⟨l, []⟩ : Config p) = ((p.exitAtoms l.procedure).contains ·) := by
  have hresume : (⟨l, []⟩ : Config p).resume = ⟨l, []⟩ := rfl
  rw [holds_of_resume_eq hresume, atomsAt_of_isExit hl]

/-- Where a procedure has ended, a variable is true if it is true after the return. -/
lemma mem_truth_of_isExit (h : Reached p e S) (hl : l.isExit = true) :
    (⟨l, stack⟩ : Config p) ∈ truth e S.value v ↔ exitValues e S.value l.procedure stack v = true := by
  show S.value l.procedure l.state v (exitValues e S.value l.procedure stack) = true ↔ _
  rw [h.value_of_not_inner (Location.not_isInner_iff.2 hl)]

lemma mem_truth_return_iff (h : Reached p e S) (hl : l.isExit = true) :
    (⟨l, l' :: stack⟩ : Config p) ∈ truth e S.value v ↔
      (⟨l', stack⟩ : Config p) ∈ truth e S.value v :=
  mem_truth_of_isExit h hl

/-- **A leaf is true in a configuration exactly if its value is**, with the atoms of where control is in
effect. -/
theorem mem_truth_of_leaf (he : e.WellFormed) (h : Reached p e S) (hdone : S.Finished p)
    (hleaf : e.leafValue (p.configurations.holds c) v = some k) :
    c ∈ truth e S.value v ↔ k = true := by
  induction c using Config.resume_induction with
  | hinner l stack hl =>
      rw [holds_of_resume_eq (resume_of_not_isExit hl)] at hleaf
      show S.value l.procedure l.state v _ = true ↔ _
      rw [h.value_of_leaf he hdone (Location.isInner_iff.2 hl) hleaf]
  | hend l hl =>
      rw [holds_of_isExit hl] at hleaf
      rw [mem_truth_of_isExit h hl]
      show (e.deadlockValues ((p.exitAtoms l.procedure).contains ·)).getD v false = true ↔ _
      rw [EquationSystem.deadlockValues_of_leaf he hleaf]
  | hreturn l l' stack hl ih =>
      rw [mem_truth_return_iff h hl]
      refine ih ?_
      simpa only [Program.configurations, resume_of_isExit hl] using hleaf

end Truth

end ModalCalls
