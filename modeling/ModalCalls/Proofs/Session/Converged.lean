import Mathlib
import ModalCalls.Proofs.Session.Begin

/-!
# What a run computes

After a run that ends well, no state of any block is left to update.  The session then stands for a
finished iteration (`Session.converged_of_run`), and so its transformers are extremal, block by block
(`Session.run_isExtremal`).
-/

namespace ModalCalls

namespace Session

open Snapshot

variable {system : System} {p : Program} {o : Options} {f : Formula} {j j' k : Journal}
  {s : Session} {r : Run}

/-- **A session for a formula after a run.** -/
structure Converged (p : Program) (f : Formula) (s : Session) : Prop extends s.OnTrack where
  program_eq : s.program = p
  formula : EquationSystem.ofFormula f = .ok s.equations
  deadlock : s.deadlock = startDeadlock p s.equations
  finished : s.snapshot.Finished p

/-- A run that ends well leaves nothing to do. -/
theorem converged_of_run (hp : p.WellFormed) (hbits : Store.validBits o.storageBits = true)
    (hbegin : begin p o f j = .ok s j') (hrun : SessionM.run ⟨s, k⟩ = .ok () r) :
    r.session.Converged p f := by
  obtain ⟨hontrack, hprogram, -, hformula, hdeadlock⟩ := begin_spec hp hbits hbegin
  obtain ⟨hevolves, hontrack', hblock, hidle⟩ := SessionM.run_spec hontrack hrun
  refine ⟨hontrack', hevolves.program.trans hprogram, ?_, ?_, hblock, fun i n _ => hidle i n⟩
  · rw [hevolves.equations]
    exact hformula
  · rw [hevolves.deadlock, hevolves.equations]
    exact hdeadlock

/-- What an operation answers after a run of a new session, if both end well. -/
def afterRun {α : Type} (p : Program) (o : Options) (f : Formula) (x : SessionM α) : Option α :=
  match begin p o f #[] with
  | .ok s j =>
    match (SessionM.run >>= fun _ => x) ⟨s, j⟩ with
    | .ok a _ => some a
    | .error _ _ => none
  | .error _ _ => none

lemma exists_of_afterRun {α : Type} {x : SessionM α} {a : α} (h : afterRun p o f x = some a) :
    ∃ s j r r', begin p o f #[] = .ok s j ∧ SessionM.run ⟨s, j⟩ = .ok () r ∧ x r = .ok a r' := by
  simp only [afterRun] at h
  split at h
  · next s j hbegin =>
      split at h
      · next r' hx =>
          cases h
          obtain ⟨_, r, hrun, hx⟩ := bind_eq_ok hx
          exact ⟨s, j, r, r', hbegin, hrun, hx⟩
      · cases h
  · cases h

namespace Converged

lemma wellFormed (h : s.Converged p f) : p.WellFormed :=
  h.program_eq ▸ h.program

lemma reached (h : s.Converged p f) : Reached p s.equations s.snapshot :=
  h.program_eq ▸ h.faithful.reached

/-- Every block is solved by its extremal solution, if operators read what was computed before. -/
lemma isExtremal (h : s.Converged p f) (hforward : s.equations.Forward) {b : Nat}
    (hb : b < s.equations.blocks.size) :
    IsExtremal p s.equations b (framed p s.equations b s.value) :=
  h.reached.isExtremal h.wellFormed h.equations hforward h.finished hb

/-- **The verdict** is the first entry where the main procedure begins, with what holds at its end as
the input. -/
lemma isSat_eq (h : s.Converged p f) {q : Procedure} (hq : p.procedures[p.main]? = some q) :
    s.isSat = .ok (s.value p.main q.initial 0 ((startDeadlock p s.equations).getD · false)) := by
  have hq' : s.program.procedures[s.program.main]? = some q := by
    rw [h.program_eq]
    exact hq
  obtain ⟨t, vars, ht, hholding, hcontains⟩ := h.exists_holding hq' (h.program.initial_lt _ q hq')
  simp only [isSat, procedure_ok hq']
  show (s.holding s.program.main q.initial >>= fun vars => .ok (vars.contains 0)) = _
  rw [hholding, ← h.deadlock, ← h.program_eq, value_of_transformer? ht]
  show Except.ok (vars.contains 0) = _
  rw [hcontains, decide_eq_true h.equations.size_pos, Bool.true_and]

end Converged

/-! ## Extremality

In general a run finds some solution of the equations of each block.  If every operator reads only what is
computed before it, the solution is the least or the greatest one for the blocks that were done before.  The
example has both kinds of blocks, one inside the other, and a call that reads its own procedure.
-/

/-- **A run computes extremal solutions, block by block.**  If every reference stands under a modality, then
after a run the entries of a block are the least solution of its equations, or the greatest one if it is
a greatest block, among assignments of monotone conditions.  Final states have the identity, blocks
further in count with what was computed for them, and blocks further out with their start values. -/
theorem run_isExtremal (hsystem : Program.ofSystem system = .ok p)
    (hbits : Store.validBits o.storageBits = true) (hguarded : f.normal.isGuarded = true)
    (hbegin : begin p o f j = .ok s j') (hrun : SessionM.run ⟨s, k⟩ = .ok () r) :
    EquationSystem.ofFormula f = .ok r.session.equations ∧
      ∀ b, b < r.session.equations.blocks.size →
        IsExtremal p r.session.equations b
          (framed p r.session.equations b r.session.value) := by
  have hconverged := converged_of_run (Program.wellFormed_of_system hsystem) hbits hbegin hrun
  refine ⟨hconverged.formula, fun b hb => hconverged.isExtremal ?_ hb⟩
  exact EquationSystem.forward_of_guarded hconverged.formula hguarded

/-- A procedure that takes a step and then calls itself, or perhaps does not. -/
def callingGraph : ProcessGraph where
  states := #[["p"], [], []]
  edges := #[⟨some 0, 1, "a", .must, .internal⟩, ⟨some 1, 2, "main", .must, .call⟩,
    ⟨some 1, 2, "b", .may, .internal⟩]
  initial := some 0
  final := some 2

def callingProgram : Program :=
  ⟨0, #[⟨"main", callingGraph, 0, 2⟩]⟩

/-- It is always possible to get to `p` again: a greatest block around a least one. -/
def alwaysPossibly : Formula :=
  .nu "X" (.conj (.mu "Y" (.disj (.atom "p") (.dia none (.ref "Y")))) (.box none (.ref "X")))

theorem run_isExtremal_callingProgram : ∃ s j r,
    begin callingProgram { storageBits := 4 } alwaysPossibly #[] = .ok s j ∧
    SessionM.run ⟨s, j⟩ = .ok () r ∧
    EquationSystem.ofFormula alwaysPossibly = .ok r.session.equations ∧
    ∀ b, b < r.session.equations.blocks.size →
      IsExtremal callingProgram r.session.equations b
        (framed callingProgram r.session.equations b r.session.value) := by
  have hends : afterRun callingProgram { storageBits := 4 } alwaysPossibly (pure true)
      = some true := by decide +kernel
  obtain ⟨s, j, r, -, hbegin, hrun, -⟩ := exists_of_afterRun hends
  have hsystem : Program.ofSystem { main := "main", procedures := [("main", callingGraph)] }
      = .ok callingProgram := rfl
  exact ⟨s, j, r, hbegin, hrun, run_isExtremal hsystem rfl (by decide) hbegin hrun⟩

end Session

end ModalCalls
