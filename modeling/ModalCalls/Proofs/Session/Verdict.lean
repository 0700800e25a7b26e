import Mathlib
import ModalCalls.Proofs.Semantics.Nesting
import ModalCalls.Proofs.Semantics.Summaries
import ModalCalls.Proofs.Session.Converged
import ModalCalls.Solve

/-!
# Verdicts are right

Model checking answers whether the initial configuration of a program satisfies a formula
(`Program.solve_iff_mem_denote`).  Everything before comes together here.  A run that ends well has
finished an iteration, its summaries tell what is true in configurations, and that is what the formula
means.

The program must not have a procedure that ends where it begins.  Of the formula, in normal form, no
fixpoint may reach into one of the other kind, and every reference stands under a modality.
-/

namespace ModalCalls

variable {system : System} {p : Program} {o : Options} {f : Formula} {j j' : Journal} {s : Session}

/-- What holds at the end of the main procedure is what a session starts from. -/
lemma exitValues_main (e : EquationSystem) (A : Assignment) :
    exitValues e A p.main ([] : List (Location p))
      = ((Session.startDeadlock p e).getD · false) := by
  funext w
  by_cases hw : w < e.size
  · exact ((VarSet.getD_toBools _ _ hw).trans (VarSet.contains_ofBools _ _)).symm
  · have hvalues : (e.deadlockValues ((p.exitAtoms p.main).contains ·)).getD w false = false := by
      simp [EquationSystem.size_deadlockValues, hw]
    have hstart : (Session.startDeadlock p e).getD w false = false := by
      simp [Session.startDeadlock, VarSet.toBools, hw]
    rw [hstart]
    exact hvalues

namespace Session.Converged

/-- A session after a run is conclusive about formulas without alternation whose references stand under
modalities. -/
lemma conclusive (h : s.Converged p f)
    (hproper : ∀ (i : Nat) (q : Procedure), p.procedures[i]? = some q → q.initial ≠ q.final)
    (hfree : f.normal.isAlternationFree = true) (hguarded : f.normal.isGuarded = true) :
    s.snapshot.Conclusive p s.equations where
  program := h.wellFormed
  proper := hproper
  equations := h.equations
  forward := EquationSystem.forward_of_guarded h.formula hguarded
  layered := EquationSystem.layered_of_alternationFree h.formula hfree
  reached := h.reached
  finished := h.finished

/-- **The first variable is what the formula means**, at all configurations. -/
lemma denote_eq (h : s.Converged p f)
    (hproper : ∀ (i : Nat) (q : Procedure), p.procedures[i]? = some q → q.initial ≠ q.final)
    (hfree : f.normal.isAlternationFree = true) (hguarded : f.normal.isGuarded = true)
    (ρ : String → Set p.configurations.State) :
    f.normal.denote p.configurations ρ = truth s.equations s.value 0 := by
  obtain ⟨part, hpart, heq⟩ := EquationSystem.exists_numbered h.formula
  have hextremal := (h.conclusive hproper hfree hguarded).extremalOn
  rw [heq] at hextremal
  rw [hpart.denote_eq hextremal hfree ρ, heq]
  rfl

/-- The verdict is about the initial configuration. -/
lemma isSat_eq_truth (h : s.Converged p f) {b : Bool} (hsat : s.isSat = .ok b) :
    b = true ↔ h.wellFormed.start ∈ truth s.equations s.value 0 := by
  obtain ⟨q, hq⟩ := h.wellFormed.main
  rw [h.isSat_eq hq, Except.ok.injEq, ← exitValues_main] at hsat
  rw [← hsat]
  show _ ↔ s.value p.main (((p.procedures[p.main]?).map (·.initial)).getD 0) 0 _ = true
  rw [hq]
  rfl

end Session.Converged

namespace Program

/-- A verdict comes from a run. -/
lemma exists_run_of_solve {b : Bool} (hsolve : p.solve o f j = .ok b j') :
    ∃ s k r, Session.begin p o f j = .ok s k ∧ SessionM.run ⟨s, k⟩ = .ok () r ∧
      r.session.isSat = .ok b := by
  obtain ⟨s, k, hbegin, hconclude⟩ := bind_eq_ok hsolve
  simp only [Session.conclude] at hconclude
  split at hconclude
  · next _ _ hverdict =>
      cases hconclude
      obtain ⟨_, r, hrun, hrest⟩ := bind_eq_ok hverdict
      obtain ⟨sat, _, hinspect, hreport⟩ := bind_eq_ok hrest
      obtain ⟨_, _, -, hreturn⟩ := bind_eq_ok hreport
      cases hreturn
      exact ⟨s, k, r, hbegin, hrun, (SessionM.inspect_eq_ok hinspect).1⟩
  · cases hconclude

/-- A verdict comes from a session after a run. -/
lemma exists_converged_of_solve (hp : p.WellFormed) (hbits : Store.validBits o.storageBits = true)
    {b : Bool} (hsolve : p.solve o f j = .ok b j') :
    ∃ s : Session, s.Converged p f ∧ s.isSat = .ok b := by
  obtain ⟨s, k, r, hbegin, hrun, hsat⟩ := exists_run_of_solve hsolve
  exact ⟨r.session, Session.converged_of_run hp hbits hbegin hrun, hsat⟩

/-- **Model checking is right.**  Take a program in which no procedure ends where it begins, and a formula
whose normal form is alternation-free and has its references under modalities.  A verdict says whether
the initial configuration of the main procedure satisfies the normal form, over all configurations of
the program.  The formula is closed, so it does not matter what names stand for. -/
theorem solve_iff_mem_denote (hsystem : ofSystem system = .ok p)
    (hproper : ∀ (i : Nat) (q : Procedure), p.procedures[i]? = some q → q.initial ≠ q.final)
    (hbits : Store.validBits o.storageBits = true)
    (hfree : f.normal.isAlternationFree = true) (hguarded : f.normal.isGuarded = true) {b : Bool}
    (hsolve : p.solve o f j = .ok b j') (ρ : String → Set p.configurations.State) :
    b = true ↔ (wellFormed_of_system hsystem).start ∈ f.normal.denote p.configurations ρ := by
  obtain ⟨s, hconverged, hsat⟩ :=
    exists_converged_of_solve (wellFormed_of_system hsystem) hbits hsolve
  rw [hconverged.denote_eq hproper hfree hguarded ρ]
  exact hconverged.isSat_eq_truth hsat

/-- There is a path that never ends, and all along it one can get away from `p`: a greatest block around
a least one. -/
def alwaysAway : Formula :=
  .nu "X" (.conj (.mu "Y" (.disj (.neg (.atom "p")) (.dia none (.ref "Y")))) (.dia none (.ref "X")))

/-- The graph of the calling procedure has no cycle.  Its paths go on because of its calls. -/
theorem solve_iff_mem_denote_callingProgram :
    ∃ hsystem : ofSystem { main := "main", procedures := [("main", Session.callingGraph)] }
        = .ok Session.callingProgram,
      answer (Session.callingProgram.solve { storageBits := 4 } alwaysAway) #[] = .ok true ∧
      (wellFormed_of_system hsystem).start
        ∈ alwaysAway.normal.denote Session.callingProgram.configurations fun _ => ∅ := by
  have hsat : (answer (Session.callingProgram.solve { storageBits := 4 } alwaysAway) #[]).toOption
      = some true := by decide +kernel
  have hanswer : answer (Session.callingProgram.solve { storageBits := 4 } alwaysAway) #[]
      = .ok true := by
    revert hsat
    cases answer (Session.callingProgram.solve { storageBits := 4 } alwaysAway) #[] with
    | error err => exact fun hsat => nomatch hsat
    | ok b => exact fun hsat => congrArg Except.ok (Option.some.inj hsat)
  have hsystem : ofSystem { main := "main", procedures := [("main", Session.callingGraph)] }
      = .ok Session.callingProgram := rfl
  refine ⟨hsystem, hanswer, ?_⟩
  refine (solve_iff_mem_denote hsystem ?_ rfl (by decide) (by decide) (answer_eq_ok_iff.1 hanswer)
    fun _ => ∅).1 rfl
  intro i q hq
  match i with
  | 0 =>
      cases hq
      decide
  | i + 1 => simp [Session.callingProgram] at hq

end Program

end ModalCalls
