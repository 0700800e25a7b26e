import Mathlib
import ModalCalls.Proofs.Session.Converged

/-!
# The order of updates

If no operator reads an entry of its own block that is computed after it, the outcome of a run does not
depend on the order of updates: extremal solutions are unique, and the serial form of a transformer
depends on its meaning only (`Session.serialAt_eq_of_forward`).

Without that condition the order counts.  An update reads the entries of its own state as they are when its
turn comes, but a change does not mark the state itself; `Session.pick_order_matters` has a formula whose
verdict differs.
-/

namespace ModalCalls

namespace Session

variable {system : System} {p : Program} {f : Formula} {e : EquationSystem}

namespace Converged

variable {s t : Session} {q : Procedure} {i n : Nat}

lemma equations_eq (h : s.Converged p f) (he : EquationSystem.ofFormula f = .ok e) :
    s.equations = e :=
  Except.ok.inj (h.formula.symm.trans he)

/-- Converged sessions mean the same. -/
lemma value_unique (hs : s.Converged p f) (ht : t.Converged p f)
    (hforward : s.equations.Forward) : s.value = t.value := by
  have he := ht.equations_eq hs.formula
  have hreached : Snapshot.Reached p s.equations t.snapshot := he ▸ ht.reached
  exact hs.reached.value_unique hs.wellFormed hs.equations hforward hreached hs.finished ht.finished

/-- Sessions that mean the same have the same serial transformers. -/
lemma serialAt_eq (hs : s.Converged p f) (ht : t.Converged p f) (hvalue : s.value = t.value)
    (hq : p.procedures[i]? = some q) (hn : n < q.size) :
    ∃ texts, s.serialAt i n = .ok texts ∧ t.serialAt i n = .ok texts := by
  obtain ⟨u, hu⟩ := hs.exists_transformer (hs.program_eq ▸ hq) hn
  obtain ⟨w, hw⟩ := ht.exists_transformer (ht.program_eq ▸ hq) hn
  have hlives : w.Lives t.store s.equations.size :=
    ht.equations_eq hs.formula ▸ ht.lives i n w hw
  obtain ⟨texts, hu', hw'⟩ := Transformer.serial_eq_of_summary_eq hs.store.toShaped
    ht.store.toShaped (hs.lives i n u hu) hlives fun v _ => by
      rw [← value_of_transformer? hu, ← value_of_transformer? hw, hvalue]
  refine ⟨texts, ?_, ?_⟩
  · simp only [serialAt, transformer_ok hu]
    exact hu'
  · simp only [serialAt, transformer_ok hw]
    exact hw'

end Converged

/-- **Confluence.**  If operators read only what was computed before them, two runs for the same formula
have the same verdict and the same serial transformers at all states, whatever the order of updates and
the size of the store. -/
theorem serialAt_eq_of_forward {o₁ o₂ : Options} {j₁ j₁' k₁ j₂ j₂' k₂ : Journal} {s₁ s₂ : Session}
    {r₁ r₂ : Run} (hsystem : Program.ofSystem system = .ok p)
    (hbits₁ : Store.validBits o₁.storageBits = true) (hbits₂ : Store.validBits o₂.storageBits = true)
    (hformula : EquationSystem.ofFormula f = .ok e) (hforward : e.Forward)
    (hbegin₁ : begin p o₁ f j₁ = .ok s₁ j₁') (hrun₁ : SessionM.run ⟨s₁, k₁⟩ = .ok () r₁)
    (hbegin₂ : begin p o₂ f j₂ = .ok s₂ j₂') (hrun₂ : SessionM.run ⟨s₂, k₂⟩ = .ok () r₂) :
    (∃ sat, r₁.session.isSat = .ok sat ∧ r₂.session.isSat = .ok sat) ∧
      ∀ (i : Nat) (q : Procedure) (n : Nat), p.procedures[i]? = some q → n < q.size →
        ∃ texts, r₁.session.serialAt i n = .ok texts ∧ r₂.session.serialAt i n = .ok texts := by
  have hp := Program.wellFormed_of_system hsystem
  have h₁ := converged_of_run hp hbits₁ hbegin₁ hrun₁
  have h₂ := converged_of_run hp hbits₂ hbegin₂ hrun₂
  have hvalue := h₁.value_unique h₂ (h₁.equations_eq hformula ▸ hforward)
  refine ⟨?_, fun i q n hq hn => h₁.serialAt_eq h₂ hvalue hq hn⟩
  obtain ⟨q, hq⟩ := hp.main
  refine ⟨_, h₁.isSat_eq hq, ?_⟩
  rw [h₂.isSat_eq hq, hvalue, h₁.equations_eq hformula, h₂.equations_eq hformula]

theorem serialAt_eq_of_forward_callingProgram : ∃ s₁ j₁ r₁ s₂ j₂ r₂,
    begin callingProgram { pick := .oldest, storageBits := 4 } alwaysPossibly #[] = .ok s₁ j₁ ∧
    SessionM.run ⟨s₁, j₁⟩ = .ok () r₁ ∧
    begin callingProgram { pick := .newest, storageBits := 4 } alwaysPossibly #[] = .ok s₂ j₂ ∧
    SessionM.run ⟨s₂, j₂⟩ = .ok () r₂ ∧
    (∃ sat, r₁.session.isSat = .ok sat ∧ r₂.session.isSat = .ok sat) ∧
    ∀ (i : Nat) (q : Procedure) (n : Nat), callingProgram.procedures[i]? = some q → n < q.size →
      ∃ texts, r₁.session.serialAt i n = .ok texts ∧ r₂.session.serialAt i n = .ok texts := by
  have hends₁ : afterRun callingProgram { pick := .oldest, storageBits := 4 } alwaysPossibly
      (pure true) = some true := by decide +kernel
  have hends₂ : afterRun callingProgram { pick := .newest, storageBits := 4 } alwaysPossibly
      (pure true) = some true := by decide +kernel
  obtain ⟨s₁, j₁, r₁, -, hbegin₁, hrun₁, -⟩ := exists_of_afterRun hends₁
  obtain ⟨s₂, j₂, r₂, -, hbegin₂, hrun₂, -⟩ := exists_of_afterRun hends₂
  have hsystem : Program.ofSystem { main := "main", procedures := [("main", callingGraph)] }
      = .ok callingProgram := rfl
  have hformula := (converged_of_run (Program.wellFormed_of_system hsystem) rfl hbegin₁ hrun₁).formula
  exact ⟨s₁, j₁, r₁, s₂, j₂, r₂, hbegin₁, hrun₁, hbegin₂, hrun₂,
    serialAt_eq_of_forward hsystem rfl rfl hformula
      (EquationSystem.forward_of_guarded hformula (by decide)) hbegin₁ hrun₁ hbegin₂ hrun₂⟩

/-! ## Where the order counts

The formula below has a reference that is read at the state itself, before the fixpoint it refers to has its
value there, and a change does not mark the state that was changed.  So much depends on whether a successor
changes later.  With the oldest state first, the end of the chain is updated last, and the states before it
are updated again.  With the newest first it has its value before they are looked at.
-/

/-- Three steps in a row, the first of which has a label of its own. -/
def chainGraph : ProcessGraph where
  states := #[[], ["p"], ["p"], []]
  edges := #[⟨some 0, 1, "a", .must, .internal⟩, ⟨some 1, 2, "c", .must, .internal⟩,
    ⟨some 2, 3, "c", .must, .internal⟩]
  initial := some 0
  final := some 3

def chainProgram : Program :=
  ⟨0, #[⟨"m", chainGraph, 0, 3⟩]⟩

/-- A reference that is read where it stands, and not after a step. -/
def unguardedReference : Formula :=
  .mu "X" (.disj (.atom "p") (.mu "Y" (.disj (.ref "X") (.dia (some "a") (.ref "Y")))))

/-- **The order of updates counts** if references are read where they stand: both runs end well, and their
verdicts differ. -/
theorem pick_order_matters : ∃ s₁ j₁ r₁ s₂ j₂ r₂,
    Program.ofSystem { main := "m", procedures := [("m", chainGraph)] } = .ok chainProgram ∧
    begin chainProgram { pick := .oldest, storageBits := 4 } unguardedReference #[] = .ok s₁ j₁ ∧
    SessionM.run ⟨s₁, j₁⟩ = .ok () r₁ ∧ r₁.session.isSat = .ok true ∧
    begin chainProgram { pick := .newest, storageBits := 4 } unguardedReference #[] = .ok s₂ j₂ ∧
    SessionM.run ⟨s₂, j₂⟩ = .ok () r₂ ∧ r₂.session.isSat = .ok false := by
  have hends₁ : afterRun chainProgram { pick := .oldest, storageBits := 4 } unguardedReference
      (SessionM.inspect (·.isSat)) = some true := by decide +kernel
  have hends₂ : afterRun chainProgram { pick := .newest, storageBits := 4 } unguardedReference
      (SessionM.inspect (·.isSat)) = some false := by decide +kernel
  obtain ⟨s₁, j₁, r₁, r₁', hbegin₁, hrun₁, hsat₁⟩ := exists_of_afterRun hends₁
  obtain ⟨s₂, j₂, r₂, r₂', hbegin₂, hrun₂, hsat₂⟩ := exists_of_afterRun hends₂
  exact ⟨s₁, j₁, r₁, s₂, j₂, r₂, rfl, hbegin₁, hrun₁, (SessionM.inspect_eq_ok hsat₁).1, hbegin₂,
    hrun₂, (SessionM.inspect_eq_ok hsat₂).1⟩

end Session

end ModalCalls
