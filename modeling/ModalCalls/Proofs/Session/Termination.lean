import Mathlib
import ModalCalls.Proofs.Iteration.Rising
import ModalCalls.Proofs.Session.Converged
import ModalCalls.Solve

/-!
# Runs come to an end

Every step of a session that asks for more brings the iteration it stands for nearer to its end
(`Session.Transition.remaining_lt`).  So without a budget the steps end, after a number of them that the
program and the equations alone bound, either because nothing is left to do or because the store is full.
The steps that a run allows for are never used up (`SessionM.run_answer`), and model checking always
returns (`Program.solve_returns`).
-/

namespace ModalCalls

namespace Session

open Snapshot SessionM

variable {s s' : Session} {i n : Nat} {rest : WorkSet}

/-- An update of the state that is next brings the end nearer. -/
lemma Updated.remaining_lt (hs : s.OnTrack) (hnext : next? s = some (i, n, rest))
    (h : (s.setPending i rest).Updated i n s') (hroom : s'.store.overflowed = false) :
    s'.snapshot.remaining s.program s.equations < s.snapshot.remaining s.program s.equations := by
  obtain @⟨block, along, old, new, s₁, hblock, hcomputed, hold, hinstalled⟩ := h
  obtain ⟨hpending, hfewer, -⟩ := pending_of_next? hnext
  have htaken : s.Rearranged (s.setPending i rest) := setPending_rearranged rest
  have hext := hcomputed.extended
  have hvalue : s₁.value = s.value :=
    (hext.value (intact_of_next? hs.toIntact hnext)).trans htaken.value
  have hrenewed : new.summary s₁.store
      = s.snapshot.renewed s.program s.equations i n block.vars := by
    rw [hcomputed.renewed (hinstalled.shares.store ▸ hroom)]
    simp only [renewed, snapshot, htaken.value]
    rfl
  have hreplaced : ∀ {s₂ : Session}, s₁.Replaced i n old new s₂ →
      s₂.snapshot.remaining s.program s.equations < s.snapshot.remaining s.program s.equations := by
    intro s₂ hrep
    have hlt := hs.faithful.reached.remaining_update (D := s₂.Pending) hs.program hs.equations
      (hs.inner i n hpending) hblock hpending fun hsame j m hjm => ?_
    · rw [snapshot, hrep.block, hext.block, hrep.value, hvalue, hrenewed]
      exact hlt
    · -- without a change nothing is marked, and the state itself was taken out
      have heq : new = old := Transformer.eq_of_summary_eq hext.intact.store.toShaped
        hcomputed.lives (hext.intact.lives i n old hold) fun v _ => by
          rw [hrenewed, ← value_of_transformer? hold, hvalue]
          exact congrFun hsame v
      rw [hrep.same heq, hext.pending] at hjm
      refine ⟨hfewer j m hjm, ?_⟩
      rintro ⟨rfl, rfl⟩
      exact not_pending_of_next? hnext hjm
  cases hinstalled with
  | stays hrep => exact hreplaced hrep
  | advances s₂ hrep hpos _ hadv =>
      exact (remaining_advance hpos hadv.block).trans (hreplaced hrep)

/-- **Every step that asks for more brings the end nearer.** -/
theorem Transition.remaining_lt (h : s.Transition (.ok true) s') (hs : s.OnTrack) :
    s'.snapshot.remaining s.program s.equations < s.snapshot.remaining s.program s.equations := by
  cases h with
  | advanced _ hpos hadv => exact remaining_advance hpos hadv.block
  | updated hnext _ hupdated hroom => exact hupdated.remaining_lt hs hnext hroom

/-- Without a budget, steps fail only for want of room. -/
lemma Transition.answer_cases {answer : Except SolveError Bool} (h : s.Transition answer s')
    (hbudget : s.options.budget = none) :
    answer = .ok true ∨ answer = .ok false ∨ ∃ c, answer = .error (.storage (.storageFull c)) := by
  cases h with
  | finished => exact Or.inr (Or.inl rfl)
  | advanced => exact Or.inl rfl
  | exhausted _ hexhausted => simp [exhausted?, hbudget] at hexhausted
  | updated => exact Or.inl rfl
  | overflowed => exact Or.inr (Or.inr ⟨_, rfl⟩)

lemma stepBound_eq (s : Session) :
    s.stepBound = (s.block + 1) * blockSteps s.program s.equations + 1 := by
  simp only [stepBound, stateCount, blockSteps, changes, Program.length_states]
  rfl

end Session

namespace SessionM

open Session Snapshot

variable {r : Run}

/-! ## Sequences of steps

A step can be repeated whatever it has answered, and the steps of a session are numbered from any point on.
What is left of an iteration is a bound for the number of steps that ask for more.  A run makes the same
steps and stops with the first one that does not.
-/

/-- What a number of steps lead to, whatever they answer. -/
def stepped (count : Nat) : Run → Run :=
  (after step)^[count]

/-- The first steps ask for more, and the last one does not: nothing is left to do, or the store is
full. -/
structure EndsAfter (r : Run) (count : Nat) : Prop where
  more : ∀ m < count, answer step (stepped m r) = .ok true
  last : answer step (stepped count r) = .ok false ∨
    ∃ c, answer step (stepped count r) = .error (.storage (.storageFull c))

/-- A first step before the others. -/
lemma EndsAfter.succ {count : Nat} (hstep : answer step r = .ok true)
    (h : EndsAfter (after step r) count) : EndsAfter r (count + 1) where
  more m hm := by
    cases m with
    | zero => exact hstep
    | succ m => exact h.more m (by omega)
  last := h.last

/-- **Steps come to an end** before what is left of the iteration is used up. -/
theorem endsAfter_of_remaining : ∀ (bound : Nat) {r : Run}, r.session.OnTrack →
    r.session.options.budget = none →
    r.session.snapshot.remaining r.session.program r.session.equations ≤ bound →
    ∃ count < bound, EndsAfter r count
  | 0, r, _, _, hle => by simp [remaining] at hle
  | bound + 1, r, h, hbudget, hle => by
      have htrans := step_transition h.toIntact
      rcases htrans.answer_cases hbudget with hmore | hlast
      · rw [hmore] at htrans
        have hevolves := htrans.evolves h.toIntact
        have hlt := htrans.remaining_lt h
        rw [← hevolves.program, ← hevolves.equations] at hlt
        obtain ⟨count, hcount, hends⟩ := endsAfter_of_remaining bound (htrans.onTrack h)
          (by rw [hevolves.options]; exact hbudget)
          (by rw [hevolves.program, hevolves.equations] at hlt ⊢; omega)
        exact ⟨count + 1, by omega, hends.succ hmore⟩
      · exact ⟨0, by omega, by simp, hlast⟩

/-- A run has the answer of its last step. -/
lemma EndsAfter.runWithin_answer : ∀ (steps : Nat) {count : Nat} {r : Run}, EndsAfter r count →
    count < steps →
    (∃ r', runWithin steps r = .ok () r') ∨
      ∃ c r', runWithin steps r = .error (.storage (.storageFull c)) r'
  | 0, _, _, _, hlt => by simp at hlt
  | steps + 1, 0, r, h, _ => by
      rcases h.last with hlast | ⟨c, hlast⟩
      · have hstep : step r = .ok false (after step r) := answer_eq_ok_iff.1 hlast
        rw [runWithin, bind_of_ok hstep]
        exact Or.inl ⟨_, rfl⟩
      · have hstep : step r = .error (.storage (.storageFull c)) (after step r) :=
          answer_eq_error_iff.1 hlast
        rw [runWithin, bind_of_error hstep]
        exact Or.inr ⟨c, _, rfl⟩
  | steps + 1, count + 1, r, h, hlt => by
      have hmore : step r = .ok true (after step r) := answer_eq_ok_iff.1 (h.more 0 (by omega))
      have hrest : EndsAfter (after step r) count :=
        ⟨fun m hm => h.more (m + 1) (by omega), h.last⟩
      rw [runWithin, bind_of_ok hmore]
      exact hrest.runWithin_answer steps (by omega)

/-- **Without a budget a run ends well, or the store is full.** -/
theorem run_answer (h : r.session.OnTrack) (hbudget : r.session.options.budget = none) :
    (∃ r', run r = .ok () r') ∨ ∃ c r', run r = .error (.storage (.storageFull c)) r' := by
  obtain ⟨count, hcount, hends⟩ := endsAfter_of_remaining _ h hbudget (remaining_le _)
  refine hends.runWithin_answer r.session.stepBound ?_
  rw [stepBound_eq]
  exact Nat.lt_succ_of_lt hcount

end SessionM

/-! ## Model checking returns

A run allows for a number of steps that is computed from the program and the equations.  That number is more
than what is left of the iteration, so it is never reached, and what remains is a verdict or a full store.
A formula that has no equations is excluded by the hypothesis, since its error would be a third answer.
-/

namespace Program

open SessionM

variable {system : System} {p : Program} {o : Options} {f : Formula} {e : EquationSystem}

/-- **Model checking always returns.**  Without a budget its answer is a verdict, or that the store is
full; no other failure and no bound on steps gets in the way.  The steps of the session are fewer than the
program and the equations allow for, whatever the order of updates and the size of the store are. -/
theorem solve_returns (hsystem : ofSystem system = .ok p)
    (hbits : Store.validBits o.storageBits = true) (hbudget : o.budget = none)
    (hformula : EquationSystem.ofFormula f = .ok e) (j : Journal) :
    ((∃ b, answer (p.solve o f) j = .ok b) ∨
      ∃ c, answer (p.solve o f) j = .error (.storage (.storageFull c))) ∧
    ∀ s j', Session.begin p o f j = .ok s j' → ∀ k : Journal,
      ∃ count < e.blocks.size * Snapshot.blockSteps p e, EndsAfter ⟨s, k⟩ count := by
  have hp := wellFormed_of_system hsystem
  refine ⟨?_, fun s j' hbegin k => ?_⟩
  · rcases Session.begin_answer (p := p) hbits hformula j with ⟨s, j', hbegin⟩ | ⟨c, j', hfull⟩
    · obtain ⟨hontrack, -, hoptions, -⟩ := Session.begin_spec hp hbits hbegin
      have hsolve : p.solve o f j = s.conclude (runToVerdict f) j' := by
        rw [solve, bind_of_ok hbegin]
      rcases run_answer (r := ⟨s, j'⟩) hontrack (hoptions ▸ hbudget) with ⟨r, hrun⟩ | ⟨c, r, hrun⟩
      · obtain ⟨sat, hsat⟩ := (run_spec hontrack hrun).2.1.toIntact.exists_isSat
        refine Or.inl ⟨sat, ?_⟩
        have hinspect : inspect (·.isSat) r = .ok sat r := by simp only [inspect, hsat]
        have hverdict : runToVerdict f ⟨s, j'⟩
            = .ok sat ⟨r.session, r.journal.push (.verdictReached f.display sat)⟩ := by
          rw [runToVerdict, bind_of_ok hrun, bind_of_ok hinspect]
          rfl
        simp only [answer, hsolve, Session.conclude, hverdict]
      · refine Or.inr ⟨c, ?_⟩
        have hverdict : runToVerdict f ⟨s, j'⟩ = .error (.storage (.storageFull c)) r := by
          rw [runToVerdict, bind_of_error hrun]
        simp only [answer, hsolve, Session.conclude, hverdict]
    · refine Or.inr ⟨c, ?_⟩
      rw [answer, solve, bind_of_error hfull]
  · obtain ⟨hontrack, hprogram, hoptions, hequations, -⟩ := Session.begin_spec hp hbits hbegin
    have he : s.equations = e := Except.ok.inj (hequations.symm.trans hformula)
    obtain ⟨count, hcount, hends⟩ := endsAfter_of_remaining (r := ⟨s, k⟩) _ hontrack
      (hoptions ▸ hbudget) (Snapshot.remaining_le _)
    refine ⟨count, Nat.lt_of_lt_of_le hcount ?_, hends⟩
    rw [hprogram, he]
    exact Nat.mul_le_mul_right _ (he ▸ hontrack.block)

/-- References directly under operators, and a least fixpoint that reads a greatest one around it. -/
def unguardedAlternation : Formula :=
  .nu "X" (.mu "Y" (.disj (.ref "Y") (.conj (.ref "X") (.dia none (.ref "Y")))))

theorem solve_returns_unguardedAlternation : ∃ e,
    EquationSystem.ofFormula unguardedAlternation = .ok e ∧
    ((∃ b, answer (Session.callingProgram.solve { storageBits := 4 } unguardedAlternation) #[] = .ok b) ∨
      ∃ c, answer (Session.callingProgram.solve { storageBits := 4 } unguardedAlternation) #[]
        = .error (.storage (.storageFull c))) ∧
    ∀ s j', Session.begin Session.callingProgram { storageBits := 4 } unguardedAlternation #[]
        = .ok s j' → ∀ k : Journal,
      ∃ count < e.blocks.size * Snapshot.blockSteps Session.callingProgram e,
        EndsAfter ⟨s, k⟩ count := by
  have hsystem : ofSystem { main := "main", procedures := [("main", Session.callingGraph)] }
      = .ok Session.callingProgram := rfl
  have haccepted : (EquationSystem.ofFormula unguardedAlternation).isOk = true := by decide +kernel
  cases hformula : EquationSystem.ofFormula unguardedAlternation with
  | error err => simp [hformula, Except.isOk, Except.toBool] at haccepted
  | ok e => exact ⟨e, rfl, solve_returns hsystem rfl rfl hformula #[]⟩

end Program

end ModalCalls
