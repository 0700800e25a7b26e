import Mathlib
import ModalCalls.Proofs.Session.Converged

/-!
# Stability

Computing the transformer of a state again after a run leads to the stored one exactly if the stored one
satisfies the equations of the outermost block, and then it needs no room
(`Session.Converged.recomputes_iff`).  If operators read only what was computed before them, every state
is stable in this sense (`Session.recomputes_stored`).

Modal equations always hold after a run, since a change marks whatever reads it across an edge.  What may
fail is the equation of an operator that reads its own state: `Session.unstable_after_run` has a run that
leaves such an equation unsatisfied.
-/

namespace ModalCalls

namespace SessionM

open Session

variable {r : Run} {q : Procedure} {i n : Nat}

/-- Computing a transformer again is computing a candidate. -/
lemma recompute_rule (h : r.session.Intact) (hq : r.session.program.procedures[i]? = some q)
    (hi : r.session.program.isInner i n = true) {post : Option Transformer → Run → Prop}
    (hc : Yields (candidate i n) r fun c r' => post (some c.2) r') :
    Yields (recompute q.name n) r post := by
  obtain ⟨hn, hfinal⟩ := (Program.isInner_iff hq).1 hi
  refine Yields.bind (inspect_ok rfl ?_)
  simp only [h.program.indexOf_name i q hq]
  refine Yields.bind (inspect_ok (procedure_ok hq) ?_)
  rw [if_neg (by omega)]
  exact Yields.map_pure hc

/-- What is computed is the next stage of the state. -/
lemma recompute_spec (h : r.session.Intact) (hq : r.session.program.procedures[i]? = some q)
    (hi : r.session.program.isInner i n = true) {block : Block}
    (hblock : r.session.equations.blocks[r.session.block]? = some block) :
    Yields (recompute q.name n) r fun u r' =>
      r.session.Extends r'.session ∧ ∃ new, u = some new ∧
        (r'.session.store.overflowed = false → new.summary r'.session.store
          = r.session.snapshot.renewed r.session.program r.session.equations i n block.vars) :=
  recompute_rule h hq hi ((candidate_spec h hi hblock).mono fun c _ hc =>
    ⟨hc.extended, c.2, rfl, fun ho => hc.renewed ho⟩)

end SessionM

namespace Session

variable {system : System} {p : Program} {o : Options} {f : Formula} {e : EquationSystem}
  {j j' k : Journal} {s : Session} {r : Run} {q : Procedure} {i n : Nat} {t : Transformer}

/-- Computing a transformer again leads to `t`, and the store has room for that. -/
def Recomputes (r : Run) (name : String) (n : Nat) (t : Transformer) : Prop :=
  ∃ r', SessionM.recompute name n r = .ok (some t) r' ∧ r'.session.store.overflowed = false

/-- The transformer of a state satisfies the equations of the outermost block. -/
def SolvedAt (s : Session) (i n : Nat) : Prop :=
  ∀ v, s.equations.blockOf v = 0 →
    s.value i n v = s.program.nodeRhs s.equations s.value i n (s.value i n) v

/-- **A state is stable exactly if its transformer satisfies the equations of the outermost block.** -/
theorem Converged.recomputes_iff (h : r.session.Converged p f) (hq : p.procedures[i]? = some q)
    (hinner : p.isInner i n = true) (ht : r.session.transformer? i n = some t) :
    Recomputes r q.name n t ↔ r.session.SolvedAt i n := by
  have hq' : r.session.program.procedures[i]? = some q := by
    rw [h.program_eq]
    exact hq
  have hi : r.session.program.isInner i n = true := by
    rw [h.program_eq]
    exact hinner
  obtain ⟨block, hblock⟩ : ∃ block, r.session.equations.blocks[r.session.block]? = some block :=
    ⟨_, Array.getElem?_eq_getElem h.block⟩
  have hzero : r.session.block = 0 := h.finished.block
  have hvars : ∀ v, v ∈ block.vars ↔ r.session.equations.blockOf v = 0 := fun v => by
    rw [h.equations.mem_vars_iff hblock, hzero]
  constructor
  · rintro ⟨r', hrecompute, ho⟩ v hv
    obtain ⟨hext, new, hnew, hmean⟩ :=
      (SessionM.recompute_spec h.toIntact hq' hi hblock).post_of_ok hrecompute
    obtain rfl := Option.some.inj hnew
    -- nothing was changed by the pass, so it found its equations satisfied
    have hsame : r.session.snapshot.renewed r.session.program r.session.equations i n block.vars
        = r.session.value i n := by
      rw [← hmean ho, value_of_transformer? ht]
      exact Transformer.summary_grows h.store.toShaped (h.lives i n t ht) hext.grows
    exact ((EquationSystem.pass_eq_self_iff (h.equations.nodup hblock) _).1 hsame v
      ((hvars v).2 hv)).symm
  · intro hsolved
    have hready := h.faithful.ready i n hi (h.finished.clean i n hinner)
    have hstable : Yields (SessionM.recompute q.name n) r fun u r' =>
        u = some t ∧ r.session.store.Quiet r'.session.store :=
      SessionM.recompute_rule h.toIntact hq' hi ((SessionM.candidate_stable h.toIntact h.room hi
        hblock hready fun v hv => hsolved v ((hvars v).1 hv)).mono fun c r' hc =>
          ⟨hc.2.1.symm.trans ht, hc.2.2⟩)
    obtain ⟨_, r', hrecompute, rfl, hquiet⟩ := hstable
    exact ⟨r', hrecompute, hquiet.overflowed.trans h.room⟩

/-- A state is stable if operators read what was computed before. -/
lemma Converged.solvedAt (h : s.Converged p f) (hforward : s.equations.Forward)
    (hi : p.isInner i n = true) : s.SolvedAt i n := by
  intro v hv
  rw [h.program_eq]
  exact h.reached.clean_solves h.equations i n v hi (h.finished.clean i n hi)
    (hv.trans h.finished.block.symm) (hforward v)

/-- **Stability after a run.**  Computing the transformer of a state again leads to the stored one exactly
if that one satisfies the equations of the outermost block.  This is always so if operators read only
what was computed before them. -/
theorem recomputes_stored (hsystem : Program.ofSystem system = .ok p)
    (hbits : Store.validBits o.storageBits = true) (hbegin : begin p o f j = .ok s j')
    (hrun : SessionM.run ⟨s, k⟩ = .ok () r) (hq : p.procedures[i]? = some q) (hn : n < q.size)
    (hfinal : n ≠ q.final) :
    ∃ t, r.session.transformer? i n = some t ∧
      (Recomputes r q.name n t ↔ r.session.SolvedAt i n) ∧
      (r.session.equations.Forward → Recomputes r q.name n t) := by
  have h := converged_of_run (Program.wellFormed_of_system hsystem) hbits hbegin hrun
  have hinner : p.isInner i n = true := (Program.isInner_iff hq).2 ⟨hn, hfinal⟩
  obtain ⟨t, ht⟩ := h.exists_transformer (h.program_eq ▸ hq) hn
  have hiff := h.recomputes_iff hq hinner ht
  exact ⟨t, ht, hiff, fun hforward => hiff.2 (h.solvedAt hforward hinner)⟩

theorem recomputes_stored_callingProgram : ∃ s j r t,
    begin callingProgram { storageBits := 4 } alwaysPossibly #[] = .ok s j ∧
    SessionM.run ⟨s, j⟩ = .ok () r ∧ r.session.transformer? 0 1 = some t ∧
    Recomputes r "main" 1 t := by
  have hends : afterRun callingProgram { storageBits := 4 } alwaysPossibly (pure true)
      = some true := by decide +kernel
  obtain ⟨s, j, r, -, hbegin, hrun, -⟩ := exists_of_afterRun hends
  have hsystem : Program.ofSystem { main := "main", procedures := [("main", callingGraph)] }
      = .ok callingProgram := rfl
  have hformula := (converged_of_run (Program.wellFormed_of_system hsystem) rfl hbegin hrun).formula
  obtain ⟨t, ht, -, hforward⟩ := recomputes_stored (i := 0) (n := 1) hsystem rfl hbegin hrun rfl
    (by decide) (by decide)
  exact ⟨s, j, r, t, hbegin, hrun, ht,
    hforward (EquationSystem.forward_of_guarded hformula (by decide))⟩

/-! ## A state that is not stable

The variables of a block are computed one after the other.  The inner disjunction below is computed before
the fixpoint that it refers to.  At that time its reference has the start value, and the state is not marked
again for its own change.
-/

/-- One step from a state with an atom. -/
def stepGraph : ProcessGraph where
  states := #[["p"], []]
  edges := #[⟨some 0, 1, "a", .must, .internal⟩]
  initial := some 0
  final := some 1

def stepProgram : Program :=
  ⟨0, #[⟨"m", stepGraph, 0, 1⟩]⟩

/-- A disjunction that is computed before the reference in it has its value. -/
def earlyDisjunction : Formula :=
  .mu "X" (.disj (.atom "p") (.disj (.ref "X") .bot))

/-- **A run may leave an equation unsatisfied** that reads its own state, and an update would then change
the state again. -/
theorem unstable_after_run : ∃ s j r t u r',
    Program.ofSystem { main := "m", procedures := [("m", stepGraph)] } = .ok stepProgram ∧
    begin stepProgram { storageBits := 4 } earlyDisjunction #[] = .ok s j ∧
    SessionM.run ⟨s, j⟩ = .ok () r ∧ r.session.transformer? 0 0 = some t ∧
    SessionM.recompute "m" 0 r = .ok (some u) r' ∧ u ≠ t := by
  have hends : afterRun stepProgram { storageBits := 4 } earlyDisjunction (do
      let t ← SessionM.inspect (·.transformer 0 0)
      let u ← SessionM.recompute "m" 0
      return (t, u)) = some (⟨#[.one, .one, .zero, .zero]⟩, some ⟨#[.one, .one, .one, .zero]⟩) := by
    decide +kernel
  obtain ⟨s, j, r, r', hbegin, hrun, hboth⟩ := exists_of_afterRun hends
  obtain ⟨t, r₁, hstored, hagain⟩ := bind_eq_ok hboth
  obtain ⟨ht, rfl⟩ := SessionM.inspect_eq_ok hstored
  obtain ⟨u, r₂, hu, hreturn⟩ := bind_eq_ok hagain
  cases hreturn
  refine ⟨s, j, r₁, ⟨#[.one, .one, .zero, .zero]⟩, ⟨#[.one, .one, .one, .zero]⟩, r', rfl, hbegin,
    hrun, ?_, hu, by decide⟩
  simp only [transformer] at ht
  split at ht
  · next t ht' =>
      cases ht
      exact ht'
  · cases ht

end Session

end ModalCalls
