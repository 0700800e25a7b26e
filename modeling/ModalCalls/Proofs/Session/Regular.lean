import Mathlib
import ModalCalls.Proofs.Session.Termination

/-!
# What every sequence of steps keeps

Steps may be taken after the store was full or the budget used up, and then nothing is known of what
transformers mean.  What is true of a session all the same is `Session.Regular`: which states are left to
update, that final states have the identity, and that blocks further out have not been touched.  What one
step may change is `Session.Confined`: the transformer of one state, in entries of the block that it found.

* `Session.Transition.confined`, `Session.Regular.step` — the step lemmas.
* `SessionM.regular_stepped` — the run lemma, for any number of steps with any answers.
* `SessionM.steps_orderly` — **all of this holds of every session**, and no operation meets a fault.
-/

namespace ModalCalls

namespace Session

open SessionM

variable {p : Program} {e : EquationSystem} {s s' : Session} {i n v : Nat} {t : Transformer}

/-! ## One step

What a step may change is read off the cases of `Transition`.  Taking a state out and putting it back
changes no transformer, and an update writes to one place.
-/

/-- **What a step may change**: it goes on by one block at most, and there is one state whose transformer
may differ afterwards, in the entries of the block that the step has found. -/
structure Confined (s s' : Session) : Prop where
  block_le : s'.block ≤ s.block
  le_block : s.block ≤ s'.block + 1
  transformers : s'.transformer? = s.transformer? ∨
    ∃ i n old new, s.program.isInner i n = true ∧
      s.transformer? i n = some old ∧ s'.transformer? i n = some new ∧
      (∀ j m, ¬ (j = i ∧ m = n) → s'.transformer? j m = s.transformer? j m) ∧
      ∀ v, s.equations.blockOf v ≠ s.block → new.entries[v]? = old.entries[v]?

/-- An update changes the state that it is about. -/
lemma Updated.confined (h : s.Updated i n s') (hs : s.Intact) (hi : s.program.isInner i n = true) :
    s.Confined s' := by
  obtain @⟨block, along, old, new, s₁, hblock, hcomputed, hold, hinstalled⟩ := h
  have hext := hcomputed.extended
  have hentries : ∀ v, s.equations.blockOf v ≠ s.block → new.entries[v]? = old.entries[v]? :=
    fun v hv => hcomputed.others old hold v fun hmem => hv ((hs.equations.mem_vars_iff hblock).1 hmem)
  obtain ⟨hle, hge⟩ := hinstalled.block
  rw [hext.block] at hle hge
  refine ⟨hle, hge, Or.inr ⟨i, n, old, new, hi, (hext.transformer? i n).symm.trans hold, ?_,
    fun j m hjm => ?_, hentries⟩⟩
  · rw [hinstalled.transformer?, if_pos ⟨rfl, rfl⟩]
  · rw [hinstalled.transformer?, if_neg hjm, hext.transformer?]

/-- **A step is confined**, whatever it answers. -/
theorem Transition.confined {answer : Except SolveError Bool} (h : s.Transition answer s')
    (hs : s.Intact) : s.Confined s' := by
  -- taking the next state out changes no transformer
  have hupdate : ∀ {i n : Nat} {rest : WorkSet} {s' : Session}, next? s = some (i, n, rest) →
      (s.setPending i rest).Updated i n s' → s.Confined s' := by
    intro i n rest s' hnext hupdated
    have htaken : s.Rearranged (s.setPending i rest) := setPending_rearranged rest
    obtain ⟨hle, hge, hchange⟩ := hupdated.confined (intact_of_next? hs hnext)
      (hs.inner i n (pending_of_next? hnext).1)
    rw [htaken.transformer?] at hchange
    exact ⟨hle, hge, hchange⟩
  cases h with
  | finished => exact ⟨le_rfl, Nat.le_succ _, Or.inl rfl⟩
  | advanced _ hpos hadv =>
      exact ⟨by rw [hadv.block]; omega, by rw [hadv.block]; omega, Or.inl hadv.transformer?⟩
  | exhausted =>
      exact ⟨le_rfl, Nat.le_succ _, Or.inl (setPending_rearranged _).transformer?⟩
  | updated hnext _ hupdated => exact hupdate hnext hupdated
  | overflowed hnext _ hupdated => exact hupdate hnext hupdated

/-! ## Regular sessions

Where the store is full, meanings are not to be relied on.  For blocks further out the invariant therefore
compares handles: constants are recognised by these.  Final states are never updated.  They keep the handles
that they had from the beginning, and a store that grows does not change what is below a handle.
-/

/-- **What is true of a session at any time.** -/
structure Regular (p : Program) (e : EquationSystem) (s : Session) : Prop where
  program : s.program = p
  equations : s.equations = e
  block : s.block < e.blocks.size
  /-- Only states that exist and are not final are left to update, and none of them twice. -/
  pending : ∀ (i : Nat) (pr : Progress), s.progress[i]? = some pr →
    pr.pending.queue.Nodup ∧ ∀ n ∈ pr.pending.queue, p.isInner i n = true
  finals : ∀ (i : Nat) (q : Procedure), p.procedures[i]? = some q →
    ∃ t, s.transformer? i q.final = some t ∧ t.summary s.store = fun v x => x v
  /-- Blocks further out have their start values. -/
  outer : ∀ i n t v, p.isInner i n = true → s.transformer? i n = some t → e.blockOf v < s.block →
    t.entries[v]? = some (.constant (e.isMax v))

/-- An entry that means a constant is the constant. -/
lemma Intact.entry_eq_constant (h : s.Intact) (ht : s.transformer? i n = some t)
    (hv : v < s.equations.size) {k : Bool} (hk : s.value i n v = fun _ => k) :
    t.entries[v]? = some (.constant k) := by
  have hlives := h.lives i n t ht
  have hshaped := h.store.toShaped
  obtain ⟨f, hf, hvalid⟩ := hlives.getElem? hv
  rw [hf, Option.some.injEq]
  refine Store.canonical hshaped hvalid (hshaped.valid_constant k) fun y => ?_
  have hmean := Transformer.meaningAt_eq_summary hshaped hlives hv y
  rw [← value_of_transformer? ht, hk] at hmean
  simp only [Transformer.meaningAt, hf] at hmean
  rw [hmean, Store.meaning_constant hshaped]

/-- A session on track is regular. -/
lemma OnTrack.regular (h : s.OnTrack) : s.Regular s.program s.equations where
  program := rfl
  equations := rfl
  block := h.block
  pending i pr hpr := ⟨pr.pending.nodup, fun n hn => h.inner i n ⟨pr, hpr, hn⟩⟩
  finals i q hq := by
    obtain ⟨t, ht⟩ := h.exists_transformer hq (h.program.final_lt i q hq)
    refine ⟨t, ht, ?_⟩
    rw [← value_of_transformer? ht]
    funext v
    refine h.faithful.reached.value_of_not_inner fun hi => ?_
    exact ((Program.isInner_iff hq).1 hi).2 rfl
  outer i n t v hi ht hv := by
    have hsize := h.equations.lt_size (hv.trans h.block)
    exact h.entry_eq_constant ht hsize (h.faithful.reached.value_of_lt h.equations hi hv)

/-- **A step keeps a session regular.** -/
theorem Regular.step (h : s.Regular p e) (hs : s.Intact) (hevolves : s.Evolves s')
    (hconfined : s.Confined s') : s'.Regular p e := by
  obtain ⟨hprogram, hequations, hblock, -, hfinals, houter⟩ := h
  refine ⟨hevolves.program.trans hprogram, hevolves.equations.trans hequations,
    hconfined.block_le.trans_lt hblock, fun i pr hpr => ⟨pr.pending.nodup, ?_⟩,
    fun i q hq => ?_, fun i n t v hi ht hv => ?_⟩
  · intro n hn
    rw [← hprogram, ← hevolves.program]
    exact hevolves.intact.inner i n ⟨pr, hpr, hn⟩
  · obtain ⟨t, ht, hidentity⟩ := hfinals i q hq
    refine ⟨t, ?_, ?_⟩
    · rw [← ht]
      rcases hconfined.transformers with hsame | ⟨j, m, -, -, hinner, -, -, hothers, -⟩
      · rw [hsame]
      · refine hothers i q.final ?_
        rintro ⟨rfl, rfl⟩
        rw [hprogram] at hinner
        exact ((Program.isInner_iff hq).1 hinner).2 rfl
    · rw [Transformer.summary_grows hs.store.toShaped (hs.lives _ _ t ht) hevolves.grows]
      exact hidentity
  · have hv' : e.blockOf v < s.block := hv.trans_le hconfined.block_le
    rcases hconfined.transformers with hsame | ⟨j, m, old, new, -, hold, hnew, hothers, hentries⟩
    · exact houter i n t v hi (hsame ▸ ht) hv'
    · by_cases hij : i = j ∧ n = m
      · obtain ⟨rfl, rfl⟩ := hij
        obtain rfl := Option.some.inj (hnew.symm.trans ht)
        rw [hentries v (by rw [hequations]; omega)]
        exact houter i n old v hi hold hv'
      · exact houter i n t v hi ((hothers i n hij).symm.trans ht) hv'

/-- A step never meets a fault. -/
lemma Transition.answer_ne_fault {answer : Except SolveError Bool} (h : s.Transition answer s')
    (fault : Fault) : answer ≠ .error (.fault fault) := by
  cases h <;> simp

/-- **What holds at a state can be read off at any time**, and it names variables that exist. -/
lemma Intact.exists_satisfied (h : s.Intact) {q : Procedure}
    (hq : s.program.procedures[i]? = some q) (hn : n < q.size) :
    ∃ vars, s.holding i n = .ok vars ∧ (∀ v, vars.contains v = true → v < s.equations.size) ∧
      s.satisfied i n = .ok (s.equations.labels vars) := by
  obtain ⟨t, vars, -, hholding, hcontains⟩ := h.exists_holding hq hn
  refine ⟨vars, hholding, fun v hv => ?_, ?_⟩
  · rw [hcontains, Bool.and_eq_true, decide_eq_true_eq] at hv
    exact hv.1
  · rw [satisfied, hholding]
    rfl

end Session

/-! ## All steps

By induction on the number of steps, with no condition on their answers.  What is claimed of the next step
follows from the invariant alone.
-/

namespace SessionM

open Session

variable {system : System} {p : Program} {e : EquationSystem} {o : Options} {f : Formula}
  {j j' : Journal} {s : Session}

/-- Any number of steps keep a session intact and regular, whatever they answer. -/
theorem regular_stepped : ∀ (count : Nat) {r : Run}, r.session.Intact → r.session.Regular p e →
    (stepped count r).session.Intact ∧ (stepped count r).session.Regular p e
  | 0, _, hs, h => ⟨hs, h⟩
  | count + 1, r, hs, h => by
      have htrans := step_transition hs
      have hevolves := htrans.evolves hs
      exact regular_stepped count (r := after step r) hevolves.intact
        (h.step hs hevolves (htrans.confined hs))

/-- **What is true of a run before its next step**: the session is regular, the step is confined and meets
no fault, and the verdict and what holds at any state can be read off, naming variables that exist. -/
structure Orderly (p : Program) (e : EquationSystem) (r : Run) : Prop where
  regular : r.session.Regular p e
  confined : r.session.Confined (after step r).session
  faultless : ∀ fault, answer step r ≠ .error (.fault fault)
  verdict : ∃ sat, r.session.isSat = .ok sat
  satisfied : ∀ (i : Nat) (q : Procedure) (n : Nat), p.procedures[i]? = some q → n < q.size →
    ∃ vars, r.session.holding i n = .ok vars ∧ (∀ v, vars.contains v = true → v < e.size) ∧
      r.session.satisfied i n = .ok (e.labels vars)

/-- **The invariant of sessions.**  It holds after any number of steps, also after steps that have failed
because the store was full or the budget used up. -/
theorem steps_orderly (hsystem : Program.ofSystem system = .ok p)
    (hbits : Store.validBits o.storageBits = true) (hbegin : begin p o f j = .ok s j') (k : Journal)
    (count : Nat) : Orderly p s.equations (stepped count ⟨s, k⟩) := by
  obtain ⟨hontrack, hprogram, -⟩ := begin_spec (Program.wellFormed_of_system hsystem) hbits hbegin
  obtain ⟨hintact, hregular⟩ := regular_stepped count (r := ⟨s, k⟩) hontrack.toIntact
    hontrack.regular
  rw [hprogram] at hregular
  have htrans := step_transition hintact
  refine ⟨hregular, htrans.confined hintact, htrans.answer_ne_fault, hintact.exists_isSat,
    fun i q n hq hn => ?_⟩
  obtain ⟨vars, hholding, hvars, hsatisfied⟩ :=
    hintact.exists_satisfied (hregular.program.symm ▸ hq) hn
  rw [hregular.equations] at hvars hsatisfied
  exact ⟨vars, hholding, hvars, hsatisfied⟩

/-- With a budget of two updates every later step fails, and still the invariant holds. -/
theorem steps_orderly_callingProgram : ∃ s j,
    begin callingProgram { storageBits := 4, budget := some 2 } alwaysPossibly #[] = .ok s j ∧
    answer step (stepped 5 ⟨s, j⟩) = .error (.budgetExhausted 2) ∧
    ∀ count, Orderly callingProgram s.equations (stepped count ⟨s, j⟩) := by
  have hsystem : Program.ofSystem { main := "main", procedures := [("main", callingGraph)] }
      = .ok callingProgram := rfl
  let start := begin callingProgram { storageBits := 4, budget := some 2 } alwaysPossibly
  have hfails : (answer start #[]).toOption.any (fun s =>
      decide (answer step (stepped 5 ⟨s, after start #[]⟩) = .error (.budgetExhausted 2)))
        = true := by decide +kernel
  cases hanswer : answer start #[] with
  | error err => simp [hanswer, Except.toOption] at hfails
  | ok s =>
      have hbegin := answer_eq_ok_iff.1 hanswer
      simp only [hanswer, Except.toOption, Option.any_some, decide_eq_true_eq] at hfails
      exact ⟨s, after start #[], hbegin, hfails,
        fun count => steps_orderly hsystem rfl hbegin (after start #[]) count⟩

end SessionM

end ModalCalls
