import Mathlib
import ModalCalls.Proofs.Session.Bookkeeping

/-!
# Runs are iterations

The operations of a session do what `Session.Updated` and `Session.Transition` say.

* `SessionM.update_spec` — an update never fails.
* `SessionM.step_transition` — a step is one of the transitions.
* `SessionM.run_spec` — a run that succeeds stays on track, and after it nothing is left to do.
-/

namespace ModalCalls

namespace SessionM

open Session

variable {r r' : Run} {i n : Nat}

/-- **An update** computes the new transformer and stores it. -/
theorem update_spec (h : r.session.Intact) (hi : r.session.program.isInner i n = true) :
    Yields (update i n) r fun _ r' => r.session.Updated i n r'.session := by
  obtain ⟨s', entry, hperformed, hupdate⟩ := update_performed h hi
  obtain ⟨k', hupdate⟩ := hupdate r.session.updates r.session.recording r.journal
  exact ⟨(), _, hupdate, (hperformed.tally _ _).updated⟩

/-! ## Steps and runs

A step is split by whether a state is left to update.  This is the only place where the definition of a step
is opened; from here on it is known by its transitions.
-/

/-- The answer after an update says whether the store is full. -/
lemma check_eq (r : Run) : check r = if r.session.store.overflowed
    then .error (.storage (.storageFull r.session.store.capacity)) r else .ok () r := by
  simp only [check, Store.check]
  split
  · next h =>
      split at h
      · cases h
      · next ho => simp [ho]
  · next h =>
      split at h
      · next ho =>
          cases h
          simp [ho]
      · cases h

/-- A step where no state is left to update. -/
lemma step_of_idle (hnext : next? r.session = none) : step r
    = if r.session.block = 0 then .ok false r
      else (advance >>= fun _ => pure true : SessionM Bool) r := by
  have hask : ∀ {α : Type} (query : Session → α),
      inspect (fun s => .ok (query s)) r = .ok (query r.session) r := fun _ => rfl
  rw [step, bind_of_ok (hask _), hnext]
  simp only [bind_of_ok (hask _), beq_iff_eq]
  split
  · rfl
  · rfl

/-- A step where a state is left to update. -/
lemma step_of_next? {rest : WorkSet} (hnext : next? r.session = some (i, n, rest)) : step r
    = match exhausted? r.session with
      | some budget => .error (.budgetExhausted r.session.updates)
          ⟨r.session.setPending i (rest.insert n).2,
            r.journal.push (.budgetExhausted budget r.session.block)⟩
      | none => (update i n >>= fun _ => check >>= fun _ => pure true : SessionM Bool)
          ⟨r.session.setPending i rest, r.journal⟩ := by
  have hask : ∀ {α : Type} (query : Session → α),
      inspect (fun s => .ok (query s)) r = .ok (query r.session) r := fun _ => rfl
  rw [step, bind_of_ok (hask _), hnext]
  simp only [bind_of_ok (hask _)]
  cases exhausted? r.session with
  | some budget => rfl
  | none => rfl

/-- **What a step does**, in any session. -/
theorem step_transition (h : r.session.Intact) :
    r.session.Transition (answer step r) (after step r).session := by
  cases hnext : next? r.session with
  | none =>
      have hidle := next?_eq_none hnext
      by_cases hlast : r.session.block = 0
      · simp only [answer, after, step_of_idle hnext, hlast, if_true]
        exact .finished hidle hlast
      · obtain ⟨_, r', hadvance, hadv⟩ := advance_spec h
        have hstep : step r = .ok true r' := by
          rw [step_of_idle hnext, if_neg hlast, bind_of_ok hadvance]
          rfl
        simp only [answer, after, hstep]
        exact .advanced hidle (Nat.pos_of_ne_zero hlast) hadv
  | some found =>
      obtain ⟨i, n, rest⟩ := found
      cases hbudget : exhausted? r.session with
      | some budget =>
          simp only [answer, after, step_of_next? hnext, hbudget]
          exact .exhausted hnext hbudget
      | none =>
          obtain ⟨_, r', hupdate, hupdated⟩ := update_spec
            (r := ⟨r.session.setPending i rest, r.journal⟩) (intact_of_next? h hnext)
            (h.inner i n (pending_of_next? hnext).1)
          cases hroom : r'.session.store.overflowed with
          | true =>
              have hfull : step r
                  = .error (.storage (.storageFull r'.session.store.capacity)) r' := by
                simp only [step_of_next? hnext, hbudget, bind_of_ok hupdate]
                exact bind_of_error (by simp [check_eq, hroom])
              simp only [answer, after, hfull]
              exact .overflowed hnext hbudget hupdated hroom
          | false =>
              have hmore : step r = .ok true r' := by
                simp only [step_of_next? hnext, hbudget, bind_of_ok hupdate]
                exact bind_of_ok (a := ()) (by simp [check_eq, hroom])
              simp only [answer, after, hmore]
              exact .updated hnext hbudget hupdated hroom

/-- **A step stays on track.**  When there is nothing more to do it changes nothing. -/
theorem step_spec {more : Bool} (h : r.session.OnTrack) (hstep : step r = .ok more r') :
    r.session.Evolves r'.session ∧ r'.session.OnTrack ∧
      (more = false → r'.session = r.session ∧ r.session.block = 0 ∧
        ∀ i n, ¬ r.session.Pending i n) := by
  have htrans := step_transition h.toIntact
  simp only [answer, after, hstep] at htrans
  refine ⟨htrans.evolves h.toIntact, htrans.onTrack h, ?_⟩
  rintro rfl
  exact htrans.finished_of_ok

/-- **A run stays on track** and ends when nothing is left to do in any block. -/
theorem runWithin_spec : ∀ (steps : Nat) {r : Run}, r.session.OnTrack →
    runWithin steps r = .ok () r' →
    r.session.Evolves r'.session ∧ r'.session.OnTrack ∧ r'.session.block = 0 ∧
      ∀ i n, ¬ r'.session.Pending i n
  | 0, r, _, hrun => by cases hrun
  | steps + 1, r, h, hrun => by
      obtain ⟨more, r₁, hstep, hrun⟩ := bind_eq_ok hrun
      obtain ⟨hevolves, hontrack, hdone⟩ := step_spec h hstep
      split at hrun
      · obtain ⟨hevolves', hrest⟩ := runWithin_spec steps hontrack hrun
        exact ⟨hevolves.trans hevolves', hrest⟩
      · next hmore =>
          obtain ⟨hsame, hblock, hidle⟩ := hdone (by simpa using hmore)
          obtain ⟨updates, r₂, hupdates, hrun⟩ := bind_eq_ok hrun
          cases hupdates
          cases hrun
          exact ⟨hevolves, hontrack, hsame ▸ hblock, hsame ▸ hidle⟩

theorem run_spec (h : r.session.OnTrack) (hrun : run r = .ok () r') :
    r.session.Evolves r'.session ∧ r'.session.OnTrack ∧ r'.session.block = 0 ∧
      ∀ i n, ¬ r'.session.Pending i n := by
  obtain ⟨bound, r₁, hbound, hsteps⟩ := bind_eq_ok hrun
  cases hbound
  exact runWithin_spec _ h hsteps

end SessionM

end ModalCalls
