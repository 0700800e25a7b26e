import Mathlib
import ModalCalls.Proofs.Session.Begin
import ModalCalls.Proofs.Session.Stability
import ModalCalls.Solve

/-!
# What is known of a full store

A store that ran out of room stays so, and whatever was computed since then is of no meaning.  A session
looks at its store after an update only.  So the *first* call that runs out of room says so, whichever
calls came before it; later calls find nothing left to do and may succeed.

* `SessionM.Reports` — an operation says so exactly if the store is full after it but was not before.
* `SessionM.check_of_run_ok` — after any steps and runs, a run that succeeds has a store with room exactly
  if no earlier call said that the store is full.
* `SessionM.run_ok_after_overflow` — the earlier calls cannot be left out: a run that fails for want of room
  is followed by a run that succeeds, with a wrong verdict.
-/

namespace ModalCalls

namespace SessionM

open Session

variable {r : Run} {α β : Type}

/-- The error that the store is full. -/
def isFull : SolveError → Bool
  | .storage (.storageFull _) => true
  | _ => false

/-- The answer that the store is full. -/
def saysFull : Except SolveError α → Bool
  | .error err => isFull err
  | .ok _ => false

/-- **An operation reports a full store**: after it the store is full exactly if it was full before, or the
operation says so. -/
def Reports (x : SessionM α) : Prop :=
  ∀ r : Run, r.session.Intact → (after x r).session.Intact ∧
    ((after x r).session.store.overflowed = true ↔
      r.session.store.overflowed = true ∨ saysFull (answer x r) = true)

namespace Reports

/-- Operations that leave the session as it is and do not speak of the store. -/
lemma of_same {x : SessionM α} (hafter : ∀ r, (after x r).session = r.session)
    (hanswer : ∀ r, saysFull (answer x r) = false) : Reports x := by
  intro r h
  rw [hafter, hanswer]
  exact ⟨h, by simp⟩

lemma bind {x : SessionM α} {f : α → SessionM β} (hx : Reports x) (hf : ∀ a, Reports (f a)) :
    Reports (x >>= f) := by
  intro r h
  obtain ⟨hintact, hfull⟩ := hx r h
  cases hxr : x r with
  | ok a r₁ =>
      simp only [after, answer, hxr] at hintact hfull
      obtain ⟨hintact', hfull'⟩ := hf a r₁ hintact
      simp only [after, answer, bind_of_ok hxr] at hintact' hfull' ⊢
      refine ⟨hintact', hfull'.trans ?_⟩
      rw [hfull]
      simp [saysFull]
  | error err r₁ =>
      simp only [after, answer, bind_of_error hxr, hxr] at hintact hfull ⊢
      exact ⟨hintact, hfull⟩

/-- A step looks at the store whenever it has changed it. -/
lemma step : Reports step := by
  intro r h
  have htrans := step_transition h
  have hevolves := htrans.evolves h
  refine ⟨hevolves.intact, fun hafter => ?_, fun hor => ?_⟩
  · generalize answer SessionM.step r = a, (after SessionM.step r).session = s' at htrans hafter ⊢
    cases htrans with
    | finished => exact Or.inl hafter
    | advanced _ _ hadv => exact Or.inl (hadv.shares.store ▸ hafter)
    | exhausted => exact Or.inl hafter
    | updated _ _ _ hroom => simp [hroom] at hafter
    | overflowed => exact Or.inr rfl
  · by_contra hroom
    rw [Bool.not_eq_true] at hroom
    rcases hor with hbefore | hsays
    · simp [hevolves.grows.overflowed hroom] at hbefore
    · generalize answer SessionM.step r = a, (after SessionM.step r).session = s' at htrans hroom hsays
      cases htrans with
      | overflowed _ _ _ hfull => simp [hfull] at hroom
      | _ => cases hsays

lemma runWithin : ∀ steps, Reports (runWithin steps)
  | 0 => .of_same (fun _ => rfl) fun _ => rfl
  | steps + 1 => by
      refine step.bind fun more => ?_
      split
      · exact runWithin steps
      · exact bind (.of_same (fun _ => rfl) fun _ => rfl) fun updates =>
          .of_same (fun _ => rfl) fun _ => rfl

lemma run : Reports run :=
  bind (.of_same (fun _ => rfl) fun _ => rfl) fun bound => runWithin bound

end Reports

/-! ## Sequences of calls

What is called next may depend on earlier answers, so the statement is about all sequences of calls, also
those that go on after a failure.  The invariant is that the store is full if and only if some call has said
so.
-/

/-- What can be asked of a session to get on. -/
inductive Call
  | step
  | run

/-- What a call does. -/
def Call.operation : Call → SessionM Unit
  | .step => do let _ ← SessionM.step
  | .run => SessionM.run

lemma Call.reports (c : Call) : Reports c.operation := by
  cases c with
  | step => exact Reports.step.bind fun _ => .of_same (fun _ => rfl) fun _ => rfl
  | run => exact .run

/-- What calls lead to, whether or not they succeed. -/
def afterCalls : List Call → Run → Run
  | [], r => r
  | c :: calls, r => afterCalls calls (after c.operation r)

/-- The answers of calls. -/
def answers : List Call → Run → List (Except SolveError Unit)
  | [], _ => []
  | c :: calls, r => answer c.operation r :: answers calls (after c.operation r)

/-- **The store is full after calls exactly if one of them said so**, or it was full before. -/
theorem overflowed_afterCalls : ∀ (calls : List Call) {r : Run}, r.session.Intact →
    (afterCalls calls r).session.Intact ∧
      ((afterCalls calls r).session.store.overflowed = true ↔
        r.session.store.overflowed = true ∨ (answers calls r).any saysFull = true)
  | [], r, h => ⟨h, by simp [afterCalls, answers]⟩
  | c :: calls, r, h => by
      obtain ⟨hintact, hfull⟩ := c.reports r h
      obtain ⟨hintact', hfull'⟩ := overflowed_afterCalls calls hintact
      refine ⟨hintact', hfull'.trans ?_⟩
      rw [hfull, answers, List.any_cons, Bool.or_eq_true, or_assoc]

/-- The answers of calls on a new session, and what is found in the session after them. -/
def fromBegin (p : Program) (o : Options) (f : Formula) (calls : List Call) (query : Session → α) :
    Option (List (Except SolveError Unit) × α) :=
  match begin p o f #[] with
  | .ok s j => some (answers calls ⟨s, j⟩, query (afterCalls calls ⟨s, j⟩).session)
  | .error _ _ => none

lemma exists_of_fromBegin {p : Program} {o : Options} {f : Formula} {calls : List Call}
    {query : Session → α} {found : List (Except SolveError Unit) × α}
    (h : fromBegin p o f calls query = some found) :
    ∃ s j, begin p o f #[] = .ok s j ∧ answers calls ⟨s, j⟩ = found.1 ∧
      query (afterCalls calls ⟨s, j⟩).session = found.2 := by
  simp only [fromBegin] at h
  split at h
  · next s j hbegin =>
      cases h
      exact ⟨s, j, hbegin, rfl, rfl⟩
  · cases h

lemma check_eq_ok_iff (s : Store) : s.check = .ok () ↔ s.overflowed = false := by
  simp only [Store.check]
  split <;> simp_all

variable {system : System} {p : Program} {o : Options} {f : Formula} {j j' : Journal} {s : Session}
  {r' : Run} {calls : List Call}

/-- **Which runs can be trusted.**  After any steps and runs of a session, a run that succeeds leaves a
store with room exactly if none of the calls before it said that the store is full. -/
theorem check_of_run_ok (hsystem : Program.ofSystem system = .ok p)
    (hbits : Store.validBits o.storageBits = true) (hbegin : begin p o f j = .ok s j')
    (hrun : run (afterCalls calls ⟨s, j'⟩) = .ok () r') :
    r'.session.store.check = .ok () ↔ ∀ a ∈ answers calls ⟨s, j'⟩, saysFull a = false := by
  obtain ⟨hontrack, -⟩ := begin_spec (Program.wellFormed_of_system hsystem) hbits hbegin
  obtain ⟨hintact, hcalls⟩ := overflowed_afterCalls calls (r := ⟨s, j'⟩) hontrack.toIntact
  obtain ⟨-, hlast⟩ := Reports.run _ hintact
  simp only [answer, after, hrun, saysFull, Bool.false_eq_true, or_false] at hlast
  rw [check_eq_ok_iff, ← Bool.not_eq_true, hlast, hcalls, hontrack.room]
  simp

theorem check_of_run_ok_callingProgram : ∃ s j r,
    begin callingProgram { storageBits := 4 } alwaysPossibly #[] = .ok s j ∧
    run (afterCalls [.step, .run, .step] ⟨s, j⟩) = .ok () r ∧
    (r.session.store.check = .ok () ↔
      ∀ a ∈ answers [.step, .run, .step] ⟨s, j⟩, saysFull a = false) ∧
    answers [.step, .run, .step] ⟨s, j⟩ = [.ok (), .ok (), .ok ()] := by
  have hends : fromBegin callingProgram { storageBits := 4 } alwaysPossibly
      [.step, .run, .step, .run] (fun _ => ()) = some ([.ok (), .ok (), .ok (), .ok ()], ()) := by
    decide +kernel
  have hsystem : Program.ofSystem { main := "main", procedures := [("main", callingGraph)] }
      = .ok callingProgram := rfl
  obtain ⟨s, j, hbegin, hanswers, -⟩ := exists_of_fromBegin hends
  simp only [answers, List.cons.injEq, and_true] at hanswers
  obtain ⟨h₁, h₂, h₃, hlast⟩ := hanswers
  have hrun := answer_eq_ok_iff.1 hlast
  exact ⟨s, j, _, hbegin, hrun, check_of_run_ok hsystem rfl hbegin hrun,
    by simp only [answers, h₁, h₂, h₃]⟩

/-! ## A run after the store was full

A step that fails for want of room has taken its state out of the queue and has stored the transformer that
it got.  If no other state is left, the next run has nothing to do and looks at nothing.
-/

/-- One step to a state with an atom. -/
def arrivalGraph : ProcessGraph where
  states := #[[], ["p"]]
  edges := #[⟨some 0, 1, "a", .must, .internal⟩]
  initial := some 0
  final := some 1

def arrivalProgram : Program :=
  ⟨0, #[⟨"m", arrivalGraph, 0, 1⟩]⟩

/-- The atom is one step away, or two. -/
def oneOrTwoSteps : Formula :=
  .disj (.dia (some "a") (.atom "p")) (.dia (some "a") (.dia (some "a") (.atom "p")))

/-- **A run may succeed after the store was full**: the first run takes the only state out, fails, and
leaves nothing for the second one to do.  The verdict is then not the one of a larger store. -/
theorem run_ok_after_overflow : ∃ s j,
    Program.ofSystem { main := "m", procedures := [("m", arrivalGraph)] } = .ok arrivalProgram ∧
    begin arrivalProgram { storageBits := 3 } oneOrTwoSteps #[] = .ok s j ∧
    answers [.run, .run] ⟨s, j⟩ = [.error (.storage (.storageFull 8)), .ok ()] ∧
    (afterCalls [.run, .run] ⟨s, j⟩).session.store.check = .error (.storageFull 8) ∧
    (afterCalls [.run, .run] ⟨s, j⟩).session.isSat = .ok false ∧
    answer (arrivalProgram.solve { storageBits := 4 } oneOrTwoSteps) #[] = .ok true := by
  have hends : fromBegin arrivalProgram { storageBits := 3 } oneOrTwoSteps [.run, .run]
      (fun s => (s.store.check, s.isSat)) = some ([.error (.storage (.storageFull 8)), .ok ()],
        (.error (.storageFull 8), .ok false)) := by
    decide +kernel
  have hlarger : answer (arrivalProgram.solve { storageBits := 4 } oneOrTwoSteps) #[] = .ok true := by
    decide +kernel
  obtain ⟨s, j, hbegin, hanswers, hfound⟩ := exists_of_fromBegin hends
  obtain ⟨hcheck, hsat⟩ := Prod.mk.inj hfound
  exact ⟨s, j, rfl, hbegin, hanswers, hcheck, hsat, hlarger⟩

end SessionM

end ModalCalls
