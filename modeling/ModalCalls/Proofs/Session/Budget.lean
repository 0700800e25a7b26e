import Mathlib
import ModalCalls.Proofs.Session.Chronicle
import ModalCalls.Proofs.Session.Overflow

/-!
# Budgets

A budget is looked at in one place only: before the update of the state that was taken out next.  Everything
else goes the same way with any budget (`SessionM.Unmetered`, `SessionM.Indifferent.update`), so a run with a
budget is the run without one until the budget is used up (`SessionM.runWithin_budgeted`,
`SessionM.runWithin_cut`).

When it is used up, the state that was taken out is put back, *behind* the others.  A queue that hands out the
newest member gets back what it had.  A queue that hands out the oldest one is turned by one place, and again
by every further step (`Session.turned`), unless the state was alone in it.

* `SessionM.run_within_budget` — **what a budget does to a run**.
* `SessionM.budget_turns_queue` — the order in which states are left may change.
-/

namespace ModalCalls

namespace Session

open SessionM

variable {s : Session} {i n b : Nat} {rest : WorkSet}

/-! ## Sessions with a budget

A budget is one of the options of a session.  Two sessions that differ in it only are given by a function
from one to the other, which makes the rest of the comparison an equation.  The order of the queues is kept
along with the comparison, because a run that was cut off says something about the queue that it leaves.
-/

/-- The session with a budget. -/
def budgeted (s : Session) (b : Nat) : Session :=
  { s with options := { s.options with budget := some b } }

lemma Intact.budgeted (h : s.Intact) (b : Nat) : (s.budgeted b).Intact :=
  ⟨h.program, h.equations, h.store, h.states, h.lives, h.labels, h.inner, h.block⟩

/-- All queues hand out their members in the order that was asked for. -/
def Orderly (s : Session) : Prop :=
  ∀ (i : Nat) (pr : Progress), s.progress[i]? = some pr → pr.pending.order = s.options.pick

/-- Changing a queue in a way that keeps its order. -/
lemma Orderly.modify (h : s.Orderly) {f : Progress → Progress}
    (hf : ∀ pr, (f pr).pending.order = pr.pending.order) :
    Orderly { s with progress := s.progress.modify i f } := by
  intro j pr hpr
  simp only [Array.getElem?_modify] at hpr
  split at hpr
  · obtain ⟨pr₀, hpr₀, rfl⟩ := Option.map_eq_some_iff.1 hpr
    exact (hf pr₀).trans (h j pr₀ hpr₀)
  · exact h j pr hpr

lemma Orderly.markAll (h : s.Orderly) (i : Nat) (states : List Nat) : (s.markAll i states).Orderly :=
  h.modify fun pr => WorkSet.order_insertMany states pr.pending

lemma Orderly.setPending (h : s.Orderly) {w : WorkSet} (hw : w.order = s.options.pick) :
    (s.setPending i w).Orderly := by
  intro j pr hpr
  simp only [Session.setPending, Array.getElem?_modify] at hpr
  split at hpr
  · obtain ⟨pr₀, -, rfl⟩ := Option.map_eq_some_iff.1 hpr
    exact hw
  · exact h j pr hpr

lemma exhausted?_budgeted (s : Session) (b : Nat) :
    exhausted? (s.budgeted b) = if b ≤ s.updates then some b else none := by
  rw [exhausted?, budgeted, Option.filter_some]
  by_cases h : b ≤ s.updates <;> simp [h]

/-! ## Turning a queue

The state that a failing step has taken out goes back into its queue, but as the newest member.  This is
again a function of sessions, so that what several failing steps do is an iterate of it.  Transformers, the
block and the count stay as they are, and so does the set of the states that are left.  In a queue where the
oldest state is next, the states come round in turn.
-/

/-- The state that is next goes behind the others of its queue. -/
def turned (s : Session) : Session :=
  match next? s with
  | some (i, n, rest) => s.setPending i (rest.insert n).2
  | none => s

lemma turned_of_next? (hnext : next? s = some (i, n, rest)) :
    s.turned = s.setPending i (rest.insert n).2 := by
  simp only [turned, hnext]

/-- Turning a queue changes nothing but the order of its states. -/
lemma turned_rearranged (s : Session) : s.Rearranged s.turned := by
  simp only [turned]
  split
  · exact setPending_rearranged _
  · exact .refl s

lemma updates_turned (s : Session) : s.turned.updates = s.updates := by
  simp only [turned]
  split <;> rfl

/-- Turning queues again and again. -/
lemma turned_keeps : ∀ (count : Nat) (s : Session),
    s.Rearranged (turned^[count] s) ∧ (turned^[count] s).updates = s.updates
  | 0, s => ⟨.refl s, rfl⟩
  | count + 1, s => by
      obtain ⟨hrearranged, hupdates⟩ := turned_keeps count s.turned
      exact ⟨(turned_rearranged s).trans hrearranged, hupdates.trans (updates_turned s)⟩

lemma next?_turned (hnext : (next? s).isSome) : (next? s.turned).isSome := by
  obtain ⟨⟨i, n, rest⟩, hnext⟩ := Option.isSome_iff_exists.1 hnext
  obtain ⟨pr, hpr, -⟩ := next?_eq_some hnext
  rw [Option.isSome_iff_ne_none]
  intro hnone
  refine next?_eq_none hnone i n ?_
  rw [turned_of_next? hnext, pending_setPending hpr, if_pos rfl, WorkSet.mem_queue_insert]
  exact Or.inl rfl

/-- **When turning a queue changes nothing**: exactly if states are taken newest first, or the next one has
its queue for itself.  Otherwise the states left to update are listed in another order. -/
lemma turned_eq_iff (h : s.Intact) (horderly : s.Orderly) (hnext : next? s = some (i, n, rest)) :
    (s.turned = s ↔ s.options.pick = .newest ∨ rest.isEmpty = true) ∧
    (s.turned.pendingStates = s.pendingStates ↔ s.options.pick = .newest ∨ rest.isEmpty = true) := by
  obtain ⟨pr, hpr, hpop⟩ := next?_eq_some hnext
  obtain ⟨q, hq, -⟩ := Program.exists_of_isInner (h.inner i n (pending_of_next? hnext).1)
  have hiff := WorkSet.toList_insert_of_pop? hpop
  rw [horderly i pr hpr] at hiff
  have horder : (rest.insert n).2.order = pr.pending.order :=
    (WorkSet.order_insert rest n).trans (WorkSet.order_of_pop? hpop)
  have hback : s.options.pick = .newest ∨ rest.isEmpty = true → s.turned = s := by
    intro hor
    have hsame : (rest.insert n).2 = pr.pending := WorkSet.eq_of_toList horder (hiff.2 hor)
    rw [turned_of_next? hnext, hsame, Session.setPending]
    refine congrArg (fun progress => { s with progress := progress }) (Array.ext_getElem? fun j => ?_)
    rw [Array.getElem?_modify]
    split
    · next hij => rw [← hij, hpr, Option.map_some]
    · rfl
  have hforth : s.turned.pendingStates = s.pendingStates →
      s.options.pick = .newest ∨ rest.isEmpty = true := by
    intro hsame
    have hi := congrArg (·[i]?) hsame
    simp only [turned_of_next? hnext, pendingStates, Session.setPending, List.getElem?_zipWith,
      Array.getElem?_toList, Array.getElem?_modify, if_pos, hq, hpr, Option.map_some,
      Option.some.injEq, Prod.mk.injEq, true_and] at hi
    exact hiff.1 hi
  exact ⟨⟨fun hsame => hforth (congrArg pendingStates hsame), hback⟩,
    hforth, fun hor => congrArg pendingStates (hback hor)⟩

end Session

/-- The run with a budget. -/
def Run.budgeted (r : Run) (b : Nat) : Run :=
  { r with session := r.session.budgeted b }

namespace SessionM

open Session

variable {α β : Type} {r : Run} {i n b : Nat}

/-- The same answer, in a session with a budget. -/
def withBudget (b : Nat) : EStateM.Result SolveError Run α → EStateM.Result SolveError Run α
  | .ok a r => .ok a (r.budgeted b)
  | .error err r => .error err (r.budgeted b)

/-- One operation after another, if the second one is only known to go on from where the first one ends. -/
lemma bind_budgeted {x : SessionM α} {f : α → SessionM β} (hx : x (r.budgeted b) = withBudget b (x r))
    (hf : ∀ a r', x r = .ok a r' → f a (r'.budgeted b) = withBudget b (f a r')) :
    (x >>= f) (r.budgeted b) = withBudget b ((x >>= f) r) := by
  cases hxr : x r with
  | ok a r' =>
      rw [hxr, withBudget] at hx
      rw [bind_of_ok hx, bind_of_ok hxr, hf a r' hxr]
  | error err r' =>
      rw [hxr, withBudget] at hx
      rw [bind_of_error hx, bind_of_error hxr, withBudget]

/-! ## Operations that do not look at the budget

An update counts and records itself, so it is not indifferent to every note.  It is to the budget.  The
relations below fix all other notes; that queues keep their order is one of them, since a relation may also say
something of a single run.
-/

/-- **A relation between runs that differ in nothing but the budget.** -/
structure Unmetered (R : Run → Run → Prop) : Prop extends Unheeded R where
  noted : ∀ {r r'}, R r r' →
    r'.session.updates = r.session.updates ∧ r'.session.recording = r.session.recording
  tally : ∀ updates recording {r r'}, R r r' →
    R ⟨r.session.tally updates recording, r.journal⟩ ⟨r'.session.tally updates recording, r'.journal⟩

/-- The run with a budget. -/
lemma unmetered_budgeted (b : Nat) : Unmetered fun r r' => r' = r.budgeted b where
  annotated := by
    rintro r _ rfl
    exact ⟨some b, r.session.updates, r.session.recording, rfl⟩
  change := by
    rintro f hf r _ rfl
    cases hf with
    | edge modality label t => cases modality <;> rfl
    | _ => rfl
  report := by
    rintro event r _ rfl
    rfl
  noted := by
    rintro r _ rfl
    exact ⟨rfl, rfl⟩
  tally := by
    rintro updates recording r _ rfl
    rfl

/-- Queues keep their order. -/
lemma unmetered_orderly : Unmetered fun r r' => r' = r ∧ r.session.Orderly where
  annotated := by
    rintro r _ ⟨rfl, -⟩
    exact ⟨_, _, _, rfl⟩
  change := by
    rintro f hf r _ ⟨rfl, horderly⟩
    refine ⟨rfl, ?_⟩
    cases hf with
    | store store => exact horderly
    | edge modality label t => cases modality <;> exact horderly
    | transformer i n t => exact horderly.modify fun _ => rfl
    | mark i states => exact horderly.markAll i states
    | block => exact horderly
  report := by
    rintro event r _ ⟨rfl, horderly⟩
    exact ⟨rfl, horderly⟩
  noted := by
    rintro r _ ⟨rfl, -⟩
    exact ⟨rfl, rfl⟩
  tally := by
    rintro updates recording r _ ⟨rfl, horderly⟩
    exact ⟨rfl, horderly⟩

namespace Indifferent

variable {R : Run → Run → Prop} {x : SessionM α}

lemma budgeted (h : Indifferent (fun r r' => r' = r.budgeted b) x) (r : Run) :
    x (r.budgeted b) = withBudget b (x r) := by
  cases hxr : x r with
  | ok a r₁ =>
      obtain ⟨_, hx, rfl⟩ := h.ok rfl hxr
      exact hx
  | error err r₁ =>
      obtain ⟨_, hx, rfl⟩ := h.error rfl hxr
      exact hx

lemma orderly (h : Indifferent (fun r r' => r' = r ∧ r.session.Orderly) x)
    (horderly : r.session.Orderly) : (after x r).session.Orderly :=
  (h r r ⟨rfl, horderly⟩).2.2

section Unmetered

variable (hR : Unmetered R)

include hR

/-- A question about anything but the budget. -/
lemma ask {query : Session → Except Fault α}
    (h : ∀ s budget, query (Session.annotate s budget s.updates s.recording) = query s) :
    Indifferent R (SessionM.inspect query) := by
  intro r r' hrel
  obtain ⟨budget, updates, recording, heq⟩ := hR.annotated hrel
  obtain ⟨hupdates, hrecording⟩ := hR.noted hrel
  rw [heq] at hupdates hrecording
  obtain rfl : updates = r.session.updates := hupdates
  obtain rfl : recording = r.session.recording := hrecording
  simp only [answer, after, SessionM.inspect, heq, h]
  cases query r.session <;> exact ⟨rfl, hrel⟩

/-- Changing what was noted. -/
lemma note (count : Nat → Nat) (keep : Option Recording → Option Recording) :
    Indifferent R (SessionM.change fun s => s.tally (count s.updates) (keep s.recording)) := by
  intro r r' hrel
  obtain ⟨hupdates, hrecording⟩ := hR.noted hrel
  refine ⟨rfl, ?_⟩
  show R _ ⟨r'.session.tally (count r'.session.updates) (keep r'.session.recording), r'.journal⟩
  rw [hupdates, hrecording]
  exact hR.tally _ _ hrel

lemma check : Indifferent R SessionM.check := by
  rintro r ⟨s', k⟩ hrel
  obtain ⟨budget, updates, recording, rfl⟩ := hR.annotated hrel
  simp only [answer, after, SessionM.check, annotate]
  cases r.session.store.check <;> exact ⟨rfl, hrel⟩

lemma record (i n block : Nat) (ts : List Transformer) (old new : Transformer) :
    Indifferent R (SessionM.record i n block ts old new) := by
  refine .bind (.ask hR fun _ _ => rfl) fun recording => ?_
  split
  · exact .pure ()
  · exact .bind (.ask hR fun _ _ => rfl) fun _ => .note hR id fun _ => some _

lemma install (q : Procedure) (i n : Nat) (ts : List Transformer) (old new : Transformer) :
    Indifferent R (SessionM.install q i n ts old new) := by
  have hunheeded := hR.toUnheeded
  refine .bind (.ask hR fun _ _ => rfl) fun block => .bind ?_ fun _ => .bind (.replace hunheeded old new)
    fun _ => .bind (.advanceIfIdle hunheeded) fun _ => .record hR i n block ts old new
  exact .bind (.note hR (· + 1) id) fun _ => .bind (.ask hR fun _ _ => rfl) fun _ => .report hunheeded _

/-- **An update does not look at the budget.** -/
lemma update (i n : Nat) : Indifferent R (SessionM.update i n) := by
  refine .bind (.ask hR fun _ _ => rfl) fun q => ?_
  have hcandidate : Indifferent R (SessionM.candidate i n) := .candidate hR.toUnheeded i n
  have hrest : ∀ c : List Transformer × Transformer, Indifferent R
      (SessionM.inspect (·.transformer i n) >>= fun old => SessionM.install q i n c.1 old c.2) :=
    fun c => .bind (.ask hR fun _ _ => rfl) fun old => .install hR q i n c.1 old c.2
  split
  · exact .bind (.throw _) fun _ => .bind hcandidate hrest
  · exact .bind hcandidate hrest

lemma updateThenCheck (i n : Nat) :
    Indifferent R (SessionM.update i n >>= fun _ => SessionM.check >>= fun _ => Pure.pure true : SessionM Bool) :=
  .bind (.update hR i n) fun _ => .bind (.check hR) fun _ => .pure true

/-- Going on with the next block, as a step does. -/
lemma advanceOn : Indifferent R (SessionM.advance >>= fun _ => Pure.pure true : SessionM Bool) :=
  .bind (.advance hR.toUnheeded) fun _ => .pure true

end Unmetered

end Indifferent

/-! ## Steps

A step looks at the budget once, and only if there is a state to update.  So it is either the step of the
session without a budget, or it fails and turns a queue.  To tell which, one has to count: a step makes one
update if a state is left, and none otherwise.
-/

/-- Without a budget nothing is ever used up. -/
lemma exhausted?_eq_none {s : Session} (hbudget : s.options.budget = none) : exhausted? s = none := by
  simp only [exhausted?, hbudget, Option.filter_none]

/-- **A step within the budget** is the step without a budget. -/
lemma step_budgeted (hbudget : r.session.options.budget = none)
    (hroom : (next? r.session).isSome → r.session.updates < b) :
    step (r.budgeted b) = withBudget b (step r) := by
  cases hnext : next? r.session with
  | none =>
      rw [step_of_idle hnext, step_of_idle (r := r.budgeted b) hnext]
      show (if r.session.block = 0 then _ else _) = _
      split
      · rfl
      · exact (Indifferent.advanceOn (unmetered_budgeted b)).budgeted r
  | some next =>
      obtain ⟨i, n, rest⟩ := next
      have hlt := hroom (by simp [hnext])
      have hexhausted : exhausted? (r.budgeted b).session = none := by
        rw [Run.budgeted, exhausted?_budgeted, if_neg (by omega)]
      rw [step_of_next? hnext, step_of_next? (r := r.budgeted b) hnext]
      simp only [exhausted?_eq_none hbudget, hexhausted]
      exact (Indifferent.updateThenCheck (unmetered_budgeted b) i n).budgeted
        ⟨r.session.setPending i rest, r.journal⟩

/-- **A step with the budget used up** says so, and turns a queue. -/
lemma step_of_exhausted (hnext : (next? r.session).isSome) (hexhausted : exhausted? r.session = some b) :
    answer step r = .error (.budgetExhausted r.session.updates) ∧
    (after step r).session = r.session.turned := by
  obtain ⟨⟨i, n, rest⟩, hnext⟩ := Option.isSome_iff_exists.1 hnext
  have hstep := step_of_next? hnext
  simp only [hexhausted] at hstep
  simp only [answer, after, hstep, turned_of_next? hnext, and_self]

/-- A step keeps the order of queues. -/
lemma orderly_step (h : r.session.Orderly) (hbudget : r.session.options.budget = none) :
    (after step r).session.Orderly := by
  cases hnext : next? r.session with
  | none =>
      simp only [after, step_of_idle hnext]
      split_ifs with hblock
      · exact h
      · exact (Indifferent.advanceOn unmetered_orderly).orderly h
  | some next =>
      obtain ⟨i, n, rest⟩ := next
      obtain ⟨pr, hpr, hpop⟩ := next?_eq_some hnext
      simp only [after, step_of_next? hnext, exhausted?_eq_none hbudget]
      exact (Indifferent.updateThenCheck unmetered_orderly i n).orderly
        (r := ⟨r.session.setPending i rest, r.journal⟩)
        (h.setPending ((WorkSet.order_of_pop? hpop).trans (h i pr hpr)))

/-- **A step counts its update.**  After an update nothing is left to do in the outermost block only. -/
lemma step_counts (h : r.session.Intact) (hbudget : r.session.options.budget = none) :
    (after step r).session.updates
      = (if (next? r.session).isSome then r.session.updates + 1 else r.session.updates) ∧
    ((next? r.session).isSome → (∀ j m, ¬ (after step r).session.Pending j m) →
      (after step r).session.block = 0) := by
  cases hnext : next? r.session with
  | none =>
      refine ⟨?_, by simp⟩
      simp only [after, step_of_idle hnext, Option.isSome_none, Bool.false_eq_true, if_false]
      split_ifs with hblock
      · rfl
      · have hadvance : ∃ r', advance r = .ok () r' := ⟨_, rfl⟩
        obtain ⟨r', hadvance⟩ := hadvance
        rw [bind_of_ok hadvance]
        exact updates_advance hadvance
  | some next =>
      obtain ⟨i, n, rest⟩ := next
      obtain ⟨s₁, entry, hperformed, hlook⟩ := step_performs h hnext (exhausted?_eq_none hbudget)
      obtain ⟨k, hstep⟩ := hlook r.session.recording r.journal
      obtain ⟨-, -, -, -, -, hsettled, -⟩ := hperformed
      have hafter : (after step r).session
          = s₁.tally (r.session.updates + 1) (r.session.recording.map (·.append [entry])) := by
        have hstep : step r = _ := hstep
        simp only [after, hstep]
        cases hroom : s₁.store.overflowed with
        | true => rw [bind_of_error ((check_eq _).trans (if_pos hroom))]
        | false => rw [bind_of_ok ((check_eq _).trans (if_neg (by simp [tally, hroom])))]; rfl
      rw [hafter]
      exact ⟨by simp [tally], fun _ hidle => hsettled hidle⟩

/-- A step does not give a budget to a session without one. -/
lemma budget_step (h : r.session.Intact) (hbudget : r.session.options.budget = none) :
    (after step r).session.options.budget = none := by
  rw [((step_transition h).evolves h).options]
  exact hbudget

/-! ### Several steps

Steps are iterated without regard to their answers, so the statements are about all that may follow, also
after a failure.  Up to the count of the budget they lead where they would lead without one; from there on
each of them fails and turns a queue.
-/

/-- What steps keep. -/
lemma stepped_keeps : ∀ (count : Nat) {r : Run}, r.session.Intact → r.session.Orderly →
    r.session.options.budget = none →
    (stepped count r).session.Intact ∧ (stepped count r).session.Orderly ∧
      (stepped count r).session.options = r.session.options
  | 0, _, h, horderly, _ => ⟨h, horderly, rfl⟩
  | count + 1, r, h, horderly, hbudget => by
      have hevolves := (step_transition h).evolves h
      obtain ⟨hintact, horderly', hoptions⟩ := stepped_keeps count (r := after step r) hevolves.intact
        (orderly_step horderly hbudget) (budget_step h hbudget)
      exact ⟨hintact, horderly', hoptions.trans hevolves.options⟩

lemma after_budgeted {x : SessionM α} (h : x (r.budgeted b) = withBudget b (x r)) :
    after x (r.budgeted b) = (after x r).budgeted b := by
  simp only [after, h]
  cases x r <;> rfl

lemma stepped_succ (count : Nat) (r : Run) : stepped (count + 1) r = after step (stepped count r) :=
  Function.iterate_succ_apply' (after step) count r

section Within

variable (h : r.session.Intact) (horderly : r.session.Orderly)
  (hbudget : r.session.options.budget = none)

include h horderly hbudget

/-- One step more counts one update more, if a state is left. -/
lemma updates_stepped_succ (count : Nat) :
    (stepped (count + 1) r).session.updates
      = if (next? (stepped count r).session).isSome then (stepped count r).session.updates + 1
        else (stepped count r).session.updates := by
  obtain ⟨hintact, -, hoptions⟩ := stepped_keeps count h horderly hbudget
  rw [stepped_succ]
  exact (step_counts hintact (by rw [hoptions, hbudget])).1

lemma updates_stepped_le (count : Nat) :
    (stepped count r).session.updates ≤ (stepped (count + 1) r).session.updates := by
  rw [updates_stepped_succ h horderly hbudget]
  split <;> omega

/-- **A step within the budget**, after others. -/
lemma step_stepped_budgeted (count : Nat) (hle : (stepped (count + 1) r).session.updates ≤ b) :
    step ((stepped count r).budgeted b) = withBudget b (step (stepped count r)) := by
  obtain ⟨-, -, hoptions⟩ := stepped_keeps count h horderly hbudget
  refine step_budgeted (by rw [hoptions, hbudget]) fun hnext => ?_
  rw [updates_stepped_succ h horderly hbudget, if_pos hnext] at hle
  omega

/-- **Steps within the budget** lead where they lead without a budget. -/
lemma stepped_budgeted : ∀ (count : Nat), (stepped count r).session.updates ≤ b →
    stepped count (r.budgeted b) = (stepped count r).budgeted b
  | 0, _ => rfl
  | count + 1, hle => by
      have hbefore := (updates_stepped_le h horderly hbudget count).trans hle
      rw [stepped_succ, stepped_succ, stepped_budgeted count hbefore]
      exact after_budgeted (step_stepped_budgeted h horderly hbudget count hle)

end Within

/-- Steps with the budget used up turn a queue again and again. -/
lemma stepped_of_exhausted : ∀ (count : Nat) {r : Run}, (next? r.session).isSome →
    r.session.options.budget = some b → b ≤ r.session.updates →
    (stepped count r).session = turned^[count] r.session ∧
      answer step (stepped count r) = .error (.budgetExhausted r.session.updates)
  | count, r, hnext, hbudget, hle => by
      have hexhausted : exhausted? r.session = some b := by
        simp [exhausted?, hbudget, Option.filter_some, hle]
      obtain ⟨hanswer, hafter⟩ := step_of_exhausted hnext hexhausted
      cases count with
      | zero => exact ⟨rfl, hanswer⟩
      | succ count =>
          obtain ⟨hsession, hanswer'⟩ := stepped_of_exhausted count (r := after step r)
            (by rw [hafter]; exact next?_turned hnext)
            (by rw [hafter, (turned_rearranged _).shares.options]; exact hbudget)
            (by rw [hafter, updates_turned]; exact hle)
          rw [hafter] at hsession hanswer'
          rw [updates_turned] at hanswer'
          exact ⟨hsession, hanswer'⟩

/-! ## Runs

The budget is compared with the count before each update, but whether it suffices for a run is a question
about the count in the end.  Counts never go back, so a run that stays within its budget in the end does so
at every step.  For the other direction the run is cut at the update that would be one too many.  All steps
before are updates, since after an update nothing is left to do in the outermost block only.
-/

/-- A run after its first step. -/
lemma after_runWithin_succ (steps : Nat) (r : Run) :
    (after (runWithin (steps + 1)) r).session
      = match answer step r with
        | .ok true => (after (runWithin steps) (after step r)).session
        | _ => (after step r).session := by
  cases hstep : step r with
  | ok more r' =>
      simp only [after, answer, hstep, runWithin, bind_of_ok hstep]
      cases more <;> rfl
  | error err r' => simp only [after, answer, hstep, runWithin, bind_of_error hstep]

/-- A run does not take back the count of updates. -/
lemma updates_le_runWithin : ∀ (steps : Nat) {r : Run}, r.session.Intact →
    r.session.options.budget = none →
    r.session.updates ≤ (after (runWithin steps) r).session.updates
  | 0, _, _, _ => le_rfl
  | steps + 1, r, h, hbudget => by
      have hevolves := (step_transition h).evolves h
      have hfirst : r.session.updates ≤ (after step r).session.updates := by
        rw [(step_counts h hbudget).1]
        split <;> omega
      rw [after_runWithin_succ]
      split
      · exact hfirst.trans (updates_le_runWithin steps hevolves.intact (budget_step h hbudget))
      · exact hfirst

/-- Nothing is counted where no state is there to be updated. -/
lemma updates_runWithin_of_no_inner : ∀ (steps : Nat) {r : Run}, r.session.Intact →
    r.session.options.budget = none → (∀ i n, ¬ r.session.program.isInner i n = true) →
    (after (runWithin steps) r).session.updates = r.session.updates
  | 0, _, _, _, _ => rfl
  | steps + 1, r, h, hbudget, hinner => by
      have hevolves := (step_transition h).evolves h
      have hnext : next? r.session = none := by
        by_contra hsome
        obtain ⟨⟨i, n, rest⟩, hnext⟩ := Option.ne_none_iff_exists'.1 hsome
        exact hinner i n (h.inner i n (pending_of_next? hnext).1)
      have hfirst : (after step r).session.updates = r.session.updates := by
        simp [(step_counts h hbudget).1, hnext]
      rw [after_runWithin_succ]
      split
      · rw [updates_runWithin_of_no_inner steps hevolves.intact (budget_step h hbudget)
          (by rw [hevolves.program]; exact hinner), hfirst]
      · exact hfirst

/-- **A run within the budget** is the run without a budget. -/
theorem runWithin_budgeted : ∀ (steps : Nat) {r : Run}, r.session.Intact →
    r.session.options.budget = none → (after (runWithin steps) r).session.updates ≤ b →
    runWithin steps (r.budgeted b) = withBudget b (runWithin steps r)
  | 0, _, _, _, _ => rfl
  | steps + 1, r, h, hbudget, hle => by
      have hevolves := (step_transition h).evolves h
      have hbudget' := budget_step h hbudget
      rw [after_runWithin_succ] at hle
      -- the first step is counted in the end
      have hfirst : (after step r).session.updates ≤ b := by
        split at hle
        · exact (updates_le_runWithin steps hevolves.intact hbudget').trans hle
        · exact hle
      have hstep : step (r.budgeted b) = withBudget b (step r) := by
        refine step_budgeted hbudget fun hnext => ?_
        rw [(step_counts h hbudget).1, if_pos hnext] at hfirst
        omega
      refine bind_budgeted hstep fun more r' hr' => ?_
      cases more with
      | false => rfl
      | true =>
          have hafter : after step r = r' := by simp only [after, hr']
          rw [hafter] at hevolves hbudget' hle
          simp only [answer, hr'] at hle
          exact runWithin_budgeted steps hevolves.intact hbudget' hle

/-- **A run that goes beyond its budget is cut off** where the run without a budget has made so many updates.
Until then every step is an update. -/
theorem runWithin_cut : ∀ (steps count : Nat) {r : Run}, r.session.Intact →
    r.session.options.budget = none → ((∀ j m, ¬ r.session.Pending j m) → r.session.block = 0) →
    r.session.updates + count < (after (runWithin steps) r).session.updates →
    (stepped count r).session.updates = r.session.updates + count ∧
    (next? (stepped count r).session).isSome ∧
    answer (runWithin steps) (r.budgeted (r.session.updates + count))
      = .error (.budgetExhausted (r.session.updates + count)) ∧
    (after (runWithin steps) (r.budgeted (r.session.updates + count))).session
      = ((stepped count r).session.budgeted (r.session.updates + count)).turned
  | 0, count, r, _, _, _, hlt => by
      have hsame : after (runWithin 0) r = r := rfl
      rw [hsame] at hlt
      omega
  | steps + 1, count, r, h, hbudget, hsettled, hlt => by
      have hevolves := (step_transition h).evolves h
      have hbudget' := budget_step h hbudget
      -- a session with nothing left to do ends here
      have hnext : (next? r.session).isSome := by
        by_contra hnone
        rw [Option.not_isSome_iff_eq_none] at hnone
        have hstep := step_of_idle hnone
        rw [if_pos (hsettled (next?_eq_none hnone))] at hstep
        rw [after_runWithin_succ] at hlt
        simp only [answer, after, hstep] at hlt
        omega
      obtain ⟨hcount, hsettled'⟩ := step_counts h hbudget
      rw [if_pos hnext] at hcount
      cases count with
      | zero =>
          have hexhausted : exhausted? (r.budgeted r.session.updates).session
              = some r.session.updates := by
            rw [Run.budgeted, exhausted?_budgeted, if_pos le_rfl]
          obtain ⟨hanswer, hafter⟩ :=
            step_of_exhausted (r := r.budgeted r.session.updates) hnext hexhausted
          refine ⟨rfl, hnext, answer_bind_of_error hanswer, ?_⟩
          simp only [Nat.add_zero, after_runWithin_succ, hanswer]
          exact hafter
      | succ count =>
          have hmore : answer step r = .ok true := by
            by_contra hnot
            rw [after_runWithin_succ] at hlt
            split at hlt
            · next htrue => exact hnot htrue
            · omega
          have hstep : step r = .ok true (after step r) := answer_eq_ok_iff.1 hmore
          simp only [after_runWithin_succ, hmore] at hlt
          obtain ⟨hupdates, hleft, hanswer, hcut⟩ := runWithin_cut steps count hevolves.intact hbudget'
            (hsettled' hnext) (by rw [hcount]; omega)
          have hsum : (after step r).session.updates + count = r.session.updates + (count + 1) := by
            rw [hcount]
            omega
          rw [hsum] at hupdates hanswer hcut
          have hbudgeted := step_budgeted (b := r.session.updates + (count + 1)) hbudget fun _ => by omega
          rw [hstep, withBudget] at hbudgeted
          refine ⟨hupdates, hleft, ?_, ?_⟩
          · rw [runWithin, answer_bind_of_ok hbudgeted]
            exact hanswer
          · rw [after_runWithin_succ]
            simp only [answer, after, hbudgeted]
            exact hcut

/-! ## From the beginning

A new session has counted no updates, and every state that is not final is left to update.  This is what the
statements about runs ask for.
-/

/-- The queues of a new session have the order that was asked for. -/
lemma order_of_startProgress {order : PickOrder} {e : EquationSystem} :
    ∀ {qs : List Procedure} {prs : List Progress} {store store' : Store},
      qs.mapM (startProgress order e) store = .ok prs store' → ∀ pr ∈ prs, pr.pending.order = order
  | [], _, _, _, h, pr, hpr => by
      cases h
      simp at hpr
  | q :: qs, _, _, _, h, pr, hpr => by
      rw [List.mapM_cons] at h
      obtain ⟨pr₀, store₁, hfirst, h⟩ := bind_eq_ok h
      obtain ⟨prs, store₂, hrest, h⟩ := bind_eq_ok h
      cases h
      rcases List.mem_cons.1 hpr with rfl | hpr
      · obtain ⟨ts, _, -, hpr₀⟩ := bind_eq_ok hfirst
        cases hpr₀
        exact WorkSet.order_insertMany q.innerStates (.empty order)
      · exact order_of_startProgress hrest pr hpr

variable {system : System} {p : Program} {o : Options} {f : Formula} {j j' : Journal} {s : Session}

/-- A new session has all its states left to update, in the order that was asked for. -/
lemma begin_queues (hbits : Store.validBits o.storageBits = true)
    (hbegin : begin p o f j = .ok s j') :
    s.updates = 0 ∧ s.Orderly ∧ ∀ i n, s.program.isInner i n = true → s.Pending i n := by
  obtain ⟨e, prs, store, -, hprs, -, rfl⟩ := begin_eq_ok_iff.1 ⟨j', hbegin⟩
  obtain ⟨-, hfresh⟩ :=
    (startProgress_all (e := e) o.pick (Store.empty_sound hbits) p.procedures.toList).post_of_ok hprs
  refine ⟨rfl, fun i pr hpr => order_of_startProgress hprs pr ?_, fun i n hi => ?_⟩
  · exact Array.mem_toList_iff.2 (Array.mem_of_getElem? hpr)
  · obtain ⟨q, hq, -⟩ := Program.exists_of_isInner hi
    obtain ⟨pr, hpr, hpending⟩ := exists_of_getElem?_left hfresh (by rwa [Array.getElem?_toList])
    exact ⟨pr, by simpa [started] using hpr, (hpending.pending n).2 ((Program.mem_innerStates hq).2 hi)⟩

/-- A session begins in the same way with a budget. -/
lemma begin_budgeted (hbegin : begin p o f j = .ok s j') (b : Nat) :
    begin p { o with budget := some b } f j = .ok (s.budgeted b) j' := by
  obtain ⟨e, j₁, he, h⟩ := bind_eq_ok hbegin
  rw [begin, bind_of_ok he]
  simp only at h ⊢
  cases hprs : p.procedures.toList.mapM (startProgress o.pick e) (.empty o.storageBits) with
  | error err store =>
      simp only [hprs] at h
      cases h
  | ok prs store =>
      simp only [hprs] at h ⊢
      cases hroom : store.overflowed with
      | true =>
          simp only [Store.check, hroom, if_true] at h
          obtain ⟨_, _, -, h⟩ := bind_eq_ok h
          obtain ⟨_, _, -, h⟩ := bind_eq_ok h
          cases h
      | false =>
          simp only [Store.check, hroom, Bool.false_eq_true, if_false] at h ⊢
          obtain ⟨_, j₂, hstarted, h⟩ := bind_eq_ok h
          rw [bind_of_ok hstarted]
          cases h
          rfl

/-- **A run that was cut off** in the session `stop` after `b` updates. -/
structure CutOff (r : Run) (b : Nat) (stop : Session) : Prop where
  updates : stop.updates = b
  answer_run : answer run r = .error (.budgetExhausted b)
  /-- The run turns a queue, and so does every further step. -/
  session : ∀ count, (stepped count (after run r)).session = turned^[count + 1] stop
  answer_step : ∀ count, answer step (stepped count (after run r)) = .error (.budgetExhausted b)
  /-- Only the order of the states that are left may change. -/
  kept : ∀ count, stop.Rearranged (turned^[count] stop) ∧ (turned^[count] stop).updates = b
  /-- It does change if the state that is next is not the newest one and not the only one of its queue. -/
  order : ∃ i n rest, next? stop = some (i, n, rest) ∧
    (stop.turned = stop ↔ stop.options.pick = .newest ∨ rest.isEmpty = true) ∧
    (stop.turned.pendingStates = stop.pendingStates ↔
      stop.options.pick = .newest ∨ rest.isEmpty = true)

/-- A run that goes beyond its budget is cut off. -/
lemma cutOff_of_lt (h : r.session.Intact) (horderly : r.session.Orderly)
    (hbudget : r.session.options.budget = none)
    (hsettled : (∀ j m, ¬ r.session.Pending j m) → r.session.block = 0)
    (hstart : r.session.updates = 0) (hlt : b < (after run r).session.updates) :
    CutOff (r.budgeted b) b ((stepped b r).session.budgeted b) := by
  have hlt' : r.session.updates + b < (after (runWithin r.session.stepBound) r).session.updates := by
    rw [hstart, Nat.zero_add]
    exact hlt
  obtain ⟨hupdates, hnext, hanswer, hafter⟩ := runWithin_cut _ b h hbudget hsettled hlt'
  rw [hstart, Nat.zero_add] at hupdates hanswer hafter
  obtain ⟨hintact, horderly', -⟩ := stepped_keeps b h horderly hbudget
  obtain ⟨⟨i, n, rest⟩, hstate⟩ := Option.isSome_iff_exists.1 hnext
  have hafter : (after run (r.budgeted b)).session
      = ((stepped b r).session.budgeted b).turned := hafter
  have hkept := fun count => turned_keeps count ((stepped b r).session.budgeted b)
  have hsteps := fun count => stepped_of_exhausted (b := b) count (r := after run (r.budgeted b))
    (by rw [hafter]; exact next?_turned hnext)
    (by rw [hafter, (turned_rearranged _).shares.options]; rfl)
    (by rw [hafter, updates_turned]; exact hupdates.ge)
  exact
    { updates := hupdates
      answer_run := hanswer
      session := fun count => by rw [(hsteps count).1, hafter, Function.iterate_succ_apply]
      answer_step := fun count => by
        rw [(hsteps count).2, hafter, updates_turned]
        exact congrArg _ (congrArg _ hupdates)
      kept := fun count => ⟨(hkept count).1, (hkept count).2.trans hupdates⟩
      order := ⟨i, n, rest, hstate, turned_eq_iff (hintact.budgeted b) horderly' hstate⟩ }

/-- **What a budget does to a run.**  A session begins in the same way with a budget of `b` updates, and its
steps are the same as long as there are not more updates than that.

If the run without a budget makes no more updates, the run with it is the same.  Otherwise it is cut off after
the first `b` steps of the other one, which are `b` updates.  It leaves the session that these steps lead to,
but with the next state behind the others of its queue. -/
theorem run_within_budget (hsystem : Program.ofSystem system = .ok p)
    (hbits : Store.validBits o.storageBits = true) (hbudget : o.budget = none)
    (hbegin : begin p o f j = .ok s j') (b : Nat) :
    begin p { o with budget := some b } f j = .ok (s.budgeted b) j' ∧
    (∀ count, (stepped (count + 1) ⟨s, j'⟩).session.updates ≤ b →
      step (stepped count (Run.budgeted ⟨s, j'⟩ b)) = withBudget b (step (stepped count ⟨s, j'⟩))) ∧
    ((after run ⟨s, j'⟩).session.updates ≤ b →
      run (Run.budgeted ⟨s, j'⟩ b) = withBudget b (run ⟨s, j'⟩)) ∧
    (b < (after run ⟨s, j'⟩).session.updates →
      CutOff (Run.budgeted ⟨s, j'⟩ b) b ((stepped b ⟨s, j'⟩).session.budgeted b)) := by
  have hp := Program.wellFormed_of_system hsystem
  obtain ⟨hontrack, -, hoptions, -⟩ := begin_spec hp hbits hbegin
  obtain ⟨hstart, horderly, hpending⟩ := begin_queues hbits hbegin
  have hbudget' : s.options.budget = none := by rw [hoptions, hbudget]
  refine ⟨begin_budgeted hbegin b, fun count hle => ?_, fun hle => ?_, fun hlt => ?_⟩
  · have hbefore := (updates_stepped_le (r := ⟨s, j'⟩) hontrack.toIntact horderly hbudget' count).trans hle
    rw [stepped_budgeted hontrack.toIntact horderly hbudget' count hbefore]
    exact step_stepped_budgeted hontrack.toIntact horderly hbudget' count hle
  · exact runWithin_budgeted (r := ⟨s, j'⟩) s.stepBound hontrack.toIntact hbudget' hle
  · refine cutOff_of_lt (r := ⟨s, j'⟩) hontrack.toIntact horderly hbudget' (fun hidle => ?_) hstart hlt
    -- where nothing is left to do from the beginning, nothing is ever counted
    exfalso
    have hnone := updates_runWithin_of_no_inner (r := ⟨s, j'⟩) s.stepBound hontrack.toIntact hbudget'
      fun i n hi => hidle i n (hpending i n hi)
    have hzero : (after run ⟨s, j'⟩).session.updates = s.updates := hnone
    omega

theorem run_within_budget_callingProgram : ∃ s j,
    begin callingProgram { storageBits := 4 } alwaysPossibly #[] = .ok s j ∧
    answer run (Run.budgeted ⟨s, j⟩ 1) = .error (.budgetExhausted 1) ∧
    CutOff (Run.budgeted ⟨s, j⟩ 1) 1 ((stepped 1 ⟨s, j⟩).session.budgeted 1) ∧
    run (Run.budgeted ⟨s, j⟩ 40) = withBudget 40 (run ⟨s, j⟩) := by
  have hends : fromBegin callingProgram { storageBits := 4 } alwaysPossibly [.run]
      (fun s => (decide (1 < s.updates), decide (s.updates ≤ 40))) = some ([.ok ()], (true, true)) := by
    decide +kernel
  have hsystem : Program.ofSystem { main := "main", procedures := [("main", callingGraph)] }
      = .ok callingProgram := rfl
  obtain ⟨s, j, hbegin, -, hfound⟩ := exists_of_fromBegin hends
  obtain ⟨hmore, hless⟩ := Prod.mk.inj hfound
  obtain ⟨-, -, -, hcut⟩ := run_within_budget hsystem rfl rfl hbegin 1
  obtain ⟨-, -, hsame, -⟩ := run_within_budget hsystem rfl rfl hbegin 40
  have hcutOff := hcut (of_decide_eq_true hmore)
  exact ⟨s, j, hbegin, hcutOff.answer_run, hcutOff, hsame (of_decide_eq_true hless)⟩

/-- **The order may change**: with two states left and a budget of no updates, a run fails and leaves them in the
other order, and a step after it changes the order again. -/
theorem budget_turns_queue :
    fromBegin callingProgram { storageBits := 4, budget := some 0 } alwaysPossibly [] pendingStates
      = some ([], [("main", [0, 1])]) ∧
    fromBegin callingProgram { storageBits := 4, budget := some 0 } alwaysPossibly [.run] pendingStates
      = some ([.error (.budgetExhausted 0)], [("main", [1, 0])]) ∧
    fromBegin callingProgram { storageBits := 4, budget := some 0 } alwaysPossibly [.run, .step]
      pendingStates
      = some ([.error (.budgetExhausted 0), .error (.budgetExhausted 0)], [("main", [0, 1])]) := by
  refine ⟨?_, ?_, ?_⟩ <;> decide +kernel

end SessionM

end ModalCalls
