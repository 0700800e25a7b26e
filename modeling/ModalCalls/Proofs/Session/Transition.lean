import Mathlib
import ModalCalls.Proofs.Session.Candidate
import ModalCalls.Proofs.Session.Marking

/-!
# What a step can do

A session is *faithful* if the stage it stands for can be reached by the moves of an iteration, and all
states that are not to be updated are ready (`Session.Faithful`).

* `Session.Updated` — what an update of a state does, whether or not the store has room for it.
* `Session.Transition` — what a step does, with its answer.  Whatever is kept by all steps is proved from
  this.
* `Session.Transition.onTrack` — steps that succeed lead from faithful sessions to faithful ones.
-/

namespace ModalCalls

namespace Session

variable {s s' s'' : Session} {i n j m : Nat} {D : Nat → Nat → Prop}

/-! ## Faithful sessions

While a state is being updated it is no longer in its queue, but it has not been updated either.  That is
why the set of states left to update is a parameter here, and not read off the session.
-/

/-- **A faithful session**: its stage, with the states in `D` still to be updated, is one of an
iteration, and all other states are ready. -/
structure Faithful (s : Session) (D : Nat → Nat → Prop) : Prop where
  reached : Snapshot.Reached s.program s.equations ⟨s.block, s.value, D⟩
  ready : ∀ i n, s.program.isInner i n = true → ¬ D i n → s.Ready i n

namespace Faithful

lemma extended (h : s.Faithful D) (hs : s.Intact) (hext : s.Extends s') : s'.Faithful D where
  reached := by
    rw [hext.program, hext.equations, hext.block, hext.value hs]
    exact h.reached
  ready i n hi hn := (h.ready i n (hext.program ▸ hi) hn).of_extends hs hext

lemma rearranged (h : s.Faithful D) (hmarked : s.Rearranged s') : s'.Faithful D where
  reached := by
    rw [hmarked.shares.program, hmarked.shares.equations, hmarked.block, hmarked.value]
    exact h.reached
  ready i n hi hn := hmarked.ready (h.ready i n (hmarked.shares.program ▸ hi) hn)

/-- Replacing the transformer of a state by its next stage is a move. -/
lemma replaced (h : s.Faithful D) {old new : Transformer} {block : Block}
    (hD : ∀ j m, D j m → (j = i ∧ m = n) ∨ s.Pending j m)
    (hi : s.program.isInner i n = true) (hblock : s.equations.blocks[s.block]? = some block)
    (hold : s.transformer? i n = some old) (hready : s.Ready i n)
    (hnew : new.summary s.store
      = s.snapshot.renewed s.program s.equations i n block.vars)
    (hrep : s.Replaced i n old new s') : s'.Faithful s'.Pending where
  reached := by
    let S : Snapshot := ⟨s.block, s.value, D⟩
    have hvalue : s'.value = s.value.set i n (S.renewed s.program s.equations i n block.vars) := by
      rw [hrep.value, hnew]
      rfl
    have hmove : Snapshot.Move s.program s.equations S
        ⟨s.block, s.value.set i n (S.renewed s.program s.equations i n block.vars), s'.Pending⟩ := by
      refine .update hi hblock (fun j m hjm hne => ?_) fun hchange => hrep.marks fun heq => hchange ?_
      · exact hrep.keeps j m ((hD j m hjm).resolve_left hne)
      · rw [heq] at hnew
        exact hnew.symm.trans (value_of_transformer? hold).symm
    rw [hrep.shares.program, hrep.shares.equations, hrep.block, hvalue]
    exact h.reached.move hmove
  ready j m hj hjm := by
    rw [hrep.shares.program] at hj
    have hold_ready : s.Ready j m := by
      by_cases hij : j = i ∧ m = n
      · obtain ⟨rfl, rfl⟩ := hij
        exact hready
      · exact h.ready j m hj fun hD' => hjm (hrep.keeps j m ((hD j m hD').resolve_left hij))
    refine hold_ready.of_shares hrep.shares hrep.block fun j' m' hreads => ?_
    rw [hrep.transformer?]
    split
    · next hij =>
        -- a reader of the state is marked, unless nothing has changed
        obtain ⟨rfl, rfl⟩ := hij
        rw [hold]
        by_contra hne
        exact hjm (hrep.marks (fun heq => hne (congrArg some heq)) j m hreads)
    · rfl

/-- Going on with the next block is a move. -/
lemma advanced (h : s.Faithful s.Pending) (hpos : 0 < s.block) (hidle : ∀ j m, ¬ s.Pending j m)
    (hadv : s.Advanced s') : s'.Faithful s'.Pending where
  reached := by
    have hmove : Snapshot.Move s.program s.equations ⟨s.block, s.value, s.Pending⟩
        ⟨s.block - 1, s.value, s'.Pending⟩ := .advance hpos (fun j m _ => hidle j m) hadv.all
    rw [hadv.shares.program, hadv.shares.equations, hadv.block, hadv.value]
    exact h.reached.move hmove
  ready j m hj hjm := absurd (hadv.all j m (hadv.shares.program ▸ hj)) hjm

end Faithful

/-! ## What operations keep

Some facts are true after every operation, also after one that fails: the session is intact, the store has
grown, and the program, the equations and the options are as before.  That nothing was lost is true only as
long as there is room.
-/

/-- The session `s'` that an operation leaves, compared with the session `s` that it found. -/
structure Evolves (s s' : Session) : Prop where
  intact : s'.Intact
  program : s'.program = s.program
  equations : s'.equations = s.equations
  options : s'.options = s.options
  deadlock : s'.deadlock = s.deadlock
  grows : s.store.Grows s'.store

namespace Evolves

lemma refl (h : s.Intact) : s.Evolves s :=
  ⟨h, rfl, rfl, rfl, rfl, .refl h.store⟩

lemma trans (h : s.Evolves s') (h' : s'.Evolves s'') : s.Evolves s'' :=
  ⟨h'.intact, h'.program.trans h.program, h'.equations.trans h.equations,
    h'.options.trans h.options, h'.deadlock.trans h.deadlock, h.grows.trans h'.grows⟩

lemma of_extends (h : s.Extends s') : s.Evolves s' :=
  ⟨h.intact, h.program, h.equations, by rw [h.same], by rw [h.same], h.grows⟩

lemma of_shares (h : s.Shares s') (hs : s.Intact) (hs' : s'.Intact) : s.Evolves s' :=
  ⟨hs', h.program, h.equations, h.options, h.deadlock, by rw [h.store]; exact .refl hs.store⟩

end Evolves

/-- A session in which nothing was lost so far. -/
structure OnTrack (s : Session) : Prop extends s.Intact where
  room : s.store.overflowed = false
  faithful : s.Faithful s.Pending

/-! ## What an update does

An update computes, stores, and may go on with the next block.  The relation names the transformers in
between, so that any fact about an update follows without opening its definition once more.
-/

lemma Replaced.noted {old new : Transformer} (h : s.Replaced i n old new s')
    (hnoted : s'.Noted s'') : s.Replaced i n old new s'' where
  shares := h.shares.trans hnoted.shares
  intact := hnoted.intact h.intact
  block := hnoted.block.trans h.block
  transformer? j m := by rw [hnoted.transformer?, h.transformer?]
  keeps j m hjm := by
    rw [hnoted.pending]
    exact h.keeps j m hjm
  marks hne j m hreads := by
    rw [hnoted.pending]
    exact h.marks hne j m hreads
  same heq := hnoted.pending.trans (h.same heq)

lemma Advanced.noted (h : s.Advanced s') (hnoted : s'.Noted s'') : s.Advanced s'' where
  shares := h.shares.trans hnoted.shares
  intact := hnoted.intact h.intact
  block := hnoted.block.trans h.block
  transformer? := hnoted.transformer?.trans h.transformer?
  all j m hjm := by
    rw [hnoted.pending]
    exact h.all j m hjm

/-- **What storing a transformer does**: it takes the place of the old one, and the next block is begun if
nothing is left to do. -/
inductive Installed (s : Session) (i n : Nat) (old new : Transformer) (s' : Session) : Prop
  | stays (hrep : s.Replaced i n old new s')
  | advances (s₁ : Session) (hrep : s.Replaced i n old new s₁) (hpos : 0 < s₁.block)
      (hidle : ∀ j m, ¬ s₁.Pending j m) (hadv : s₁.Advanced s')

lemma Installed.shares {old new : Transformer} (h : s.Installed i n old new s') : s.Shares s' := by
  cases h with
  | stays hrep => exact hrep.shares
  | advances s₁ hrep _ _ hadv => exact hrep.shares.trans hadv.shares

lemma Installed.intact {old new : Transformer} (h : s.Installed i n old new s') : s'.Intact := by
  cases h with
  | stays hrep => exact hrep.intact
  | advances s₁ _ _ _ hadv => exact hadv.intact

lemma Installed.transformer? {old new : Transformer} (h : s.Installed i n old new s') (j m : Nat) :
    s'.transformer? j m = if j = i ∧ m = n then some new else s.transformer? j m := by
  cases h with
  | stays hrep => exact hrep.transformer? j m
  | advances s₁ hrep _ _ hadv =>
      rw [hadv.transformer?]
      exact hrep.transformer? j m

/-- At most one block is left. -/
lemma Installed.block {old new : Transformer} (h : s.Installed i n old new s') :
    s'.block ≤ s.block ∧ s.block ≤ s'.block + 1 := by
  cases h with
  | stays hrep => exact ⟨hrep.block.le, by rw [hrep.block]; omega⟩
  | advances s₁ hrep _ _ hadv =>
      rw [hadv.block, hrep.block]
      omega

lemma Intact.exists_block (h : s.Intact) :
    ∃ block, s.equations.blocks[s.block]? = some block :=
  ⟨_, Array.getElem?_eq_getElem h.block⟩

/-- **What an update of a state does**: its new transformer is computed from the old one and stored. -/
inductive Updated (s : Session) (i n : Nat) (s' : Session) : Prop
  | intro {block : Block} {along : List Transformer} {old new : Transformer} {s₁ : Session}
      (hblock : s.equations.blocks[s.block]? = some block)
      (hcomputed : s.Computed i n block along new s₁) (hold : s₁.transformer? i n = some old)
      (hinstalled : s₁.Installed i n old new s')

lemma Updated.evolves (h : s.Updated i n s') : s.Evolves s' := by
  obtain ⟨-, hcomputed, -, hinstalled⟩ := h
  exact (Evolves.of_extends hcomputed.extended).trans
    (.of_shares hinstalled.shares hcomputed.extended.intact hinstalled.intact)

/-- An update keeps a session faithful if the store has room. -/
lemma Updated.faithful (h : s.Updated i n s') (hs : s.Intact)
    (hi : s.program.isInner i n = true)
    (hD : ∀ j m, D j m → (j = i ∧ m = n) ∨ s.Pending j m) (hroom : s'.store.overflowed = false)
    (hfaithful : s.Faithful D) : s'.Faithful s'.Pending := by
  obtain ⟨hblock, hcomputed, hold, hinstalled⟩ := h
  have hext := hcomputed.extended
  rw [hinstalled.shares.store] at hroom
  have hreplaced : ∀ {s₂ : Session}, _ → s₂.Faithful s₂.Pending := fun hrep =>
    (hfaithful.extended hs hext).replaced (by rw [hext.pending]; exact hD)
      (by rw [hext.program]; exact hi) (by rw [hext.equations, hext.block]; exact hblock) hold
      (hcomputed.ready hroom)
      (by
        rw [hcomputed.renewed hroom, hext.program, hext.equations]
        simp only [Snapshot.renewed, snapshot, hext.value hs]) hrep
  cases hinstalled with
  | stays hrep => exact hreplaced hrep
  | advances s₁ hrep hpos hidle hadv => exact (hreplaced hrep).advanced hpos hidle hadv

end Session

namespace SessionM

open Session

variable {i n : Nat}

/-! ## The next state

The next state is taken from the first procedure that has one left.  It is removed before it is updated, and
no queue has a state twice, so it is not left to update unless the update marks it again.
-/

lemma next?_eq_none {s : Session} (h : next? s = none) (i n : Nat) : ¬ s.Pending i n := by
  rintro ⟨pr, hpr, hn⟩
  simp only [next?, List.findSome?_eq_none_iff, List.mem_zipIdx_iff_getElem?, Array.getElem?_toList,
    Option.map_eq_none_iff, WorkSet.pop?_eq_none_iff] at h
  rw [h (pr, i) hpr] at hn
  simp at hn

lemma next?_eq_some {s : Session} {rest : WorkSet} (h : next? s = some (i, n, rest)) :
    ∃ pr : Progress, s.progress[i]? = some pr ∧ pr.pending.pop? = some (n, rest) := by
  obtain ⟨⟨pr, j⟩, hmem, hpop⟩ := List.exists_of_findSome?_eq_some h
  rw [List.mem_zipIdx_iff_getElem?, Array.getElem?_toList] at hmem
  obtain ⟨⟨m, rest'⟩, hpop', heq⟩ := Option.map_eq_some_iff.1 hpop
  cases heq
  exact ⟨pr, hmem, hpop'⟩

/-- The state that is taken out was left to update; the others stay. -/
lemma pending_of_next? {s : Session} {rest : WorkSet} (h : next? s = some (i, n, rest)) :
    s.Pending i n ∧
    (∀ j m, (s.setPending i rest).Pending j m → s.Pending j m) ∧
    ∀ j m, s.Pending j m → (j = i ∧ m = n) ∨ (s.setPending i rest).Pending j m := by
  obtain ⟨pr, hpr, hpop⟩ := next?_eq_some h
  have hmem : ∀ m, m ∈ pr.pending.queue ↔ m = n ∨ m ∈ rest.queue := by
    intro m
    rw [← WorkSet.mem_toList, ← WorkSet.mem_toList, WorkSet.toList_of_pop? hpop, List.mem_cons]
  refine ⟨⟨pr, hpr, (hmem n).2 (Or.inl rfl)⟩, fun j m hjm => ?_, fun j m hjm => ?_⟩
  · rw [pending_setPending hpr] at hjm
    split at hjm
    · next hji =>
        subst hji
        exact ⟨pr, hpr, (hmem m).2 (Or.inr hjm)⟩
    · exact hjm
  · rw [pending_setPending hpr]
    split
    · next hji =>
        subst hji
        obtain ⟨pr', hpr', hm⟩ := hjm
        obtain rfl := Option.some.inj (hpr.symm.trans hpr')
        exact ((hmem m).1 hm).imp (fun hmn => ⟨rfl, hmn⟩) id
    · exact Or.inr hjm

/-- No state is taken out twice. -/
lemma not_pending_of_next? {s : Session} {rest : WorkSet} (h : next? s = some (i, n, rest)) :
    ¬ (s.setPending i rest).Pending i n := by
  obtain ⟨pr, hpr, hpop⟩ := next?_eq_some h
  have hnodup := WorkSet.nodup_toList pr.pending
  rw [WorkSet.toList_of_pop? hpop, List.nodup_cons, WorkSet.mem_toList] at hnodup
  rw [pending_setPending hpr, if_pos rfl]
  exact hnodup.1

/-- Taking the next state out keeps a session intact. -/
lemma intact_of_next? {s : Session} {rest : WorkSet} (hs : s.Intact)
    (h : next? s = some (i, n, rest)) : (s.setPending i rest).Intact := by
  obtain ⟨-, hfewer, -⟩ := pending_of_next? h
  exact (setPending_rearranged rest).intact hs fun j m hjm => hs.inner j m (hfewer j m hjm)

/-- Putting the state back that was taken out leaves a session intact. -/
lemma intact_of_returned {s : Session} {rest : WorkSet} (hs : s.Intact)
    (h : next? s = some (i, n, rest)) : (s.setPending i (rest.insert n).2).Intact := by
  obtain ⟨pr, hpr, -⟩ := next?_eq_some h
  obtain ⟨hpending, hfewer, -⟩ := pending_of_next? h
  refine (setPending_rearranged _).intact hs fun j m hjm => hs.inner j m ?_
  rw [pending_setPending hpr] at hjm
  split at hjm
  · next hji =>
      subst hji
      rcases (WorkSet.mem_queue_insert ..).1 hjm with rfl | hm
      · exact hpending
      · exact hfewer j m (by rwa [pending_setPending hpr, if_pos rfl])
  · exact hjm

end SessionM

namespace Session

open SessionM

variable {s s' : Session} {i n : Nat} {answer : Except SolveError Bool}

/-! ## What a step does

There are five ways in which a step can end.  In two of them it fails.  If the budget is used up, the state
is put back; if the store is full, the update has been made, but its result means nothing.
-/

/-- **What a step does**: with its answer, and the session that it leaves. -/
inductive Transition (s : Session) : Except SolveError Bool → Session → Prop
  | finished (hidle : ∀ j m, ¬ s.Pending j m) (hlast : s.block = 0) : Transition s (.ok false) s
  | advanced {s' : Session} (hidle : ∀ j m, ¬ s.Pending j m) (hpos : 0 < s.block)
      (hadv : s.Advanced s') : Transition s (.ok true) s'
  | exhausted {i n budget : Nat} {rest : WorkSet}
      (hnext : next? s = some (i, n, rest))
      (hbudget : exhausted? s = some budget) :
      Transition s (.error (.budgetExhausted s.updates)) (s.setPending i (rest.insert n).2)
  | updated {i n : Nat} {rest : WorkSet} {s' : Session}
      (hnext : next? s = some (i, n, rest)) (hbudget : exhausted? s = none)
      (hupdated : (s.setPending i rest).Updated i n s') (hroom : s'.store.overflowed = false) :
      Transition s (.ok true) s'
  | overflowed {i n : Nat} {rest : WorkSet} {s' : Session}
      (hnext : next? s = some (i, n, rest)) (hbudget : exhausted? s = none)
      (hupdated : (s.setPending i rest).Updated i n s') (hfull : s'.store.overflowed = true) :
      Transition s (.error (.storage (.storageFull s'.store.capacity))) s'

lemma Transition.evolves (h : s.Transition answer s') (hs : s.Intact) : s.Evolves s' := by
  have hupdate : ∀ {i n : Nat} {rest : WorkSet} {s' : Session}, next? s = some (i, n, rest) →
      (s.setPending i rest).Updated i n s' → s.Evolves s' := fun hnext hupdated =>
    (Evolves.of_shares (setPending_rearranged _).shares hs (intact_of_next? hs hnext)).trans
      hupdated.evolves
  cases h with
  | finished => exact .refl hs
  | advanced _ _ hadv => exact .of_shares hadv.shares hs hadv.intact
  | exhausted hnext => exact .of_shares rfl hs (intact_of_returned hs hnext)
  | updated hnext _ hupdated => exact hupdate hnext hupdated
  | overflowed hnext _ hupdated => exact hupdate hnext hupdated

/-- Only a finished session has nothing more to do. -/
lemma Transition.finished_of_ok (h : s.Transition (.ok false) s') :
    s' = s ∧ s.block = 0 ∧ ∀ i n, ¬ s.Pending i n := by
  cases h with
  | finished hidle hlast => exact ⟨rfl, hlast, hidle⟩

/-- **Steps that succeed stay on track.** -/
lemma Transition.onTrack {more : Bool} (h : s.Transition (.ok more) s') (hs : s.OnTrack) :
    s'.OnTrack := by
  have hintact := (h.evolves hs.toIntact).intact
  cases h with
  | finished => exact hs
  | advanced hidle hpos hadv =>
      exact ⟨hintact, hadv.shares.store ▸ hs.room, hs.faithful.advanced hpos hidle hadv⟩
  | updated hnext _ hupdated hroom =>
      obtain ⟨hpending, -, hothers⟩ := pending_of_next? hnext
      exact ⟨hintact, hroom, hupdated.faithful (intact_of_next? hs.toIntact hnext)
        (hs.inner _ _ hpending) hothers hroom (hs.faithful.rearranged (setPending_rearranged _))⟩

end Session

end ModalCalls
