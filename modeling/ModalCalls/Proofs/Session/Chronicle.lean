import Mathlib
import ModalCalls.Proofs.Session.Legible

/-!
# The updates of a run

A run is told as a `Session.Chronicle`: the updates that it makes, each with the record that is taken of it, from
the session it begins in to the one it ends in.  Whether anything is recorded does not count: the same
chronicle is behind all runs from a session, and it is what a recording session adds to its record
(`SessionM.runWithin_chronicle`).

What the records of a run say follows from what one step notes (`Session.Notes`).

* `Session.Chronicle.chains` — the updates of a state lead from the transformer it had to the one it has.
* `Session.Chronicle.explains` — everything that an update was computed from is still there in the end.
* `Session.Chronicle.pairwise_block` — blocks are left and never entered again.
* `Session.Chronicle.isLast_iff` — only the last update leaves nothing to do.
-/

namespace ModalCalls

namespace Recording

/-- What was recorded, with more updates after it. -/
def append (recording : Recording) (us : List UpdateRecord) : Recording :=
  { recording with updates := recording.updates ++ us.toArray }

lemma map_append_nil (c : Option Recording) : c.map (·.append []) = c := by
  cases c <;> simp [append]

lemma map_append_append (c : Option Recording) (us us' : List UpdateRecord) :
    (c.map (·.append us)).map (·.append us') = c.map (·.append (us ++ us')) := by
  cases c <;> simp [append]

lemma push_eq_append (recording : Recording) (entry : UpdateRecord) :
    recording.push entry = recording.append [entry] := by
  simp [append, push]

end Recording

namespace UpdateRecord

/-- The update is one of the given state. -/
def isOf (name : String) (n : Nat) (u : UpdateRecord) : Bool :=
  decide (u.procedure = name) && decide (u.state = n)

/-- **Updates lead from one transformer to another**: each begins with what the one before it has left. -/
def Chains : List String → List UpdateRecord → List String → Prop
  | first, [], last => last = first
  | first, u :: us, last => u.transformer = first ∧ Chains u.updated us last

lemma Chains.append {us us' : List UpdateRecord} : ∀ {first between last : List String},
    Chains first us between → Chains between us' last → Chains first (us ++ us') last := by
  induction us with
  | nil =>
      rintro first between last rfl h'
      exact h'
  | cons u us ih =>
      rintro first between last ⟨hu, hus⟩ h'
      exact ⟨hu, ih hus h'⟩

end UpdateRecord

namespace Session

open SessionM UpdateRecord

variable {s s' : Session} {us : List UpdateRecord}

/-! ## What a step notes

A step does the same whether or not a record is kept.  So it is described by a relation between sessions in
which the record does not occur, together with the list of the updates that a record would gain.  The list
has one member at most: going on with the next block notes nothing.
-/

/-- The session with another record. -/
def recorded (s : Session) (recording : Option Recording) : Session :=
  s.tally s.updates recording

/-- **A step that does not end a run**, with the updates that it notes. -/
inductive Notes (s : Session) : List UpdateRecord → Session → Prop
  | advanced {s' : Session} (hidle : ∀ j m, ¬ s.Pending j m) (hpos : 0 < s.block)
      (hadv : s.Advanced s') (hcount : s'.updates = s.updates) : Notes s [] s'
  | updated {i n : Nat} {rest : WorkSet} {s' : Session} {entry : UpdateRecord}
      (hnext : next? s = some (i, n, rest))
      (hperformed : (s.setPending i rest).Performed i n s' entry)
      (hroom : s'.store.overflowed = false) (hcount : s'.updates = s.updates + 1) :
      Notes s [entry] s'

/-- **A run that ends well**, with the updates that it notes. -/
inductive Chronicle : Session → List UpdateRecord → Session → Prop
  | finished {s : Session} (hidle : ∀ j m, ¬ s.Pending j m) (hlast : s.block = 0) : Chronicle s [] s
  | step {s s₁ s' : Session} {us us' : List UpdateRecord} (hfirst : s.Notes us s₁)
      (hrest : Chronicle s₁ us' s') : Chronicle s (us ++ us') s'

/-- A step keeps what all operations keep. -/
lemma Notes.evolves (h : s.Notes us s') (hs : s.Intact) : s.Evolves s' := by
  cases h with
  | advanced _ _ hadv _ => exact .of_shares hadv.shares hs hadv.intact
  | updated hnext hperformed _ _ =>
      exact (Evolves.of_shares (setPending_rearranged _).shares hs (intact_of_next? hs hnext)).trans
        hperformed.updated.evolves

end Session

namespace SessionM

open Session

variable {s : Session}

/-- A step with something left to do makes an update and then looks at the store. -/
lemma step_performs (h : s.Intact) {i n : Nat} {rest : WorkSet} (hnext : next? s = some (i, n, rest))
    (hbudget : exhausted? s = none) :
    ∃ s₁ entry, (s.setPending i rest).Performed i n s₁ entry ∧
      ∀ recording k, ∃ k', step ⟨s.recorded recording, k⟩ = (check >>= fun _ => pure true : SessionM Bool)
        ⟨s₁.tally (s.updates + 1) (recording.map (·.append [entry])), k'⟩ := by
  obtain ⟨s₁, entry, hperformed, hupdate⟩ := update_performed (intact_of_next? h hnext)
    (h.inner i n (pending_of_next? hnext).1)
  refine ⟨s₁, entry, hperformed, fun recording k => ?_⟩
  have hbudget' : exhausted? (s.recorded recording) = none := hbudget
  obtain ⟨k', hupdate'⟩ := hupdate s.updates recording k
  simp only [Recording.push_eq_append] at hupdate'
  refine ⟨k', (step_of_next? (r := ⟨s.recorded recording, k⟩) hnext).trans ?_⟩
  simp only [hbudget']
  exact bind_of_ok hupdate'

/-- **A step fails, or ends the run, or goes on and notes updates**, whatever was recorded before. -/
theorem step_notes (h : s.Intact) :
    (∃ err, ∀ recording k, answer step ⟨s.recorded recording, k⟩ = .error err) ∨
    ((∀ j m, ¬ s.Pending j m) ∧ s.block = 0 ∧
      ∀ recording k, step ⟨s.recorded recording, k⟩ = .ok false ⟨s.recorded recording, k⟩) ∨
    ∃ us s₁, s.Notes us s₁ ∧ ∀ recording k, ∃ k', step ⟨s.recorded recording, k⟩
      = .ok true ⟨s₁.recorded (recording.map (·.append us)), k'⟩ := by
  cases hnext : next? s with
  | none =>
      have hidle := next?_eq_none hnext
      have hstep := fun recording k => step_of_idle (r := ⟨s.recorded recording, k⟩) hnext
      by_cases hlast : s.block = 0
      · exact Or.inr (Or.inl ⟨hidle, hlast, fun recording k => (hstep recording k).trans (if_pos hlast)⟩)
      · obtain ⟨_, r, hadvance, hadv⟩ := advance_spec (r := ⟨s, #[]⟩) h
        have hcount : r.session.updates = s.updates := updates_advance hadvance
        refine Or.inr (Or.inr ⟨[], r.session, .advanced hidle (Nat.pos_of_ne_zero hlast) hadv hcount,
          fun recording k => ?_⟩)
        obtain ⟨k', hadvance'⟩ :=
          (Indifferent.advance (unheeded_tally s.updates recording)).ok_tally hadvance k
        refine ⟨k', (hstep recording k).trans ((if_neg hlast).trans ((bind_of_ok hadvance').trans ?_))⟩
        rw [Recording.map_append_nil, Session.recorded, hcount]
        rfl
  | some found =>
      obtain ⟨i, n, rest⟩ := found
      cases hbudget : exhausted? s with
      | some budget =>
          refine Or.inl ⟨.budgetExhausted s.updates, fun recording k => ?_⟩
          have hbudget' : exhausted? (s.recorded recording) = some budget := hbudget
          simp only [answer, step_of_next? (r := ⟨s.recorded recording, k⟩) hnext, hbudget']
          rfl
      | none =>
          obtain ⟨s₁, entry, hperformed, hlook⟩ := step_performs h hnext hbudget
          cases hroom : s₁.store.overflowed with
          | true =>
              refine Or.inl ⟨.storage (.storageFull s₁.store.capacity), fun recording k => ?_⟩
              obtain ⟨k', hlook⟩ := hlook recording k
              have hfull := hlook.trans (bind_of_error ((check_eq _).trans (if_pos hroom)))
              simp only [answer, hfull]
              rfl
          | false =>
              have hroom' : ¬ s₁.store.overflowed = true := by simp [hroom]
              refine Or.inr (Or.inr ⟨[entry], s₁.tally (s.updates + 1) none,
                .updated hnext (hperformed.tally _ _) hroom rfl, fun recording k => ?_⟩)
              obtain ⟨k', hlook⟩ := hlook recording k
              exact ⟨k', hlook.trans (bind_of_ok ((check_eq _).trans (if_neg hroom')))⟩

/-- **A run fails, or it is a chronicle**, whatever was recorded before. -/
theorem runWithin_chronicle : ∀ (steps : Nat) {s : Session}, s.Intact →
    (∃ err, ∀ recording k, answer (runWithin steps) ⟨s.recorded recording, k⟩ = .error err) ∨
    ∃ us s', s.Chronicle us s' ∧ ∀ recording k, ∃ k', runWithin steps ⟨s.recorded recording, k⟩
      = .ok () ⟨s'.recorded (recording.map (·.append us)), k'⟩
  | 0, _, _ => Or.inl ⟨_, fun _ _ => rfl⟩
  | steps + 1, s, h => by
      rcases step_notes h with ⟨err, hfails⟩ | ⟨hidle, hlast, hends⟩ | ⟨us, s₁, hnotes, hmore⟩
      · exact Or.inl ⟨err, fun recording k => answer_bind_of_error (hfails recording k)⟩
      · refine Or.inr ⟨[], s, .finished hidle hlast, fun recording k => ?_⟩
        rw [runWithin, bind_of_ok (hends recording k), Recording.map_append_nil]
        exact ⟨_, rfl⟩
      · rcases runWithin_chronicle steps (hnotes.evolves h).intact with
          ⟨err, hfails⟩ | ⟨us', s', hrest, hruns⟩
        · refine Or.inl ⟨err, fun recording k => ?_⟩
          obtain ⟨k', hstep⟩ := hmore recording k
          exact (answer_bind_of_ok hstep).trans (hfails _ k')
        · refine Or.inr ⟨us ++ us', s', .step hnotes hrest, fun recording k => ?_⟩
          obtain ⟨k₁, hstep⟩ := hmore recording k
          obtain ⟨k₂, hrun⟩ := hruns (recording.map (·.append us)) k₁
          rw [Recording.map_append_append] at hrun
          refine ⟨k₂, ?_⟩
          rw [runWithin, bind_of_ok hstep, if_pos rfl, hrun]

theorem run_chronicle (h : s.Intact) :
    (∃ err, ∀ recording k, answer run ⟨s.recorded recording, k⟩ = .error err) ∨
    ∃ us s', s.Chronicle us s' ∧ ∀ recording k, ∃ k', run ⟨s.recorded recording, k⟩
      = .ok () ⟨s'.recorded (recording.map (·.append us)), k'⟩ :=
  runWithin_chronicle s.stepBound h

end SessionM

namespace Session

open SessionM UpdateRecord

variable {s s' : Session} {us : List UpdateRecord} {i n : Nat} {q : Procedure}

/-! ## What the records say

A record is made of texts.  What the texts stand for is found again in the session: transformers that live
in its store and are written in this way.  A serial form depends on the nodes below a handle, and these stay
when a store grows.  Hence an update that can be explained once can be explained in all later sessions.
-/

lemma serialAt_eq {t : Transformer} (h : s.transformer? i n = some t) :
    s.serialAt i n = t.serial s.store := by
  simp only [serialAt, transformer_ok h]
  rfl

/-- What a record is made of. -/
lemma updateRecord_eq_ok {block : Nat} {ts : List Transformer} {old new : Transformer}
    {entry : UpdateRecord} (h : updateRecord i n block ts old new s = .ok entry) :
    ∃ q, s.program.procedures[i]? = some q ∧ entry.procedure = q.name ∧ entry.state = n ∧
      entry.block = block ∧ old.serial s.store = .ok entry.transformer ∧
      new.serial s.store = .ok entry.updated ∧ ts.mapM (·.serial s.store) = .ok entry.along ∧
      entry.pending = s.pendingStates := by
  obtain ⟨q, hq, h⟩ := except_bind_eq_ok h
  obtain ⟨before, hbefore, h⟩ := except_bind_eq_ok h
  obtain ⟨after, hafter, h⟩ := except_bind_eq_ok h
  obtain ⟨along, halong, h⟩ := except_bind_eq_ok h
  obtain ⟨satisfied, -, h⟩ := except_bind_eq_ok h
  cases h
  refine ⟨q, ?_, rfl, rfl, rfl, hbefore, hafter, halong, rfl⟩
  simp only [procedure] at hq
  split at hq
  · next q' hq' =>
      cases hq
      exact hq'
  · cases hq

/-- No state is listed as left to update exactly if none is. -/
lemma all_pendingStates (h : s.Intact) :
    (s.pendingStates.all fun a => a.2.isEmpty) = true ↔ ∀ j m, ¬ s.Pending j m := by
  simp only [pendingStates, List.all_eq_true]
  constructor
  · rintro hall j m ⟨pr, hpr, hm⟩
    obtain ⟨q, hq, -⟩ := Program.exists_of_isInner (h.inner j m ⟨pr, hpr, hm⟩)
    have hmem : (q.name, pr.pending.toList) ∈ List.zipWith
        (fun p q => (p.name, q.pending.toList)) s.program.procedures.toList s.progress.toList := by
      refine List.mem_of_getElem? (i := j) ?_
      rw [List.getElem?_zipWith, Array.getElem?_toList, Array.getElem?_toList, hq, hpr]
    have hnil : pr.pending.toList = [] := List.isEmpty_iff.1 (hall _ hmem)
    rw [← WorkSet.mem_toList, hnil] at hm
    exact List.not_mem_nil hm
  · intro hidle a ha
    obtain ⟨j, hj⟩ := List.getElem?_of_mem ha
    obtain ⟨q, pr, -, hpr, rfl⟩ := List.getElem?_zipWith_eq_some.1 hj
    rw [Array.getElem?_toList] at hpr
    refine List.isEmpty_iff.2 (List.eq_nil_iff_forall_not_mem.2 fun m hm => ?_)
    exact hidle j m ⟨pr, hpr, (WorkSet.mem_toList _ _).1 hm⟩

/-- **An update can be explained in a session**: everything that it was computed from lives in the store, and
is written as it was recorded. -/
inductive Explains (s : Session) (u : UpdateRecord) : Prop
  | intro {i : Nat} {q : Procedure} {block : Block} {along : List Transformer} {old new : Transformer}
      (hq : s.program.procedures[i]? = some q) (hname : u.procedure = q.name)
      (hstate : u.state < q.size) (hblock : s.equations.blocks[u.block]? = some block)
      (hold : old.serial s.store = .ok u.transformer)
      (halong : List.Forall₂ (fun t texts => t.serial s.store = .ok texts) along u.along)
      (hnew : new.serial s.store = .ok u.updated)
      (hrenews : Transformer.Renews s.store s.equations (q.graph.propsOf u.state) along block.vars
        old new)

lemma Explains.evolves {u : UpdateRecord} (h : s.Explains u) (hs : s.Intact) (he : s.Evolves s') :
    s'.Explains u := by
  obtain @⟨i, q, block, along, old, new, hq, hname, hstate, hblock, hold, halong, hnew, hrenews⟩ := h
  have hshaped := hs.store.toShaped
  refine .intro (he.program ▸ hq) hname hstate (he.equations ▸ hblock) ?_ ?_ ?_
    (he.equations ▸ hrenews.grows hshaped he.grows)
  · rw [Transformer.serial_grows hshaped hrenews.before he.grows, hold]
  · have hall : List.Forall₂ (fun t texts => t ∈ along ∧ t.serial s.store = .ok texts) along u.along :=
      (List.forall₂_and_left _ _).2 ⟨fun _ h => h, halong⟩
    refine hall.imp fun t texts ⟨ht, htexts⟩ => ?_
    rw [Transformer.serial_grows hshaped (hrenews.edges t ht) he.grows, htexts]
  · rw [Transformer.serial_grows hshaped hrenews.after he.grows, hnew]

/-! ### One step

Each statement about the records of a run is first made about a single step, where it has two cases: an
update with its record, and a new block without one.
-/

namespace Notes

lemma updates_eq (h : s.Notes us s') : s'.updates = s.updates + us.length := by
  cases h with
  | advanced _ _ _ hcount => exact hcount
  | updated _ _ _ hcount => exact hcount

lemma legible (h : s.Notes us s') (hs : s.Legible) : s'.Legible := by
  cases h with
  | advanced _ _ hadv _ => exact hs.of_shares hadv.shares
  | @updated i n rest _ _ _ hperformed _ _ =>
      obtain ⟨-, hcandidate, -, -, hinstalled, -, -⟩ := hperformed
      have htaken : (s.setPending i rest).Legible := hs.of_shares (setPending_rearranged rest).shares
      exact (KeepsLegible.candidate _ _ _ _ _ htaken hcandidate).of_shares hinstalled.shares

/-- The update of a step leads from the transformer that its state had to the one that it has. -/
lemma chains (h : s.Notes us s') (hs : s.Intact) (hq : s.program.procedures[i]? = some q)
    (hn : n < q.size) {first : List String} (hfirst : s.serialAt i n = .ok first) :
    ∃ last, s'.serialAt i n = .ok last ∧ Chains first (us.filter (isOf q.name n)) last := by
  have hevolves := h.evolves hs
  obtain ⟨t, ht⟩ := hs.exists_transformer hq hn
  have hwritten : t.serial s'.store = .ok first := by
    rw [Transformer.serial_grows hs.store.toShaped (hs.lives _ _ _ ht) hevolves.grows,
      ← serialAt_eq ht, hfirst]
  cases h with
  | advanced _ _ hadv _ =>
      refine ⟨first, ?_, rfl⟩
      rw [serialAt_eq (t := t) (by rw [hadv.transformer?, ht]), hwritten]
  | @updated i₀ n₀ rest _ entry _ hperformed _ _ =>
      obtain ⟨-, -, hcomputed, hold, hinstalled, -, hentry⟩ := hperformed
      obtain ⟨q₀, hq₀, hname, hstate, -, hbefore, hafter, -, -⟩ := updateRecord_eq_ok hentry
      rw [hevolves.program] at hq₀
      have htaken : s.Rearranged (s.setPending i₀ rest) := setPending_rearranged rest
      rw [hcomputed.extended.transformer?, htaken.transformer?] at hold
      have hchange := hinstalled.transformer? i n
      rw [hcomputed.extended.transformer?, htaken.transformer?] at hchange
      by_cases hat : i = i₀ ∧ n = n₀
      · obtain ⟨rfl, rfl⟩ := hat
        obtain rfl := Option.some.inj (hq.symm.trans hq₀)
        obtain rfl := Option.some.inj (ht.symm.trans hold)
        rw [if_pos ⟨rfl, rfl⟩] at hchange
        have hof : isOf q.name n entry = true := by simp [isOf, hname, hstate]
        refine ⟨entry.updated, (serialAt_eq hchange).trans hafter, ?_⟩
        rw [List.filter_cons_of_pos hof]
        exact ⟨Except.ok.inj (hbefore.symm.trans hwritten), rfl⟩
      · rw [if_neg hat, ht] at hchange
        have hof : ¬ isOf q.name n entry = true := by
          intro hof
          simp only [isOf, Bool.and_eq_true, decide_eq_true_eq, hname, hstate] at hof
          have hi := hs.program.indexOf_name i q hq
          rw [← hof.1, hs.program.indexOf_name i₀ q₀ hq₀] at hi
          exact hat ⟨(Option.some.inj hi).symm, hof.2.symm⟩
        refine ⟨first, (serialAt_eq hchange).trans hwritten, ?_⟩
        rw [List.filter_cons_of_neg hof]
        exact rfl

lemma explains (h : s.Notes us s') (hs : s.Intact) {u : UpdateRecord} (hu : u ∈ us) :
    s'.Explains u := by
  have hevolves := h.evolves hs
  cases h with
  | advanced => cases hu
  | @updated i₀ n₀ rest _ entry hnext hperformed hroom _ =>
      obtain rfl := List.mem_singleton.1 hu
      obtain ⟨hblock, -, hcomputed, hold, hinstalled, -, hentry⟩ := hperformed
      obtain ⟨q, hq, hname, hstate, hat, hbefore, hafter, halong, -⟩ := updateRecord_eq_ok hentry
      obtain ⟨q', hq', hn, -⟩ := Program.exists_of_isInner (hs.inner i₀ n₀ (pending_of_next? hnext).1)
      have hq₀ : s.program.procedures[i₀]? = some q := hevolves.program ▸ hq
      obtain rfl := Option.some.inj (hq₀.symm.trans hq')
      have hrenews := hcomputed.renews (hinstalled.shares.store ▸ hroom) _ hold
      rw [← hinstalled.shares.store, ← hinstalled.shares.equations,
        show (s.setPending i₀ rest).program.atomsAt i₀ n₀ = q.graph.propsOf n₀ from
          Program.atomsAt_eq hq₀, ← hstate] at hrenews
      refine .intro hq hname (hstate ▸ hn) ?_ hbefore (except_mapM_eq_ok halong) hafter hrenews
      rw [hevolves.equations, hat]
      exact hblock

/-- Only the block that is being solved gets updates, and it may be left. -/
lemma block_le (h : s.Notes us s') : s'.block ≤ s.block ∧ ∀ u ∈ us, u.block = s.block := by
  cases h with
  | advanced _ _ hadv _ => exact ⟨by rw [hadv.block]; omega, by simp⟩
  | updated _ hperformed _ _ =>
      obtain ⟨-, -, hcomputed, -, hinstalled, -, hentry⟩ := hperformed
      obtain ⟨-, -, -, -, hat, -⟩ := updateRecord_eq_ok hentry
      refine ⟨?_, fun u hu => ?_⟩
      · rw [← show (s.setPending _ _).block = s.block from rfl, ← hcomputed.extended.block]
        exact hinstalled.block.1
      · rw [List.mem_singleton.1 hu, hat]
        rfl

/-- After an update, nothing is left to do if its record says so, and then no block is left either. -/
lemma isLast_iff (h : s.Notes us s') (hs : s.Intact) {u : UpdateRecord} (hu : u ∈ us) :
    (u.isLast = true ↔ ∀ j m, ¬ s'.Pending j m) ∧ ((∀ j m, ¬ s'.Pending j m) → s'.block = 0) := by
  have hintact := (h.evolves hs).intact
  cases h with
  | advanced => cases hu
  | updated _ hperformed _ _ =>
      obtain rfl := List.mem_singleton.1 hu
      obtain ⟨-, -, -, -, -, hsettled, hentry⟩ := hperformed
      obtain ⟨-, -, -, -, -, -, -, -, hpending⟩ := updateRecord_eq_ok hentry
      refine ⟨?_, hsettled⟩
      rw [isLast, hpending]
      exact all_pendingStates hintact

end Notes

/-! ### Whole runs

From steps to runs by induction on the chronicle.  Explanations are carried forward to the last session, and
the transformers of a state are linked from the first session on.
-/

namespace Chronicle

lemma evolves (h : s.Chronicle us s') (hs : s.Intact) : s.Evolves s' := by
  induction h with
  | finished => exact .refl hs
  | step hfirst _ ih =>
      have hevolves := hfirst.evolves hs
      exact hevolves.trans (ih hevolves.intact)

lemma legible (h : s.Chronicle us s') (hs : s.Legible) : s'.Legible := by
  induction h with
  | finished => exact hs
  | step hfirst _ ih => exact ih (hfirst.legible hs)

/-- **One record for each update.** -/
lemma updates_eq (h : s.Chronicle us s') : s'.updates = s.updates + us.length := by
  induction h with
  | finished => rfl
  | step hfirst _ ih => rw [ih, hfirst.updates_eq, List.length_append, Nat.add_assoc]

/-- **The updates of a state lead** from the transformer that it had to the one that it has. -/
theorem chains (h : s.Chronicle us s') (hs : s.Intact) (hq : s.program.procedures[i]? = some q)
    (hn : n < q.size) {first : List String} (hfirst : s.serialAt i n = .ok first) :
    ∃ last, s'.serialAt i n = .ok last ∧ Chains first (us.filter (isOf q.name n)) last := by
  induction h generalizing first with
  | finished => exact ⟨first, hfirst, rfl⟩
  | step hnotes _ ih =>
      have hevolves := hnotes.evolves hs
      obtain ⟨between, hbetween, hchains⟩ := hnotes.chains hs hq hn hfirst
      obtain ⟨last, hlast, hchains'⟩ := ih hevolves.intact (hevolves.program ▸ hq) hbetween
      rw [List.filter_append]
      exact ⟨last, hlast, hchains.append hchains'⟩

/-- **Every update can be explained in the end.** -/
theorem explains (h : s.Chronicle us s') (hs : s.Intact) : ∀ u ∈ us, s'.Explains u := by
  induction h with
  | finished => simp
  | step hnotes hrest ih =>
      have hintact := (hnotes.evolves hs).intact
      intro u hu
      rcases List.mem_append.1 hu with hu | hu
      · exact (hnotes.explains hs hu).evolves hintact (hrest.evolves hintact)
      · exact ih hintact u hu

lemma block_le (h : s.Chronicle us s') : ∀ u ∈ us, u.block ≤ s.block := by
  induction h with
  | finished => simp
  | step hnotes _ ih =>
      obtain ⟨hle, hat⟩ := hnotes.block_le
      intro u hu
      rcases List.mem_append.1 hu with hu | hu
      · exact (hat u hu).le
      · exact (ih u hu).trans hle

/-- **Blocks are left and never entered again.** -/
theorem pairwise_block (h : s.Chronicle us s') : us.Pairwise fun u v => v.block ≤ u.block := by
  induction h with
  | finished => exact .nil
  | step hnotes hrest ih =>
      obtain ⟨hle, hat⟩ := hnotes.block_le
      refine List.pairwise_append.2 ⟨?_, ih, fun u hu v hv => ?_⟩
      · exact List.pairwise_of_forall_mem_list fun u hu v hv => ((hat v hv).trans (hat u hu).symm).le
      · rw [hat u hu]
        exact (hrest.block_le v hv).trans hle

/-- There are no updates where nothing is left to do. -/
lemma eq_nil_iff (h : s.Chronicle us s') (hsettled : (∀ j m, ¬ s.Pending j m) → s.block = 0) :
    us = [] ↔ ∀ j m, ¬ s.Pending j m := by
  cases h with
  | finished hidle _ => exact ⟨fun _ => hidle, fun _ => rfl⟩
  | step hnotes hrest =>
      cases hnotes with
      | advanced hidle hpos _ _ => exact absurd (hsettled hidle) (by omega)
      | updated hnext _ _ _ =>
          exact ⟨fun hnil => by simp at hnil, fun hidle => absurd (pending_of_next? hnext).1 (hidle _ _)⟩

/-- **Only the last update leaves nothing to do.** -/
theorem isLast_iff (h : s.Chronicle us s') (hs : s.Intact) :
    ∀ (k : Nat) (u : UpdateRecord), us[k]? = some u → (u.isLast = true ↔ k + 1 = us.length) := by
  induction h with
  | finished => simp
  | step hnotes hrest ih =>
      have hintact := (hnotes.evolves hs).intact
      have hmem := fun u => hnotes.isLast_iff hs (u := u)
      cases hnotes with
      | advanced => exact ih hintact
      | @updated _ _ _ _ entry =>
          rintro (_ | k) u hu
          · obtain rfl : entry = u := by simpa using hu
            obtain ⟨hiff, hsettled⟩ := hmem entry (by simp)
            rw [hiff, ← hrest.eq_nil_iff hsettled, ← List.length_eq_zero_iff]
            simp
          · rw [ih hintact k u (by simpa using hu)]
            simp

end Chronicle

end Session

end ModalCalls
