import Mathlib
import ModalCalls.Proofs.Session.Transition

/-!
# What an update notes

A session counts its updates and may record them, it may have a budget, and it reports what it does.  Nothing
else depends on this.  To say so, two runs are related that differ in what was noted only, and what is done
next goes the same way in both.

* `SessionM.Indifferent` — an operation goes the same way in related runs: it has the same answer and leads to
  related runs.  This is put together along the definition of an operation.
* `SessionM.Unheeded` — the relations that count here.  Computing a transformer and storing it is indifferent
  to all of them, so the walk along these operations is made once, whatever it is that was noted.
* `SessionM.update_performed` — an update is counted and recorded, and apart from that it does the same whether
  or not anything is recorded.  What it does, together with its record, is `Session.Performed`.
-/

namespace ModalCalls

/-- What was recorded, with one update more. -/
def Recording.push (recording : Recording) (entry : UpdateRecord) : Recording :=
  { recording with updates := recording.updates.push entry }

namespace Session

variable {s s' : Session}

/-- The session with another budget, another count of updates and another record. -/
def annotate (s : Session) (budget : Option Nat) (updates : Nat) (recording : Option Recording) : Session :=
  { s with
    options := { s.options with budget := budget }
    updates := updates
    recording := recording }

/-- The session with another count of updates and another record. -/
def tally (s : Session) (updates : Nat) (recording : Option Recording) : Session :=
  { s with updates := updates, recording := recording }

/-- **The changes that computing and storing a transformer is made of.** -/
inductive Elementary : (Session → Session) → Prop
  | store (store : Store) : Elementary fun s => { s with store := store }
  | edge (modality : Modality) (label : String) (t : Transformer) :
      Elementary (·.addEdgeTransformer modality label t)
  | transformer (i n : Nat) (t : Transformer) : Elementary (·.setTransformer i n t)
  | mark (i : Nat) (states : List Nat) : Elementary (·.markAll i states)
  | block : Elementary fun s => { s with block := s.block - 1 }

lemma Installed.tally {i n : Nat} {old new : Transformer} (h : s.Installed i n old new s')
    (updates : Nat) (recording : Option Recording) :
    s.Installed i n old new (s'.tally updates recording) := by
  have hnoted : s'.Noted (s'.tally updates recording) := .of_eq rfl
  cases h with
  | stays hrep => exact .stays (hrep.noted hnoted)
  | advances s₁ hrep hpos hidle hadv => exact .advances s₁ hrep hpos hidle (hadv.noted hnoted)

end Session

namespace SessionM

open Session

variable {α β : Type} {r r' : Run} {i n : Nat}

/-! ## Operations that do not look at what was noted

The relations are not fixed: they may fix one note and leave the others open, and they may ask for more than
that two sessions differ in their notes.  All that is needed of them is that they survive what an operation
does to a session, one elementary change at a time.
-/

/-- **An operation goes the same way in related runs**: it has the same answer and leads to related runs. -/
def Indifferent (R : Run → Run → Prop) (x : SessionM α) : Prop :=
  ∀ r r', R r r' → answer x r' = answer x r ∧ R (after x r) (after x r')

/-- **A relation between runs that differ in nothing that is heeded.** -/
structure Unheeded (R : Run → Run → Prop) : Prop where
  annotated : ∀ {r r'}, R r r' →
    ∃ budget updates recording, r'.session = r.session.annotate budget updates recording
  change : ∀ {f}, Elementary f → ∀ {r r'}, R r r' → R ⟨f r.session, r.journal⟩ ⟨f r'.session, r'.journal⟩
  /-- A report may tell the count of updates. -/
  report : ∀ (event : Nat → Event) {r r'}, R r r' →
    R ⟨r.session, r.journal.push (event r.session.updates)⟩
      ⟨r'.session, r'.journal.push (event r'.session.updates)⟩

namespace Indifferent

variable {R : Run → Run → Prop} {x : SessionM α} {f : α → SessionM β} {r₁ : Run}

/-- An operation that ends well does so in all related runs. -/
lemma ok (h : Indifferent R x) (hrel : R r r') {a : α} (hx : x r = .ok a r₁) :
    ∃ r₁', x r' = .ok a r₁' ∧ R r₁ r₁' := by
  obtain ⟨hanswer, hafter⟩ := h r r' hrel
  rw [answer_of_ok hx] at hanswer
  have hr : after x r = r₁ := by simp only [after, hx]
  exact ⟨after x r', answer_eq_ok_iff.1 hanswer, hr ▸ hafter⟩

/-- An operation that fails does so in all related runs. -/
lemma error (h : Indifferent R x) (hrel : R r r') {err : SolveError} (hx : x r = .error err r₁) :
    ∃ r₁', x r' = .error err r₁' ∧ R r₁ r₁' := by
  obtain ⟨hanswer, hafter⟩ := h r r' hrel
  have hr : answer x r = .error err ∧ after x r = r₁ := by simp only [answer, after, hx, and_self]
  rw [hr.1] at hanswer
  exact ⟨after x r', answer_eq_error_iff.1 hanswer, hr.2 ▸ hafter⟩

lemma pure (a : α) : Indifferent R (Pure.pure a) :=
  fun _ _ hrel => ⟨rfl, hrel⟩

lemma throw (err : SolveError) : Indifferent R (MonadExcept.throw err : SessionM α) :=
  fun _ _ hrel => ⟨rfl, hrel⟩

lemma bind (hx : Indifferent R x) (hf : ∀ a, Indifferent R (f a)) : Indifferent R (x >>= f) := by
  intro r r' hrel
  cases hxr : x r with
  | ok a r₁ =>
      obtain ⟨r₁', hxr', hrel₁⟩ := hx.ok hrel hxr
      simp only [answer, after, bind_of_ok hxr, bind_of_ok hxr']
      exact hf a r₁ r₁' hrel₁
  | error err r₁ =>
      obtain ⟨r₁', hxr', hrel₁⟩ := hx.error hrel hxr
      simp only [answer, after, bind_of_error hxr, bind_of_error hxr']
      exact ⟨trivial, hrel₁⟩

lemma mapM {f : α → SessionM β} (hf : ∀ a, Indifferent R (f a)) : ∀ l : List α, Indifferent R (l.mapM f)
  | [] => .pure []
  | a :: l => by
      rw [List.mapM_cons]
      exact .bind (hf a) fun b => .bind (mapM hf l) fun bs => .pure _

section Unheeded

variable (hR : Unheeded R)

include hR

/-- A question about anything but what was noted. -/
lemma inspect {query : Session → Except Fault α}
    (h : ∀ s budget updates recording, query (Session.annotate s budget updates recording) = query s) :
    Indifferent R (SessionM.inspect query) := by
  intro r r' hrel
  obtain ⟨budget, updates, recording, heq⟩ := hR.annotated hrel
  simp only [answer, after, SessionM.inspect, heq, h]
  cases query r.session <;> exact ⟨rfl, hrel⟩

lemma change {f : Session → Session} (hf : Elementary f) : Indifferent R (SessionM.change f) :=
  fun _ _ hrel => ⟨rfl, hR.change hf hrel⟩

lemma report (event : Event) : Indifferent R (SessionM.report event) :=
  fun _ _ hrel => ⟨rfl, hR.report (fun _ => event) hrel⟩

lemma onStore (x : DiagramM α) : Indifferent R (SessionM.onStore x) := by
  rintro r ⟨s', k⟩ hrel
  obtain ⟨budget, updates, recording, rfl⟩ := hR.annotated hrel
  -- a store that has just overflowed is reported, in both runs
  have hafter : ∀ store, R (afterStore r r.session.store.overflowed store)
      (afterStore ⟨r.session.annotate budget updates recording, k⟩ r.session.store.overflowed store) := by
    intro store
    have hstore := hR.change (.store store) hrel
    simp only [afterStore]
    split
    · exact hR.report (fun _ => .storeOverflowed store.capacity) hstore
    · exact hstore
  simp only [answer, after, SessionM.onStore, annotate]
  cases x r.session.store <;> exact ⟨rfl, hafter _⟩

/-- Marking states of several procedures. -/
lemma markMany {γ : Type} (place : γ → Nat) (states : γ → List Nat) (choose : Session → List γ)
    (hchoose : ∀ s budget updates recording, choose (Session.annotate s budget updates recording) = choose s) :
    Indifferent R (SessionM.change fun s =>
      (choose s).foldl (fun s a => s.markAll (place a) (states a)) s) := by
  have hfold : ∀ (l : List γ) {r r' : Run}, R r r' →
      R ⟨l.foldl (fun s a => s.markAll (place a) (states a)) r.session, r.journal⟩
        ⟨l.foldl (fun s a => s.markAll (place a) (states a)) r'.session, r'.journal⟩ := by
    intro l
    induction l with
    | nil => exact fun hrel => hrel
    | cons a l ih => exact fun hrel => ih (hR.change (.mark (place a) (states a)) hrel)
  rintro r ⟨s', k⟩ hrel
  obtain ⟨budget, updates, recording, rfl⟩ := hR.annotated hrel
  refine ⟨rfl, ?_⟩
  show R ⟨(choose r.session).foldl _ r.session, r.journal⟩
    ⟨(choose (r.session.annotate budget updates recording)).foldl _ _, k⟩
  rw [hchoose]
  exact hfold (choose r.session) hrel

/-! ### Computing a transformer

Here the session is asked for transformers, edges and equations, and changed in its store and in the steps
of edges that it knows.  Every question is about something that is not a note, so the rules above apply one
after the other, along the definitions.
-/

lemma labelTransformer (label : String) (modality : Modality) :
    Indifferent R (SessionM.labelTransformer label modality) := by
  refine .bind (.inspect hR fun _ _ _ _ => by cases modality <;> rfl) fun found => ?_
  split
  · exact .pure _
  · exact .bind (.report hR _) fun _ => .bind (.inspect hR fun _ _ _ _ => rfl) fun e =>
      .bind (.onStore hR _) fun t => .bind (.change hR (.edge modality label t)) fun _ => .pure _

lemma alongEdge (i : Nat) (edge : Edge) : Indifferent R (SessionM.alongEdge i edge) := by
  refine .bind ?_ fun step => .bind (.inspect hR fun _ _ _ _ => rfl) fun target => .onStore hR _
  rw [edgeTransformer]
  split
  · exact .inspect hR fun _ _ _ _ => rfl
  · exact .labelTransformer hR edge.label edge.modality

lemma candidate (i n : Nat) : Indifferent R (SessionM.candidate i n) :=
  .bind (.inspect hR fun _ _ _ _ => rfl) fun _ => .bind (.mapM (.alongEdge hR i) _) fun _ =>
    .bind (.inspect hR fun _ _ _ _ => rfl) fun _ => .bind (.inspect hR fun _ _ _ _ => rfl) fun _ =>
      .bind (.inspect hR fun _ _ _ _ => rfl) fun _ => .bind (.onStore hR _) fun _ => .pure _

/-! ### Storing a transformer

A transformer is set, readers are marked, and a block is left.  Only the last of these speaks of a note, in
its report.
-/

lemma replace (old new : Transformer) : Indifferent R (SessionM.replace i n old new) := by
  simp only [SessionM.replace]
  split
  · refine .bind (.change hR (.transformer i n new)) fun _ => ?_
    refine .bind (.inspect hR fun _ _ _ _ => rfl) fun q => .bind (.change hR (.mark i _)) fun _ => ?_
    split
    · exact .markMany hR (fun a : Nat × Nat => a.1) (fun a => [a.2])
        (fun s => s.program.callSites q.name) fun _ _ _ _ => rfl
    · exact .pure ()
  · exact .pure ()

/-- The count of updates is reported with a new block, but it is not heeded. -/
lemma advance : Indifferent R SessionM.advance := by
  rintro r ⟨s', k⟩ hrel
  obtain ⟨budget, updates, recording, rfl⟩ := hR.annotated hrel
  have hreported := hR.report (fun updates => .blockAdvanced (r.session.block - 1) updates)
    (hR.change .block hrel)
  exact ⟨rfl, (markMany hR (fun a : Procedure × Nat => a.2) (fun a => a.1.innerStates)
    (fun s => s.program.procedures.toList.zipIdx) (fun _ _ _ _ => rfl) _ _ hreported).2⟩

lemma advanceIfIdle : Indifferent R SessionM.advanceIfIdle := by
  refine .bind (.inspect hR fun _ _ _ _ => rfl) fun idle => ?_
  split
  · exact .advance hR
  · exact .pure ()

end Unheeded

end Indifferent

/-- **The count of updates and the record are not heeded**, and neither is what was reported. -/
lemma unheeded_tally (updates : Nat) (recording : Option Recording) :
    Unheeded fun r r' => r'.session = r.session.tally updates recording where
  annotated hrel := ⟨_, updates, recording, hrel⟩
  change hf r r' hrel := by
    simp only [hrel]
    cases hf with
    | edge modality label t => cases modality <;> rfl
    | _ => rfl
  report _ _ _ hrel := hrel

/-- An operation that ends well does so whatever was noted before, and keeps the notes. -/
lemma Indifferent.ok_tally {updates : Nat} {recording : Option Recording} {x : SessionM α} {a : α}
    (h : Indifferent (fun r r' => r'.session = r.session.tally updates recording) x)
    (hx : x r = .ok a r') (k : Journal) :
    ∃ k', x ⟨r.session.tally updates recording, k⟩ = .ok a ⟨r'.session.tally updates recording, k'⟩ := by
  have hrel : (Run.mk (r.session.tally updates recording) k).session
      = r.session.tally updates recording := rfl
  obtain ⟨⟨_, k'⟩, hx', rfl⟩ := h.ok hrel hx
  exact ⟨k', hx'⟩

/-- A new block does not count as an update. -/
lemma updates_advance (h : advance r = .ok () r') : r'.session.updates = r.session.updates := by
  obtain ⟨k', h'⟩ := (Indifferent.advance
    (unheeded_tally r.session.updates r.session.recording)).ok_tally h r.journal
  have heq : r' = ⟨r'.session.tally r.session.updates r.session.recording, k'⟩ := by
    injection h.symm.trans h'
  exact congrArg (fun r => r.session.updates) heq

/-! ## Updates

An update notes itself in two places: it is counted before the new transformer is stored, and recorded when
all is done.  In between, everything is indifferent to the notes.  So the session that an update leads to is
found once, for one choice of notes, and then carried over to every other one.
-/

/-- Whatever is recorded of an update can be computed. -/
lemma updateRecord_ok {s : Session} (h : s.Intact) (hi : s.program.isInner i n = true)
    (block : Nat) {ts : List Transformer} {old new : Transformer}
    (hts : ∀ t ∈ ts, t.Lives s.store s.equations.size) (hold : old.Lives s.store s.equations.size)
    (hnew : new.Lives s.store s.equations.size) :
    ∃ entry, updateRecord i n block ts old new s = .ok entry := by
  have hshaped := h.store.toShaped
  obtain ⟨q, hq, hn, -⟩ := Program.exists_of_isInner hi
  obtain ⟨t, ht⟩ := h.exists_transformer hq hn
  obtain ⟨vars, hvars, -⟩ := Transformer.evaluate_ok hshaped (h.lives i n t ht) s.deadlock
  obtain ⟨before, hbefore⟩ := hold.exists_serial hshaped
  obtain ⟨after, hafter⟩ := hnew.exists_serial hshaped
  obtain ⟨along, halong, -⟩ := except_mapM_exists (R := fun _ _ => True) fun t ht =>
    ((hts t ht).exists_serial hshaped).imp fun _ htexts => ⟨htexts, trivial⟩
  simp only [updateRecord, procedure_ok hq, hbefore, hafter, halong, satisfied, holding,
    transformer_ok ht]
  exact ⟨_, by rw [show (Except.ok t >>= fun t => t.evaluate s.store s.deadlock : Except Fault VarSet)
    = .ok vars from hvars]; rfl⟩

/-- After an update, nothing is left to do in the outermost block only: where another block follows, some
state is marked. -/
lemma advanceIfIdle_settled (h : r.session.Intact) (hi : r.session.program.isInner i n = true) :
    Yields advanceIfIdle r fun _ r' => (∀ j m, ¬ r'.session.Pending j m) → r'.session.block = 0 := by
  refine Yields.bind (inspect_ok rfl ?_)
  split
  · exact (advance_spec h).mono fun _ _ hadv hidle => absurd (hadv.all i n hi) (hidle i n)
  · next hnot =>
      refine Yields.pure fun hidle => ?_
      simp only [Bool.and_eq_true, decide_eq_true_eq, isIdle_iff, not_and] at hnot
      by_contra hblock
      exact hnot (Nat.pos_of_ne_zero hblock) hidle

/-- An update is recorded if updates are. -/
lemma record_tally {s : Session} {block : Nat} {ts : List Transformer} {old new : Transformer}
    {entry : UpdateRecord} (hentry : updateRecord i n block ts old new s = .ok entry) (updates : Nat)
    (recording : Option Recording) (k : Journal) :
    record i n block ts old new ⟨s.tally updates recording, k⟩
      = .ok () ⟨s.tally updates (recording.map (·.push entry)), k⟩ := by
  cases recording with
  | none => rfl
  | some recorded =>
      show (inspect (updateRecord i n block ts old new) >>= fun entry => change fun s =>
        { s with recording := some (recorded.push entry) }) _ = _
      exact bind_of_ok (inspect_of_ok hentry)

/-- **Storing the new transformer of a state**, whatever was noted before: the update is counted, and recorded
if updates are. -/
lemma install_tally (h : r.session.Intact) (hi : r.session.program.isInner i n = true) {q : Procedure}
    {ts : List Transformer} {old new : Transformer}
    (hts : ∀ t ∈ ts, t.Lives r.session.store r.session.equations.size)
    (hold : r.session.transformer? i n = some old)
    (hnew : new.Lives r.session.store r.session.equations.size) :
    ∃ s' entry, r.session.Installed i n old new s' ∧
      ((∀ j m, ¬ s'.Pending j m) → s'.block = 0) ∧
      updateRecord i n r.session.block ts old new s' = .ok entry ∧
      ∀ updates recording k, ∃ k', install q i n ts old new ⟨r.session.tally updates recording, k⟩
        = .ok () ⟨s'.tally (updates + 1) (recording.map (·.push entry)), k'⟩ := by
  obtain ⟨_, r₁, hreplace, hrep⟩ := replace_spec h hold hi hnew
  have hi₁ : r₁.session.program.isInner i n = true := hrep.shares.program ▸ hi
  obtain ⟨_, r₂, hadvance, hcases⟩ := advanceIfIdle_spec hrep.intact
  have hsettled := (advanceIfIdle_settled hrep.intact hi₁).post_of_ok hadvance
  have hinstalled : r.session.Installed i n old new r₂.session := by
    rcases hcases with heq | ⟨hpos, hidle, hadv⟩
    · rw [heq]
      exact .stays hrep
    · exact .advances _ hrep hpos hidle hadv
  have hlives : ∀ {t : Transformer}, t.Lives r.session.store r.session.equations.size →
      t.Lives r₂.session.store r₂.session.equations.size := fun ht => by
    rw [hinstalled.shares.store, hinstalled.shares.equations]
    exact ht
  obtain ⟨entry, hentry⟩ := updateRecord_ok hinstalled.intact (hinstalled.shares.program ▸ hi)
    r.session.block (fun t ht => hlives (hts t ht)) (hlives (h.lives i n old hold)) (hlives hnew)
  refine ⟨r₂.session, entry, hinstalled, hsettled, hentry, fun updates recording k => ?_⟩
  have hunheeded := unheeded_tally (updates + 1) recording
  obtain ⟨k₁, hreplace'⟩ := (Indifferent.replace hunheeded old new).ok_tally hreplace
    (k.push (.stateUpdated (updates + 1) n q.name r.session.block (decide (new ≠ old))))
  obtain ⟨k₂, hadvance'⟩ := (Indifferent.advanceIfIdle hunheeded).ok_tally hadvance k₁
  have hcount : countUpdate n q.name r.session.block (decide (new ≠ old))
      ⟨r.session.tally updates recording, k⟩ = .ok () ⟨r.session.tally (updates + 1) recording,
        k.push (.stateUpdated (updates + 1) n q.name r.session.block (decide (new ≠ old)))⟩ := rfl
  refine ⟨k₂, ?_⟩
  show (countUpdate n q.name r.session.block (decide (new ≠ old)) >>= fun _ => replace i n old new >>=
    fun _ => advanceIfIdle >>= fun _ => record i n r.session.block ts old new) _ = _
  rw [bind_of_ok hcount, bind_of_ok hreplace', bind_of_ok hadvance', record_tally hentry]

end SessionM

namespace Session

open SessionM

/-- **What an update does, with its record**: the new transformer is computed from the old one and stored,
and all of it is recorded once that is done. -/
inductive Performed (s : Session) (i n : Nat) (s' : Session) (entry : UpdateRecord) : Prop
  | intro {block : Block} {along : List Transformer} {old new : Transformer} {r : Run}
      (hblock : s.equations.blocks[s.block]? = some block)
      (hcandidate : candidate i n ⟨s, #[]⟩ = .ok (along, new) r)
      (hcomputed : s.Computed i n block along new r.session)
      (hold : r.session.transformer? i n = some old)
      (hinstalled : r.session.Installed i n old new s')
      (hsettled : (∀ j m, ¬ s'.Pending j m) → s'.block = 0)
      (hentry : updateRecord i n s.block along old new s' = .ok entry)

variable {s s' : Session} {i n : Nat} {entry : UpdateRecord}

lemma Performed.tally (h : s.Performed i n s' entry) (updates : Nat)
    (recording : Option Recording) : s.Performed i n (s'.tally updates recording) entry := by
  obtain ⟨hblock, hcandidate, hcomputed, hold, hinstalled, hsettled, hentry⟩ := h
  exact .intro hblock hcandidate hcomputed hold (hinstalled.tally updates recording) hsettled hentry

lemma Performed.updated (h : s.Performed i n s' entry) : s.Updated i n s' := by
  obtain ⟨hblock, -, hcomputed, hold, hinstalled, -, -⟩ := h
  exact .intro hblock hcomputed hold hinstalled

end Session

namespace SessionM

open Session

variable {s : Session} {i n : Nat}

/-- **An update**, whatever was noted before. -/
theorem update_performed (h : s.Intact) (hi : s.program.isInner i n = true) :
    ∃ s' entry, s.Performed i n s' entry ∧
      ∀ updates recording k, ∃ k', update i n ⟨s.tally updates recording, k⟩
        = .ok () ⟨s'.tally (updates + 1) (recording.map (·.push entry)), k'⟩ := by
  obtain ⟨q, hq, hn, hfinal⟩ := Program.exists_of_isInner hi
  obtain ⟨block, hblock⟩ := h.exists_block
  obtain ⟨⟨ts, new⟩, r, hcandidate, hcomputed⟩ := candidate_spec (r := ⟨s, #[]⟩) h hi hblock
  have hext := hcomputed.extended
  obtain ⟨old, hold⟩ := hext.intact.exists_transformer (hext.program ▸ hq) hn
  obtain ⟨s', entry, hinstalled, hsettled, hentry, hinstall⟩ := install_tally (q := q) hext.intact
    (hext.program ▸ hi) hcomputed.along_lives hold hcomputed.lives
  rw [hext.block] at hentry
  refine ⟨s', entry, .intro hblock hcandidate hcomputed hold hinstalled hsettled hentry,
    fun updates recording k => ?_⟩
  obtain ⟨k₁, hcandidate'⟩ :=
    (Indifferent.candidate (unheeded_tally updates recording) i n).ok_tally hcandidate k
  obtain ⟨k₂, hinstall'⟩ := hinstall updates recording k₁
  have hprocedure : inspect (·.procedure i) ⟨s.tally updates recording, k⟩
      = .ok q ⟨s.tally updates recording, k⟩ := inspect_of_ok (procedure_ok hq)
  have htransformer : inspect (·.transformer i n) ⟨r.session.tally updates recording, k₁⟩
      = .ok old ⟨r.session.tally updates recording, k₁⟩ := inspect_of_ok (transformer_ok hold)
  refine ⟨k₂, ?_⟩
  rw [update, bind_of_ok hprocedure, if_neg hfinal]
  show (candidate i n >>= fun c => inspect (·.transformer i n) >>= fun old =>
    install q i n c.1 old c.2) _ = _
  rw [bind_of_ok hcandidate', bind_of_ok htransformer, hinstall']

end SessionM

end ModalCalls
