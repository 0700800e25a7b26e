import Mathlib
import ModalCalls.Proofs.Diagram.RoundTrip
import ModalCalls.Proofs.Session.Chronicle
import ModalCalls.Proofs.Session.Converged
import ModalCalls.Solve

/-!
# Records tell what a run did

Model checking with a record answers as model checking does, and the record can be checked against any session
that has run for itself (`Program.solveRecorded_retells`).

**Reading back.**  A session that reads a transformer of its own finds every node in its store
(`SessionM.ofSerial_spec`).

**Replay.**  `SessionM.replay` makes an update again from nothing but its record.  If the update can be explained
in the session, the outcome is the one that was recorded, and no node is added (`SessionM.replay_spec`).

**Recordings.**  `Recording.Retells` is what a record says of a session that has run.  That it does is put
together from what is known of chronicles.
-/

namespace ModalCalls

/-! ## Reading back

Reading a serial form builds every node that it names.  In the store it was written from, all of these nodes
are there.  So reading finds them, returns the same handles and adds nothing.
-/

lemma Store.Quiet.writable {s s' : Store} (h : s.Quiet s') (hs : s.Writable) : s'.Writable where
  var_lt := by
    rw [h.table]
    exact hs.var_lt
  capacity_le := by
    rw [Store.capacity, h.table]
    exact hs.capacity_le

namespace Transformer

variable {s : Store} {e : EquationSystem} {t : Transformer} {texts : List String}

/-- Entries that were written are read back one by one. -/
lemma readEntries_serial {fs : List Handle}
    (h : List.Forall₂ (fun f text => s.serial f = .ok text) fs texts) (hs : s.Sound) (hw : s.Writable)
    (ho : s.overflowed = false) (hfs : ∀ f ∈ fs, s.Valid f) :
    Yields (readEntries texts) s fun result s' => result = .ok fs ∧ s.Grows s' ∧ s.Quiet s' := by
  suffices hall : ∀ s₁, s.Grows s₁ → s.Quiet s₁ → Yields (readEntries texts) s₁ fun result s' =>
      result = .ok fs ∧ s.Grows s' ∧ s.Quiet s' from hall s (.refl hs) (.refl s)
  induction h with
  | nil => exact fun s₁ hg hq => Yields.pure ⟨rfl, hg, hq⟩
  | @cons f text fs texts htext _ ih =>
      intro s₁ hg hq
      have hf : s.Valid f := hfs f (by simp)
      refine Yields.bind ((DiagramM.ofSerial_serial hs.toShaped hw hg.sound hf htext).mono ?_)
      rintro _ s₂ ⟨hg₂, ⟨g, rfl, hcopy⟩, hquiet⟩
      have ho₁ : s₁.overflowed = false := hq.overflowed.trans ho
      have hq₂ : s₁.Quiet s₂ :=
        hquiet ho₁ ⟨f, hg.keeps.valid hf, fun x => hg.meaning_eq hs.toShaped hf⟩
      have hgrows := hg.trans hg₂
      -- the copy means the same, so it is the handle that was written
      obtain rfl : g = f := Store.canonical hgrows.sound.toShaped hcopy.valid (hgrows.keeps.valid hf)
        fun x => (hcopy.meaning (hq₂.overflowed.trans ho₁) x).trans
          (hgrows.meaning_eq hs.toShaped hf).symm
      refine Yields.bind ((ih (fun f' hf' => hfs f' (by simp [hf'])) s₂ hgrows (hq.trans hq₂)).mono ?_)
      rintro _ s₃ ⟨rfl, hg₃, hq₃⟩
      exact Yields.pure ⟨rfl, hg₃, hq₃⟩

/-- **A transformer that was written is read back.** -/
lemma ofSerial_serial (hs : s.Sound) (hw : s.Writable) (ho : s.overflowed = false)
    (ht : t.Lives s e.size) (htexts : t.serial s = .ok texts) :
    Yields (ofSerial e texts) s fun result s' => result = .ok t ∧ s.Grows s' ∧ s.Quiet s' := by
  have hall := except_mapM_eq_ok htexts
  have hlength : texts.length = e.size := by
    rw [← hall.length_eq, Array.length_toList, ht.size]
  rw [ofSerial, if_pos hlength]
  refine Yields.bind ((readEntries_serial hall hs hw ho fun f hf =>
    ht.valid f (Array.mem_toList_iff.1 hf)).mono ?_)
  rintro _ s' ⟨rfl, hg, hq⟩
  exact Yields.pure ⟨rfl, hg, hq⟩

end Transformer

namespace Session

variable {s s' s'' : Session}

/-- **A session with more in it, but no more nodes.** -/
structure Undisturbed (s s' : Session) : Prop extends s.Extends s' where
  quiet : s.store.Quiet s'.store

namespace Undisturbed

lemma refl (h : s.Intact) : s.Undisturbed s :=
  ⟨.refl h, .refl s.store⟩

lemma trans (h : s.Undisturbed s') (h' : s'.Undisturbed s'') : s.Undisturbed s'' :=
  ⟨h.toExtends.trans h'.toExtends, h.quiet.trans h'.quiet⟩

lemma setStore (h : s.Intact) {store : Store} (hg : s.store.Grows store) (hq : s.store.Quiet store) :
    s.Undisturbed { s with store := store } :=
  ⟨.setStore h hg, hq⟩

end Undisturbed

end Session

namespace SessionM

open Session

variable {r : Run} {t : Transformer} {texts : List String}

/-- **A session reads back what it has written.** -/
lemma ofSerial_spec (h : r.session.Intact) (hw : r.session.store.Writable)
    (ho : r.session.store.overflowed = false) (ht : t.Lives r.session.store r.session.equations.size)
    (htexts : t.serial r.session.store = .ok texts) :
    Yields (ofSerial texts) r fun result r' => result = .ok t ∧ r.session.Undisturbed r'.session := by
  refine Yields.bind (inspect_ok rfl (onStore_ok ?_))
  refine (Transformer.ofSerial_serial h.store hw ho ht htexts).mono ?_
  rintro _ store ⟨rfl, hg, hq⟩ journal
  exact ⟨rfl, .setStore h hg hq⟩

/-- Several transformers are read back one after the other. -/
lemma mapM_ofSerial_spec {ts : List Transformer} {written : List (List String)}
    (hall : List.Forall₂ (fun t texts => t.serial r.session.store = .ok texts) ts written)
    (h : r.session.Intact) (hw : r.session.store.Writable) (ho : r.session.store.overflowed = false)
    (hts : ∀ t ∈ ts, t.Lives r.session.store r.session.equations.size) :
    Yields (written.mapM ofSerial) r fun results r' =>
      results.mapM id = .ok ts ∧ r.session.Undisturbed r'.session := by
  suffices hfrom : ∀ r₁ : Run, r.session.Undisturbed r₁.session →
      Yields (written.mapM ofSerial) r₁ fun results r' =>
        results.mapM id = .ok ts ∧ r.session.Undisturbed r'.session from hfrom r (.refl h)
  induction hall with
  | nil => exact fun r₁ h₁ => Yields.pure ⟨rfl, h₁⟩
  | @cons t texts ts written htexts _ ih =>
      intro r₁ h₁
      have ht := hts t (by simp)
      rw [List.mapM_cons]
      refine Yields.bind ((ofSerial_spec h₁.intact (h₁.quiet.writable hw)
        (h₁.quiet.overflowed.trans ho) (t := t) ?_ ?_).mono ?_)
      · rw [h₁.equations]
        exact ht.grows h₁.grows
      · rw [Transformer.serial_grows h.store.toShaped ht h₁.grows, htexts]
      rintro _ r₂ ⟨rfl, h₂⟩
      refine Yields.map_pure ((ih (fun t' ht' => hts t' (by simp [ht'])) r₂ (h₁.trans h₂)).mono ?_)
      rintro results r₃ ⟨hresults, h₃⟩
      refine ⟨?_, h₃⟩
      rw [List.mapM_cons, hresults]
      rfl

end SessionM

/-! ## Replay

The record of an update names its state and its block and has the transformers that were read.  The update
of a transformer depends on nothing else, apart from the atoms of the state and the equations.  So it can be
made again in any session of the same program and formula, and since every node is there already the outcome
is the recorded one, text for text.
-/

/-- The procedure and the block of a recorded update. -/
def Session.placeOf (s : Session) (u : UpdateRecord) : Except Fault (Procedure × Block) :=
  match s.program.indexOf? u.procedure, s.equations.blocks[u.block]? with
  | none, _ => .error .noSuchProcedure
  | _, none => .error (.noSuchBlock u.block)
  | some i, some block => do
    let p ← s.procedure i
    return (p, block)

namespace SessionM

/-- **Make an update again**: read the transformers of its record, and update the one of its state with those of
its edges, for the atoms of the state and the variables of the block. -/
def replay (u : UpdateRecord) : SessionM (Except SerialError (List String)) := do
  let (p, block) ← inspect (·.placeOf u)
  let e ← inspect fun s => .ok s.equations
  let old ← ofSerial u.transformer
  let along ← u.along.mapM ofSerial
  match old, along.mapM id with
  | .ok old, .ok along =>
    let new ← onStore (old.update e (p.graph.propsOf u.state) along block.vars)
    let texts ← inspect fun s => new.serial s.store
    return .ok texts
  | .error err, _ => return .error err
  | _, .error err => return .error err

open Session

variable {r : Run} {u : UpdateRecord}

/-- **An update that can be explained can be made again**, with the outcome that was recorded. -/
theorem replay_spec (h : r.session.Intact) (hw : r.session.store.Writable)
    (ho : r.session.store.overflowed = false) (hu : r.session.Explains u) :
    Yields (replay u) r fun result r' =>
      result = .ok u.updated ∧ r.session.Undisturbed r'.session := by
  obtain @⟨i, q, block, along, old, new, hq, hname, hstate, hblock, hold, halong, hnew, hrenews⟩ := hu
  have hshaped := h.store.toShaped
  have hplace : r.session.placeOf u = .ok (q, block) := by
    simp only [placeOf, hname, h.program.indexOf_name i q hq, hblock, procedure_ok hq]
    rfl
  refine Yields.bind (inspect_ok hplace (Yields.bind (inspect_ok rfl ?_)))
  refine Yields.bind ((ofSerial_spec h hw ho hrenews.before hold).mono ?_)
  rintro _ r₁ ⟨rfl, h₁⟩
  have halong₁ : List.Forall₂ (fun t texts => t.serial r₁.session.store = .ok texts) along u.along := by
    refine ((List.forall₂_and_left _ _).2 ⟨fun _ ht => ht, halong⟩).imp fun t texts ⟨ht, htexts⟩ => ?_
    rw [Transformer.serial_grows hshaped (hrenews.edges t ht) h₁.grows, htexts]
  refine Yields.bind ((mapM_ofSerial_spec halong₁ h₁.intact (h₁.quiet.writable hw)
    (h₁.quiet.overflowed.trans ho) fun t ht => ?_).mono ?_)
  · rw [h₁.equations]
    exact (hrenews.edges t ht).grows h₁.grows
  rintro results r₂ ⟨hresults, h₂⟩
  simp only [hresults]
  have h₂ := h₁.trans h₂
  refine Yields.bind (onStore_ok (((hrenews.grows hshaped h₂.grows).update_again h₂.intact.store
    (h₂.quiet.overflowed.trans ho) (Transformer.readable_block h.equations hblock)
    (h.equations.nodup hblock)).mono ?_))
  rintro _ store ⟨rfl, hg, hquiet⟩ journal
  refine Yields.bind (inspect_ok (a := u.updated) ?_ (Yields.pure ⟨rfl, ?_⟩))
  · rw [← hnew]
    exact Transformer.serial_grows hshaped hrenews.after (h₂.grows.trans hg)
  · exact h₂.trans (.setStore h₂.intact hg hquiet)

end SessionM

/-! ## Recordings

A record begins with the transformers that the states have before the first update.  What it says of a run
is put into four conditions.  Without the third one a record might have gaps between the updates of a state,
and without the last one it might make up their outcomes.
-/

namespace Session

variable {s : Session} {i n : Nat} {q : Procedure}

lemma Intact.recorded (h : s.Intact) (c : Option Recording) : (s.recorded c).Intact :=
  (Noted.of_eq rfl).intact h

lemma Legible.recorded (h : s.Legible) (c : Option Recording) : (s.recorded c).Legible :=
  h.of_shares (Noted.of_eq rfl).shares

/-- A procedure is recorded with the transformers that its states have. -/
structure Introduces (s : Session) (i : Nat) (q : Procedure) (pr : ProcedureRecord) : Prop where
  name : pr.name = q.name
  states : pr.states = List.range q.size
  transformers : ∀ n, n < q.size → ∃ texts, pr.transformers[n]? = some texts ∧ s.serialAt i n = .ok texts

/-- The transformer of a state can be written at any time. -/
lemma Intact.exists_serialAt (h : s.Intact) (hq : s.program.procedures[i]? = some q)
    (hn : n < q.size) : ∃ texts, s.serialAt i n = .ok texts := by
  obtain ⟨t, ht⟩ := h.exists_transformer hq hn
  rw [serialAt_eq ht]
  exact (h.lives i n t ht).exists_serial h.store.toShaped

lemma Intact.procedureRecord_ok (h : s.Intact) (hq : s.program.procedures[i]? = some q) :
    ∃ pr, SessionM.procedureRecord s i q = .ok pr ∧ s.Introduces i q pr := by
  have hlt : ∀ n ∈ q.graph.stateNumbers, n < q.size := fun n hn => List.mem_range.1 hn
  obtain ⟨transformers, htransformers, hwritten⟩ : ∃ written,
      q.graph.stateNumbers.mapM (s.serialAt i) = .ok written ∧
      List.Forall₂ (fun n texts => s.serialAt i n = .ok texts) q.graph.stateNumbers written :=
    except_mapM_exists fun n hn =>
      let ⟨_, htexts⟩ := h.exists_serialAt hq (hlt n hn)
      ⟨_, htexts, htexts⟩
  obtain ⟨satisfied, hsatisfied, -⟩ : ∃ labels,
      q.graph.stateNumbers.mapM (s.satisfied i) = .ok labels ∧
      List.Forall₂ (fun n names => s.satisfied i n = .ok names) q.graph.stateNumbers labels :=
    except_mapM_exists fun n hn =>
      let ⟨_, _, _, hlabels⟩ := h.exists_satisfied hq (hlt n hn)
      ⟨_, hlabels, hlabels⟩
  refine ⟨⟨q.name, q.graph.stateNumbers, transformers, satisfied⟩, ?_, rfl, rfl, fun n hn => ?_⟩
  · simp only [SessionM.procedureRecord, htransformers, hsatisfied]
    rfl
  · exact exists_of_getElem?_left hwritten (List.getElem?_range hn)

/-- **A session without an update begins to record** with the transformers that it has. -/
lemma startRecording_ok (h : s.Intact) (hupdates : s.updates = 0) :
    ∃ ps, (∀ j, SessionM.startRecording ⟨s, j⟩
        = .ok () ⟨s.recorded (some { procedures := ps }), j⟩) ∧
      ∀ (i : Nat) (q : Procedure), s.program.procedures[i]? = some q →
        ∃ pr, ps[i]? = some pr ∧ s.Introduces i q pr := by
  obtain ⟨ps, hps, hall⟩ := except_mapM_exists (l := s.program.procedures.toList.zipIdx)
    (f := fun a => SessionM.procedureRecord s a.2 a.1) (R := fun a pr => s.Introduces a.2 a.1 pr)
    fun a ha => h.procedureRecord_ok (by
      rw [← Array.getElem?_toList]
      exact List.mem_zipIdx_iff_getElem?.1 ha)
  refine ⟨ps, fun j => ?_, fun i q hq => ?_⟩
  · have hlate : (s.updates != 0) = false := by simp [hupdates]
    refine (bind_of_ok (SessionM.inspect_of_ok (a := false) (congrArg Except.ok hlate))).trans ?_
    exact bind_of_ok (SessionM.inspect_of_ok hps)
  · refine exists_of_getElem?_left (a := (q, i)) hall ?_
    rw [List.getElem?_zipIdx, Array.getElem?_toList, hq]
    simp

/-- The transformers of edges that are noted can be written. -/
lemma Legible.serialEdges_ok (h : s.Legible) (hs : s.Intact) (modality : Modality) :
    ∃ edges, s.serialEdges (s.edgeTransformers modality) = .ok edges := by
  obtain ⟨edges, hedges, -⟩ := except_mapM_exists (R := fun _ _ => True)
    (l := s.edgeTransformers modality) (f := fun a => do
      let texts ← a.2.serial s.store
      return (a.1, texts)) fun a ha => by
    obtain ⟨texts, htexts⟩ := (h.lives hs ha).exists_serial hs.store.toShaped
    exact ⟨(a.1, texts), by simp only [htexts]; rfl, trivial⟩
  exact ⟨edges, hedges⟩

/-- **What was recorded can be told at any time**, with the verdict. -/
lemma Legible.history_ok (h : s.Legible) (hs : s.Intact) {sat : Bool} (hsat : s.isSat = .ok sat) :
    ∃ told, s.history = .ok told ∧ told.satisfied = sat ∧ told.recording = s.recording.getD {} := by
  obtain ⟨must, hmust⟩ := h.serialEdges_ok hs .must
  obtain ⟨may, hmay⟩ := h.serialEdges_ok hs .may
  simp only [edgeTransformers] at hmust hmay
  refine ⟨⟨sat, s.recording.getD {}, must, may⟩, ?_, rfl, rfl⟩
  simp only [history, hmust, hmay, hsat]
  rfl

end Session

/-- **A record retells a run** that has led to the session of `r`. -/
structure Recording.Retells (recording : Recording) (r : Run) : Prop where
  /-- There is one record for each update. -/
  count : recording.updates.size = r.session.updates
  /-- Every update is one of a state that exists. -/
  known : ∀ u ∈ recording.updates, ∃ (i : Nat) (q : Procedure),
    r.session.program.procedures[i]? = some q ∧ u.procedure = q.name ∧ u.state < q.size
  /-- The updates of a state lead from the transformer that it had first to the one that it has now. -/
  chained : ∀ (i : Nat) (q : Procedure) (n : Nat), r.session.program.procedures[i]? = some q →
    n < q.size → ∃ pr first last, recording.procedures[i]? = some pr ∧ pr.name = q.name ∧
      pr.states[n]? = some n ∧ pr.transformers[n]? = some first ∧
      r.session.serialAt i n = .ok last ∧
      UpdateRecord.Chains first (recording.updates.toList.filter (·.isOf q.name n)) last
  /-- Every update can be made again, and nothing has to be added for it. -/
  replayed : ∀ u ∈ recording.updates, ∃ r', SessionM.replay u r = .ok (.ok u.updated) r' ∧
    r.session.store.Quiet r'.session.store
  /-- Blocks are left and never entered again. -/
  blocks : recording.updates.toList.Pairwise fun u v => v.block ≤ u.block
  /-- Only the last update leaves nothing to do. -/
  last : ∀ (k : Nat) (u : UpdateRecord), recording.updates[k]? = some u →
    (u.isLast = true ↔ k + 1 = recording.updates.size)

/-- **The record of a chronicle retells it**, in every session that it leads to. -/
theorem Session.Chronicle.retells {s s' : Session} {us : List UpdateRecord} (h : s.Chronicle us s')
    (hs : s.Intact) (hl : s.Legible) (hupdates : s.updates = 0) {ps : List ProcedureRecord}
    (hps : ∀ (i : Nat) (q : Procedure), s.program.procedures[i]? = some q →
      ∃ pr, ps[i]? = some pr ∧ s.Introduces i q pr)
    {r : Run} {c : Option Recording} (hr : r.session = s'.recorded c)
    (hroom : r.session.store.overflowed = false) :
    Recording.Retells (({ procedures := ps } : Recording).append us) r := by
  have hevolves := h.evolves hs
  have hintact : r.session.Intact := hr ▸ hevolves.intact.recorded c
  have hprogram : r.session.program = s.program := by
    rw [hr]
    exact hevolves.program
  have hus : (({ procedures := ps } : Recording).append us).updates = us.toArray := by
    simp [Recording.append]
  have hexplains : ∀ u ∈ us, r.session.Explains u := by
    intro u hu
    obtain ⟨hq, hname, hstate, hblock, hold, halong, hnew, hrenews⟩ := h.explains hs u hu
    rw [hr]
    exact .intro hq hname hstate hblock hold halong hnew hrenews
  constructor
  case count =>
    rw [hus, List.size_toArray, hr]
    exact (h.updates_eq.trans (by rw [hupdates, Nat.zero_add])).symm
  case known =>
    intro u hu
    rw [hus, List.mem_toArray] at hu
    obtain ⟨hq, hname, hstate, -⟩ := hexplains u hu
    exact ⟨_, _, hq, hname, hstate⟩
  case chained =>
    intro i q n hq hn
    rw [hprogram] at hq
    obtain ⟨pr, hpr, hintro⟩ := hps i q hq
    obtain ⟨first, hfirst, hserial⟩ := hintro.transformers n hn
    obtain ⟨last, hlast, hchains⟩ := h.chains hs hq hn hserial
    refine ⟨pr, first, last, hpr, hintro.name, ?_, hfirst, ?_, ?_⟩
    · rw [hintro.states, List.getElem?_range hn]
    · rw [hr]
      exact hlast
    · rw [hus]
      exact hchains
  case replayed =>
    intro u hu
    rw [hus, List.mem_toArray] at hu
    have hw : r.session.store.Writable := hr ▸ ((h.legible hl).recorded c).store
    obtain ⟨_, r', hreplay, rfl, hundisturbed⟩ :=
      SessionM.replay_spec hintact hw hroom (hexplains u hu)
    exact ⟨r', hreplay, hundisturbed.quiet⟩
  case blocks =>
    rw [hus]
    exact h.pairwise_block
  case last =>
    rw [hus]
    intro k u hu
    rw [List.size_toArray]
    exact h.isLast_iff hs k u (by simpa using hu)

/-! ## Model checking with a record

The session that records and the one that does not are two different runs.  They are compared through the
chronicle of the steps, which is about sessions without a record.  That gives the verdict, the failures and
what is told.
-/

/-- After a run that is recorded, the record of its updates can be told, with the verdict. -/
lemma Session.Chronicle.told {s s' : Session} {us : List UpdateRecord} (h : s.Chronicle us s')
    (hs : s.Intact) (hl : s.Legible) {recording : Recording} {j k : Journal}
    (hrun : SessionM.run ⟨s.recorded (some recording), j⟩
      = .ok () ⟨s'.recorded (some (recording.append us)), k⟩) {sat : Bool} (hsat : s'.isSat = .ok sat) :
    ∃ told, answer (do SessionM.run; SessionM.inspect (·.history)) ⟨s.recorded (some recording), j⟩
        = .ok told ∧ told.satisfied = sat ∧ told.recording = recording.append us := by
  obtain ⟨told, htold, hverdict, hrecording⟩ :=
    ((h.legible hl).recorded (some (recording.append us))).history_ok
      ((h.evolves hs).intact.recorded _) hsat
  exact ⟨told, (answer_bind_of_ok hrun).trans (answer_of_ok (SessionM.inspect_of_ok htold)), hverdict,
    hrecording⟩

lemma Session.answer_conclude {α : Type} (s : Session) (x : SessionM α) (j : Journal) :
    answer (s.conclude x) j = answer x ⟨s, j⟩ := by
  simp only [answer, conclude]
  cases x ⟨s, j⟩ <;> rfl

namespace Program

open Session

variable {system : System} {p : Program} {o : Options} {f : Formula} {s : Session} {j j' : Journal}

/-- The verdict of a session that has begun. -/
lemma answer_solve (hbegin : Session.begin p o f j = .ok s j') :
    answer (p.solve o f) j = answer (runToVerdict f) ⟨s, j'⟩ :=
  (answer_bind_of_ok hbegin).trans (s.answer_conclude _ _)

/-- A session that has begun tells what it has recorded after its run. -/
lemma answer_solveRecorded (hbegin : Session.begin p o f j = .ok s j') {c : Option Recording}
    (hstart : SessionM.startRecording ⟨s, j'⟩ = .ok () ⟨s.recorded c, j'⟩) :
    answer (p.solveRecorded o f) j
      = answer (do SessionM.run; SessionM.inspect (·.history)) ⟨s.recorded c, j'⟩ :=
  (answer_bind_of_ok hbegin).trans ((s.answer_conclude _ _).trans (answer_bind_of_ok hstart))

/-- The verdict after a run that ends well. -/
lemma answer_runToVerdict {r r' : Run} {sat : Bool} (hrun : SessionM.run r = .ok () r')
    (hsat : r'.session.isSat = .ok sat) : answer (runToVerdict f) r = .ok sat :=
  (answer_bind_of_ok hrun).trans (answer_bind_of_ok (SessionM.inspect_of_ok hsat))

/-- **Records retell runs.**  Model checking with a record fails exactly if model checking does, with the same
error.  Otherwise it has the same verdict, and its record retells the run of every other session that is begun
for the formula. -/
theorem solveRecorded_retells (hsystem : ofSystem system = .ok p)
    (hbits : Store.validBits o.storageBits = true) (f : Formula) (j : Journal) :
    (∀ err, answer (p.solveRecorded o f) j = .error err ↔ answer (p.solve o f) j = .error err) ∧
    ∀ sat, answer (p.solve o f) j = .ok sat → ∃ told, answer (p.solveRecorded o f) j = .ok told ∧
      told.satisfied = sat ∧ ∀ j', ∃ s j'', Session.begin p o f j' = .ok s j'' ∧
        ∀ k, ∃ r, SessionM.run ⟨s, k⟩ = .ok () r ∧ r.session.isSat = .ok sat ∧
          told.recording.Retells r := by
  have hp := wellFormed_of_system hsystem
  cases hbegin : Session.begin p o f j with
  | error err j₁ =>
      have hbegin : answer (Session.begin p o f) j = .error err := by simp only [answer, hbegin]
      have hsolve : answer (p.solve o f) j = .error err := answer_bind_of_error hbegin
      have hrecorded : answer (p.solveRecorded o f) j = .error err := answer_bind_of_error hbegin
      rw [hsolve, hrecorded]
      exact ⟨fun _ => by simp, fun _ hsat => by cases hsat⟩
  | ok s j₁ =>
      have hontrack := (begin_spec hp hbits hbegin).1
      have hlegible := begin_legible hp hbits hbegin
      have hupdates : s.updates = 0 := by
        obtain ⟨e, prs, store, -, -, -, rfl⟩ := begin_eq_ok_iff.1 ⟨j₁, hbegin⟩
        rfl
      obtain ⟨ps, hstart, hps⟩ := startRecording_ok hontrack.toIntact hupdates
      rw [answer_solve hbegin, answer_solveRecorded hbegin (hstart j₁)]
      rcases SessionM.run_chronicle hontrack.toIntact with ⟨err, hfails⟩ | ⟨us, s', hchronicle, hruns⟩
      · -- both runs fail alike
        have hverdict : answer (runToVerdict f) ⟨s, j₁⟩ = .error err :=
          answer_bind_of_error (hfails s.recording j₁)
        rw [hverdict, answer_bind_of_error (hfails (some { procedures := ps }) j₁)]
        exact ⟨fun _ => by simp, fun _ hsat => by cases hsat⟩
      · -- both runs are the same chronicle
        obtain ⟨b, hb⟩ := (hchronicle.evolves hontrack.toIntact).intact.exists_isSat
        obtain ⟨k₁, hplain⟩ := hruns s.recording j₁
        obtain ⟨k₂, hrecords⟩ := hruns (some { procedures := ps }) j₁
        have hverdict : answer (runToVerdict f) ⟨s, j₁⟩ = .ok b := answer_runToVerdict hplain hb
        obtain ⟨told, htold, hsat, hrecording⟩ :=
          hchronicle.told hontrack.toIntact hlegible hrecords hb
        rw [hverdict, htold]
        refine ⟨fun _ => by simp, fun sat heq => ?_⟩
        obtain rfl := Except.ok.inj heq
        refine ⟨told, rfl, hsat, fun j' => ?_⟩
        obtain ⟨j'', hbegin'⟩ := begin_eq_ok_iff.2 (begin_eq_ok_iff.1 ⟨j₁, hbegin⟩)
        refine ⟨s, j'', hbegin', fun k => ?_⟩
        obtain ⟨k', hrun⟩ := hruns s.recording k
        refine ⟨_, hrun, hb, ?_⟩
        rw [hrecording]
        exact hchronicle.retells hontrack.toIntact hlegible hupdates hps rfl
          (SessionM.run_spec hontrack hrun).2.1.room

/-- A record of seven updates, for two blocks. -/
theorem solveRecorded_retells_callingProgram :
    ofSystem { main := "main", procedures := [("main", callingGraph)] } = .ok callingProgram ∧
    ∃ told, answer (callingProgram.solveRecorded { storageBits := 4 } alwaysPossibly) #[] = .ok told ∧
      told.satisfied = false ∧ told.recording.updates.toList.map (·.block) = [1, 1, 0, 0, 0, 0, 0] ∧
      ∀ j', ∃ s j'', Session.begin callingProgram { storageBits := 4 } alwaysPossibly j' = .ok s j'' ∧
        ∀ k, ∃ r, SessionM.run ⟨s, k⟩ = .ok () r ∧ r.session.isSat = .ok false ∧
          told.recording.Retells r := by
  have hblocks : (answer (callingProgram.solveRecorded { storageBits := 4 } alwaysPossibly)
      #[]).toOption.map (·.recording.updates.toList.map (·.block)) = some [1, 1, 0, 0, 0, 0, 0] := by
    decide +kernel
  have hsolve : answer (callingProgram.solve { storageBits := 4 } alwaysPossibly) #[] = .ok false := by
    decide +kernel
  have hsystem : ofSystem { main := "main", procedures := [("main", callingGraph)] }
      = .ok callingProgram := rfl
  obtain ⟨told, htold, hsat, hretells⟩ :=
    (solveRecorded_retells hsystem (o := { storageBits := 4 }) rfl alwaysPossibly #[]).2 false hsolve
  rw [htold] at hblocks
  exact ⟨hsystem, told, htold, hsat, Option.some.inj hblocks, hretells⟩

end Program

end ModalCalls
