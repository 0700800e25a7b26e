import Mathlib
import ModalCalls.Proofs.Diagram.Twin
import ModalCalls.Proofs.Session.Confluence

/-!
# The size of the store

A session over a larger store does the same, node for node, as long as the smaller one has room.  Two
sessions are `Alike` if they agree in everything but the size they were asked for and the limit on searches,
and their stores are twins.  Every operation of a session goes the same way in both (`SessionM.InStep`): an
operation on the store because stores cannot be told apart (`DiagramM.Mirrored`), any other one because it
does not look at the size or at the limit (`Session.Blind`).

A run that ends well has never run out of room, so a larger store would have given the same verdict after the
same updates, with the same nodes in it and the same transformers at all states
(`Session.run_resized`).
-/

namespace ModalCalls

/-! ## Transformers

The operations on transformers call those on diagrams, which are known to go the same way in twin stores.
An entry that is read has to be a handle of the smaller store, and this is where `Lives` comes in.
-/

namespace Transformer

open Store DiagramM

variable {e : EquationSystem} {s s' : Store} {t u : Transformer} {n v : Nat}
  {props : List String} {along : List Transformer}

lemma identity_mirrored (hs : s.Sound) : Mirrored (identity e) (identity e) s s' :=
  .map_pure (.mapM Store.Sound _ hs (fun v _ _ _ hs => mkVar_mirrored hs v.succ_pos)
    fun v _ _ hs => (mkVar_spec hs v.succ_pos).mono fun _ _ h => h.grows.sound)

lemma edgeEntry_mirrored (hs : s.Sound) (label : String) (modality : Modality) (op : Operator) :
    Mirrored (edgeEntry label modality op) (edgeEntry label modality op) s s' := by
  cases op with
  | box action child =>
      simp only [edgeEntry]
      split
      · exact mkVar_mirrored hs child.succ_pos
      · exact .pure _
  | dia action child =>
      simp only [edgeEntry]
      split
      · exact mkVar_mirrored hs child.succ_pos
      · exact .pure _
  | _ => exact .pure _

lemma ofEdge_mirrored (hs : s.Sound) (label : String) (modality : Modality) :
    Mirrored (ofEdge e label modality) (ofEdge e label modality) s s' :=
  .map_pure (.mapM Store.Sound _ hs (fun q _ _ _ hs => edgeEntry_mirrored hs label modality q.operator)
    fun q _ _ hs => (edgeEntry_spec hs label modality q.operator).mono fun _ _ h => h.1.sound)

lemma compose_mirrored (hs : s.Sound) (ht : t.Lives s n) (hu : u.Lives s n) :
    Mirrored (t.compose u) (t.compose u) s s' := by
  have hvalid : ∀ f ∈ t.entries.toList, s.Valid f := fun f hf =>
    ht.valid f (Array.mem_toList_iff.1 hf)
  refine .map_pure (.mapM (fun s₁ => s.Grows s₁) _ (.refl hs) (fun f hf s₁ _ hg => ?_)
    fun f hf s₁ hg => ?_)
  · exact DiagramM.compose_mirrored hg.sound (hg.keeps.valid (hvalid f hf))
      (hu.validSubst.keeps hg.keeps)
  · exact (DiagramM.compose_spec hg.sound (hg.keeps.valid (hvalid f hf))
      (hu.validSubst.keeps hg.keeps)).mono fun _ _ h => hg.trans h.1

lemma Lives.entry (ht : t.Lives s n) {f : Handle} (hf : entry t.entries v = .ok f) : s.Valid f := by
  simp only [Transformer.entry] at hf
  split at hf
  · next g hg =>
      cases hf
      exact ht.valid f (Array.mem_of_getElem? hg)
  · cases hf

lemma operatorEntry_mirrored (hs : s.Sound) (ht : t.Lives s n) (halong : ∀ u ∈ along, u.Lives s n)
    (op : Operator) :
    Mirrored (operatorEntry props along t.entries v op) (operatorEntry props along t.entries v op)
      s s' := by
  -- an entry that is read is a handle of the store
  have hentry : ∀ {α : Type} {c : Nat} {k : Handle → DiagramM α} {s' : Store},
      (∀ f s', s.Valid f → Mirrored (k f) (k f) s s') →
      Mirrored (DiagramM.read (fun _ => Transformer.entry t.entries c) >>= k)
        (DiagramM.read (fun _ => Transformer.entry t.entries c) >>= k) s s' := by
    intro α c k s' hk
    refine .bind (read_mirrored fun _ => rfl) fun f s₁ t₁ hread => ?_
    obtain ⟨hf, rfl⟩ := read_eq_ok hread
    exact hk f t₁ (ht.entry hf)
  have hentries : ∀ {α : Type} {k : List Handle → DiagramM α},
      (∀ fs s', (∀ f ∈ fs, s.Valid f) → Mirrored (k fs) (k fs) s s') →
      Mirrored (DiagramM.read (fun _ => along.mapM fun t => Transformer.entry t.entries v) >>= k)
        (DiagramM.read (fun _ => along.mapM fun t => Transformer.entry t.entries v) >>= k) s s' := by
    intro α k hk
    refine .bind (read_mirrored fun _ => rfl) fun fs s₁ t₁ hread => ?_
    obtain ⟨hfs, rfl⟩ := read_eq_ok hread
    refine hk fs t₁ fun f hf => ?_
    obtain ⟨u, hu, hentry⟩ := exists_of_mem_right (except_mapM_eq_ok hfs) hf
    exact (halong u hu).entry hentry
  cases op with
  | top => exact .pure _
  | bot => exact .pure _
  | atom p => exact .pure _
  | neg c => exact hentry fun f _ _ => .pure _
  | conj l r => exact hentry fun f s' hf => hentry fun g s' hg => and_mirrored hs hf hg
  | disj l r => exact hentry fun f s' hf => hentry fun g s' hg => or_mirrored hs hf hg
  | box a c => exact hentries fun fs _ hfs => andMany_mirrored hs hfs
  | dia a c => exact hentries fun fs _ hfs => orMany_mirrored hs hfs

lemma update_mirrored (hs : s.Sound) (ht : t.Lives s e.size)
    (halong : ∀ u ∈ along, u.Lives s e.size) {vars : List Nat} (hvars : Readable e vars) :
    Mirrored (update e t props along vars) (update e t props along vars) s s' := by
  refine .map_pure (.foldlM (fun entries s₁ => s.Grows s₁ ∧
    (⟨entries⟩ : Transformer).Lives s₁ e.size) vars ⟨.refl hs, ht⟩ ?_ ?_)
  · rintro v hv entries s₁ _ ⟨hg, hlives⟩
    obtain ⟨op, hop, -⟩ := hvars v hv
    simp only [updateEntry, hop]
    exact .map_pure (operatorEntry_mirrored hg.sound hlives
      (fun u hu => (halong u hu).grows hg) op)
  · rintro v hv entries s₁ ⟨hg, hlives⟩
    obtain ⟨op, hop, hreads⟩ := hvars v hv
    have hlt := EquationSystem.lt_size_of_operator? hop
    simp only [updateEntry, hop]
    refine Yields.map_pure ((operatorEntry_spec hg.sound hlives
      (fun u hu => (halong u hu).grows hg) hlt hreads).mono ?_)
    rintro f s₂ ⟨hg₂, hf, -⟩
    exact ⟨hg.trans hg₂, ((hlives.grows hg₂).set hf hlt).1⟩

end Transformer

/-! ## Sessions that are alike

The options are part of a session, so two sessions over stores of different sizes are never equal.  They are
related by a function that exchanges what may differ.  A change that commutes with it does the same on both
sides, and a question that does not see it has the same answer.
-/

namespace Session

variable {s t : Session} {i n : Nat}

/-- The session with another store, and the size and the limit on searches of other options. -/
def resize (s : Session) (o : Options) (store : Store) : Session :=
  { s with
    options := { s.options with storageBits := o.storageBits, witnessLimit := o.witnessLimit }
    store := store }

/-- **The two sessions differ in the size of their stores and the limit on searches only**, and their stores
are twins. -/
structure Alike (s t : Session) : Prop where
  store : s.store.Twin t.store
  same : ∃ o, t = s.resize o t.store

/-- A change that looks neither at the store and its size nor at the limit. -/
def Blind (f : Session → Session) : Prop :=
  ∀ s o store, f (s.resize o store) = (f s).resize o store

lemma Blind.store {f : Session → Session} (hf : Blind f) (s : Session) :
    (f s).store = s.store := by
  have hsame : f s = (f s).resize s.options s.store := hf s s.options s.store
  rw [hsame]
  rfl

lemma blind_markAll (i : Nat) (states : List Nat) : Blind (·.markAll i states) :=
  fun _ _ _ => rfl

/-- Marking states of several procedures. -/
lemma blind_markMany {α : Type} (place : α → Nat) (states : α → List Nat) (l : List α) :
    Blind fun s => l.foldl (fun s a => s.markAll (place a) (states a)) s :=
  fun _ o store => List.foldl_hom (fun s : Session => s.resize o store) fun s a =>
    blind_markAll (place a) (states a) s o store

namespace Alike

lemma change (h : s.Alike t) {f : Session → Session} (hf : Blind f) : (f s).Alike (f t) where
  store := by
    rw [hf.store, hf.store]
    exact h.store
  same := by
    obtain ⟨o, heq⟩ := h.same
    rw [hf.store]
    exact ⟨o, (congrArg f heq).trans (hf s o t.store)⟩

/-- What looks neither at the store and its size nor at the limit is the same. -/
lemma query_eq {α : Type} (h : s.Alike t) (query : Session → α)
    (hquery : ∀ o store, s.store.Twin store → query (s.resize o store) = query s) :
    query t = query s := by
  obtain ⟨o, heq⟩ := h.same
  rw [heq]
  exact hquery o t.store h.store

lemma serialAt_eq (h : s.Alike t) : t.serialAt i n = s.serialAt i n :=
  h.query_eq (·.serialAt i n) fun _ store hstore => by
    simp only [serialAt, Transformer.serial, resize, hstore.serial_eq]
    rfl

lemma holding_eq (h : s.Alike t) : t.holding i n = s.holding i n :=
  h.query_eq (·.holding i n) fun _ store hstore => by
    simp only [holding, Transformer.evaluate, Transformer.values, resize, hstore.eval_eq]
    rfl

lemma isSat_eq (h : s.Alike t) : t.isSat = s.isSat := by
  have hprogram : t.program = s.program := h.query_eq (·.program) fun _ _ _ => rfl
  simp only [isSat, procedure, h.holding_eq, hprogram]

lemma updateRecord_eq (h : s.Alike t) (block : Nat) (ts : List Transformer)
    (old new : Transformer) :
    SessionM.updateRecord i n block ts old new t = SessionM.updateRecord i n block ts old new s := by
  have hprocedure : t.procedure i = s.procedure i := h.query_eq (·.procedure i) fun _ _ _ => rfl
  have hpending : t.pendingStates = s.pendingStates := h.query_eq (·.pendingStates) fun _ _ _ => rfl
  have hequations : t.equations = s.equations := h.query_eq (·.equations) fun _ _ _ => rfl
  simp only [SessionM.updateRecord, satisfied, Transformer.serial, h.holding_eq, hprocedure, hpending,
    hequations, h.store.serial_eq]

end Alike

end Session

/-! ## Operations

A step of the comparison is only claimed as long as the smaller store has room.  The larger one then has
room as well.  Once the smaller store is full the two may part, and nothing is said from there on.
-/

namespace SessionM

open Session

variable {α : Type} {r r' : Run} {i n : Nat}

/-- **The same answer over a larger store.** -/
abbrev InStep (x : SessionM α) (r r' : Run) : Prop :=
  Lockstep (fun r => r.session.store.overflowed = false)
    (fun r r' => r.session.Alike r'.session) x x r r'

lemma inspect_inStep {query : Session → Except Fault α}
    (h : r.session.Alike r'.session → query r'.session = query r.session) :
    InStep (inspect query) r r' := by
  intro a r₁ hx ho
  obtain ⟨hquery, rfl⟩ := inspect_eq_ok hx
  exact ⟨ho, fun halike => ⟨r', by simp only [inspect, h halike, hquery], halike⟩⟩

/-- A question about anything but the store and its size and the limit. -/
lemma query_inStep {query : Session → Except Fault α}
    (h : ∀ o store, query (r.session.resize o store) = query r.session) :
    InStep (inspect query) r r' :=
  inspect_inStep fun halike => halike.query_eq query fun o store _ => h o store

lemma change_inStep {f : Session → Session} (hf : Blind f) : InStep (change f) r r' := by
  intro _ r₁ hx ho
  cases hx
  refine ⟨?_, fun halike => ⟨_, rfl, halike.change hf⟩⟩
  show r.session.store.overflowed = false
  rw [← hf.store r.session]
  exact ho

lemma report_inStep (event : Event) : InStep (report event) r r' := by
  intro _ r₁ hx ho
  cases hx
  exact ⟨ho, fun halike => ⟨_, rfl, halike⟩⟩

lemma onStore_inStep {x : DiagramM α}
    (h : DiagramM.Mirrored x x r.session.store r'.session.store) : InStep (onStore x) r r' := by
  intro a r₁ hx ho
  simp only [onStore] at hx
  split at hx
  · next b store hstore =>
      cases hx
      obtain ⟨hroom, hmirror⟩ := h a store hstore ho
      refine ⟨hroom, fun halike => ?_⟩
      obtain ⟨store', hstore', htwin⟩ := hmirror halike.store
      have hx' : onStore x r' = .ok a (afterStore r' r'.session.store.overflowed store') := by
        simp only [onStore, hstore']
        rfl
      obtain ⟨o, heq⟩ := halike.same
      refine ⟨_, hx', htwin, o, ?_⟩
      show { r'.session with store := store' } = _
      rw [heq]
      rfl
  · cases hx

/-! ### Computing a transformer

The only operations that see the store.  For an edge one needs that its target exists, hence that the
session is intact and the edge one of the program.
-/

lemma labelTransformer_inStep (h : r.session.Intact) (label : String) (modality : Modality) :
    InStep (labelTransformer label modality) r r' := by
  refine .bind (query_inStep fun _ _ => by cases modality <;> rfl) fun found r₁ r₁' hx => ?_
  obtain ⟨-, rfl⟩ := inspect_eq_ok hx
  split
  · exact .pure _
  · refine .bind (report_inStep _) fun _ r₂ r₂' hx => ?_
    cases hx
    refine .bind (query_inStep fun _ _ => rfl) fun e r₃ r₃' hx => ?_
    obtain ⟨-, rfl⟩ := inspect_eq_ok hx
    refine .bind (onStore_inStep (Transformer.ofEdge_mirrored h.store label modality))
      fun t r₄ r₄' _ => ?_
    refine .bind (change_inStep ?_) fun _ _ _ _ => .pure _
    intro s o store
    cases modality <;> rfl

lemma edgeTransformer_inStep (h : r.session.Intact) (edge : Edge) :
    InStep (edgeTransformer edge) r r' := by
  simp only [edgeTransformer]
  split
  · exact query_inStep fun _ _ => rfl
  · exact labelTransformer_inStep h edge.label edge.modality

lemma alongEdge_inStep (h : r.session.Intact) {edge : Edge}
    (hedge : edge ∈ r.session.program.leaving i n) : InStep (alongEdge i edge) r r' := by
  refine .bind (edgeTransformer_inStep h edge) fun step r₁ r₁' hx => ?_
  obtain ⟨hext, hstep, -⟩ := (edgeTransformer_spec h hedge).post_of_ok hx
  refine .bind (query_inStep fun _ _ => rfl)
    fun target r₂ r₂' hx => ?_
  obtain ⟨htarget, rfl⟩ := inspect_eq_ok hx
  obtain ⟨u, hu⟩ := hext.intact.exists_target (hext.program ▸ hedge)
  obtain rfl : u = target := Except.ok.inj ((transformer_ok hu).symm.trans htarget)
  exact onStore_inStep (Transformer.compose_mirrored hext.intact.store
    (hext.intact.stepTransformer?_lives hstep) (hext.intact.lives _ _ _ hu))

lemma candidate_inStep (h : r.session.Intact) (hi : r.session.program.isInner i n = true) :
    InStep (candidate i n) r r' := by
  obtain ⟨q, hq, hn, -⟩ := Program.exists_of_isInner hi
  obtain ⟨block, hblock⟩ := h.exists_block
  refine .bind (query_inStep fun _ _ => rfl) fun q' r₀ r₀' hx => ?_
  obtain ⟨hq', rfl⟩ := inspect_eq_ok hx
  obtain rfl : q = q' := Except.ok.inj ((procedure_ok hq).symm.trans hq')
  rw [← Program.leaving_eq hq]
  refine .bind (.mapM (fun r₁ : Run => r₀.session.Extends r₁.session) _ (.refl h)
    (fun edge hedge r₁ _ hext => alongEdge_inStep hext.intact (hext.program ▸ hedge))
    fun edge hedge r₁ hext => (alongEdge_spec hext.intact (hext.program ▸ hedge)).mono
      fun _ _ hx => hext.trans hx.1) fun ts r₁ r₁' hx => ?_
  obtain ⟨hext, hts, -⟩ := (mapM_alongEdge_spec h i n).post_of_ok hx
  refine .bind (query_inStep fun _ _ => rfl) fun old r₂ r₂' hx => ?_
  obtain ⟨hold, rfl⟩ := inspect_eq_ok hx
  obtain ⟨t, ht⟩ := hext.intact.exists_transformer (hext.program ▸ hq) hn
  obtain rfl : t = old := Except.ok.inj ((transformer_ok ht).symm.trans hold)
  refine .bind (query_inStep fun _ _ => rfl) fun e r₃ r₃' hx => ?_
  obtain ⟨he, rfl⟩ := inspect_eq_ok hx
  cases he
  refine .bind (query_inStep fun _ _ => rfl) fun vars r₄ r₄' hx => ?_
  obtain ⟨hvars, rfl⟩ := inspect_eq_ok hx
  have hblock₁ : r₄.session.equations.blocks[r₄.session.block]? = some block := by
    rw [hext.equations, hext.block]
    exact hblock
  obtain rfl : block.vars = vars := Except.ok.inj ((blockVars_ok hblock₁).symm.trans hvars)
  refine .bind (onStore_inStep (Transformer.update_mirrored hext.intact.store
    (hext.intact.lives _ _ _ ht) (fun u hu => ?_)
    (Transformer.readable_block hext.intact.equations hblock₁)))
    fun _ _ _ _ => .pure _
  obtain ⟨_, -, hedge⟩ := exists_of_mem_right hts hu
  exact hedge.1

/-! ### Storing a transformer

None of these looks at the store, apart from the record, which writes transformers down.  Twin stores write
the same texts.
-/

lemma markReaders_inStep : InStep (markReaders i n) r r' := by
  refine .bind (query_inStep fun _ _ => rfl) fun q r₁ r₁' _ => ?_
  refine .bind (change_inStep (blind_markAll i _)) fun _ r₂ r₂' _ => ?_
  split
  · exact change_inStep fun s => blind_markMany (fun a : Nat × Nat => a.1) (fun a => [a.2])
      (s.program.callSites q.name) s
  · exact .pure ()

lemma replace_inStep (old new : Transformer) : InStep (replace i n old new) r r' := by
  simp only [replace]
  split
  · exact .bind (change_inStep fun _ _ _ => rfl) fun _ _ _ _ => markReaders_inStep
  · exact .pure ()

lemma advance_inStep : InStep advance r r' := by
  refine .bind (change_inStep fun _ _ _ => rfl) fun _ r₁ r₁' _ => ?_
  refine .bind (query_inStep fun _ _ => rfl) fun _ r₂ r₂' _ => .bind (report_inStep _) fun _ _ _ _ => ?_
  exact change_inStep fun s => blind_markMany (fun a : Procedure × Nat => a.2) (fun a => a.1.innerStates)
    s.program.procedures.toList.zipIdx s

lemma advanceIfIdle_inStep : InStep advanceIfIdle r r' := by
  refine .bind (query_inStep fun _ _ => rfl) fun idle r₁ r₁' _ => ?_
  split
  · exact advance_inStep
  · exact .pure ()

lemma countUpdate_inStep (state : Nat) (procedure : String) (block : Nat) (changed : Bool) :
    InStep (countUpdate state procedure block changed) r r' :=
  .bind (change_inStep fun _ _ _ => rfl) fun _ _ _ _ =>
    .bind (query_inStep fun _ _ => rfl) fun _ _ _ _ => report_inStep _

lemma record_inStep (block : Nat) (ts : List Transformer) (old new : Transformer) :
    InStep (record i n block ts old new) r r' := by
  refine .bind (query_inStep fun _ _ => rfl) fun recording r₁ r₁' _ => ?_
  split
  · exact .pure ()
  · exact .bind (inspect_inStep fun halike => halike.updateRecord_eq block ts old new)
      fun _ _ _ _ => change_inStep fun _ _ _ => rfl

lemma install_inStep (q : Procedure) (ts : List Transformer) (old new : Transformer) :
    InStep (install q i n ts old new) r r' :=
  .bind (query_inStep fun _ _ => rfl) fun block _ _ _ =>
    .bind (countUpdate_inStep _ _ _ _) fun _ _ _ _ => .bind (replace_inStep old new) fun _ _ _ _ =>
      .bind advanceIfIdle_inStep fun _ _ _ _ => record_inStep block ts old new

/-! ### Updates, steps and runs

A step ends with a look at the store.  While the smaller store has room both looks agree; if it is full the
comparison is void.
-/

lemma update_inStep (h : r.session.Intact) (hi : r.session.program.isInner i n = true) :
    InStep (update i n) r r' := by
  refine .bind (query_inStep fun _ _ => rfl) fun q r₁ r₁' hx => ?_
  obtain ⟨-, rfl⟩ := inspect_eq_ok hx
  split
  · exact .throw _ _
  · refine .bind (candidate_inStep h hi) fun found r₂ r₂' _ => ?_
    refine .bind (query_inStep fun _ _ => rfl) fun old _ _ _ => ?_
    exact install_inStep q found.1 old found.2

lemma check_inStep : InStep check r r' := by
  intro _ r₁ hx ho
  rw [check_eq] at hx
  split at hx
  · cases hx
  · cases hx
    exact ⟨ho, fun halike => ⟨r', by rw [check_eq, halike.store.right_room]; rfl, halike⟩⟩

/-- **A step goes the same way over a larger store.** -/
theorem step_inStep (h : r.session.Intact) : InStep step r r' := by
  refine .bind (query_inStep fun _ _ => rfl) fun next r₁ r₁' hx => ?_
  obtain ⟨hnext, rfl⟩ := inspect_eq_ok hx
  have hnext := Except.ok.inj hnext
  cases next with
  | none =>
      refine .bind (query_inStep fun _ _ => rfl) fun last r₂ r₂' _ => ?_
      split
      · exact .pure false
      · exact .bind advance_inStep fun _ _ _ _ => .pure true
  | some found =>
      obtain ⟨i, n, rest⟩ := found
      refine .bind (query_inStep fun _ _ => rfl) fun budget r₂ r₂' hx => ?_
      obtain ⟨-, rfl⟩ := inspect_eq_ok hx
      cases budget with
      | some budget =>
          exact .bind (query_inStep fun _ _ => rfl) fun _ _ _ _ => .bind (report_inStep _)
            fun _ _ _ _ => .bind (change_inStep fun _ _ _ => rfl) fun _ _ _ _ => .throw _ _
      | none =>
          refine .bind (change_inStep fun _ _ _ => rfl) fun _ r₃ r₃' hx => ?_
          cases hx
          exact .bind (update_inStep (intact_of_next? h hnext)
            (h.inner i n (pending_of_next? hnext).1)) fun _ _ _ _ =>
              .bind check_inStep fun _ _ _ _ => .pure true

/-- **A run goes the same way over a larger store**, by induction on the steps it may take. -/
theorem runWithin_inStep : ∀ (steps : Nat) {r r' : Run}, r.session.Intact →
    InStep (runWithin steps) r r'
  | 0, _, _, _ => .throw _ _
  | steps + 1, r, r', h => by
      refine .bind (step_inStep h) fun more r₁ r₁' hx => ?_
      have htrans := step_transition h
      simp only [answer, after, hx] at htrans
      split
      · exact runWithin_inStep steps (htrans.evolves h).intact
      · exact .bind (query_inStep fun _ _ => rfl) fun _ _ _ _ => report_inStep _

lemma run_inStep (h : r.session.Intact) : InStep run r r' := by
  refine .bind (query_inStep fun _ _ => rfl) fun bound r₁ r₁' hx => ?_
  obtain ⟨-, rfl⟩ := inspect_eq_ok hx
  exact runWithin_inStep bound h

end SessionM

/-! ## Whole runs

A run that succeeds has looked at its store after every update, and a full store stays full, so the smaller
store has had room all along.
-/

namespace Session

variable {system : System} {p : Program} {o : Options} {f : Formula} {e : EquationSystem}
  {j j' k : Journal} {s : Session} {r : Run} {bits : Nat}

lemma startProgress_mirrored (order : PickOrder) (q : Procedure) {s t : Store} (hs : s.Sound) :
    DiagramM.Mirrored (startProgress order e q) (startProgress order e q) s t := by
  refine .map_pure (.map_pure (.mapM Store.Sound _ hs (fun n _ s₁ _ h₁ => ?_) fun n _ s₁ h₁ => ?_))
  · split
    · exact Transformer.identity_mirrored h₁
    · exact .pure _
  · split
    · exact (Transformer.identity_spec h₁).mono fun _ _ h => h.1.sound
    · exact .pure h₁

/-- **A session that begins** would also begin over a larger store and with another limit, and alike. -/
lemma begin_alike (hbits : Store.validBits o.storageBits = true)
    (hbits' : Store.validBits bits = true) (hle : o.storageBits ≤ bits) (limit : Nat)
    (h : begin p o f j = .ok s j') :
    ∃ t j'', begin p { o with storageBits := bits, witnessLimit := limit } f j = .ok t j'' ∧
      s.Alike t := by
  obtain ⟨e, prs, store, hformula, hprs, hroom, rfl⟩ := begin_eq_ok_iff.1 ⟨j', h⟩
  have hmirrored : DiagramM.Mirrored (p.procedures.toList.mapM (startProgress o.pick e))
      (p.procedures.toList.mapM (startProgress o.pick e)) (.empty o.storageBits) (.empty bits) :=
    .mapM Store.Sound _ (Store.empty_sound hbits) (fun q _ _ _ hs => startProgress_mirrored o.pick q hs)
      fun q _ _ hs => (startProgress_spec o.pick hs).mono fun _ _ h => h.1.sound
  obtain ⟨store', hprs', htwin⟩ :=
    (hmirrored prs store hprs hroom).2 (Store.empty_twin hbits hbits' hle)
  obtain ⟨j'', hbegin⟩ := (begin_eq_ok_iff (o := { o with storageBits := bits, witnessLimit := limit })
    (j := j)).2 ⟨e, prs, store', hformula, hprs', htwin.right_room, rfl⟩
  exact ⟨_, j'', hbegin, htwin, { o with storageBits := bits, witnessLimit := limit }, rfl⟩

lemma begin_resized (hbits : Store.validBits o.storageBits = true)
    (hbits' : Store.validBits bits = true) (hle : o.storageBits ≤ bits)
    (h : begin p o f j = .ok s j') :
    ∃ t j'', begin p { o with storageBits := bits } f j = .ok t j'' ∧ s.Alike t :=
  begin_alike hbits hbits' hle o.witnessLimit h

/-- **The size of the store does not count.**  If a session runs to its end over a store of some size, it
does so over every larger one, with the same verdict, the same number of updates, the same number of nodes
and the same serial transformers at all states. -/
theorem run_resized (hsystem : Program.ofSystem system = .ok p)
    (hbits : Store.validBits o.storageBits = true) (hbits' : Store.validBits bits = true)
    (hle : o.storageBits ≤ bits) (hbegin : begin p o f j = .ok s j')
    (hrun : SessionM.run ⟨s, k⟩ = .ok () r) :
    ∃ s' j'', begin p { o with storageBits := bits } f j = .ok s' j'' ∧
      ∀ k', ∃ r', SessionM.run ⟨s', k'⟩ = .ok () r' ∧
        (∃ sat, r.session.isSat = .ok sat ∧ r'.session.isSat = .ok sat) ∧
        r'.session.updates = r.session.updates ∧ r'.session.store.size = r.session.store.size ∧
        ∀ (i : Nat) (q : Procedure) (n : Nat), p.procedures[i]? = some q → n < q.size →
          ∃ texts, r.session.serialAt i n = .ok texts ∧ r'.session.serialAt i n = .ok texts := by
  have hp := Program.wellFormed_of_system hsystem
  have hontrack := (begin_spec hp hbits hbegin).1
  have hconverged := converged_of_run hp hbits hbegin hrun
  obtain ⟨s', j'', hbegin', halike⟩ := begin_resized hbits hbits' hle hbegin
  refine ⟨s', j'', hbegin', fun k' => ?_⟩
  have hlock : SessionM.InStep SessionM.run ⟨s, k⟩ ⟨s', k'⟩ := SessionM.run_inStep hontrack.toIntact
  obtain ⟨r', hrun', halike'⟩ := (hlock () r hrun hconverged.room).2 halike
  refine ⟨r', hrun', ?_, halike'.query_eq (·.updates) fun _ _ _ => rfl, halike'.store.size_eq,
    fun i q n hq hn => ?_⟩
  · obtain ⟨sat, hsat⟩ := hconverged.exists_isSat
    exact ⟨sat, hsat, halike'.isSat_eq.trans hsat⟩
  · obtain ⟨texts, htexts, -⟩ := hconverged.serialAt_eq hconverged rfl hq hn
    exact ⟨texts, htexts, halike'.serialAt_eq.trans htexts⟩

theorem run_resized_callingProgram : ∃ s j r,
    begin callingProgram { storageBits := 4 } alwaysPossibly #[] = .ok s j ∧
    SessionM.run ⟨s, j⟩ = .ok () r ∧
    ∃ s' j', begin callingProgram { storageBits := 17 } alwaysPossibly #[] = .ok s' j' ∧
      ∀ k', ∃ r', SessionM.run ⟨s', k'⟩ = .ok () r' ∧
        (∃ sat, r.session.isSat = .ok sat ∧ r'.session.isSat = .ok sat) ∧
        r'.session.updates = r.session.updates ∧ r'.session.store.size = r.session.store.size ∧
        ∀ (i : Nat) (q : Procedure) (n : Nat), callingProgram.procedures[i]? = some q → n < q.size →
          ∃ texts, r.session.serialAt i n = .ok texts ∧ r'.session.serialAt i n = .ok texts := by
  have hends : afterRun callingProgram { storageBits := 4 } alwaysPossibly (pure true)
      = some true := by decide +kernel
  obtain ⟨s, j, r, -, hbegin, hrun, -⟩ := exists_of_afterRun hends
  have hsystem : Program.ofSystem { main := "main", procedures := [("main", callingGraph)] }
      = .ok callingProgram := rfl
  have hbits : Store.validBits 17 = true := rfl
  have hle : ({ storageBits := 4 } : Options).storageBits ≤ 17 := by decide
  have hresized := run_resized hsystem rfl hbits hle hbegin hrun
  exact ⟨s, j, r, hbegin, hrun, hresized⟩

end Session

end ModalCalls
