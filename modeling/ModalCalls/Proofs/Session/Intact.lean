import Mathlib
import ModalCalls.Session.Step
import ModalCalls.Proofs.Iteration.Extremal
import ModalCalls.Proofs.Transformer.Meaning

/-!
# What a session keeps

`Session.Intact` is what every operation on a session finds and leaves: the store is sound, every state has
a transformer that lives in it, and only states that can be updated are left to update.  It holds after
errors too.

While nothing was lost, a session stands for a snapshot of an iteration (`Session.snapshot`).  A state
that is not to be updated is moreover *ready* (`Session.Ready`): computing its transformer again meets only
functions that have handles, so it needs no room.

Computing a transformer changes the store and the transformers of edge labels, and nothing else
(`Session.Extends`).
-/

namespace ModalCalls

/-! ## Rules for session operations

Proof rules for the operations that all others are made of: a question that has an answer, a change, a
report, and a computation on the store.
-/

namespace SessionM

variable {α : Type} {r : Run} {post : α → Run → Prop}

lemma inspect_of_ok {query : Session → Except Fault α} {a : α} (hquery : query r.session = .ok a) :
    inspect query r = .ok a r := by
  simp only [inspect, hquery]

lemma inspect_ok {query : Session → Except Fault α} {a : α} (hquery : query r.session = .ok a)
    (h : post a r) : Yields (inspect query) r post :=
  .of_eq_ok (inspect_of_ok hquery) h

lemma inspect_eq_ok {query : Session → Except Fault α} {a : α} {r' : Run}
    (h : inspect query r = .ok a r') : query r.session = .ok a ∧ r' = r := by
  simp only [inspect] at h
  split at h
  · next b hb =>
      cases h
      exact ⟨hb, rfl⟩
  · cases h

lemma change_ok {f : Session → Session} {post : Unit → Run → Prop}
    (h : post () { r with session := f r.session }) : Yields (change f) r post :=
  ⟨(), _, rfl, h⟩

lemma report_ok {event : Event} {post : Unit → Run → Prop}
    (h : post () { r with journal := r.journal.push event }) : Yields (report event) r post :=
  ⟨(), _, rfl, h⟩

/-- A computation on the store leaves the rest of the session alone. -/
lemma onStore_ok {x : DiagramM α}
    (h : Yields x r.session.store fun a store =>
      ∀ journal, post a ⟨{ r.session with store := store }, journal⟩) :
    Yields (onStore x) r post := by
  obtain ⟨a, store, hx, hpost⟩ := h
  refine ⟨a, _, ?_, hpost (afterStore r r.session.store.overflowed store).journal⟩
  simp only [onStore, hx]
  rfl

end SessionM

namespace Session

variable {s s' s'' : Session} {i n j m : Nat} {q : Procedure} {t : Transformer}

/-! ## The view of a session

A session holds vectors of handles.  What it stands for is an assignment, read off the meanings of the
handles, and with the block and the states that are left it is the snapshot of an iteration.  The invariant
says that there is a vector at every state, that its handles live in the store, and that only states which
can be updated are marked.  It does not ask for room: where the store is full, nothing is claimed of
meanings, but everything can still be looked up.
-/

/-- State `n` of procedure `i` is left to update. -/
def Pending (s : Session) (i n : Nat) : Prop :=
  ∃ pr : Progress, s.progress[i]? = some pr ∧ n ∈ pr.pending.queue

/-- The assignment of a session: what the transformers of its states mean. -/
def value (s : Session) : Assignment := fun i n =>
  match s.transformer? i n with
  | some t => t.summary s.store
  | none => fun v x => x v

/-- The stage of an iteration that a session stands for. -/
def snapshot (s : Session) : Snapshot :=
  ⟨s.block, s.value, s.Pending⟩

/-- **What every operation on a session finds and leaves.** -/
structure Intact (s : Session) : Prop where
  program : s.program.WellFormed
  equations : s.equations.WellFormed
  store : s.store.Sound
  /-- Every state has a transformer. -/
  states : ∀ (i : Nat) (q : Procedure), s.program.procedures[i]? = some q →
    ∃ pr : Progress, s.progress[i]? = some pr ∧ pr.transformers.size = q.size
  lives : ∀ i n t, s.transformer? i n = some t → t.Lives s.store s.equations.size
  /-- The transformers of edge labels that are noted are those of the labels. -/
  labels : ∀ modality label t, (s.edgeTransformers modality).lookup label = some t →
    t.Lives s.store s.equations.size ∧
    (s.store.overflowed = false → t.summary s.store = s.equations.edgeSummary label modality)
  /-- Final states are never to be updated. -/
  inner : ∀ i n, s.Pending i n → s.program.isInner i n = true
  block : s.block < s.equations.blocks.size

lemma value_of_transformer? (h : s.transformer? i n = some t) : s.value i n = t.summary s.store := by
  simp only [value, h]

lemma transformer_ok (h : s.transformer? i n = some t) : s.transformer i n = .ok t := by
  simp only [transformer, h]

lemma procedure_ok (h : s.program.procedures[i]? = some q) : s.procedure i = .ok q := by
  simp only [procedure, h]

namespace Intact

/-- A state has a transformer. -/
lemma exists_transformer (h : s.Intact) (hq : s.program.procedures[i]? = some q)
    (hn : n < q.size) : ∃ t, s.transformer? i n = some t := by
  obtain ⟨pr, hpr, hsize⟩ := h.states i q hq
  refine ⟨pr.transformers[n], ?_⟩
  simp only [transformer?, hpr, Option.bind_eq_bind, Option.bind_some]
  exact Array.getElem?_eq_getElem (hsize ▸ hn)

/-- What holds at a state can be read off. -/
lemma exists_holding (h : s.Intact) (hq : s.program.procedures[i]? = some q) (hn : n < q.size) :
    ∃ t vars, s.transformer? i n = some t ∧ s.holding i n = .ok vars ∧ ∀ v, vars.contains v
      = (decide (v < s.equations.size) && t.summary s.store v (s.deadlock.getD · false)) := by
  obtain ⟨t, ht⟩ := h.exists_transformer hq hn
  obtain ⟨vars, hvars, hcontains⟩ :=
    Transformer.evaluate_ok h.store.toShaped (h.lives i n t ht) s.deadlock
  refine ⟨t, vars, ht, ?_, hcontains⟩
  simp only [holding, transformer_ok ht]
  exact hvars

/-- The verdict can be read off. -/
lemma exists_isSat (h : s.Intact) : ∃ sat, s.isSat = .ok sat := by
  obtain ⟨q, hq⟩ := h.program.main
  obtain ⟨-, vars, -, hholding, -⟩ := h.exists_holding hq (h.program.initial_lt _ q hq)
  refine ⟨vars.contains 0, ?_⟩
  simp only [isSat, procedure_ok hq]
  show (s.holding s.program.main q.initial >>= fun vars => .ok (vars.contains 0)) = _
  rw [hholding]
  rfl

/-- The target of an edge has a transformer. -/
lemma exists_target (h : s.Intact) {edge : Edge} (hedge : edge ∈ s.program.leaving i n) :
    ∃ t, s.transformer? i edge.target = some t := by
  simp only [Program.leaving] at hedge
  split at hedge
  · next q hq => exact h.exists_transformer hq (ProcessGraph.target_lt hedge)
  · simp at hedge

end Intact

/-! ## Growth

Computing a transformer changes the store and the steps of edges that are known, and nothing else.
Transformers of states keep their handles and these keep their meanings, and so does the snapshot.
-/

/-- **What computing a transformer does to a session**: the store grows and edge labels are noted. -/
structure Extends (s s' : Session) : Prop where
  same : s' = { s with store := s'.store, must := s'.must, may := s'.may }
  intact : s'.Intact
  grows : s.store.Grows s'.store
  labels : ∀ modality label t, (s.edgeTransformers modality).lookup label = some t →
    (s'.edgeTransformers modality).lookup label = some t

namespace Extends

lemma refl (h : s.Intact) : s.Extends s :=
  ⟨rfl, h, .refl h.store, fun _ _ _ ht => ht⟩

lemma trans (h : s.Extends s') (h' : s'.Extends s'') : s.Extends s'' where
  same := by rw [h'.same, h.same]
  intact := h'.intact
  grows := h.grows.trans h'.grows
  labels modality label t ht := h'.labels modality label t (h.labels modality label t ht)

lemma program (h : s.Extends s') : s'.program = s.program := by rw [h.same]

lemma equations (h : s.Extends s') : s'.equations = s.equations := by rw [h.same]

lemma progress (h : s.Extends s') : s'.progress = s.progress := by rw [h.same]

lemma block (h : s.Extends s') : s'.block = s.block := by rw [h.same]

lemma transformer? (h : s.Extends s') (i n : Nat) : s'.transformer? i n = s.transformer? i n := by
  simp only [Session.transformer?, h.progress]

/-- What transformers mean does not change. -/
lemma value (h : s.Extends s') (hs : s.Intact) : s'.value = s.value := by
  funext i n
  simp only [Session.value, h.transformer?]
  split
  · next t ht => exact Transformer.summary_grows hs.store.toShaped (hs.lives i n t ht) h.grows
  · rfl

lemma pending (h : s.Extends s') : s'.Pending = s.Pending := by
  simp only [funext_iff, Pending, h.progress, implies_true]

end Extends

/-! ## Readiness

A state that is not left to update has been updated, and what it reads has not changed since.  So whatever
another update of it would build was built already.  This is kept as a statement about functions that have
handles, since that is all that is needed for the store not to grow.
-/

/-- The transformer of the step that an edge takes, if it was built already. -/
def stepTransformer? (s : Session) (edge : Edge) : Option Transformer :=
  if edge.isCall then (s.program.entryOf? edge.label).bind fun start => s.transformer? start.1 start.2
  else (s.edgeTransformers edge.modality).lookup edge.label

/-- The transformer `t` along an edge of procedure `i` was built already, together with everything that
building it meets. -/
structure EdgeReady (s : Session) (i : Nat) (edge : Edge) (t : Transformer) : Prop where
  lives : t.Lives s.store s.equations.size
  composed : ∃ step target, s.stepTransformer? edge = some step ∧
    s.transformer? i edge.target = some target ∧ Transformer.Prepared s.store step target ∧
    t.summary s.store = fun v x => step.summary s.store v fun w => target.summary s.store w x

/-- **Everything that an update of a state meets was built already.** -/
def Ready (s : Session) (i n : Nat) : Prop :=
  ∃ ts : List Transformer, List.Forall₂ (s.EdgeReady i) (s.program.leaving i n) ts ∧
    ∀ vars, s.blockVars = .ok vars → ∀ v ∈ vars, ∀ op, s.equations.operator? v = some op →
      Transformer.Gathered s.store ts v op

lemma Intact.stepTransformer?_lives (h : s.Intact) {edge : Edge} {step : Transformer}
    (hstep : s.stepTransformer? edge = some step) : step.Lives s.store s.equations.size := by
  simp only [stepTransformer?] at hstep
  split at hstep
  · obtain ⟨start, -, ht⟩ := Option.bind_eq_some_iff.1 hstep
    exact h.lives _ _ _ ht
  · exact (h.labels _ _ _ hstep).1

/-- The transformer of a step means the step. -/
lemma Intact.stepSummary_eq (h : s.Intact) (ho : s.store.overflowed = false) {edge : Edge}
    {step : Transformer} (hstep : s.stepTransformer? edge = some step) :
    s.program.stepSummary s.equations s.value edge = step.summary s.store := by
  simp only [stepTransformer?] at hstep
  simp only [Program.stepSummary]
  split at hstep
  · next hcall =>
      obtain ⟨start, hentry, ht⟩ := Option.bind_eq_some_iff.1 hstep
      simp only [hcall, if_true, hentry, value_of_transformer? ht]
  · next hcall =>
      simp only [hcall, Bool.false_eq_true, if_false]
      exact ((h.labels _ _ _ hstep).2 ho).symm

lemma EdgeReady.summary_eq (h : s.Intact) (ho : s.store.overflowed = false) {edge : Edge}
    (hready : s.EdgeReady i edge t) :
    t.summary s.store = s.program.alongSummary s.equations s.value i edge := by
  obtain ⟨step, target, hstep, htarget, -, hsummary⟩ := hready.composed
  funext v x
  simp only [hsummary, Program.alongSummary, h.stepSummary_eq ho hstep,
    value_of_transformer? htarget]

/-- Only one transformer is ready along an edge. -/
lemma EdgeReady.unique (h : s.Intact) : Relator.RightUnique (s.EdgeReady i) := by
  intro edge t u ht hu
  obtain ⟨step, target, hstep, htarget, -, hsummary⟩ := ht.composed
  obtain ⟨step', target', hstep', htarget', -, hsummary'⟩ := hu.composed
  obtain rfl := Option.some.inj (hstep.symm.trans hstep')
  obtain rfl := Option.some.inj (htarget.symm.trans htarget')
  exact Transformer.eq_of_summary_eq h.store.toShaped ht.lives hu.lives fun v _ => by
    rw [hsummary, hsummary']

lemma Extends.stepTransformer? (h : s.Extends s') {edge : Edge} {step : Transformer}
    (hstep : s.stepTransformer? edge = some step) : s'.stepTransformer? edge = some step := by
  simp only [Session.stepTransformer?] at hstep ⊢
  split
  · next hcall =>
      rw [if_pos hcall] at hstep
      simp only [h.program, h.transformer?]
      exact hstep
  · next hcall =>
      rw [if_neg hcall] at hstep
      exact h.labels _ _ _ hstep

/-- What was built stays. -/
lemma EdgeReady.of_extends (hs : s.Intact) (h : s.Extends s') {edge : Edge}
    (hready : s.EdgeReady i edge t) : s'.EdgeReady i edge t := by
  obtain ⟨step, target, hstep, htarget, hprepared, hsummary⟩ := hready.composed
  have hshaped := hs.store.toShaped
  have hstep_lives := hs.stepTransformer?_lives hstep
  have htarget_lives := hs.lives _ _ _ htarget
  refine ⟨h.equations ▸ hready.lives.grows h.grows, step, target, ?_, ?_, ?_, ?_⟩
  · exact h.stepTransformer? hstep
  · rw [h.transformer?]
    exact htarget
  · exact hprepared.grows hshaped htarget_lives h.grows
  · rw [Transformer.summary_grows hshaped hready.lives h.grows,
      Transformer.summary_grows hshaped hstep_lives h.grows,
      Transformer.summary_grows hshaped htarget_lives h.grows, hsummary]

lemma Ready.of_extends (hs : s.Intact) (h : s.Extends s') (hready : s.Ready i n) :
    s'.Ready i n := by
  obtain ⟨ts, hedges, hgath⟩ := hready
  have hlives : ∀ t ∈ ts, t.Lives s.store s.equations.size := by
    intro t ht
    obtain ⟨edge, -, hedge⟩ := exists_of_mem_right hedges ht
    exact hedge.lives
  refine ⟨ts, ?_, fun vars hvars v hv op hop => ?_⟩
  · rw [h.program]
    exact hedges.imp fun _ _ he => he.of_extends hs h
  · have hvars' : s.blockVars = .ok vars := by
      simpa only [blockVars, h.equations, h.block] using hvars
    exact (hgath vars hvars' v hv op (h.equations ▸ hop)).grows hs.store.toShaped hlives h.grows

end Session

end ModalCalls
