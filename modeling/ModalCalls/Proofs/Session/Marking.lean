import Mathlib
import ModalCalls.Proofs.Process.Listing
import ModalCalls.Proofs.Session.Intact
import ModalCalls.Proofs.WorkSet

/-!
# Marking states

The operations of a session that leave the store alone: they mark states to be updated, replace the
transformer of a state, and go on with the next block.

* `SessionM.replace_spec` — a transformer that differs from the old one takes its place, and every state
  that reads it is marked.
* `SessionM.advanceIfIdle_spec` — the next block is begun only when no state is left, and with all states
  marked.
-/

namespace ModalCalls

lemma Program.exists_of_indexOf? {p : Program} {name : String} {i : Nat}
    (h : p.indexOf? name = some i) : ∃ q, p.procedures[i]? = some q ∧ q.name = name := by
  obtain ⟨hlt, hname, -⟩ := Array.findIdx?_eq_some_iff_getElem.1 h
  exact ⟨p.procedures[i], Array.getElem?_eq_getElem hlt, by simpa using hname⟩

/-- The call sites of a procedure are the states with an edge that calls it. -/
lemma Program.mem_callSites {p : Program} {callee : String} {a : Nat × Nat} :
    a ∈ p.callSites callee ↔
      ∃ edge ∈ p.leaving a.1 a.2, edge.isCall = true ∧ edge.label = callee := by
  rw [(p.enumerates_callSites callee).mem_iff]
  constructor
  · rintro ⟨q, hq, edge, hedge, hcall⟩
    exact ⟨edge, by rwa [leaving_eq hq], hcall⟩
  · rintro ⟨edge, hedge, hcall⟩
    simp only [leaving] at hedge
    split at hedge
    · next q hq => exact ⟨q, hq, edge, hedge, hcall⟩
    · simp at hedge

/-- A state with an edge can be updated. -/
lemma Program.WellFormed.isInner_of_edge {p : Program} (hp : p.WellFormed) {i n : Nat} {edge : Edge}
    (hedge : edge ∈ p.leaving i n) : p.isInner i n = true := by
  simp only [leaving] at hedge
  split at hedge
  · next q hq =>
      refine (isInner_iff hq).2 ⟨ProcessGraph.source_lt hedge, ?_⟩
      rintro rfl
      rw [hp.final_edges i q hq] at hedge
      simp at hedge
  · simp at hedge

namespace Session

variable {s s' s'' : Session} {i n j m : Nat} {t : Transformer}

/-! ## Sessions over one store

Marking and replacing leave the store as it is, hence all handles and what they mean.  What may differ is
which transformer a state has, what is left to do, and the notes.
-/

/-- The two sessions differ in their progress only. -/
def Shares (s s' : Session) : Prop :=
  s' = { s with progress := s'.progress, block := s'.block, updates := s'.updates,
                recording := s'.recording }

namespace Shares

lemma trans (h : s.Shares s') (h' : s'.Shares s'') : s.Shares s'' := by
  unfold Shares at *
  rw [h', h]

lemma program (h : s.Shares s') : s'.program = s.program := by rw [h]

lemma equations (h : s.Shares s') : s'.equations = s.equations := by rw [h]

lemma options (h : s.Shares s') : s'.options = s.options := by rw [h]

lemma deadlock (h : s.Shares s') : s'.deadlock = s.deadlock := by rw [h]

lemma store (h : s.Shares s') : s'.store = s.store := by rw [h]

lemma edgeTransformers (h : s.Shares s') : s'.edgeTransformers = s.edgeTransformers := by
  funext modality
  cases modality <;> (simp only [Session.edgeTransformers]; rw [h])

end Shares

lemma Intact.of_shares (h : s.Intact) (hs : s.Shares s')
    (hstates : ∀ (i : Nat) (pr : Progress), s.progress[i]? = some pr →
      ∃ pr' : Progress, s'.progress[i]? = some pr' ∧ pr'.transformers.size = pr.transformers.size)
    (hlives : ∀ i n t, s'.transformer? i n = some t → t.Lives s.store s.equations.size)
    (hinner : ∀ i n, s'.Pending i n → s.program.isInner i n = true)
    (hblock : s'.block < s.equations.blocks.size) : s'.Intact where
  program := hs.program ▸ h.program
  equations := hs.equations ▸ h.equations
  store := hs.store ▸ h.store
  states i q hq := by
    obtain ⟨pr, hpr, hsize⟩ := h.states i q (hs.program ▸ hq)
    obtain ⟨pr', hpr', hsize'⟩ := hstates i pr hpr
    exact ⟨pr', hpr', hsize'.trans hsize⟩
  lives i n t ht := by
    rw [hs.store, hs.equations]
    exact hlives i n t ht
  labels modality label t ht := by
    rw [hs.store, hs.equations]
    exact h.labels modality label t (hs.edgeTransformers ▸ ht)
  inner i n hn := hs.program ▸ hinner i n hn
  block := hs.equations ▸ hblock

/-- A state stays ready if nothing that it reads has changed. -/
lemma Ready.of_shares (hs : s.Shares s') (hblock : s'.block = s.block)
    (hreads : ∀ j m, s.program.Reads i n j m → s'.transformer? j m = s.transformer? j m)
    (h : s.Ready i n) : s'.Ready i n := by
  obtain ⟨ts, hedges, hgath⟩ := h
  refine ⟨ts, ?_, fun vars hvars v hv op hop => ?_⟩
  · rw [hs.program]
    -- the edges are those of the state, so both ends of the composition are read
    have hall : List.Forall₂ (fun edge t => edge ∈ s.program.leaving i n ∧ s.EdgeReady i edge t)
        (s.program.leaving i n) ts := (List.forall₂_and_left _ _).2 ⟨fun _ h => h, hedges⟩
    refine hall.imp fun edge t ⟨hedge, hlives, step, target, hstep, htarget, hprep, hsum⟩ => ?_
    refine ⟨?_, step, target, ?_, ?_, ?_, ?_⟩
    · rw [hs.store, hs.equations]
      exact hlives
    · rw [← hstep]
      simp only [stepTransformer?, hs.program, hs.edgeTransformers]
      split
      · next hcall =>
          cases hentry : s.program.entryOf? edge.label with
          | none => rfl
          | some start => exact hreads _ _ ⟨edge, hedge, Or.inr ⟨hcall, hentry⟩⟩
      · rfl
    · rw [← htarget]
      exact hreads _ _ ⟨edge, hedge, Or.inl ⟨rfl, rfl⟩⟩
    · rw [hs.store]
      exact hprep
    · rw [hs.store]
      exact hsum
  · have hvars' : s.blockVars = .ok vars := by
      simpa only [blockVars, hs.equations, hblock] using hvars
    rw [hs.store]
    exact hgath vars hvars' v hv op (hs.equations ▸ hop)

/-! ## Marking

Several operations change nothing but which states are left to update.  Their consequences are drawn once,
for `Rearranged`: all transformers stay where they are, the stage is the same up to what is left to do, and
what was ready is ready.
-/

/-- Nothing was done but to change which states are left to update. -/
structure Rearranged (s s' : Session) : Prop where
  shares : s.Shares s'
  block : s'.block = s.block
  transformers : ∀ i : Nat, (s'.progress[i]?).map Progress.transformers
    = (s.progress[i]?).map Progress.transformers

namespace Rearranged

lemma refl (s : Session) : s.Rearranged s :=
  ⟨rfl, rfl, fun _ => rfl⟩

lemma trans (h : s.Rearranged s') (h' : s'.Rearranged s'') : s.Rearranged s'' where
  shares := h.shares.trans h'.shares
  block := h'.block.trans h.block
  transformers i := (h'.transformers i).trans (h.transformers i)

lemma transformer? (h : s.Rearranged s') : s'.transformer? = s.transformer? := by
  funext i n
  have hi := h.transformers i
  simp only [Session.transformer?]
  cases hpr : s.progress[i]? <;> cases hpr' : s'.progress[i]? <;> simp_all

lemma value (h : s.Rearranged s') : s'.value = s.value := by
  funext i n
  simp only [Session.value, h.transformer?, h.shares.store]

lemma intact (h : s.Rearranged s') (hs : s.Intact)
    (hinner : ∀ i n, s'.Pending i n → s.program.isInner i n = true) : s'.Intact := by
  refine hs.of_shares h.shares (fun i pr hpr => ?_) (fun i n t ht => ?_) hinner ?_
  · have hi := h.transformers i
    rw [hpr, Option.map_some] at hi
    obtain ⟨pr', hpr', hsame⟩ := Option.map_eq_some_iff.1 hi
    exact ⟨pr', hpr', congrArg Array.size hsame⟩
  · rw [h.transformer?] at ht
    exact hs.lives i n t ht
  · rw [h.block]
    exact hs.block

lemma ready (h : s.Rearranged s') (hready : s.Ready i n) : s'.Ready i n :=
  hready.of_shares h.shares h.block fun _ _ _ => by rw [h.transformer?]

end Rearranged

/-- Nothing was done but to count and to record. -/
structure Noted (s s' : Session) : Prop extends s.Rearranged s' where
  progress : s'.progress = s.progress

lemma Noted.of_eq (h : s' = { s with updates := s'.updates, recording := s'.recording }) :
    s.Noted s' := by
  rw [h]
  exact ⟨⟨rfl, rfl, fun _ => rfl⟩, rfl⟩

lemma Noted.pending (h : s.Noted s') : s'.Pending = s.Pending := by
  simp only [funext_iff, Pending, h.progress, implies_true]

lemma Noted.intact (h : s.Noted s') (hs : s.Intact) : s'.Intact :=
  h.toRearranged.intact hs fun i n hn => hs.inner i n (h.pending ▸ hn)

/-- States were marked, and nothing else was done. -/
structure Marked (s s' : Session) : Prop extends s.Rearranged s' where
  keeps : ∀ j m, s.Pending j m → s'.Pending j m
  inner : ∀ j m, s'.Pending j m → s.Pending j m ∨ s.program.isInner j m = true

namespace Marked

lemma refl (s : Session) : s.Marked s :=
  ⟨.refl s, fun _ _ h => h, fun _ _ h => Or.inl h⟩

lemma trans (h : s.Marked s') (h' : s'.Marked s'') : s.Marked s'' where
  toRearranged := h.toRearranged.trans h'.toRearranged
  keeps j m hjm := h'.keeps j m (h.keeps j m hjm)
  inner j m hjm := by
    rcases h'.inner j m hjm with hold | hnew
    · exact h.inner j m hold
    · exact Or.inr (h.shares.program ▸ hnew)

lemma intact (h : s.Marked s') (hs : s.Intact) : s'.Intact :=
  h.toRearranged.intact hs fun i n hn => (h.inner i n hn).elim (hs.inner i n) id

end Marked

lemma markAll_marked {states : List Nat} (hinner : ∀ n ∈ states, s.program.isInner i n = true) :
    s.Marked (s.markAll i states) where
  shares := rfl
  block := rfl
  transformers j := by
    simp only [markAll, Array.getElem?_modify]
    split
    · rw [Option.map_map]
      rfl
    · rfl
  keeps j m := by
    rintro ⟨pr, hpr, hm⟩
    simp only [Pending, markAll, Array.getElem?_modify]
    split
    · exact ⟨_, by rw [hpr]; rfl, (WorkSet.mem_queue_insertMany states _).2 (Or.inr hm)⟩
    · exact ⟨pr, hpr, hm⟩
  inner j m := by
    rintro ⟨pr, hpr, hm⟩
    simp only [markAll, Array.getElem?_modify] at hpr
    split at hpr
    · next hij =>
        subst hij
        obtain ⟨pr₀, hpr₀, rfl⟩ := Option.map_eq_some_iff.1 hpr
        rcases (WorkSet.mem_queue_insertMany states _).1 hm with hm | hm
        · exact Or.inr (hinner m hm)
        · exact Or.inl ⟨pr₀, hpr₀, hm⟩
    · exact Or.inl ⟨pr, hpr, hm⟩

lemma pending_markAll {states : List Nat} {pr : Progress} (hpr : s.progress[i]? = some pr)
    (hn : n ∈ states) : (s.markAll i states).Pending i n := by
  refine ⟨{ pr with pending := pr.pending.insertMany states }, ?_,
    (WorkSet.mem_queue_insertMany states _).2 (Or.inl hn)⟩
  simp only [markAll, Array.getElem?_modify, if_pos, hpr, Option.map_some]

/-- Marking one list of states after another. -/
lemma foldl_markAll_marked {α : Type} (place : α → Nat) (states : α → List Nat) :
    ∀ (l : List α) {s : Session}, s.Intact →
      (∀ a ∈ l, ∀ n ∈ states a, s.program.isInner (place a) n = true) →
      s.Marked (l.foldl (fun s a => s.markAll (place a) (states a)) s) ∧
      ∀ a ∈ l, ∀ n ∈ states a,
        (l.foldl (fun s a => s.markAll (place a) (states a)) s).Pending (place a) n
  | [], s, _, _ => ⟨.refl s, by simp⟩
  | a :: l, s, hs, hinner => by
      have hfirst := markAll_marked (hinner a (by simp))
      obtain ⟨hrest, hall⟩ := foldl_markAll_marked place states l (hfirst.intact hs) fun b hb n hn =>
        hfirst.shares.program ▸ hinner b (by simp [hb]) n hn
      refine ⟨hfirst.trans hrest, fun b hb n hn => ?_⟩
      rcases List.mem_cons.1 hb with rfl | hb
      · obtain ⟨q, hq, -⟩ := Program.exists_of_isInner (hinner b (by simp) n hn)
        obtain ⟨pr, hpr, -⟩ := hs.states _ q hq
        exact hrest.keeps _ _ (pending_markAll hpr hn)
      · exact hall b hb n hn

/-- Taking a state out leaves the others. -/
lemma setPending_rearranged (w : WorkSet) : s.Rearranged (s.setPending i w) where
  shares := rfl
  block := rfl
  transformers j := by
    simp only [setPending, Array.getElem?_modify]
    split
    · rw [Option.map_map]
      rfl
    · rfl

lemma pending_setPending {w : WorkSet} {pr : Progress} (hpr : s.progress[i]? = some pr) :
    (s.setPending i w).Pending j m ↔ if j = i then m ∈ w.queue else s.Pending j m := by
  simp only [Pending, setPending, Array.getElem?_modify]
  by_cases hij : i = j
  · subst hij
    simp [hpr]
  · simp [hij, Ne.symm hij]

lemma isIdle_iff : s.isIdle = true ↔ ∀ i n, ¬ s.Pending i n := by
  simp only [isIdle, Array.all_eq_true, WorkSet.isEmpty, List.isEmpty_iff]
  constructor
  · rintro h i n ⟨pr, hpr, hn⟩
    obtain ⟨hi, rfl⟩ := Array.getElem?_eq_some_iff.1 hpr
    rw [h i hi] at hn
    simp at hn
  · intro h i hi
    exact List.eq_nil_iff_forall_not_mem.2 fun n hn =>
      h i n ⟨s.progress[i], Array.getElem?_eq_getElem hi, hn⟩

/-! ## Replacing a transformer

The transformer of a state is read by its predecessors and, if a procedure begins there, where the procedure
is called.  A reader that is not marked would never see the change.  So the statement to get right is that
these are all the readers; the rest is bookkeeping.
-/

/-- The transformer of a state was replaced.  If the new one differs, its readers are marked. -/
structure Replaced (s : Session) (i n : Nat) (old new : Transformer) (s' : Session) : Prop where
  shares : s.Shares s'
  intact : s'.Intact
  block : s'.block = s.block
  transformer? : ∀ j m, s'.transformer? j m
    = if j = i ∧ m = n then some new else s.transformer? j m
  keeps : ∀ j m, s.Pending j m → s'.Pending j m
  marks : new ≠ old → ∀ j m, s.program.Reads j m i n → s'.Pending j m
  same : new = old → s'.Pending = s.Pending

lemma transformer?_setTransformer (h : s.transformer? i n = some t) (u : Transformer) (j m : Nat) :
    (s.setTransformer i n u).transformer? j m
      = if j = i ∧ m = n then some u else s.transformer? j m := by
  simp only [transformer?, Option.bind_eq_bind, Option.bind_eq_some_iff] at h
  obtain ⟨pr, hpr, hn⟩ := h
  have hlt := (Array.getElem?_eq_some_iff.1 hn).1
  simp only [transformer?, setTransformer, Array.getElem?_modify, Option.bind_eq_bind]
  by_cases hij : i = j
  · subst hij
    by_cases hnm : n = m
    · subst hnm
      simp [hpr, hlt]
    · simp [hpr, hnm, Ne.symm hnm]
  · simp [hij, Ne.symm hij]

lemma pending_setTransformer (u : Transformer) :
    (s.setTransformer i n u).Pending j m ↔ s.Pending j m := by
  simp only [Pending, setTransformer, Array.getElem?_modify]
  split
  · constructor
    · rintro ⟨pr, hpr, hm⟩
      obtain ⟨pr₀, hpr₀, rfl⟩ := Option.map_eq_some_iff.1 hpr
      exact ⟨pr₀, hpr₀, hm⟩
    · rintro ⟨pr, hpr, hm⟩
      refine ⟨{ pr with transformers := pr.transformers.setIfInBounds n u }, ?_, hm⟩
      rw [hpr, Option.map_some]
  · exact Iff.rfl

lemma Intact.setTransformer (h : s.Intact) (ht : s.transformer? i n = some t) {u : Transformer}
    (hu : u.Lives s.store s.equations.size) : (s.setTransformer i n u).Intact := by
  refine h.of_shares rfl (fun j pr hpr => ?_) (fun j m t' ht' => ?_) (fun j m hm => ?_) h.block
  · simp only [Session.setTransformer, Array.getElem?_modify, hpr]
    split
    · exact ⟨_, rfl, Array.size_setIfInBounds⟩
    · exact ⟨pr, rfl, rfl⟩
  · rw [transformer?_setTransformer ht] at ht'
    split at ht'
    · obtain rfl := Option.some.inj ht'
      exact hu
    · exact h.lives j m t' ht'
  · exact h.inner j m ((pending_setTransformer u).1 hm)

/-- What a session means after a replacement. -/
lemma Replaced.value {old new : Transformer} (h : s.Replaced i n old new s') :
    s'.value = s.value.set i n (new.summary s.store) := by
  funext j m
  simp only [Session.value, h.transformer?, Assignment.set, h.shares.store]
  by_cases hjm : j = i ∧ m = n
  · simp only [if_pos hjm]
  · simp only [if_neg hjm]

/-! ## Going on with the next block

Nothing is known yet of the equations of the next block, so all states are marked, in all procedures.
Transformers stay as they are: their entries for the block were the start values all along.
-/

/-- The next outer block was begun. -/
structure Advanced (s s' : Session) : Prop where
  shares : s.Shares s'
  intact : s'.Intact
  block : s'.block = s.block - 1
  transformer? : s'.transformer? = s.transformer?
  all : ∀ j m, s.program.isInner j m = true → s'.Pending j m

lemma Advanced.value (h : s.Advanced s') : s'.value = s.value := by
  funext j m
  simp only [Session.value, h.transformer?, h.shares.store]

end Session

namespace SessionM

open Session

variable {r : Run} {i n : Nat} {q : Procedure}

/-- Everything that reads the transformer of a state is marked. -/
lemma markReaders_spec (h : r.session.Intact) (hq : r.session.program.procedures[i]? = some q) :
    Yields (markReaders i n) r fun _ r' =>
      r.session.Marked r'.session ∧
      ∀ j m, r.session.program.Reads j m i n → r'.session.Pending j m := by
  have hpred : ∀ m ∈ q.graph.predecessors n, r.session.program.isInner i m = true := by
    intro m hm
    obtain ⟨edge, hedge, -⟩ := ((q.graph.enumerates_predecessors n).mem_iff m).1 hm
    exact h.program.isInner_of_edge (Program.leaving_eq hq ▸ hedge)
  have hfirst := markAll_marked hpred
  have htargets : ∀ m edge, edge ∈ r.session.program.leaving i m → edge.target = n →
      (r.session.markAll i (q.graph.predecessors n)).Pending i m := by
    intro m edge hedge htarget
    obtain ⟨pr, hpr, -⟩ := h.states i q hq
    rw [Program.leaving_eq hq] at hedge
    exact pending_markAll hpr (((q.graph.enumerates_predecessors n).mem_iff m).2 ⟨edge, hedge, htarget⟩)
  refine Yields.bind (inspect_ok (procedure_ok hq) (Yields.bind (change_ok ?_)))
  split
  · next hinitial =>
      subst hinitial
      have hsites : ∀ a ∈ r.session.program.callSites q.name, ∀ m ∈ [a.2],
          (r.session.markAll i (q.graph.predecessors q.initial)).program.isInner a.1 m = true := by
        intro a ha m hm
        obtain ⟨edge, hedge, -⟩ := Program.mem_callSites.1 ha
        rw [List.mem_singleton.1 hm, hfirst.shares.program]
        exact h.program.isInner_of_edge hedge
      obtain ⟨hrest, hall⟩ := foldl_markAll_marked Prod.fst (fun a => [a.2])
        (r.session.program.callSites q.name) (hfirst.intact h) hsites
      refine change_ok ⟨hfirst.trans hrest, ?_⟩
      rintro j m ⟨edge, hedge, ⟨rfl, htarget⟩ | ⟨hcall, hentry⟩⟩
      · exact hrest.keeps _ _ (htargets m edge hedge htarget)
      · obtain ⟨hindex, -⟩ := Program.entryOf?_eq_some.1 hentry
        obtain ⟨q', hq', hname⟩ := Program.exists_of_indexOf? hindex
        obtain rfl := Option.some.inj (hq.symm.trans hq')
        have hsite : (j, m) ∈ r.session.program.callSites q.name :=
          Program.mem_callSites.2 ⟨edge, hedge, hcall, hname.symm⟩
        exact hall (j, m) hsite m (by simp)
  · next hinitial =>
      refine Yields.pure ⟨hfirst, ?_⟩
      rintro j m ⟨edge, hedge, ⟨rfl, htarget⟩ | ⟨hcall, hentry⟩⟩
      · exact htargets m edge hedge htarget
      · obtain ⟨-, q', hq', hn⟩ := Program.entryOf?_eq_some.1 hentry
        obtain rfl := Option.some.inj (hq.symm.trans hq')
        exact absurd hn.symm hinitial

/-- **A transformer takes the place of the old one**, and its readers are marked if it differs. -/
lemma replace_spec (h : r.session.Intact) {old new : Transformer}
    (hold : r.session.transformer? i n = some old) (hi : r.session.program.isInner i n = true)
    (hnew : new.Lives r.session.store r.session.equations.size) :
    Yields (replace i n old new) r fun _ r' => r.session.Replaced i n old new r'.session := by
  obtain ⟨q, hq, -⟩ := Program.exists_of_isInner hi
  simp only [replace]
  split
  · next hne =>
      have hset := h.setTransformer hold hnew
      have hshares : r.session.Shares (r.session.setTransformer i n new) := rfl
      refine Yields.bind (change_ok ?_)
      refine (markReaders_spec (r := ⟨r.session.setTransformer i n new, r.journal⟩) hset hq).mono ?_
      rintro _ r' ⟨hmarked, hall⟩
      refine ⟨hshares.trans hmarked.shares, hmarked.intact hset, hmarked.block, fun j m => ?_,
        fun j m hm => ?_, fun _ j m hreads => hall j m hreads, fun heq => absurd heq hne⟩
      · rw [hmarked.transformer?, transformer?_setTransformer hold]
      · exact hmarked.keeps j m ((pending_setTransformer new).2 hm)
  · next heq =>
      rw [not_not] at heq
      subst heq
      refine Yields.pure ⟨rfl, h, rfl, fun j m => ?_, fun _ _ hm => hm, fun hne => absurd rfl hne,
        fun _ => rfl⟩
      split
      · next hjm => rw [hjm.1, hjm.2, hold]
      · rfl

lemma markEverything_marked {s : Session} (h : s.Intact) : s.Marked (markEverything s) ∧
    ∀ j m, s.program.isInner j m = true → (markEverything s).Pending j m := by
  obtain ⟨hmarked, hall⟩ := foldl_markAll_marked Prod.snd
    (fun a : Procedure × Nat => a.1.innerStates) s.program.procedures.toList.zipIdx h
    fun a ha n hn => by
      rw [List.mem_zipIdx_iff_getElem?, Array.getElem?_toList] at ha
      exact (Program.mem_innerStates ha).1 hn
  refine ⟨hmarked, fun j m hjm => ?_⟩
  obtain ⟨q, hq, -⟩ := Program.exists_of_isInner hjm
  refine hall (q, j) ?_ m ((Program.mem_innerStates hq).2 hjm)
  rw [List.mem_zipIdx_iff_getElem?, Array.getElem?_toList]
  exact hq

/-- Every state is marked when the next block begins. -/
lemma advance_spec (h : r.session.Intact) :
    Yields advance r fun _ r' => r.session.Advanced r'.session := by
  refine Yields.bind (change_ok (Yields.bind (inspect_ok rfl (Yields.bind (report_ok (change_ok ?_))))))
  have hshares : r.session.Shares { r.session with block := r.session.block - 1 } := rfl
  have hblock : ({ r.session with block := r.session.block - 1 } : Session).Intact :=
    ⟨h.program, h.equations, h.store, h.states, h.lives,
      fun modality label t ht => h.labels modality label t (by cases modality <;> exact ht),
      h.inner, Nat.lt_of_le_of_lt (Nat.sub_le _ _) h.block⟩
  obtain ⟨hmarked, hall⟩ := markEverything_marked hblock
  exact ⟨hshares.trans hmarked.shares, hmarked.intact hblock, hmarked.block, hmarked.transformer?,
    hall⟩

/-- **The next block is begun when nothing is left to do**, if there is one. -/
lemma advanceIfIdle_spec (h : r.session.Intact) :
    Yields advanceIfIdle r fun _ r' =>
      r'.session = r.session ∨
      (0 < r.session.block ∧ (∀ j m, ¬ r.session.Pending j m) ∧ r.session.Advanced r'.session) := by
  refine Yields.bind (inspect_ok rfl ?_)
  split
  · next hidle =>
      simp only [Bool.and_eq_true, decide_eq_true_eq, isIdle_iff] at hidle
      exact (advance_spec h).mono fun _ _ hadv => Or.inr ⟨hidle.1, hidle.2, hadv⟩
  · exact Yields.pure (Or.inl rfl)

end SessionM

end ModalCalls
