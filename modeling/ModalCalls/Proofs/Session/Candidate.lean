import Mathlib
import ModalCalls.Proofs.Session.Intact

/-!
# Computing a transformer again

The new transformer of a state is built from the transformers along its edges.  As long as the store has
room, what is built is the next stage of the state in an iteration, and the state is ready afterwards
(`SessionM.candidate_spec`).  For a state that is ready and satisfies its equations the transformer that is
built is the one that is stored, and no room is needed (`SessionM.candidate_stable`).
-/

namespace ModalCalls

namespace Session

variable {s : Session}

/-- A session whose store has grown. -/
lemma Extends.setStore (h : s.Intact) {store : Store} (hg : s.store.Grows store) :
    s.Extends { s with store := store } where
  same := rfl
  intact :=
    { program := h.program
      equations := h.equations
      store := hg.sound
      states := h.states
      lives := fun i n t ht => (h.lives i n t ht).grows hg
      labels := fun modality label t ht => by
        obtain ⟨hlives, hsummary⟩ := h.labels modality label t (by cases modality <;> exact ht)
        refine ⟨hlives.grows hg, fun ho => ?_⟩
        rw [← hsummary (hg.overflowed ho)]
        exact Transformer.summary_grows h.store.toShaped hlives hg
      inner := h.inner
      block := h.block }
  grows := hg
  labels modality label t ht := by cases modality <;> exact ht

lemma edgeTransformers_addEdgeTransformer (modality modality' : Modality) (label : String)
    (t : Transformer) : (s.addEdgeTransformer modality label t).edgeTransformers modality'
      = s.edgeTransformers modality' ++ if modality' = modality then [(label, t)] else [] := by
  cases modality <;> cases modality' <;> simp [addEdgeTransformer, edgeTransformers]

/-- A label that is noted under its transformer. -/
lemma Extends.addEdgeTransformer (h : s.Intact) (modality : Modality) (label : String)
    {t : Transformer} (hnew : (s.edgeTransformers modality).lookup label = none)
    (hlives : t.Lives s.store s.equations.size)
    (hsummary : s.store.overflowed = false →
      t.summary s.store = s.equations.edgeSummary label modality) :
    s.Extends (s.addEdgeTransformer modality label t) ∧
      ((s.addEdgeTransformer modality label t).edgeTransformers modality).lookup label = some t := by
  have hsame : s.addEdgeTransformer modality label t
      = { s with must := (s.addEdgeTransformer modality label t).must,
                 may := (s.addEdgeTransformer modality label t).may } := by
    cases modality <;> rfl
  refine ⟨⟨?_, ?_, ?_, ?_⟩, ?_⟩
  · cases modality <;> rfl
  · rw [hsame]
    refine ⟨h.program, h.equations, h.store, h.states, h.lives, fun modality' label' t' ht' => ?_,
      h.inner, h.block⟩
    have hlookup : ((s.addEdgeTransformer modality label t).edgeTransformers modality').lookup label'
        = some t' := by
      rw [hsame]
      exact ht'
    rw [edgeTransformers_addEdgeTransformer, List.lookup_append] at hlookup
    cases hold : (s.edgeTransformers modality').lookup label' with
    | some t₀ =>
        rw [hold, Option.some_or] at hlookup
        obtain rfl := Option.some.inj hlookup
        exact h.labels modality' label' t₀ hold
    | none =>
        rw [hold, Option.none_or] at hlookup
        split at hlookup
        · next hmod =>
            subst hmod
            simp only [List.lookup] at hlookup
            split at hlookup
            · next heq =>
                obtain rfl := Option.some.inj hlookup
                rw [beq_iff_eq] at heq
                subst heq
                exact ⟨hlives, hsummary⟩
            · cases hlookup
        · cases hlookup
  · cases modality <;> exact .refl h.store
  · intro modality' label' t' ht'
    rw [edgeTransformers_addEdgeTransformer, List.lookup_append, ht', Option.some_or]
  · rw [edgeTransformers_addEdgeTransformer, List.lookup_append, hnew, if_pos rfl]
    simp

/-- **What computing the new transformer of a state leaves**: a transformer that differs from the old one
in the entries of the block at most, and that is the next stage of the state if the store has room. -/
structure Computed (s : Session) (i n : Nat) (block : Block) (along : List Transformer)
    (new : Transformer) (s' : Session) : Prop where
  extended : s.Extends s'
  lives : new.Lives s'.store s'.equations.size
  along_lives : ∀ t ∈ along, t.Lives s'.store s'.equations.size
  others : ∀ t, s'.transformer? i n = some t → ∀ v, v ∉ block.vars →
    new.entries[v]? = t.entries[v]?
  renews : s'.store.overflowed = false → ∀ t, s'.transformer? i n = some t →
    Transformer.Renews s'.store s'.equations (s.program.atomsAt i n) along block.vars t new
  renewed : s'.store.overflowed = false →
    new.summary s'.store = s.snapshot.renewed s.program s.equations i n block.vars
  ready : s'.store.overflowed = false → s'.Ready i n

end Session

namespace SessionM

open Session

variable {r : Run} {i n : Nat} {q : Procedure} {edge : Edge}

/-! ## Steps of edges

The transformer of a label is built when it is first needed and is noted then.  From that time on it is
looked up, and an edge with this label adds no node.  The step of a call is the transformer where its callee
begins.
-/

/-- The transformer of a label is noted afterwards; if it was noted before, nothing changes. -/
lemma labelTransformer_spec (h : r.session.Intact) (label : String) (modality : Modality) :
    Yields (labelTransformer label modality) r fun t r' =>
      r.session.Extends r'.session ∧
      (r'.session.edgeTransformers modality).lookup label = some t ∧
      (((r.session.edgeTransformers modality).lookup label).isSome →
        r.session.store.Quiet r'.session.store) := by
  refine Yields.bind (inspect_ok rfl ?_)
  cases hlookup : (r.session.edgeTransformers modality).lookup label with
  | some t => exact Yields.pure ⟨.refl h, hlookup, fun _ => .refl _⟩
  | none =>
      refine Yields.bind (report_ok (Yields.bind (inspect_ok rfl (Yields.bind (onStore_ok ?_)))))
      refine (Transformer.ofEdge_spec h.store label modality).mono ?_
      rintro t store ⟨hg, hlives, hsummary⟩ journal
      refine Yields.bind (change_ok (Yields.pure ?_))
      have hext := Extends.setStore h hg
      obtain ⟨hext', hlookup'⟩ := Extends.addEdgeTransformer hext.intact modality label (t := t)
        (by cases modality <;> exact hlookup) hlives hsummary
      exact ⟨hext.trans hext', hlookup', fun hsome => by simp at hsome⟩

/-- The transformer of an edge is that of its step. -/
lemma edgeTransformer_spec (h : r.session.Intact) (hedge : edge ∈ r.session.program.leaving i n) :
    Yields (edgeTransformer edge) r fun t r' =>
      r.session.Extends r'.session ∧ r'.session.stepTransformer? edge = some t ∧
      ((r.session.stepTransformer? edge).isSome → r.session.store.Quiet r'.session.store) := by
  simp only [edgeTransformer, stepTransformer?]
  split
  · next hcall =>
      obtain ⟨j, q, hentry, hq⟩ := h.program.entryOf? hedge hcall
      obtain ⟨t, ht⟩ := h.exists_transformer hq (h.program.initial_lt j q hq)
      obtain ⟨hindex, -⟩ := Program.entryOf?_eq_some.1 hentry
      refine inspect_ok (a := t) ?_ ⟨.refl h, ?_, fun _ => .refl _⟩
      · simp only [hindex, procedure_ok hq]
        exact transformer_ok ht
      · rw [hentry, Option.bind_some]
        exact ht
  · exact labelTransformer_spec h edge.label edge.modality

/-! ## Along the edges

The step of an edge is composed with the transformer of its target, which may add nodes.  What is left of
this work is `EdgeReady`: everything that the composition would build has a handle.  The edges of a state
are gone through in order.  What was ready at one edge is still so after the others, because stores only
grow.
-/

/-- The transformer along an edge is ready afterwards; if it was ready before, no room is needed. -/
lemma alongEdge_spec (h : r.session.Intact) (hedge : edge ∈ r.session.program.leaving i n) :
    Yields (alongEdge i edge) r fun t r' =>
      r.session.Extends r'.session ∧ t.Lives r'.session.store r'.session.equations.size ∧
      (r'.session.store.overflowed = false → r'.session.EdgeReady i edge t) ∧
      (r.session.store.overflowed = false → (∃ t₀, r.session.EdgeReady i edge t₀) →
        r.session.store.Quiet r'.session.store) := by
  refine Yields.bind ((edgeTransformer_spec h hedge).mono ?_)
  rintro step r₁ ⟨hext, hstep, hquiet⟩
  obtain ⟨target, htarget⟩ := hext.intact.exists_target (hext.program ▸ hedge)
  refine Yields.bind (inspect_ok (transformer_ok htarget) (onStore_ok ?_))
  have hstep_lives := hext.intact.stepTransformer?_lives hstep
  have htarget_lives := hext.intact.lives _ _ _ htarget
  refine (Transformer.compose_spec hext.intact.store hstep_lives htarget_lives).mono ?_
  rintro t store ⟨hg, hlives, hmean, hquiet'⟩ journal
  have hext' := Extends.setStore hext.intact hg
  have hshaped := hext.intact.store.toShaped
  refine ⟨hext.trans hext', hlives, fun ho => ⟨hlives, step, target, hext'.stepTransformer? hstep,
    htarget, (hmean ho).2, ?_⟩, ?_⟩
  · rw [(hmean ho).1, Transformer.summary_grows hshaped hstep_lives hg,
      Transformer.summary_grows hshaped htarget_lives hg]
  · rintro ho ⟨t₀, hready⟩
    obtain ⟨step₀, target₀, hstep₀, htarget₀, hprepared, -⟩ := hready.composed
    have hstep_eq : step₀ = step :=
      Option.some.inj ((hext.stepTransformer? hstep₀).symm.trans hstep)
    have htarget_eq : target₀ = target := by
      rw [hext.transformer?, htarget₀] at htarget
      exact Option.some.inj htarget
    subst hstep_eq htarget_eq
    have hq := hquiet (by rw [hstep₀]; rfl)
    exact hq.trans (hquiet' (hq.overflowed.trans ho)
      (hprepared.grows h.store.toShaped (h.lives _ _ _ htarget₀) hext.grows))

/-- The transformers along the edges of a state. -/
lemma mapM_alongEdge_spec (h : r.session.Intact) (i n : Nat) :
    Yields ((r.session.program.leaving i n).mapM (alongEdge i)) r fun ts r' =>
      r.session.Extends r'.session ∧
      List.Forall₂ (fun edge t => t.Lives r'.session.store r'.session.equations.size ∧
        (r'.session.store.overflowed = false → r'.session.EdgeReady i edge t))
        (r.session.program.leaving i n) ts ∧
      (r.session.store.overflowed = false →
        (∀ edge ∈ r.session.program.leaving i n, ∃ t, r.session.EdgeReady i edge t) →
        r.session.store.Quiet r'.session.store) := by
  -- what is ready stays ready, so a later edge finds what the first one found
  let ready : Run → Prop := fun r' => r'.session.store.overflowed = false ∧
    ∀ edge ∈ r.session.program.leaving i n, ∃ t, r'.session.EdgeReady i edge t
  have hall := Yields.mapM (f := alongEdge i) (fun r' => r.session.Extends r'.session)
    (fun r₁ r₂ => r₁.session.Extends r₂.session ∧
      (ready r₁ → r₁.session.store.Quiet r₂.session.store ∧ ready r₂))
    (fun edge t r' => t.Lives r'.session.store r'.session.equations.size ∧
      (r'.session.store.overflowed = false → r'.session.EdgeReady i edge t))
    (fun r₁ h₁ => ⟨.refl h₁.intact, fun hr => ⟨.refl _, hr⟩⟩)
    (fun r₁ r₂ r₃ h h' => ⟨h.1.trans h'.1, fun hr =>
      ⟨(h.2 hr).1.trans (h'.2 (h.2 hr).2).1, (h'.2 (h.2 hr).2).2⟩⟩)
    (fun edge t r₁ r₂ h₁ ht h => ⟨h.1.equations ▸ ht.1.grows h.1.grows, fun ho =>
      (ht.2 (h.1.grows.overflowed ho)).of_extends h₁.intact h.1⟩)
    (r.session.program.leaving i n) r (.refl h) ?_
  · refine hall.mono ?_
    rintro ts r' ⟨hext, ⟨-, hquiet⟩, hts⟩
    exact ⟨hext, hts, fun ho hready => (hquiet ⟨ho, hready⟩).1⟩
  · intro edge hedge r₁ h₁ _
    refine (alongEdge_spec h₁.intact (h₁.program ▸ hedge)).mono ?_
    rintro t r₂ ⟨hext, hlives, hready, hquiet⟩
    refine ⟨h₁.trans hext, ⟨hext, fun hr => ?_⟩, hlives, hready⟩
    have hq := hquiet hr.1 (hr.2 edge hedge)
    exact ⟨hq, hq.overflowed.trans hr.1, fun edge' hedge' =>
      (hr.2 edge' hedge').imp fun _ ht => ht.of_extends h₁.intact hext⟩

/-! ## The new transformer

Two things are proved of the same computation.  In general its result means the next stage of the state.  If
everything was built before and the equations of the block hold already, the result is the stored
transformer, handle for handle, since equal meanings have equal handles; and then no node is added.  The
monadic part is the same for both and is taken out as a rule.
-/

variable {block : Block}

lemma blockVars_ok (hblock : r.session.equations.blocks[r.session.block]? = some block) :
    r.session.blockVars = .ok block.vars := by
  simp only [blockVars, hblock]

/-- The summaries of the transformers along the edges of a state. -/
lemma map_summary_eq {s : Session} (h : s.Intact) (ho : s.store.overflowed = false)
    {edges : List Edge} {ts : List Transformer} (hts : List.Forall₂ (s.EdgeReady i) edges ts) :
    ts.map (·.summary s.store) = edges.map (s.program.alongSummary s.equations s.value i) := by
  induction hts with
  | nil => rfl
  | cons hedge _ ih => rw [List.map_cons, List.map_cons, hedge.summary_eq h ho, ih]

/-- A candidate is the update of the stored transformer, after the transformers along the edges. -/
lemma candidate_rule (hq : r.session.program.procedures[i]? = some q) (block : Block)
    {post : List Transformer × Transformer → Run → Prop}
    (h : Yields ((r.session.program.leaving i n).mapM (alongEdge i)) r fun ts r₁ =>
      ∃ t, r₁.session.transformer? i n = some t ∧
        r₁.session.equations.blocks[r₁.session.block]? = some block ∧
        Yields (t.update r₁.session.equations (r.session.program.atomsAt i n) ts block.vars)
          r₁.session.store fun new store =>
            ∀ journal, post (ts, new) ⟨{ r₁.session with store := store }, journal⟩) :
    Yields (candidate i n) r post := by
  refine Yields.bind (inspect_ok (procedure_ok hq) (Yields.bind ?_))
  rw [← Program.leaving_eq hq]
  refine h.mono ?_
  rintro ts r₁ ⟨t, ht, hblock, hupdate⟩
  rw [Program.atomsAt_eq hq] at hupdate
  refine Yields.bind (inspect_ok (transformer_ok ht) (Yields.bind (inspect_ok rfl (Yields.bind
    (inspect_ok (blockVars_ok hblock) (Yields.bind (onStore_ok ?_)))))))
  exact hupdate.mono fun new store hpost journal => Yields.pure (hpost journal)

/-- **The new transformer of a state** is the next stage of the state, and the state is ready
afterwards. -/
lemma candidate_spec (h : r.session.Intact) (hi : r.session.program.isInner i n = true)
    (hblock : r.session.equations.blocks[r.session.block]? = some block) :
    Yields (candidate i n) r fun c r' => r.session.Computed i n block c.1 c.2 r'.session := by
  obtain ⟨q, hq, hn, -⟩ := Program.exists_of_isInner hi
  refine candidate_rule hq block ((mapM_alongEdge_spec h i n).mono ?_)
  rintro ts r₁ ⟨hext, hts, -⟩
  obtain ⟨t, ht⟩ := hext.intact.exists_transformer (hext.program ▸ hq) hn
  have hblock₁ : r₁.session.equations.blocks[r₁.session.block]? = some block := by
    rw [hext.equations, hext.block]
    exact hblock
  have hlives : ∀ u ∈ ts, u.Lives r₁.session.store r₁.session.equations.size := fun u hu =>
    let ⟨_, _, hedge⟩ := exists_of_mem_right hts hu
    hedge.1
  refine ⟨t, ht, hblock₁, (Transformer.update_spec hext.intact.store (hext.intact.lives _ _ _ ht)
    hlives (Transformer.readable_block hext.intact.equations hblock₁)).mono ?_⟩
  rintro new store ⟨hg, hnew, hothers, hmean⟩ journal
  have hext' := Extends.setStore hext.intact hg
  have hedges : store.overflowed = false →
      List.Forall₂ (r₁.session.EdgeReady i) (r.session.program.leaving i n) ts :=
    fun ho => hts.imp fun _ _ hedge => hedge.2 (hg.overflowed ho)
  refine ⟨hext.trans hext', hnew, fun u hu => (hlives u hu).grows hg, fun t' ht' v hv => ?_,
    fun ho t' ht' => ?_, fun ho => ?_, fun ho => ⟨ts, ?_, ?_⟩⟩
  · obtain rfl := Option.some.inj (ht.symm.trans ht')
    exact hothers v hv
  · obtain rfl := Option.some.inj (ht.symm.trans ht')
    have hshaped := hext.intact.store.toShaped
    have hold := hext.intact.lives _ _ _ ht
    refine ⟨hold.grows hg, fun u hu => (hlives u hu).grows hg, hnew, ?_, (hmean ho).2⟩
    rw [Transformer.summary_grows hshaped hold hg, Transformer.map_summary_grows hshaped hlives hg]
    exact (hmean ho).1
  · rw [(hmean ho).1, map_summary_eq hext.intact (hg.overflowed ho) (hedges ho),
      ← value_of_transformer? ht, hext.value h, hext.program, hext.equations]
    rfl
  · rw [hext'.program, hext.program]
    exact (hedges ho).imp fun _ _ hedge => hedge.of_extends hext.intact hext'
  · intro vars hvars v hv op hop
    obtain rfl : block.vars = vars := by
      simpa only [blockVars, hblock₁, Except.ok.injEq] using hvars
    exact (hmean ho).2 v hv op hop

/-- **A state that is ready and satisfies its equations** has the transformer that would be stored, and
no room is needed to find that out. -/
lemma candidate_stable (h : r.session.Intact) (ho : r.session.store.overflowed = false)
    (hi : r.session.program.isInner i n = true)
    (hblock : r.session.equations.blocks[r.session.block]? = some block)
    (hready : r.session.Ready i n)
    (hsolved : ∀ v ∈ block.vars, r.session.value i n v = r.session.program.nodeRhs
      r.session.equations r.session.value i n (r.session.value i n) v) :
    Yields (candidate i n) r fun c r' =>
      r.session.Extends r'.session ∧ r.session.transformer? i n = some c.2 ∧
      r.session.store.Quiet r'.session.store := by
  obtain ⟨q, hq, hn, -⟩ := Program.exists_of_isInner hi
  obtain ⟨ts₀, hts₀, -⟩ := id hready
  refine candidate_rule hq block ((mapM_alongEdge_spec h i n).mono ?_)
  rintro ts r₁ ⟨hext, hts, hquiet⟩
  have hq₁ := hquiet ho fun edge hedge =>
    let ⟨t, _, ht⟩ := exists_of_mem_left hts₀ hedge
    ⟨t, ht⟩
  have ho₁ : r₁.session.store.overflowed = false := hq₁.overflowed.trans ho
  have hedges : List.Forall₂ (r₁.session.EdgeReady i) (r.session.program.leaving i n) ts :=
    hts.imp fun _ _ hedge => hedge.2 ho₁
  obtain ⟨t, ht⟩ := h.exists_transformer hq hn
  have ht₁ : r₁.session.transformer? i n = some t := by rw [hext.transformer?, ht]
  have hblock₁ : r₁.session.equations.blocks[r₁.session.block]? = some block := by
    rw [hext.equations, hext.block]
    exact hblock
  have hlives := hext.intact.lives _ _ _ ht₁
  have hrenews : Transformer.Renews r₁.session.store r₁.session.equations
      (r.session.program.atomsAt i n) ts block.vars t t := by
    refine ⟨hlives, fun u hu => ?_, hlives, ?_, ?_⟩
    · obtain ⟨edge, -, hedge⟩ := exists_of_mem_right hts hu
      exact hedge.1
    · refine ((EquationSystem.pass_eq_self_iff (hext.intact.equations.nodup hblock₁) _).2
        fun v hv => ?_).symm
      rw [map_summary_eq hext.intact ho₁ hedges, ← value_of_transformer? ht₁, hext.value h,
        hext.program, hext.equations]
      exact (hsolved v hv).symm
    · -- the transformers along the edges are the ones that were built before
      obtain ⟨ts', hts', hgath⟩ := hready.of_extends h hext
      rw [hext.program] at hts'
      obtain rfl := (EdgeReady.unique hext.intact).forall₂ hts' hedges
      exact fun v hv op hop => hgath block.vars (blockVars_ok hblock₁) v hv op hop
  refine ⟨t, ht₁, hblock₁, (hrenews.update_again hext.intact.store ho₁
    (Transformer.readable_block hext.intact.equations hblock₁)
    (hext.intact.equations.nodup hblock₁)).mono ?_⟩
  rintro new store ⟨rfl, hg, hq₂⟩ journal
  exact ⟨hext.trans (Extends.setStore hext.intact hg), ht, hq₁.trans hq₂⟩

end SessionM

end ModalCalls
