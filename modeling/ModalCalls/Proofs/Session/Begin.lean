import Mathlib
import ModalCalls.Proofs.Session.Run

/-!
# Sessions begin on track

A new session has the start value at every state but the final ones, which have the identity, and all
states that can be updated are to be updated (`Session.begin_spec`).  What was reported before does not count
(`Session.begin_eq_ok_iff`).
-/

namespace ModalCalls

namespace Session

open Store

variable {s : Store} {e : EquationSystem} {q : Procedure}

/-! ## The first transformers

Final states begin with the identity, and all others with the start value of each block: false for a least
fixpoint, true for a greatest one.  Constants need no room, but the identity needs a node for every
variable.  So a store may be too small even to begin.
-/

/-- What the transformer of a state is at the beginning. -/
structure Fresh (s : Store) (e : EquationSystem) (q : Procedure) (n : Nat) (t : Transformer) :
    Prop where
  lives : t.Lives s e.size
  summary : s.overflowed = false → ∀ v x,
    t.summary s v x = if n ≠ q.final ∧ v < e.size then e.isMax v else x v

lemma Fresh.grows {s' : Store} {n : Nat} {t : Transformer} (hs : s.Sound) (h : Fresh s e q n t)
    (hg : s.Grows s') : Fresh s' e q n t :=
  ⟨h.lives.grows hg, fun ho v x => by
    rw [Transformer.summary_grows hs.toShaped h.lives hg, h.summary (hg.overflowed ho)]⟩

lemma startTransformers_spec (hs : s.Sound) :
    Yields (startTransformers e q) s fun ts s' =>
      s.Grows s' ∧ ts.size = q.size ∧ ∀ n t, ts[n]? = some t → Fresh s' e q n t := by
  have hall := Yields.mapM
    (f := fun n => if n = q.final then Transformer.identity e else pure (.start e)) Store.Sound
    Store.Grows (fun n t s₁ => Fresh s₁ e q n t) (fun _ h => .refl h) (fun _ _ _ h h' => h.trans h')
    (fun _ _ _ _ h ht hg => ht.grows h hg) q.graph.stateNumbers s hs ?_
  · refine Yields.map_pure (hall.mono ?_)
    rintro ts s' ⟨-, hg, hts⟩
    refine ⟨hg, ?_, fun n t ht => ?_⟩
    · simpa [ProcessGraph.stateNumbers, Procedure.size] using hts.length_eq.symm
    · rw [List.getElem?_toArray] at ht
      obtain ⟨n', hn', hfresh⟩ := exists_of_getElem?_right hts ht
      obtain rfl : n = n' := by
        simp only [ProcessGraph.stateNumbers, List.getElem?_eq_some_iff, List.getElem_range] at hn'
        exact hn'.2
      exact hfresh
  · intro n _ s₁ h₁ _
    split
    · next hfinal =>
        refine (Transformer.identity_spec h₁).mono ?_
        rintro t s₂ ⟨hg, hlives, hsummary⟩
        exact ⟨hg.sound, hg, hlives, fun ho v x => by simp [hfinal, hsummary ho]⟩
    · next hfinal =>
        obtain ⟨hlives, hsummary⟩ := Transformer.start_lives (e := e) h₁.toShaped
        refine Yields.pure ⟨h₁, .refl h₁, hlives, fun _ v x => ?_⟩
        by_cases hv : v < e.size
        · simp [hfinal, hv, hsummary v x hv]
        · have hnone : (Transformer.start e).entries[v]? = none :=
            Array.getElem?_eq_none (by rw [hlives.size]; omega)
          simp [hv, Transformer.summary, Transformer.meaningAt, hnone, Transformer.shifted]

/-- What the progress of a procedure is at the beginning. -/
structure FreshProgress (s : Store) (e : EquationSystem) (q : Procedure) (pr : Progress) : Prop where
  size : pr.transformers.size = q.size
  fresh : ∀ (n : Nat) (t : Transformer), pr.transformers[n]? = some t → Fresh s e q n t
  pending : ∀ n, n ∈ pr.pending.queue ↔ n ∈ q.innerStates

lemma startProgress_spec (order : PickOrder) (hs : s.Sound) :
    Yields (startProgress order e q) s fun pr s' => s.Grows s' ∧ FreshProgress s' e q pr := by
  refine Yields.map_pure ((startTransformers_spec hs).mono ?_)
  rintro ts s' ⟨hg, hsize, hfresh⟩
  refine ⟨hg, hsize, hfresh, fun n => ?_⟩
  rw [WorkSet.mem_queue_insertMany]
  simp [WorkSet.empty]

lemma startProgress_all (order : PickOrder) (hs : s.Sound) (qs : List Procedure) :
    Yields (qs.mapM (startProgress order e)) s fun prs s' =>
      s.Grows s' ∧ List.Forall₂ (FreshProgress s' e) qs prs := by
  have hall := Yields.mapM (f := startProgress order e) Store.Sound Store.Grows
    (fun q pr s₁ => FreshProgress s₁ e q pr) (fun _ h => .refl h) (fun _ _ _ h h' => h.trans h')
    (fun _ _ _ _ h hpr hg =>
      ⟨hpr.size, fun n t ht => (hpr.fresh n t ht).grows h hg, hpr.pending⟩) qs s hs
    fun q _ s₁ h₁ _ => (startProgress_spec order h₁).mono fun pr s₂ hpr => ⟨hpr.1.sound, hpr.1, hpr.2⟩
  exact hall.mono fun prs s' h => h.2

/-- A session with fresh progress is on track. -/
lemma onTrack_of_fresh {s : Session} (hp : s.program.WellFormed) (he : s.equations.WellFormed)
    (hstore : s.store.Sound) (hroom : s.store.overflowed = false)
    (hprogress : List.Forall₂ (FreshProgress s.store s.equations) s.program.procedures.toList
      s.progress.toList)
    (hmust : s.must = []) (hmay : s.may = []) (hblock : s.block = s.equations.blocks.size - 1) :
    s.OnTrack := by
  have hget : ∀ (i : Nat) (q : Procedure), s.program.procedures[i]? = some q →
      ∃ pr : Progress, s.progress[i]? = some pr ∧ FreshProgress s.store s.equations q pr := by
    intro i q hq
    rw [← Array.getElem?_toList] at hq ⊢
    exact exists_of_getElem?_left hprogress hq
  have hget' : ∀ (i : Nat) (pr : Progress), s.progress[i]? = some pr →
      ∃ q : Procedure, s.program.procedures[i]? = some q ∧
        FreshProgress s.store s.equations q pr := by
    intro i pr hpr
    rw [← Array.getElem?_toList] at hpr ⊢
    exact exists_of_getElem?_right hprogress hpr
  have hfresh : ∀ i n t, s.transformer? i n = some t → ∃ q : Procedure,
      s.program.procedures[i]? = some q ∧ n < q.size ∧ Fresh s.store s.equations q n t := by
    intro i n t ht
    simp only [transformer?, Option.bind_eq_bind, Option.bind_eq_some_iff] at ht
    obtain ⟨pr, hpr, hn⟩ := ht
    obtain ⟨q, hq, hfresh⟩ := hget' i pr hpr
    exact ⟨q, hq, hfresh.size ▸ (Array.getElem?_eq_some_iff.1 hn).1, hfresh.fresh n t hn⟩
  have hpending : ∀ i n, s.Pending i n ↔ s.program.isInner i n = true := by
    intro i n
    constructor
    · rintro ⟨pr, hpr, hn⟩
      obtain ⟨q, hq, hfresh⟩ := hget' i pr hpr
      exact (Program.mem_innerStates hq).1 ((hfresh.pending n).1 hn)
    · intro hi
      obtain ⟨q, hq, -⟩ := Program.exists_of_isInner hi
      obtain ⟨pr, hpr, hfresh⟩ := hget i q hq
      exact ⟨pr, hpr, (hfresh.pending n).2 ((Program.mem_innerStates hq).2 hi)⟩
  have hintact : s.Intact :=
    { program := hp
      equations := he
      store := hstore
      states := fun i q hq => by
        obtain ⟨pr, hpr, hfresh⟩ := hget i q hq
        exact ⟨pr, hpr, hfresh.size⟩
      lives := fun i n t ht => by
        obtain ⟨_, _, _, hfresh⟩ := hfresh i n t ht
        exact hfresh.lives
      labels := fun modality label t ht => by
        cases modality <;> simp [edgeTransformers, hmust, hmay] at ht
      inner := fun i n hn => (hpending i n).1 hn
      block := by
        obtain ⟨b, block, hb, -⟩ := he.covered 0 he.size_pos
        have := (Array.getElem?_eq_some_iff.1 hb).1
        omega }
  have hvalue : s.value = Snapshot.startValue s.program s.equations := by
    funext i n v x
    simp only [Snapshot.startValue]
    cases ht : s.transformer? i n with
    | some t =>
        obtain ⟨q, hq, hn, hfresh⟩ := hfresh i n t ht
        rw [value_of_transformer? ht, hfresh.summary hroom]
        simp only [Program.isInner_iff hq, hn, true_and]
    | none =>
        have hinner : ¬ s.program.isInner i n = true := fun hi => by
          obtain ⟨q, hq, hn, -⟩ := Program.exists_of_isInner hi
          obtain ⟨t, ht'⟩ := hintact.exists_transformer hq hn
          simp [ht] at ht'
        simp [value, ht, hinner]
  refine ⟨hintact, hroom, ?_, fun i n hi hn => absurd ((hpending i n).2 hi) hn⟩
  rw [hblock, hvalue]
  exact .start fun i n hi => (hpending i n).2 hi

/-! ## Sessions

Making the equations and the start values does not depend on what was reported before.  Once the formula has
equations, there is one session that a program, options and a store lead to.  Whatever is to be known of the
beginning is read off this session.
-/

/-- The session before the first update, over what the states begin with. -/
def started (p : Program) (o : Options) (e : EquationSystem) (prs : List Progress) (store : Store) :
    Session where
  program := p
  options := o
  equations := e
  progress := prs.toArray
  must := []
  may := []
  block := e.blocks.size - 1
  updates := 0
  deadlock := startDeadlock p e
  recording := none
  store := store

/-- **When a session begins**, and with what: nothing of it comes from the journal. -/
lemma begin_eq_ok_iff {p : Program} {o : Options} {f : Formula} {j : Journal} {s : Session} :
    (∃ j', begin p o f j = .ok s j') ↔ ∃ e prs store, EquationSystem.ofFormula f = .ok e ∧
      p.procedures.toList.mapM (startProgress o.pick e) (.empty o.storageBits) = .ok prs store ∧
      store.overflowed = false ∧ s = started p o e prs store := by
  constructor
  · rintro ⟨j', h⟩
    obtain ⟨e, j₁, he, h⟩ := bind_eq_ok h
    have hformula : EquationSystem.ofFormula f = .ok e := by
      simp only [equationsOf] at he
      split at he
      · next e' j₂ hok =>
          cases he
          exact EquationSystem.ofFormula_of_ofNormal hok
      · cases he
    cases hprs : p.procedures.toList.mapM (startProgress o.pick e) (.empty o.storageBits) with
    | error err store =>
        simp only [hprs] at h
        cases h
    | ok prs store =>
        simp only [hprs] at h
        cases hroom : store.overflowed with
        | true =>
            simp only [Store.check, hroom, if_true] at h
            obtain ⟨_, _, -, h⟩ := bind_eq_ok h
            obtain ⟨_, _, -, h⟩ := bind_eq_ok h
            cases h
        | false =>
            simp only [Store.check, hroom, Bool.false_eq_true, if_false] at h
            obtain ⟨_, _, -, h⟩ := bind_eq_ok h
            cases h
            exact ⟨e, prs, store, hformula, hprs, hroom, rfl⟩
  · rintro ⟨e, prs, store, hformula, hprs, hroom, rfl⟩
    obtain ⟨j₁, hok⟩ := EquationSystem.ofNormal_of_ofFormula hformula j
    have hequations : equationsOf f j = .ok e j₁ := by simp only [equationsOf, hok]
    rw [begin, bind_of_ok hequations]
    simp only [hprs, Store.check, hroom, Bool.false_eq_true, if_false]
    exact ⟨_, rfl⟩

/-- **A session begins on track**, with the equations of its formula. -/
theorem begin_spec {p : Program} {o : Options} {f : Formula} {j j' : Journal} {s : Session}
    (hp : p.WellFormed) (hbits : Store.validBits o.storageBits = true)
    (h : begin p o f j = .ok s j') :
    s.OnTrack ∧ s.program = p ∧ s.options = o ∧ EquationSystem.ofFormula f = .ok s.equations ∧
      s.deadlock = startDeadlock p s.equations := by
  obtain ⟨e, prs, store, hformula, hprs, hroom, rfl⟩ := begin_eq_ok_iff.1 ⟨j', h⟩
  obtain ⟨hgrows, hfresh⟩ :=
    (startProgress_all (e := e) o.pick (empty_sound hbits) p.procedures.toList).post_of_ok hprs
  exact ⟨onTrack_of_fresh hp (EquationSystem.wellFormed_of_formula hformula) hgrows.sound hroom
    (by simpa [started] using hfresh) rfl rfl rfl, rfl, rfl, hformula, rfl⟩

/-- **A session begins**, unless the store is too small for the first transformers. -/
theorem begin_answer {p : Program} {o : Options} {f : Formula} {e : EquationSystem}
    (hbits : Store.validBits o.storageBits = true) (hformula : EquationSystem.ofFormula f = .ok e)
    (j : Journal) :
    (∃ s j', begin p o f j = .ok s j') ∨
      ∃ c j', begin p o f j = .error (.storage (.storageFull c)) j' := by
  obtain ⟨j₁, hok⟩ := EquationSystem.ofNormal_of_ofFormula hformula j
  have hequations : equationsOf f j = .ok e j₁ := by simp only [equationsOf, hok]
  obtain ⟨prs, store, hprs, -⟩ :=
    startProgress_all (e := e) o.pick (empty_sound hbits) p.procedures.toList
  rw [begin, bind_of_ok hequations]
  simp only [hprs]
  cases hroom : store.overflowed with
  | true =>
      simp only [Store.check, hroom, if_true]
      exact Or.inr ⟨_, _, rfl⟩
  | false =>
      simp only [Store.check, hroom, Bool.false_eq_true, if_false]
      exact Or.inl ⟨_, _, rfl⟩

end Session

end ModalCalls
