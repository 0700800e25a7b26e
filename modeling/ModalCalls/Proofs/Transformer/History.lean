import Mathlib
import ModalCalls.Proofs.Diagram.Operations
import ModalCalls.Proofs.Transformer.Meaning

/-!
# Histories of transformers

`Transformer.History` writes down which operations were carried out on transformers, in whatever order, and
what each of them has made.  The store may have served other calls in between, and its cache may hold
anything.

* `Transformer.Call.spec` — the step lemma: what an operation makes of summaries.
* `Transformer.Done` — what can be said later on of an operation that was carried out.  If there was room,
  what it has made still has the summary that it was to make.
* `Transformer.History.kept` — the run lemma: every operation of a history is done, and a property of
  summaries that the operations keep is a property of everything that was made.

Equality, composition and monotonicity of transformers are all read off the run lemma: it is what is known of
a transformer, whatever was done to come by it.
-/

namespace ModalCalls

namespace Transformer

open Store

variable {e : EquationSystem} {s s' : Store} {t u : Transformer} {n : Nat}

/-! ## Operations

There are five operations that make a transformer, two of them from others.  Each is told by the summary that
it is to make from the summaries of its arguments (`Call.summary`), so that a statement about everything that
was made is a statement about summaries.
-/

/-- The operations that make a transformer from others. -/
inductive Call where
  | start
  | identity
  | edge (label : String) (modality : Modality)
  | compose (t u : Transformer)
  | update (t : Transformer) (props : List String) (along : List Transformer) (block : Block)

namespace Call

variable {c : Call}

/-- Carry a call out. -/
def run (e : EquationSystem) : Call → DiagramM Transformer
  | start => pure (.start e)
  | identity => Transformer.identity e
  | edge label modality => ofEdge e label modality
  | compose t u => t.compose u
  | update t props along block => Transformer.update e t props along block.vars

/-- The transformers that a call is about. -/
def arguments : Call → List Transformer
  | compose t u => [t, u]
  | update t _ along _ => t :: along
  | _ => []

/-- What is updated is a block of the equations. -/
def OnBlock (e : EquationSystem) : Call → Prop
  | update _ _ _ block => block ∈ e.blocks
  | _ => True

/-- **The summary that a call is to make**, from the summaries of what it is about. -/
def summary (e : EquationSystem) (s : Store) : Call → Summary
  | start => fun v x => if v < e.size then e.isMax v else x v
  | identity => fun v x => x v
  | edge label modality => e.edgeSummary label modality
  | compose t u => fun v x => t.summary s v fun w => u.summary s w x
  | update t props along block =>
    e.pass (props.contains ·) (along.map fun u => u.summary s) block.vars (t.summary s)

/-- An update leaves the entries of other blocks alone. -/
def Spares (r : Transformer) : Call → Prop
  | update t _ _ block => ∀ w, w ∉ block.vars → r.entries[w]? = t.entries[w]?
  | _ => True

lemma readable_vars (he : e.WellFormed) {block : Block} (hblock : block ∈ e.blocks) :
    Readable e block.vars := by
  obtain ⟨b, hb⟩ := Array.getElem?_of_mem hblock
  exact readable_block he hb

/-- **What a call makes** of transformers of a sound store.  It ends with a transformer of the store that it
leaves, and makes the summary that it is to make if there was room. -/
theorem spec (he : e.WellFormed) (hs : s.Sound) (hargs : ∀ t ∈ c.arguments, t.Lives s e.size)
    (hblock : c.OnBlock e) :
    Yields (c.run e) s fun r s' => s.Grows s' ∧ r.Lives s' e.size ∧ c.Spares r ∧
      (s'.overflowed = false → r.summary s' = c.summary e s) := by
  cases c with
  | start =>
      obtain ⟨hlives, hsummary⟩ := start_lives (e := e) hs.toShaped
      refine Yields.pure ⟨.refl hs, hlives, trivial, fun _ => ?_⟩
      funext v x
      simp only [summary]
      split
      · next hv => exact hsummary v x hv
      · next hv => exact hlives.summary_of_le (Nat.le_of_not_lt hv)
  | identity =>
      refine (identity_spec hs).mono ?_
      rintro r s' ⟨hg, hlives, hsummary⟩
      exact ⟨hg, hlives, trivial, fun ho => funext fun v => funext (hsummary ho v)⟩
  | edge label modality =>
      refine (ofEdge_spec hs label modality).mono ?_
      rintro r s' ⟨hg, hlives, hsummary⟩
      exact ⟨hg, hlives, trivial, hsummary⟩
  | compose t u =>
      refine (compose_spec hs (hargs t (by simp [arguments])) (hargs u (by simp [arguments]))).mono ?_
      rintro r s' ⟨hg, hlives, hsummary, -⟩
      exact ⟨hg, hlives, trivial, fun ho => (hsummary ho).1⟩
  | update t props along block =>
      refine (update_spec hs (hargs t (by simp [arguments]))
        (fun u hu => hargs u (by simp [arguments, hu])) (readable_vars he hblock)).mono ?_
      rintro r s' ⟨hg, hlives, hothers, hsummary⟩
      exact ⟨hg, hlives, hothers, fun ho => (hsummary ho).1⟩

end Call

/-! ## Reading

A transformer can also be read from serial forms, one for each entry.  Of what is read only that it is a
transformer of the store is known: the texts may describe any functions.
-/

/-- Reading entries keeps a store sound, and every entry is a handle of it. -/
lemma readEntries_spec : ∀ (texts : List String) {s : Store}, s.Sound →
    Yields (readEntries texts) s fun result s' => s.Grows s' ∧
      ∀ fs, result = .ok fs → fs.length = texts.length ∧ ∀ f ∈ fs, s'.Valid f
  | [], s, hs => Yields.pure ⟨.refl hs, by rintro _ ⟨⟩; simp⟩
  | text :: texts, s, hs => by
      refine Yields.bind ((DiagramM.ofSerial_spec hs text).mono ?_)
      rintro (flaw | f) s₁ ⟨hg, hf⟩
      · exact Yields.pure ⟨hg, nofun⟩
      refine Yields.bind ((readEntries_spec texts hg.sound).mono ?_)
      rintro (flaw | fs) s₂ ⟨hg₂, hfs⟩
      · exact Yields.pure ⟨hg.trans hg₂, nofun⟩
      refine Yields.pure ⟨hg.trans hg₂, ?_⟩
      rintro _ ⟨⟩
      obtain ⟨hlength, hvalid⟩ := hfs fs rfl
      refine ⟨by simp [hlength], ?_⟩
      simp only [List.forall_mem_cons]
      exact ⟨hg₂.keeps.valid (hf f rfl), hvalid⟩

/-- **Reading** keeps a store sound, and what is read is a transformer of it. -/
lemma ofSerial_spec (hs : s.Sound) (texts : List String) :
    Yields (ofSerial e texts) s fun result s' => s.Grows s' ∧
      ∀ t, result = .ok t → t.Lives s' e.size := by
  rw [ofSerial]
  split
  · next hlength =>
      refine Yields.bind ((readEntries_spec texts hs).mono ?_)
      rintro (flaw | fs) s' ⟨hg, hfs⟩
      · exact Yields.pure ⟨hg, nofun⟩
      refine Yields.pure ⟨hg, ?_⟩
      rintro _ ⟨⟩
      obtain ⟨hsize, hvalid⟩ := hfs fs rfl
      exact ⟨by simp [hsize, hlength], fun f hf => hvalid f (List.mem_toArray.1 hf)⟩
  · exact Yields.pure ⟨.refl hs, nofun⟩

/-! ## Histories

A store grows while a history goes on, and what was made before keeps its summary.  So it is enough to look at
the store as it is in the end, and to say of every operation on the record what its result means there.
-/

variable {r : Transformer} {c : Call}

/-- Transformers of a store have the same summaries later on, and so has what is made from them. -/
lemma Call.summary_grows (hs : s.Shaped) (hargs : ∀ u ∈ c.arguments, u.Lives s e.size)
    (hg : s.Grows s') : c.summary e s' = c.summary e s := by
  cases c with
  | compose t u =>
      have ht : t.Lives s e.size := hargs t (by simp [Call.arguments])
      have hu : u.Lives s e.size := hargs u (by simp [Call.arguments])
      simp only [Call.summary, Transformer.summary_grows hs ht hg, Transformer.summary_grows hs hu hg]
  | update t props along block =>
      have ht : t.Lives s e.size := hargs t (by simp [Call.arguments])
      have halong : ∀ u ∈ along, u.Lives s e.size := fun u hu => hargs u (by simp [Call.arguments, hu])
      simp only [Call.summary, Transformer.summary_grows hs ht hg, map_summary_grows hs halong hg]
  | _ => rfl

/-- **An operation that was carried out** on transformers of a store and has made `r`. -/
structure Done (e : EquationSystem) (s : Store) (c : Call) (r : Transformer) : Prop where
  block : c.OnBlock e
  arguments : ∀ u ∈ c.arguments, u.Lives s e.size
  lives : r.Lives s e.size
  spares : c.Spares r
  summary : s.overflowed = false → r.summary s = c.summary e s

lemma Done.grows (h : Done e s c r) (hs : s.Shaped) (hg : s.Grows s') : Done e s' c r where
  block := h.block
  arguments := fun u hu => (h.arguments u hu).grows hg
  lives := h.lives.grows hg
  spares := h.spares
  summary := fun ho => by
    rw [summary_grows hs h.lives hg, Call.summary_grows hs h.arguments hg, h.summary (hg.overflowed ho)]

/-- Everything that was made by the operations of a record, and what was read. -/
def given (log : List (Call × Transformer)) (rs : List Transformer) : List Transformer :=
  log.map Prod.snd ++ rs

/-- **Histories** over some equations: the store as it is now, the operations that were carried out with what
each of them has made, latest first, and the transformers that were read from serial forms.  Every operation
is on transformers that were given out before. -/
inductive History (e : EquationSystem) : Store → List (Call × Transformer) → List Transformer → Prop
  | create {bits : Nat} {s : Store} (h : Store.create bits = .ok s) : History e s [] []
  | diagram {s : Store} {log : List (Call × Transformer)} {rs : List Transformer} (c : Store.Call)
      (h : History e s log rs) (hargs : ∀ g ∈ c.arguments, s.Valid g) (hordered : c.IsOrdered s) :
      History e (after c.run s) log rs
  | call {s s' : Store} {log : List (Call × Transformer)} {rs : List Transformer} (c : Call)
      {t : Transformer} (h : History e s log rs) (hargs : ∀ u ∈ c.arguments, u ∈ given log rs)
      (hblock : c.OnBlock e) (hrun : c.run e s = .ok t s') : History e s' ((c, t) :: log) rs
  | read {s s' : Store} {log : List (Call × Transformer)} {rs : List Transformer} {texts : List String}
      {result : Except SerialError Transformer} (h : History e s log rs)
      (hrun : ofSerial e texts s = .ok result s') : History e s' log (result.toOption.toList ++ rs)

variable {log : List (Call × Transformer)} {rs : List Transformer}

/-- A property of summaries that all operations keep. -/
def Inherited (e : EquationSystem) (P : Summary → Prop) : Prop :=
  ∀ (s : Store) (c : Call), c.OnBlock e → (∀ u ∈ c.arguments, P (u.summary s)) → P (c.summary e s)

/-- **What a history keeps.** -/
structure Recorded (e : EquationSystem) (s : Store) (log : List (Call × Transformer))
    (rs : List Transformer) : Prop where
  sound : s.Sound
  lives : ∀ t ∈ given log rs, t.Lives s e.size
  done : ∀ c r, (c, r) ∈ log → Done e s c r
  inherits : ∀ P, Inherited e P → s.overflowed = false → (∀ r ∈ rs, P (r.summary s)) →
    ∀ t ∈ given log rs, P (t.summary s)

lemma Recorded.grows (h : Recorded e s log rs) (hg : s.Grows s') : Recorded e s' log rs where
  sound := hg.sound
  lives := fun t ht => (h.lives t ht).grows hg
  done := fun c r hr => (h.done c r hr).grows h.sound.toShaped hg
  inherits := fun P hP ho hrs t ht => by
    have hsame : ∀ t ∈ given log rs, t.summary s' = t.summary s := fun t ht =>
      summary_grows h.sound.toShaped (h.lives t ht) hg
    rw [hsame t ht]
    refine h.inherits P hP (hg.overflowed ho) (fun r hr => ?_) t ht
    rw [← hsame r (List.mem_append_right _ hr)]
    exact hrs r hr

/-- **All operations keep it.** -/
theorem History.kept (he : e.WellFormed) (h : History e s log rs) : Recorded e s log rs := by
  induction h with
  | create h => exact ⟨sound_of_create h, by simp [given], by simp, by simp [given]⟩
  | diagram c _ hargs hordered ih => exact ih.grows (Store.Call.grows_after ih.sound hargs hordered)
  | @call s s' log rs c t _ hargs hblock hrun ih =>
      have hlives : ∀ u ∈ c.arguments, u.Lives s e.size := fun u hu => ih.lives u (hargs u hu)
      obtain ⟨hg, ht, hspares, hsummary⟩ := (Call.spec he ih.sound hlives hblock).post_of_ok hrun
      have ih' := ih.grows hg
      have hsame := Call.summary_grows ih.sound.toShaped hlives hg
      have hdone : Done e s' c t :=
        ⟨hblock, fun u hu => (hlives u hu).grows hg, ht, hspares, fun ho => (hsummary ho).trans hsame.symm⟩
      refine ⟨hg.sound, List.forall_mem_cons.2 ⟨ht, ih'.lives⟩, ?_, fun P hP ho hrs => ?_⟩
      · intro d r hr
        rcases List.mem_cons.1 hr with heq | hr
        · cases heq
          exact hdone
        · exact ih'.done d r hr
      · refine List.forall_mem_cons.2 ⟨?_, ih'.inherits P hP ho hrs⟩
        rw [hdone.summary ho]
        exact hP s' c hblock fun u hu => ih'.inherits P hP ho hrs u (hargs u hu)
  | @read s s' log rs texts result _ hrun ih =>
      obtain ⟨hg, hlives⟩ := (ofSerial_spec ih.sound texts).post_of_ok hrun
      have ih' := ih.grows hg
      cases result with
      | error flaw => exact ih'
      | ok t =>
          have hmem : ∀ u ∈ given log ([t] ++ rs), u = t ∨ u ∈ given log rs := by
            intro u hu
            simp only [given, List.mem_append, List.mem_singleton] at hu ⊢
            tauto
          refine ⟨hg.sound, fun u hu => ?_, ih'.done, fun P hP ho hrs u hu => ?_⟩
          · rcases hmem u hu with rfl | hu
            · exact hlives u rfl
            · exact ih'.lives u hu
          · rcases hmem u hu with rfl | hu
            · exact hrs u List.mem_cons_self
            · exact ih'.inherits P hP ho (fun r hr => hrs r (List.mem_cons_of_mem t hr)) u hu

/-- In every history the next operation ends. -/
lemma Recorded.runs (h : Recorded e s log rs) (he : e.WellFormed)
    (hargs : ∀ u ∈ c.arguments, u ∈ given log rs) (hblock : c.OnBlock e) :
    ∃ r s', c.run e s = .ok r s' := by
  obtain ⟨r, s', hrun, -⟩ := Call.spec he h.sound (fun u hu => h.lives u (hargs u hu)) hblock
  exact ⟨r, s', hrun⟩

end Transformer

end ModalCalls
