import Mathlib
import ModalCalls.Proofs.Diagram.Substitution
import ModalCalls.Proofs.Diagram.SerialForm
import ModalCalls.Proofs.Equation.Summary
import ModalCalls.Proofs.Equation.WellFormed
import ModalCalls.Proofs.VarSet

/-!
# What transformers mean

`Transformer.summary` reads a transformer as the vector of functions that its diagrams mean.  Each
operation on transformers then does to summaries what its name says, as long as the store has room:
the transformer of a final state is the identity, composition composes, and an update is a pass over the
equations of its variables.  An update that was made before needs no room (`Transformer.Renews`).

The specifications have two halves.  The first says what is built if the store still has room afterwards.
The second says when nothing is built at all: if all functions that the operation meets on its way have
handles.  The second half is what makes an update cheap that finds nothing new, and it is the reason why
intermediate results are named here (`Transformer.Prepared`, `Transformer.Gathered`).
-/

namespace ModalCalls

/-! ## Handles that mean a function

A handle is good in a store for two different reasons.  It exists, which is never lost; and it means a
certain function, which is promised only as long as no node was left out.  `Means` keeps the two apart, so
that a transformer can be built and looked up even where the second is void.
-/

namespace Store

variable {s s' : Store} {f : Handle} {F : (Nat → Bool) → Bool}

/-- The handle exists, and if nothing was lost it means the function. -/
structure Means (s : Store) (f : Handle) (F : (Nat → Bool) → Bool) : Prop where
  valid : s.Valid f
  meaning : s.overflowed = false → ∀ x, s.meaning f x = F x

lemma Means.grows (hs : s.Shaped) (h : s.Means f F) (hg : s.Grows s') : s'.Means f F :=
  ⟨hg.keeps.valid h.valid, fun ho x =>
    (hg.meaning_eq hs h.valid).trans (h.meaning (hg.overflowed ho) x)⟩

lemma Built.means (h : s.Built F f s') : s'.Means f F :=
  ⟨h.valid, h.meaning⟩

lemma means_constant (hs : s.Shaped) (b : Bool) : s.Means (.constant b) fun _ => b :=
  ⟨hs.valid_constant b, fun _ _ => meaning_constant hs b⟩

/-- Build a handle for each element of a list. -/
lemma mapM_means {α : Type} {build : α → DiagramM Handle} {F : α → (Nat → Bool) → Bool}
    (hs : s.Sound) (l : List α)
    (hbuild : ∀ a ∈ l, ∀ t : Store, t.Sound → s.Grows t →
      Yields (build a) t fun f u => t.Grows u ∧ u.Means f (F a)) :
    Yields (l.mapM build) s fun fs s' =>
      s.Grows s' ∧ List.Forall₂ (fun a f => s'.Means f (F a)) l fs := by
  have h := Yields.mapM Store.Sound Store.Grows (fun a f t => t.Means f (F a))
    (fun t ht => Grows.refl ht) (fun _ _ _ h h' => h.trans h')
    (fun _ _ _ _ ht hm hg => hm.grows ht.toShaped hg) l s hs fun a ha t ht hst =>
      (hbuild a ha t ht hst).mono fun f u hu => ⟨hu.1.sound, hu.1, hu.2⟩
  exact h.mono fun fs u hu => hu.2

end Store

namespace Transformer

open Store

variable {s s' : Store} {t u : Transformer} {n v : Nat} {x : Nat → Bool}

/-- A transformer of a store, over `n` variables. -/
structure Lives (s : Store) (n : Nat) (t : Transformer) : Prop where
  size : t.entries.size = n
  valid : ∀ f ∈ t.entries, s.Valid f

/-- The function that an entry means, over the variables of diagrams. -/
def meaningAt (s : Store) (t : Transformer) (v : Nat) (y : Nat → Bool) : Bool :=
  match t.entries[v]? with
  | some f => s.meaning f y
  | none => y (v + 1)

/-- Diagram variable `v + 1` reads input `v`. -/
def shifted (x : Nat → Bool) (d : Nat) : Bool :=
  x (d - 1)

/-- **The summary of a transformer**: what its diagrams mean, as functions of the inputs. -/
def summary (s : Store) (t : Transformer) : Summary := fun v x =>
  t.meaningAt s v (shifted x)

lemma Lives.grows (h : t.Lives s n) (hg : s.Grows s') : t.Lives s' n :=
  ⟨h.size, fun f hf => hg.keeps.valid (h.valid f hf)⟩

lemma Lives.getElem? (h : t.Lives s n) (hv : v < n) :
    ∃ f, t.entries[v]? = some f ∧ s.Valid f := by
  have hlt : v < t.entries.size := h.size ▸ hv
  exact ⟨t.entries[v], Array.getElem?_eq_getElem hlt, h.valid _ (Array.getElem_mem hlt)⟩

/-- Beyond the entries a summary reads the inputs. -/
lemma Lives.summary_of_le (h : t.Lives s n) (hv : n ≤ v) : t.summary s v x = x v := by
  have hnone : t.entries[v]? = none := Array.getElem?_eq_none (h.size.symm ▸ hv)
  simp only [summary, meaningAt, hnone, shifted, Nat.add_sub_cancel]

lemma meaningAt_grows (hs : s.Shaped) (h : t.Lives s n) (hg : s.Grows s') :
    t.meaningAt s' v = t.meaningAt s v := by
  funext y
  simp only [meaningAt]
  split
  · next f hf => exact hg.meaning_eq hs (h.valid f (Array.mem_of_getElem? hf))
  · rfl

/-- Old transformers keep their meaning. -/
lemma summary_grows (hs : s.Shaped) (h : t.Lives s n) (hg : s.Grows s') :
    t.summary s' = t.summary s := by
  funext v x
  simp only [summary, meaningAt_grows hs h hg]

/-- A transformer made of handles that mean the functions of a list. -/
lemma lives_of_forall₂ {α : Type} {F : α → (Nat → Bool) → Bool} {l : List α} {fs : List Handle}
    (h : List.Forall₂ (fun a f => s.Means f (F a)) l fs) :
    (⟨fs.toArray⟩ : Transformer).Lives s l.length ∧
      (s.overflowed = false → ∀ v y, (⟨fs.toArray⟩ : Transformer).meaningAt s v y
        = match l[v]? with
          | some a => F a y
          | none => y (v + 1)) := by
  refine ⟨⟨by simpa using h.length_eq.symm, ?_⟩, ?_⟩
  · intro f hf
    obtain ⟨i, hi, rfl⟩ := List.getElem_of_mem (List.mem_toArray.1 hf)
    exact (h.get (by rw [h.length_eq]; exact hi) hi).valid
  · intro ho v y
    simp only [meaningAt, List.getElem?_toArray]
    by_cases hv : v < l.length
    · have hv' : v < fs.length := h.length_eq ▸ hv
      rw [List.getElem?_eq_getElem hv, List.getElem?_eq_getElem hv']
      exact (h.get hv hv').meaning ho y
    · have hv' : ¬ v < fs.length := h.length_eq ▸ hv
      rw [List.getElem?_eq_none (by omega), List.getElem?_eq_none (by omega)]

/-! ## Elementary transformers

Variables are counted from zero and diagram variables from one.  A summary is over variables, so the shift
by one is made here and does not occur in statements about programs.
-/

variable {e : EquationSystem}

lemma start_lives (hs : s.Shaped) : (start e).Lives s e.size ∧
    ∀ v x, v < e.size → (start e).summary s v x = e.isMax v := by
  refine ⟨⟨by simp [start], ?_⟩, ?_⟩
  · intro f hf
    obtain ⟨v, -, rfl⟩ := List.mem_map.1 (List.mem_toArray.1 hf)
    exact hs.valid_constant _
  · intro v x hv
    have hget : (start e).entries[v]? = some (Handle.constant (e.isMax v)) := by
      simp [start, hv]
    simp only [summary, meaningAt, hget, meaning_constant hs]

/-- **The transformer of a final state** is the identity. -/
lemma identity_spec (hs : s.Sound) :
    Yields (identity e) s fun t s' =>
      s.Grows s' ∧ t.Lives s' e.size ∧
      (s'.overflowed = false → ∀ v x, t.summary s' v x = x v) := by
  refine Yields.map_pure ((mapM_means (F := fun v y => y (v + 1)) hs (List.range e.size)
    fun v _ t ht _ => (DiagramM.mkVar_spec ht v.succ_pos).mono fun f u hu =>
      ⟨hu.grows, hu.means⟩).mono ?_)
  rintro fs s' ⟨hg, hall⟩
  obtain ⟨hlives, hmean⟩ := lives_of_forall₂ hall
  refine ⟨hg, by simpa using hlives, fun ho v x => ?_⟩
  simp only [summary, hmean ho, shifted]
  by_cases hv : v < e.size
  · simp [hv]
  · simp [hv]

/-- An entry of an internal edge. -/
lemma edgeEntry_spec (hs : s.Sound) (label : String) (modality : Modality) (op : Operator) :
    Yields (edgeEntry label modality op) s fun f s' =>
      s.Grows s' ∧ s'.Means f fun y =>
        match op with
        | .box a c => if Concerns a label then y (c + 1) else true
        | .dia a c => if Concerns a label ∧ modality = .must then y (c + 1) else false
        | _ => false := by
  have hconst : ∀ b : Bool, Yields (pure (Handle.constant b) : DiagramM Handle) s fun f s' =>
      s.Grows s' ∧ s'.Means f fun _ => b := fun b =>
    Yields.pure ⟨Grows.refl hs, means_constant hs.toShaped b⟩
  have hinput : ∀ c : Nat, Yields (input c) s fun f s' =>
      s.Grows s' ∧ s'.Means f fun y => y (c + 1) := fun c =>
    (DiagramM.mkVar_spec hs c.succ_pos).mono fun f u hu => ⟨hu.grows, hu.means⟩
  cases op with
  | box a c =>
      simp only [edgeEntry, speaksOf_iff]
      split
      · exact hinput c
      · exact hconst true
  | dia a c =>
      simp only [edgeEntry, Bool.and_eq_true, decide_eq_true_eq, speaksOf_iff]
      split
      · exact hinput c
      · exact hconst false
  | _ => exact hconst false

/-- **The transformer of an internal edge.** -/
lemma ofEdge_spec (hs : s.Sound) (label : String) (modality : Modality) :
    Yields (ofEdge e label modality) s fun t s' =>
      s.Grows s' ∧ t.Lives s' e.size ∧
      (s'.overflowed = false → t.summary s' = e.edgeSummary label modality) := by
  refine Yields.map_pure ((mapM_means hs e.equations.toList fun q _ t ht _ =>
    edgeEntry_spec ht label modality q.operator).mono ?_)
  rintro fs s' ⟨hg, hall⟩
  obtain ⟨hlives, hmean⟩ := lives_of_forall₂ hall
  refine ⟨hg, by simpa [EquationSystem.size] using hlives, fun ho => ?_⟩
  funext v x
  simp only [summary, hmean ho, EquationSystem.edgeSummary, EquationSystem.operator?,
    Array.getElem?_toList]
  cases e.equations[v]? with
  | none => rfl
  | some q => cases hq : q.operator <;> simp [shifted, hq]

/-! ## Composition

To run one transformer after another, the diagrams of the second are substituted for the inputs of the
first.  Each substitution meets the functions of all nodes below an entry.  If these have handles, then so
has every intermediate result.
-/

/-- All functions that the composition of `t` with `u` meets have handles. -/
def Prepared (s : Store) (t u : Transformer) : Prop :=
  ∀ f ∈ t.entries, s.Covered u.entries f.index

lemma Lives.validSubst (h : t.Lives s n) : s.ValidSubst t.entries :=
  h.valid

lemma Prepared.grows (hs : s.Shaped) (hu : u.Lives s n) (hg : s.Grows s')
    (h : Prepared s t u) : Prepared s' t u :=
  fun f hf => (h f hf).grows hs hu.validSubst hg

/-- Substituting the entries of a transformer is reading its summary. -/
lemma substituted_entries (x : Nat → Bool) :
    s.substituted u.entries (shifted x) = shifted fun w => u.summary s w x := by
  funext d
  simp only [substituted, shifted, summary, meaningAt]
  cases u.entries[d - 1]? <;> simp

/-- **Composition composes summaries.**  Afterwards everything it has met has a handle, and it adds no
node if that was so before. -/
lemma compose_spec (hs : s.Sound) (ht : t.Lives s n) (hu : u.Lives s n) :
    Yields (t.compose u) s fun r s' =>
      s.Grows s' ∧ r.Lives s' n ∧
      (s'.overflowed = false →
        (r.summary s' = fun v x => t.summary s v fun w => u.summary s w x) ∧
        Prepared s' t u) ∧
      (s.overflowed = false → Prepared s t u → s.Quiet s') := by
  -- the store later on, together with what a prepared composition keeps
  let ready : Store → Prop := fun s₁ => s₁.overflowed = false ∧ Prepared s₁ t u
  have h := Yields.mapM (f := fun f => DiagramM.compose f u.entries) (fun s₁ => s.Grows s₁)
    (fun s₁ s₂ => s₁.Grows s₂ ∧ (ready s₁ → s₁.Quiet s₂ ∧ ready s₂))
    (fun f r s₁ => s₁.Means r (fun y => s.meaning f (s.substituted u.entries y)) ∧
      (s₁.overflowed = false → s₁.Covered u.entries f.index))
    (fun s₁ h₁ => ⟨Grows.refl h₁.sound, fun hr => ⟨Quiet.refl s₁, hr⟩⟩)
    (fun s₁ s₂ s₃ h h' => ⟨h.1.trans h'.1, fun hr =>
      ⟨(h.2 hr).1.trans (h'.2 (h.2 hr).2).1, (h'.2 (h.2 hr).2).2⟩⟩)
    (fun f r s₁ s₂ h₁ hr h => ⟨hr.1.grows h₁.sound.toShaped h.1, fun ho =>
      (hr.2 (h.1.overflowed ho)).grows h₁.sound.toShaped (hu.grows h₁).validSubst h.1⟩)
    t.entries.toList s (Grows.refl hs) ?_
  · refine Yields.map_pure (h.mono ?_)
    rintro fs s' ⟨hg, ⟨-, hquiet⟩, hall⟩
    have hmeans : List.Forall₂ (fun f r => s'.Means r fun y =>
        s.meaning f (s.substituted u.entries y)) t.entries.toList fs :=
      hall.imp fun _ _ h => h.1
    obtain ⟨hlives, hmean⟩ := lives_of_forall₂ hmeans
    refine ⟨hg, by simpa [ht.size] using hlives, fun ho => ⟨?_, ?_⟩, fun ho hp =>
      (hquiet ⟨ho, hp⟩).1⟩
    · funext v x
      simp only [summary, hmean ho, Array.getElem?_toList]
      simp only [meaningAt]
      cases hv : t.entries[v]? with
      | none =>
          have hnone : u.entries[v]? = none := by
            rw [Array.getElem?_eq_none_iff] at hv ⊢
            rw [hu.size, ← ht.size]
            exact hv
          simp [shifted, hnone]
      | some f => exact congrArg (s.meaning f) (substituted_entries x)
    · intro f hf
      obtain ⟨i, hi, rfl⟩ := List.getElem_of_mem (Array.mem_toList_iff.2 hf)
      exact (hall.get hi (hall.length_eq ▸ hi)).2 ho
  · intro f hf s₁ h₁ _
    have hf' := ht.valid f (Array.mem_toList_iff.1 hf)
    refine (DiagramM.compose_spec h₁.sound (h₁.keeps.valid hf') (hu.grows h₁).validSubst).mono ?_
    rintro r s₂ ⟨hg, hr, hmean, hquiet⟩
    refine ⟨h₁.trans hg, ⟨hg, fun hready => ?_⟩, ⟨hr, fun ho x => ?_⟩, fun ho => (hmean ho).2⟩
    · have hq := hquiet hready.1 (hready.2 f (Array.mem_toList_iff.1 hf))
      exact ⟨hq, hq.overflowed.trans hready.1,
        hready.2.grows h₁.sound.toShaped (hu.grows h₁) hg⟩
    · rw [(hmean ho).1, h₁.substituted_eq hs.toShaped hu.validSubst,
        h₁.meaning_eq hs.toShaped hf']

/-! ## Update

An update goes through its variables in order, and a later one reads what was computed for the earlier ones.
So it is proved for a single entry first, as one step of a pass over the equations, and then by induction on
the variables that are left.  A modal entry folds the transformers along the edges with a conjunction or a
disjunction, and every partial result of the fold is a diagram of its own.
-/

variable {props : List String} {along : List Transformer}

/-- All intermediate results of a modal entry have handles. -/
def Gathered (s : Store) (along : List Transformer) (v : Nat) : Operator → Prop
  | .box .. => s.Accumulated (· && ·) (fun _ => true) (along.map fun t => t.meaningAt s v)
  | .dia .. => s.Accumulated (· || ·) (fun _ => false) (along.map fun t => t.meaningAt s v)
  | _ => True

/-- What the entry of an operator is to mean. -/
def entryMeaning (s : Store) (props : List String) (along : List Transformer) (own : Transformer)
    (v : Nat) (op : Operator) (y : Nat → Bool) : Bool :=
  op.eval (props.contains ·) (fun w => own.meaningAt s w y) (along.all fun t => t.meaningAt s v y)
    (along.any fun t => t.meaningAt s v y)

lemma Gathered.grows (hs : s.Shaped) (halong : ∀ t ∈ along, t.Lives s n) (hg : s.Grows s')
    {op : Operator} (h : Gathered s along v op) : Gathered s' along v op := by
  have hmap : (along.map fun t => t.meaningAt s' v) = along.map fun t => t.meaningAt s v :=
    List.map_congr_left fun t ht => meaningAt_grows hs (halong t ht) hg
  cases op with
  | box a c =>
      simp only [Gathered, hmap] at h ⊢
      exact h.grows hg hs
  | dia a c =>
      simp only [Gathered, hmap] at h ⊢
      exact h.grows hg hs
  | _ => trivial

lemma entry_ok (h : t.Lives s n) (hv : v < n) :
    ∃ f, entry t.entries v = .ok f ∧ s.Valid f ∧ t.meaningAt s v = s.meaning f := by
  obtain ⟨f, hf, hvalid⟩ := h.getElem? hv
  refine ⟨f, by simp only [entry, hf], hvalid, ?_⟩
  funext y
  simp only [meaningAt, hf]

lemma entries_ok (halong : ∀ t ∈ along, t.Lives s n) (hv : v < n) :
    ∃ fs, along.mapM (fun t => entry t.entries v) = .ok fs ∧ (∀ f ∈ fs, s.Valid f) ∧
      fs.map s.meaning = along.map fun t => t.meaningAt s v := by
  induction along with
  | nil => exact ⟨[], rfl, by simp, rfl⟩
  | cons t along ih =>
      obtain ⟨f, hf, hvalid, hmean⟩ := entry_ok (halong t (by simp)) hv
      obtain ⟨fs, hfs, hvalids, hmeans⟩ := ih fun u hu => halong u (by simp [hu])
      refine ⟨f :: fs, ?_, ?_, ?_⟩
      · rw [List.mapM_cons, hf, hfs]
        rfl
      · intro g hg
        rcases List.mem_cons.1 hg with rfl | hg
        · exact hvalid
        · exact hvalids g hg
      · rw [List.map_cons, List.map_cons, hmeans, hmean]

/-! ### One entry

There are three ways in which an entry comes about.  A constant or an entry that is read off the transformer
exists already; a conjunction or disjunction is one operation; a modal entry is a fold.  `EntryBuilt` is
what all of them have in common, with one lemma for each way.
-/

/-- **The new entry of an operator** means the operator's value.  It needs no node if all intermediate
results and the result have handles. -/
structure EntryBuilt (s : Store) (props : List String) (along : List Transformer) (own : Transformer)
    (v : Nat) (op : Operator) (f : Handle) (s' : Store) : Prop where
  grows : s.Grows s'
  means : s'.Means f (entryMeaning s props along own v op)
  gathered : s'.overflowed = false → Gathered s' along v op
  quiet : s.overflowed = false → Gathered s along v op →
    s.Represents (entryMeaning s props along own v op) → s.Quiet s'

/-- A handle that exists already. -/
lemma EntryBuilt.of_means (hs : s.Sound) {op : Operator} {f : Handle} (hgath : Gathered s along v op)
    (hf : s.Means f (entryMeaning s props along t v op)) : EntryBuilt s props along t v op f s where
  grows := Grows.refl hs
  means := hf
  gathered := fun _ => hgath
  quiet := fun _ _ _ => Quiet.refl s

/-- The result of an operation on two entries. -/
lemma EntryBuilt.of_built {op : Operator} {f : Handle} (hgath : Gathered s' along v op)
    (hf : s.Built (entryMeaning s props along t v op) f s') : EntryBuilt s props along t v op f s' where
  grows := hf.grows
  means := hf.means
  gathered := fun _ => hgath
  quiet := fun ho _ hrep => hf.quiet ho hrep

/-- The result of a fold over the transformers along the edges. -/
lemma EntryBuilt.of_collected (hs : s.Shaped) (halong : ∀ u ∈ along, u.Lives s n) {op : Operator} {f : Handle}
    {g : Bool → Bool → Bool} {b : Bool}
    (hgath : ∀ s, Gathered s along v op ↔ s.Accumulated g (fun _ => b) (along.map fun u => u.meaningAt s v))
    (hfold : ∀ y, along.foldl (fun b u => g b (u.meaningAt s v y)) b = entryMeaning s props along t v op y)
    (hf : s.Collected g (fun _ => b) (along.map fun u => u.meaningAt s v) f s') :
    EntryBuilt s props along t v op f s' where
  grows := hf.grows
  means := ⟨hf.valid, fun ho y => by rw [hf.meaning ho, List.foldl_map, hfold]⟩
  gathered := fun ho => by
    have hmap : (along.map fun u => u.meaningAt s' v) = along.map fun u => u.meaningAt s v :=
      List.map_congr_left fun u hu => meaningAt_grows hs (halong u hu) hf.grows
    rw [hgath, hmap]
    exact hf.accumulated ho
  quiet := fun ho hgathered _ => hf.quiet ho ((hgath s).1 hgathered)

lemma operatorEntry_spec (hs : s.Sound) (ht : t.Lives s n) (halong : ∀ u ∈ along, u.Lives s n)
    (hv : v < n) {op : Operator} (hreads : ∀ w ∈ op.reads, w < n) :
    Yields (operatorEntry props along t.entries v op) s (EntryBuilt s props along t v op) := by
  cases op with
  | top => exact Yields.pure (.of_means hs trivial (means_constant hs.toShaped true))
  | bot => exact Yields.pure (.of_means hs trivial (means_constant hs.toShaped false))
  | atom p => exact Yields.pure (.of_means hs trivial (means_constant hs.toShaped (props.contains p)))
  | neg c =>
      obtain ⟨f, hf, hvalid, hmean⟩ := entry_ok ht (hreads c (by simp [Operator.reads]))
      refine Yields.bind (DiagramM.read_ok hf (Yields.pure (.of_means hs trivial ⟨hvalid.neg, ?_⟩)))
      intro _ y
      simp only [meaning_neg hs.toShaped hvalid, entryMeaning, Operator.eval, hmean]
  | conj l r =>
      obtain ⟨f, hf, hvf, hmf⟩ := entry_ok ht (hreads l (by simp [Operator.reads]))
      obtain ⟨g, hg, hvg, hmg⟩ := entry_ok ht (hreads r (by simp [Operator.reads]))
      refine Yields.bind (DiagramM.read_ok hf (Yields.bind (DiagramM.read_ok hg ?_)))
      refine (DiagramM.and_spec hs hvf hvg).mono fun q s' hq => .of_built trivial ?_
      rw [← hmf, ← hmg] at hq
      exact hq
  | disj l r =>
      obtain ⟨f, hf, hvf, hmf⟩ := entry_ok ht (hreads l (by simp [Operator.reads]))
      obtain ⟨g, hg, hvg, hmg⟩ := entry_ok ht (hreads r (by simp [Operator.reads]))
      refine Yields.bind (DiagramM.read_ok hf (Yields.bind (DiagramM.read_ok hg ?_)))
      refine (DiagramM.or_spec hs hvf hvg).mono fun q s' hq => .of_built trivial ?_
      rw [← hmf, ← hmg] at hq
      exact hq
  | box a c =>
      obtain ⟨fs, hfs, hvalid, hmeans⟩ := entries_ok halong hv
      refine Yields.bind (DiagramM.read_ok hfs ((DiagramM.andMany_spec hs hvalid).mono fun q s' hq => ?_))
      refine .of_collected hs.toShaped halong (fun _ => Iff.rfl) (fun y => ?_) (hmeans ▸ hq)
      rw [foldl_and_eq_all, Bool.true_and]
      rfl
  | dia a c =>
      obtain ⟨fs, hfs, hvalid, hmeans⟩ := entries_ok halong hv
      refine Yields.bind (DiagramM.read_ok hfs ((DiagramM.orMany_spec hs hvalid).mono fun q s' hq => ?_))
      refine .of_collected hs.toShaped halong (fun _ => Iff.rfl) (fun y => ?_) (hmeans ▸ hq)
      rw [foldl_or_eq_any, Bool.false_or]
      rfl

/-- Replacing an entry. -/
lemma Lives.set (ht : t.Lives s n) {f : Handle} {F : (Nat → Bool) → Bool} (hf : s.Means f F)
    (hv : v < n) : (⟨t.entries.setIfInBounds v f⟩ : Transformer).Lives s n ∧
      (s.overflowed = false → ∀ w y, (⟨t.entries.setIfInBounds v f⟩ : Transformer).meaningAt s w y
        = if w = v then F y else t.meaningAt s w y) := by
  have hlt : v < t.entries.size := ht.size.symm ▸ hv
  refine ⟨⟨by simp [ht.size], fun g hg => ?_⟩, fun ho w y => ?_⟩
  · rcases Array.mem_or_eq_of_mem_setIfInBounds hg with hg | rfl
    · exact ht.valid g hg
    · exact hf.valid
  · simp only [meaningAt, Array.getElem?_setIfInBounds]
    by_cases hw : w = v
    · subst hw
      simp [hlt, hf.meaning ho]
    · simp [hw, Ne.symm hw]

/-! ### One entry after another

The entry is stored, and the summary changes in one place.  What was known of the entries along the edges
stays true, since the store only grows.
-/

/-- The operands of the listed variables exist. -/
def Readable (e : EquationSystem) (vars : List Nat) : Prop :=
  ∀ v ∈ vars, ∃ op, e.operator? v = some op ∧ ∀ w ∈ op.reads, w < e.size

/-- The variables of a block have operators whose operands exist. -/
lemma readable_block (h : e.WellFormed) {b : Nat} {block : Block} (hblock : e.blocks[b]? = some block) :
    Readable e block.vars := by
  intro v hv
  obtain ⟨op, hop⟩ := EquationSystem.operator?_of_lt (h.vars_lt _ v ⟨block, hblock, hv⟩)
  exact ⟨op, hop, fun w hw => h.operands_lt v op hop w (Operator.mem_operands_of_reads hw)⟩

/-- Computing an entry again is refreshing the summary. -/
lemma summary_refresh {own own' : Transformer} {op : Operator} (hop : e.operator? v = some op)
    (hset : ∀ w y, own'.meaningAt s' w y
      = if w = v then entryMeaning s props along own v op y else own.meaningAt s w y) :
    own'.summary s'
      = e.refresh (props.contains ·) (along.map fun t => t.summary s) (own.summary s) v := by
  funext w x
  simp only [summary, hset, EquationSystem.refresh, Function.update_apply]
  split
  · simp only [EquationSystem.rhs, hop, entryMeaning, List.all_map, List.any_map]
    rfl
  · rfl

/-- **Computing one entry again** refreshes the summary.  It needs no node if the intermediate results and
the result have handles. -/
lemma updateEntry_spec (hs : s.Sound) (ht : t.Lives s e.size) (halong : ∀ u ∈ along, u.Lives s e.size)
    {op : Operator} (hop : e.operator? v = some op) (hreads : ∀ w ∈ op.reads, w < e.size) :
    Yields (updateEntry e props along t.entries v) s fun entries s' =>
      s.Grows s' ∧ (⟨entries⟩ : Transformer).Lives s' e.size ∧
      (∀ w, w ≠ v → entries[w]? = t.entries[w]?) ∧
      (s'.overflowed = false →
        (⟨entries⟩ : Transformer).summary s' = e.refresh (props.contains ·)
          (along.map fun u => u.summary s) (t.summary s) v ∧
        Gathered s' along v op) ∧
      (s.overflowed = false → Gathered s along v op →
        s.Represents (entryMeaning s props along t v op) → s.Quiet s') := by
  have hv := EquationSystem.lt_size_of_operator? hop
  simp only [updateEntry, hop]
  refine Yields.map_pure ((operatorEntry_spec hs ht halong hv hreads).mono ?_)
  rintro f s' ⟨hg, hf, hgath, hquiet⟩
  obtain ⟨hlives, hset⟩ := (ht.grows hg).set hf hv
  refine ⟨hg, hlives, fun w hw => Array.getElem?_setIfInBounds_ne hw.symm, fun ho => ⟨?_, hgath ho⟩,
    hquiet⟩
  refine summary_refresh hop fun w y => ?_
  rw [hset ho w y, meaningAt_grows hs.toShaped ht hg]

/-- Summaries along the edges stay the same. -/
lemma map_summary_grows (hs : s.Shaped) (halong : ∀ u ∈ along, u.Lives s n) (hg : s.Grows s') :
    (along.map fun u => u.summary s') = along.map fun u => u.summary s :=
  List.map_congr_left fun u hu => summary_grows hs (halong u hu) hg

/-- **An update is a pass over the equations of its variables.**  The entries of other variables stay. -/
lemma update_spec (hs : s.Sound) (ht : t.Lives s e.size) (halong : ∀ u ∈ along, u.Lives s e.size)
    {vars : List Nat} (hvars : Readable e vars) :
    Yields (update e t props along vars) s fun r s' =>
      s.Grows s' ∧ r.Lives s' e.size ∧ (∀ w, w ∉ vars → r.entries[w]? = t.entries[w]?) ∧
      (s'.overflowed = false →
        r.summary s' = e.pass (props.contains ·) (along.map fun u => u.summary s) vars
          (t.summary s) ∧
        ∀ v ∈ vars, ∀ op, e.operator? v = some op → Gathered s' along v op) := by
  -- what is left of the pass leads to the same end from here as the whole pass did from the start
  have h := Yields.foldlM (f := updateEntry e props along)
    (fun rest entries s₁ => s.Grows s₁ ∧ (⟨entries⟩ : Transformer).Lives s₁ e.size ∧
      (∀ v ∈ rest, v ∈ vars) ∧ (∀ w, w ∉ vars → entries[w]? = t.entries[w]?) ∧
      (s₁.overflowed = false →
        e.pass (props.contains ·) (along.map fun u => u.summary s) rest
            ((⟨entries⟩ : Transformer).summary s₁)
          = e.pass (props.contains ·) (along.map fun u => u.summary s) vars (t.summary s) ∧
        ∀ v ∈ vars, v ∈ rest ∨ ∀ op, e.operator? v = some op → Gathered s₁ along v op))
    vars t.entries s ⟨Grows.refl hs, ht, fun _ hv => hv, fun _ _ => rfl,
      fun _ => ⟨rfl, fun v hv => Or.inl hv⟩⟩ ?_
  · refine Yields.map_pure (h.mono ?_)
    rintro entries s' ⟨hg, hlives, -, hothers, hmean⟩
    refine ⟨hg, hlives, hothers, fun ho => ⟨(hmean ho).1, fun v hv => ?_⟩⟩
    rcases (hmean ho).2 v hv with h | h
    · simp at h
    · exact h
  · rintro v rest entries s₁ ⟨hg, hlives, hrest, hothers, hmean⟩
    obtain ⟨op, hop, hreads⟩ := hvars v (hrest v (by simp))
    have halong₁ : ∀ u ∈ along, u.Lives s₁ e.size := fun u hu => (halong u hu).grows hg
    refine (updateEntry_spec (t := ⟨entries⟩) hg.sound hlives halong₁ hop hreads).mono ?_
    rintro entries' s₂ ⟨hg₂, hlives₂, hothers₂, hrefresh, -⟩
    refine ⟨hg.trans hg₂, hlives₂, fun w hw => hrest w (by simp [hw]), fun w hw => ?_,
      fun ho => ⟨?_, fun w hw => ?_⟩⟩
    · have hwv : w ≠ v := fun heq => hw (heq ▸ hrest v (by simp))
      rw [hothers₂ w hwv, hothers w hw]
    · rw [← (hmean (hg₂.overflowed ho)).1, (hrefresh ho).1, map_summary_grows hs.toShaped halong hg]
      rfl
    · rcases (hmean (hg₂.overflowed ho)).2 w hw with h | h
      · rcases List.mem_cons.1 h with rfl | h
        · refine Or.inr fun op' hop' => ?_
          obtain rfl := Option.some.inj (hop.symm.trans hop')
          exact (hrefresh ho).2
        · exact Or.inl h
      · exact Or.inr fun op' hop' => (h op' hop').grows hg.sound.toShaped halong₁ hg₂

/-! ### Summaries tell transformers apart

A summary has lost the diagram variable zero, which no input stands for.  No node tests it, so nothing is
lost.
-/

/-- A diagram variable after the first reads an input, so an entry is known from its summary. -/
lemma meaningAt_eq_summary (hs : s.Shaped) (ht : t.Lives s n) (hv : v < n) (y : Nat → Bool) :
    t.meaningAt s v y = t.summary s v fun w => y (w + 1) := by
  obtain ⟨f, hf, hvalid⟩ := ht.getElem? hv
  simp only [summary, meaningAt, hf]
  refine meaning_congr hs hvalid fun d hd => ?_
  rw [shifted, Nat.sub_add_cancel hd]

/-- Entries of the same summary have the same meaning. -/
lemma meaning_eq_of_summary_eq (hs : s.Shaped) (hs' : s'.Shaped) (ht : t.Lives s n)
    (hu : u.Lives s' n) (hv : v < t.entries.size) (hv' : v < u.entries.size)
    (h : t.summary s v = u.summary s' v) (y : Nat → Bool) :
    s.meaning t.entries[v] y = s'.meaning u.entries[v] y := by
  have hvn : v < n := ht.size ▸ hv
  have hy := congrFun h fun w => y (w + 1)
  rw [← meaningAt_eq_summary hs ht hvn, ← meaningAt_eq_summary hs' hu hvn] at hy
  simpa only [meaningAt, Array.getElem?_eq_getElem hv, Array.getElem?_eq_getElem hv'] using hy

/-- Transformers of a store with the same summary are the same. -/
lemma eq_of_summary_eq (hs : s.Shaped) (ht : t.Lives s n) (hu : u.Lives s n)
    (h : ∀ v, v < n → t.summary s v = u.summary s v) : t = u := by
  obtain ⟨ts⟩ := t
  obtain ⟨us⟩ := u
  congr 1
  refine Array.ext (ht.size.trans hu.size.symm) fun v hv hv' => ?_
  exact canonical hs (ht.valid _ (Array.getElem_mem hv)) (hu.valid _ (Array.getElem_mem hv'))
    (meaning_eq_of_summary_eq hs hs ht hu hv hv' (h v (ht.size ▸ hv)))

/-! ## Updates that were made before

The diagrams of an update are those of its modal entries, in part and as a whole, and those of its results.
All of them stay in the store.  If the same update is made again, each handle that it asks for is there; and
as a function has one handle only, the outcome is the same transformer.  Here it matters that no variable
occurs twice in a block, because the entry of a variable is then the one that it has in the end.
-/

/-- **An update leads from `t` to `r`**, and all intermediate results of its modal entries have handles. -/
structure Renews (s : Store) (e : EquationSystem) (props : List String) (along : List Transformer)
    (vars : List Nat) (t r : Transformer) : Prop where
  before : t.Lives s e.size
  edges : ∀ u ∈ along, u.Lives s e.size
  after : r.Lives s e.size
  summary : r.summary s
    = e.pass (props.contains ·) (along.map fun u => u.summary s) vars (t.summary s)
  gathered : ∀ v ∈ vars, ∀ op, e.operator? v = some op → Gathered s along v op

lemma Renews.grows {r : Transformer} {vars : List Nat} (h : Renews s e props along vars t r)
    (hs : s.Shaped) (hg : s.Grows s') : Renews s' e props along vars t r where
  before := h.before.grows hg
  edges := fun u hu => (h.edges u hu).grows hg
  after := h.after.grows hg
  summary := by
    rw [summary_grows hs h.after hg, summary_grows hs h.before hg, map_summary_grows hs h.edges hg,
      h.summary]
  gathered := fun v hv op hop => (h.gathered v hv op hop).grows hs h.edges hg

/-- What an entry is to mean is the right-hand side of its variable. -/
lemma entryMeaning_eq_rhs (hs : s.Shaped) (ht : t.Lives s e.size)
    (halong : ∀ u ∈ along, u.Lives s e.size) {op : Operator} (hop : e.operator? v = some op)
    (hreads : ∀ w ∈ op.reads, w < e.size) (y : Nat → Bool) :
    entryMeaning s props along t v op y = e.rhs (props.contains ·) (along.map fun u => u.summary s)
      (t.summary s) v fun d => y (d + 1) := by
  have hv := EquationSystem.lt_size_of_operator? hop
  have hall : (along.all fun u => u.meaningAt s v y)
      = along.all ((fun u => u v fun d => y (d + 1)) ∘ fun u => u.summary s) :=
    all_congr_of_mem fun u hu => meaningAt_eq_summary hs (halong u hu) hv y
  have hany : (along.any fun u => u.meaningAt s v y)
      = along.any ((fun u => u v fun d => y (d + 1)) ∘ fun u => u.summary s) :=
    any_congr_of_mem fun u hu => meaningAt_eq_summary hs (halong u hu) hv y
  simp only [EquationSystem.rhs, hop, entryMeaning, List.all_map, List.any_map]
  rw [hall, hany]
  exact Operator.eval_congr fun w hw => meaningAt_eq_summary hs ht (hreads w hw) y

/-- **An update that was made before** leads to the same transformer again and needs no node. -/
lemma Renews.update_again {r : Transformer} {vars : List Nat}
    (h : Renews s e props along vars t r) (hs : s.Sound) (ho : s.overflowed = false)
    (hvars : Readable e vars) (hnodup : vars.Nodup) :
    Yields (update e t props along vars) s fun r' s' => r' = r ∧ s.Grows s' ∧ s.Quiet s' := by
  have hfold := Yields.foldlM (f := updateEntry e props along)
    (fun rest entries s₁ => s.Grows s₁ ∧ s.Quiet s₁ ∧ (⟨entries⟩ : Transformer).Lives s₁ e.size ∧
      ∃ before, vars = before ++ rest ∧ (⟨entries⟩ : Transformer).summary s₁
        = e.pass (props.contains ·) (along.map fun u => u.summary s) before (t.summary s))
    vars t.entries s ⟨Grows.refl hs, Quiet.refl s, h.before, [], rfl, rfl⟩ ?_
  · refine Yields.map_pure (hfold.mono ?_)
    rintro entries s' ⟨hg, hq, hlives, before, hbefore, hsummary⟩
    rw [List.append_nil] at hbefore
    subst hbefore
    refine ⟨eq_of_summary_eq hg.sound.toShaped hlives (h.after.grows hg) fun v _ => ?_, hg, hq⟩
    rw [hsummary, summary_grows hs.toShaped h.after hg, h.summary]
  · rintro v rest entries s₁ ⟨hg, hq, hlives, before, hbefore, hsummary⟩
    have hmem : v ∈ vars := by simp [hbefore]
    have hlater : v ∉ rest := by
      rw [hbefore, List.nodup_append] at hnodup
      exact (List.nodup_cons.1 hnodup.2.1).1
    obtain ⟨op, hop, hreads⟩ := hvars v hmem
    have hv := EquationSystem.lt_size_of_operator? hop
    have halong₁ : ∀ u ∈ along, u.Lives s₁ e.size := fun u hu => (h.edges u hu).grows hg
    have ho₁ : s₁.overflowed = false := hq.overflowed.trans ho
    have hafter := h.after.grows hg
    -- the entry that the update has left in the end means what is to be built at the variable's turn
    have hrep : s₁.Represents (entryMeaning s₁ props along ⟨entries⟩ v op) := by
      obtain ⟨f, hf, hvalid⟩ := hafter.getElem? hv
      refine ⟨f, hvalid, fun y => ?_⟩
      have hat : r.meaningAt s₁ v y = s₁.meaning f y := by
        simp only [meaningAt, hf]
      rw [entryMeaning_eq_rhs hg.sound.toShaped hlives halong₁ hop hreads, ← hat,
        meaningAt_eq_summary hg.sound.toShaped hafter hv, summary_grows hs.toShaped h.after hg,
        h.summary, hbefore, EquationSystem.pass_at hlater, hsummary,
        map_summary_grows hs.toShaped h.edges hg]
    refine (updateEntry_spec (t := ⟨entries⟩) hg.sound hlives halong₁ hop hreads).mono ?_
    rintro entries' s₂ ⟨hg₂, hlives₂, -, hrefresh, hquiet⟩
    have hq₂ := hquiet ho₁ ((h.gathered v hmem op hop).grows hs.toShaped h.edges hg) hrep
    refine ⟨hg.trans hg₂, hq.trans hq₂, hlives₂, before ++ [v], by simp [hbefore], ?_⟩
    rw [(hrefresh (hq₂.overflowed.trans ho₁)).1, hsummary, map_summary_grows hs.toShaped h.edges hg]
    simp only [EquationSystem.pass, List.foldl_append, List.foldl_cons, List.foldl_nil]

/-! ## Reading transformers

What is read off a transformer depends on its summary only: which variables hold for given inputs, and the
text that is written for it.
-/

/-- **Evaluation reads the summary.** -/
lemma evaluate_eq (hs : s.Shaped) (ht : t.Lives s n) (inputs : Array Bool) :
    t.evaluate s inputs
      = .ok (.ofBools ((List.range n).map fun v => t.summary s v (inputs.getD · false)).toArray) := by
  have hvalues : t.values s inputs
      = .ok (t.entries.toList.map fun f => s.meaning f (shifted (inputs.getD · false))) :=
    except_mapM_eq_map fun f hf => evalAt_eq hs (ht.valid f (Array.mem_toList_iff.1 hf))
  have hmap : (t.entries.toList.map fun f => s.meaning f (shifted (inputs.getD · false)))
      = (List.range n).map fun v => t.summary s v (inputs.getD · false) := by
    refine List.ext_getElem (by simp [ht.size]) fun v hv _ => ?_
    have hv' : v < t.entries.size := by simpa using hv
    simp only [List.getElem_map, List.getElem_range, Array.getElem_toList, summary, meaningAt,
      Array.getElem?_eq_getElem hv']
  rw [evaluate, hvalues, hmap]
  rfl

lemma evaluate_ok (hs : s.Shaped) (ht : t.Lives s n) (inputs : Array Bool) :
    ∃ vars, t.evaluate s inputs = .ok vars ∧
      ∀ v, vars.contains v = (decide (v < n) && t.summary s v (inputs.getD · false)) := by
  refine ⟨_, evaluate_eq hs ht inputs, fun v => ?_⟩
  rw [VarSet.contains_ofBools]
  by_cases hv : v < n <;> simp [hv]

/-- **Transformers of the same summary have the same serial form**, also in different stores. -/
lemma serial_eq_of_summary_eq (hs : s.Shaped) (hs' : s'.Shaped) (ht : t.Lives s n)
    (hu : u.Lives s' n) (h : ∀ v, v < n → t.summary s v = u.summary s' v) :
    ∃ texts, t.serial s = .ok texts ∧ u.serial s' = .ok texts := by
  refine except_mapM_agree (List.forall₂_iff_get.2 ⟨by simp [ht.size, hu.size], fun v hv hv' => ?_⟩)
  have hv₁ : v < t.entries.size := by simpa using hv
  have hv₂ : v < u.entries.size := by simpa using hv'
  simp only [List.get_eq_getElem, Array.getElem_toList]
  exact serial_eq_of_agree hs hs' (ht.valid _ (Array.getElem_mem hv₁))
    (hu.valid _ (Array.getElem_mem hv₂))
    (meaning_eq_of_summary_eq hs hs' ht hu hv₁ hv₂ (h v (ht.size ▸ hv₁)))

/-- A transformer can be written. -/
lemma Lives.exists_serial (hs : s.Shaped) (ht : t.Lives s n) : ∃ texts, t.serial s = .ok texts := by
  obtain ⟨texts, htexts, -⟩ := serial_eq_of_summary_eq hs hs ht ht fun _ _ => rfl
  exact ⟨texts, htexts⟩

/-- Transformers are written the same in a store that has grown. -/
lemma serial_grows (hs : s.Shaped) (ht : t.Lives s n) (hg : s.Grows s') :
    t.serial s' = t.serial s := by
  obtain ⟨texts, h, h'⟩ := serial_eq_of_summary_eq hs hg.sound.toShaped ht (ht.grows hg)
    fun v _ => by rw [summary_grows hs ht hg]
  rw [h, h']

end Transformer

end ModalCalls
