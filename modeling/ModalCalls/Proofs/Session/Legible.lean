import Mathlib
import ModalCalls.Proofs.Diagram.Writable
import ModalCalls.Proofs.Session.Regular

/-!
# What a session holds can be written

The transformers of a session are written in serial form, and they can be read again if the numbers in them
are not too large.  They never are: a session that has begun has a node for each variable of its equations,
so there are fewer variables than the store has places (`Session.OnTrack.size_lt`).  From then on no variable is
tested that the equations do not have.

`Session.Legible` is what the operations of a session keep for this (`SessionM.KeepsLegible.candidate`).  It
says as well that no edge label is noted twice, so that all transformers of edges are known to live in the
store.
-/

namespace ModalCalls

/-! ## Transformers

Operations on transformers name variables in two places, in the identity and in the entry of a modality.
All else is put together with if-then-else and composition, which name no variable that was not named
before.
-/

namespace Transformer

open DiagramM

variable {e : EquationSystem}

/-- The operands of an equation system have 32 bits, as variables of diagrams. -/
def NamesWords (e : EquationSystem) : Prop :=
  ∀ v op, e.operator? v = some op → ∀ w ∈ op.operands, w + 1 < 2 ^ 32

lemma input_keepsWritable {v : Nat} (hv : v + 1 < 2 ^ 32) : KeepsWritable (input v) fun _ => True :=
  KeepsWritable.mkNode hv .zero .one

lemma identity_keepsWritable (hsize : e.size < 2 ^ 32) :
    KeepsWritable (identity e) fun _ => True := by
  refine .of_bind (.mapM fun v hv => input_keepsWritable ?_) fun _ => .pure trivial
  have := List.mem_range.1 hv
  omega

lemma ofEdge_keepsWritable (h : NamesWords e) (label : String) (modality : Modality) :
    KeepsWritable (ofEdge e label modality) fun _ => True := by
  refine .of_bind (.mapM fun q hq => ?_) fun _ => .pure trivial
  obtain ⟨v, hv⟩ := Array.getElem?_of_mem (Array.mem_toList_iff.1 hq)
  have hop : e.operator? v = some q.operator := by rw [EquationSystem.operator?, hv, Option.map_some]
  have hwords := h v q.operator hop
  cases hq : q.operator with
  | box action child =>
      simp only [edgeEntry]
      split
      · exact input_keepsWritable (hwords child (by simp [hq, Operator.operands]))
      · exact .pure trivial
  | dia action child =>
      simp only [edgeEntry]
      split
      · exact input_keepsWritable (hwords child (by simp [hq, Operator.operands]))
      · exact .pure trivial
  | _ => exact .pure trivial

lemma compose_keepsWritable (t u : Transformer) : KeepsWritable (t.compose u) fun _ => True :=
  .of_bind (.mapM fun f _ => .compose f u.entries) fun _ => .pure trivial

lemma operatorEntry_keepsWritable (props : List String) (along : List Transformer)
    (entries : Array Handle) (v : Nat) (op : Operator) :
    KeepsWritable (operatorEntry props along entries v op) fun _ => True := by
  have hread : ∀ {α : Type} (query : Store → Except Fault α),
      KeepsWritable (DiagramM.read query) fun _ => True := fun _ => .read fun _ _ _ _ => trivial
  cases op with
  | top => exact .pure trivial
  | bot => exact .pure trivial
  | atom p => exact .pure trivial
  | neg c => exact .of_bind (hread _) fun _ => .pure trivial
  | conj l r => exact .of_bind (hread _) fun f => .of_bind (hread _) fun g => .ite f g _
  | disj l r => exact .of_bind (hread _) fun f => .of_bind (hread _) fun g => .ite f _ g
  | box a c => exact .of_bind (hread _) fun fs => .andAll fs _
  | dia a c => exact .of_bind (hread _) fun fs => .orAll fs _

lemma update_keepsWritable (e : EquationSystem) (t : Transformer) (props : List String)
    (along : List Transformer) (vars : List Nat) :
    KeepsWritable (update e t props along vars) fun _ => True := by
  refine .of_bind (.foldlM (fun entries v => ?_) vars t.entries) fun _ => .pure trivial
  rw [updateEntry]
  split
  · exact .throw
  · exact .of_bind (operatorEntry_keepsWritable props along entries v _) fun _ => .pure trivial

end Transformer

/-! ## Sessions

Why are the numbers of variables small enough?  A session that has begun has the identity at a final state,
whose entries are different nodes.  So there are no more variables than places in the store, and the places
are bounded by its size.
-/

namespace Session

open Transformer

variable {s : Session}

/-- **The numbers in a session are small enough to be read again**, once they are written, and no edge label
is noted twice. -/
structure Legible (s : Session) : Prop where
  words : NamesWords s.equations
  store : s.store.Writable
  labels : ∀ modality, ((s.edgeTransformers modality).map Prod.fst).Nodup

/-- All transformers of edges that are noted live in the store. -/
lemma Legible.lives (h : s.Legible) (hs : s.Intact) {modality : Modality} {label : String}
    {t : Transformer} (ht : (label, t) ∈ s.edgeTransformers modality) :
    t.Lives s.store s.equations.size := by
  refine (hs.labels modality label t ?_).1
  have hnodup := h.labels modality
  generalize s.edgeTransformers modality = l at ht hnodup
  induction l with
  | nil => simp at ht
  | cons a l ih =>
      rw [List.map_cons, List.nodup_cons] at hnodup
      rcases List.mem_cons.1 ht with rfl | ht
      · simp
      · have hne : label ≠ a.1 := fun heq => hnodup.1 (heq ▸ List.mem_map_of_mem ht)
        rw [List.lookup_cons, beq_eq_false_iff_ne.2 hne]
        exact ih ht hnodup.2

lemma Legible.of_shares {s' : Session} (h : s.Legible) (hs : s.Shares s') : s'.Legible where
  words := hs.equations ▸ h.words
  store := hs.store ▸ h.store
  labels := hs.edgeTransformers ▸ h.labels

lemma edgeTransformers_setStore (s : Session) (store : Store) :
    edgeTransformers { s with store := store } = s.edgeTransformers := by
  funext modality
  cases modality <;> rfl

lemma Legible.setStore (h : s.Legible) {store : Store} (hstore : store.Writable) :
    Legible { s with store := store } where
  words := h.words
  store := hstore
  labels := by
    rw [edgeTransformers_setStore]
    exact h.labels

/-- A label is noted only if it was not noted before. -/
lemma Legible.addEdgeTransformer (h : s.Legible) {modality : Modality} {label : String}
    (hnew : (s.edgeTransformers modality).lookup label = none) (t : Transformer) :
    (s.addEdgeTransformer modality label t).Legible where
  words := by cases modality <;> exact h.words
  store := by cases modality <;> exact h.store
  labels modality' := by
    have hnodup := h.labels modality'
    rw [edgeTransformers_addEdgeTransformer]
    split
    · next heq =>
        subst heq
        rw [List.map_append, List.map_singleton]
        refine List.nodup_append.2 ⟨hnodup, List.nodup_singleton _, ?_⟩
        rintro a ha b hb rfl
        obtain ⟨c, hc, rfl⟩ := List.mem_map.1 ha
        have hne := List.lookup_eq_none_iff.1 hnew c hc
        simp [List.mem_singleton.1 hb] at hne
    · rw [List.append_nil]
      exact hnodup

/-- Handles that read different inputs have different nodes. -/
lemma eq_of_index_eq {s : Store} (hs : s.Shaped) {f g : Handle} {v w : Nat} (hf : s.Valid f)
    (hg : s.Valid g) (hfv : ∀ x, s.meaning f (shifted x) = x v)
    (hgw : ∀ x, s.meaning g (shifted x) = x w) (hindex : f.index = g.index) : v = w := by
  have hsign : ∀ {k : Handle}, s.Valid k → ∀ y, s.meaning k y
      = (k.isNegated ^^ s.meaning (.positive k.index) y) := by
    intro k hk y
    conv_lhs => rw [k.eq_negateIf_positive]
    exact Store.meaning_negateIf hs hk.positive _
  -- both read false where all inputs are false, so they have the same sign
  have hzero := (hfv fun _ => false).trans (hgw fun _ => false).symm
  rw [hsign hf, hsign hg, hindex] at hzero
  have hfg : f = g := by
    rw [f.eq_negateIf_positive, g.eq_negateIf_positive, hindex, Bool.xor_left_inj.1 hzero]
  have hw := hfv fun d => decide (d = w)
  rw [hfg, hgw] at hw
  simpa using hw.symm

/-- **A session has fewer variables than its store has places**: the final state of the main procedure reads
each of them by a node of its own. -/
lemma OnTrack.size_lt (h : s.OnTrack) : s.equations.size < s.store.capacity := by
  obtain ⟨q, hq⟩ := h.program.main
  obtain ⟨t, ht, hidentity⟩ := h.regular.finals _ q hq
  have hentry : ∀ v, v < s.equations.size → ∃ f, t.entries[v]? = some f ∧ s.store.Valid f ∧
      ∀ x : Nat → Bool, s.store.meaning f (shifted x) = x v := by
    intro v hv
    obtain ⟨f, hf, hvalid⟩ := (h.lives _ _ t ht).getElem? hv
    refine ⟨f, hf, hvalid, fun x => ?_⟩
    have hx := congrFun (congrFun hidentity v) x
    simpa only [summary, meaningAt, hf] using hx
  have hle : (Finset.range s.equations.size).card ≤ (Finset.Icc 1 s.store.size).card := by
    refine Finset.card_le_card_of_injOn (fun v => (t.entries.getD v .one).index) ?_ ?_
    · intro v hv
      obtain ⟨f, hf, hvalid, -⟩ := hentry v (by simpa using hv)
      have hindex := Table.value?_eq_some.1 hvalid
      simp only [Array.getD_eq_getD_getElem?, hf, Option.getD_some, Finset.coe_Icc, Set.mem_Icc]
      exact hindex
    · intro v hv w hw heq
      obtain ⟨f, hf, hvalid, hfv⟩ := hentry v (by simpa using hv)
      obtain ⟨g, hg, hvalid', hgw⟩ := hentry w (by simpa using hw)
      simp only [Array.getD_eq_getD_getElem?, hf, hg, Option.getD_some] at heq
      exact eq_of_index_eq h.store.toShaped hvalid hvalid' hfv hgw heq
  rw [Finset.card_range, Nat.card_Icc] at hle
  have := h.store.room
  omega

/-- **A session begins legible.** -/
theorem begin_legible {p : Program} {o : Options} {f : Formula} {j j' : Journal} (hp : p.WellFormed)
    (hbits : Store.validBits o.storageBits = true) (h : begin p o f j = .ok s j') : s.Legible := by
  have hontrack := (begin_spec hp hbits h).1
  have hlt := hontrack.size_lt
  obtain ⟨e, prs, store, -, hprs, -, rfl⟩ := begin_eq_ok_iff.1 ⟨j', h⟩
  have hempty := Store.empty_writable hbits
  have hgrows := ((startProgress_all (e := e) o.pick (Store.empty_sound hbits)
    p.procedures.toList).post_of_ok hprs).1
  have hsize : e.size < 2 ^ 31 := by
    have hcapacity : store.capacity ≤ 2 ^ 31 := hgrows.capacity ▸ hempty.capacity_le
    exact hlt.trans_le hcapacity
  refine ⟨fun v op hop w hw => ?_, ?_, fun modality => by cases modality <;> exact List.nodup_nil⟩
  · have := hontrack.equations.operands_lt v op hop w hw
    have : w < e.size := this
    omega
  · have hkeeps : DiagramM.KeepsWritable (p.procedures.toList.mapM (startProgress o.pick e))
        fun _ => True := by
      refine .mapM fun q _ => .of_bind (.of_bind (.mapM fun n _ => ?_) fun _ => .pure trivial)
        fun _ => .pure trivial
      split
      · exact identity_keepsWritable (by omega)
      · exact .pure trivial
    exact (hkeeps _ _ _ hempty hprs).1

end Session

/-! ## Computing a transformer

As with stores, the property is put together along the definitions.  Nothing is claimed of an operation that
fails: records are told after runs that end well.
-/

namespace SessionM

open Session Transformer

variable {α β : Type} {r r' : Run}

lemma onStore_eq_ok {x : DiagramM α} {a : α} (h : onStore x r = .ok a r') :
    ∃ store, x r.session.store = .ok a store ∧ r'.session = { r.session with store := store } := by
  simp only [onStore] at h
  split at h
  · next b store hx =>
      cases h
      exact ⟨store, hx, rfl⟩
  · cases h

/-- An operation that succeeds leaves a legible session if it found one. -/
def KeepsLegible (x : SessionM α) : Prop :=
  ∀ r a r', r.session.Legible → x r = .ok a r' → r'.session.Legible

namespace KeepsLegible

variable {x : SessionM α} {f : α → SessionM β}

lemma pure (a : α) : KeepsLegible (Pure.pure a) := by
  rintro r b r' hr ⟨⟩
  exact hr

lemma bind (hx : KeepsLegible x) (hf : ∀ a, KeepsLegible (f a)) : KeepsLegible (x >>= f) := by
  intro r b r' hr h
  obtain ⟨a, r₁, hxr, hfr⟩ := bind_eq_ok h
  exact hf a r₁ b r' (hx r a r₁ hr hxr) hfr

lemma inspect (query : Session → Except Fault α) : KeepsLegible (SessionM.inspect query) := by
  intro r a r' hr h
  obtain ⟨-, rfl⟩ := inspect_eq_ok h
  exact hr

lemma onStore {x : DiagramM α} (hx : DiagramM.KeepsWritable x fun _ => True) :
    KeepsLegible (SessionM.onStore x) := by
  intro r a r' hr h
  obtain ⟨store, hstore, hsession⟩ := onStore_eq_ok h
  rw [hsession]
  exact hr.setStore (hx _ _ _ hr.store hstore).1

lemma mapM {f : α → SessionM β} (hf : ∀ a, KeepsLegible (f a)) :
    ∀ l : List α, KeepsLegible (l.mapM f)
  | [] => pure []
  | a :: l => by
      rw [List.mapM_cons]
      exact bind (hf a) fun b => bind (mapM hf l) fun bs => pure _

lemma labelTransformer (label : String) (modality : Modality) :
    KeepsLegible (SessionM.labelTransformer label modality) := by
  intro r t r' hr h
  obtain ⟨found, r₀, hfound, h⟩ := bind_eq_ok h
  obtain ⟨hlookup, rfl⟩ := inspect_eq_ok hfound
  cases found with
  | some t₀ =>
      cases h
      exact hr
  | none =>
      obtain ⟨_, r₁, hreport, h⟩ := bind_eq_ok h
      cases hreport
      obtain ⟨e, r₂, he, h⟩ := bind_eq_ok h
      obtain ⟨he, rfl⟩ := inspect_eq_ok he
      cases he
      obtain ⟨t₁, r₃, hedge, h⟩ := bind_eq_ok h
      obtain ⟨_, r₄, hchange, h⟩ := bind_eq_ok h
      cases hchange
      cases h
      have hr₃ : r₃.session.Legible :=
        onStore (ofEdge_keepsWritable hr.words label modality) _ t r₃ (by exact hr) hedge
      obtain ⟨store, -, hsession⟩ := onStore_eq_ok hedge
      refine hr₃.addEdgeTransformer ?_ t
      rw [hsession, edgeTransformers_setStore]
      exact Except.ok.inj hlookup

lemma alongEdge (i : Nat) (edge : Edge) : KeepsLegible (SessionM.alongEdge i edge) := by
  refine .bind ?_ fun step => .bind (.inspect _) fun target => .onStore (compose_keepsWritable step target)
  rw [edgeTransformer]
  split
  · exact .inspect _
  · exact .labelTransformer edge.label edge.modality

/-- **Computing a transformer keeps a session legible.** -/
lemma candidate (i n : Nat) : KeepsLegible (SessionM.candidate i n) :=
  .bind (.inspect _) fun _ => .bind (.mapM (.alongEdge i) _) fun ts => .bind (.inspect _) fun old =>
    .bind (.inspect _) fun e => .bind (.inspect _) fun vars =>
      .bind (.onStore (update_keepsWritable e old _ ts vars)) fun _ => .pure _

end KeepsLegible

end SessionM

end ModalCalls
