import Mathlib
import ModalCalls.Proofs.Diagram.Issued
import ModalCalls.Proofs.Diagram.Twin

/-!
# Stores whose diagrams can be written

The serial form of a diagram has a variable and two references for each node, and readers take variables of
32 bits and references of 64 bits.  A store whose numbers are not larger is `Store.Writable`.

Operations do not name variables on their own account: they take them from the nodes of the store, or from
their caller.  So they keep a store writable as long as the caller names variables of 32 bits
(`Store.Call.run_keepsWritable`), whether or not there was room.  `DiagramM.KeepsWritable` is put together along the
definition of an operation.  It claims nothing if an operation fails, so nothing has to be known of handles.
-/

namespace ModalCalls

/-- **The numbers of a store are small enough to be read again**, once they are written. -/
structure Store.Writable (s : Store) : Prop where
  var_lt : ∀ i n, s.table.value? i = some n → n.var < 2 ^ 32
  capacity_le : s.capacity ≤ 2 ^ 31

namespace DiagramM

open Store

variable {α β : Type}

/-- An operation that succeeds leaves a writable store if it found one, and `post` holds of its answer. -/
def KeepsWritable (x : DiagramM α) (post : α → Prop) : Prop :=
  ∀ s a s', s.Writable → x s = .ok a s' → s'.Writable ∧ post a

namespace KeepsWritable

variable {post : α → Prop} {post' : β → Prop} {x : DiagramM α} {f : α → DiagramM β}

lemma pure {a : α} (h : post a) : KeepsWritable (Pure.pure a) post := by
  rintro s b s' hs ⟨⟩
  exact ⟨hs, h⟩

lemma throw {e : Fault} : KeepsWritable (α := α) (MonadExcept.throw e) post := by
  rintro s b s' hs ⟨⟩

lemma bind (hx : KeepsWritable x post) (hf : ∀ a, post a → KeepsWritable (f a) post') :
    KeepsWritable (x >>= f) post' := by
  intro s b s' hs h
  obtain ⟨a, s₁, hxs, hfs⟩ := bind_eq_ok h
  obtain ⟨hs₁, ha⟩ := hx s a s₁ hs hxs
  exact hf a ha s₁ b s' hs₁ hfs

/-- Looking at the store. -/
lemma read {query : Store → Except Fault α} (h : ∀ s a, s.Writable → query s = .ok a → post a) :
    KeepsWritable (DiagramM.read query) post := by
  intro s a s' hs hq
  obtain ⟨hquery, rfl⟩ := read_eq_ok hq
  exact ⟨hs, h s' a hs hquery⟩

lemma get : KeepsWritable MonadState.get fun _ => True := by
  rintro s a s' hs ⟨⟩
  exact ⟨hs, trivial⟩

/-- Most answers are handles, of which nothing needs to be known. -/
lemma of_bind {x : DiagramM α} {f : α → DiagramM β} (hx : KeepsWritable x fun _ => True)
    (hf : ∀ a, KeepsWritable (f a) post') : KeepsWritable (x >>= f) post' :=
  hx.bind fun a _ => hf a

lemma mapM {f : α → DiagramM β} : ∀ {l : List α}, (∀ a ∈ l, KeepsWritable (f a) fun _ => True) →
    KeepsWritable (l.mapM f) fun _ => True
  | [], _ => .pure trivial
  | a :: l, h => by
      rw [List.mapM_cons]
      exact .of_bind (h a (by simp)) fun b => .of_bind (mapM fun c hc => h c (by simp [hc])) fun bs =>
        .pure trivial

lemma foldlM {f : β → α → DiagramM β} (h : ∀ b a, KeepsWritable (f b a) fun _ => True) :
    ∀ (l : List α) (b : β), KeepsWritable (l.foldlM f b) fun _ => True
  | [], _ => .pure trivial
  | a :: l, b => by
      rw [List.foldlM_cons]
      exact .of_bind (h b a) fun b' => foldlM h l b'

/-! ## Nodes

A node is stored with the variable that its caller names, and there is no other way for a variable to get
into a store.  Counters, cache and flag do not appear in a serial form, so it does not matter what happens
to them.
-/

lemma intern {n : Node} (hn : n.var < 2 ^ 32) : KeepsWritable (DiagramM.intern n) fun _ => True := by
  rintro ⟨table, cache, overflowed⟩ a s' hs h
  cases hfind : table.find? n with
  | some i =>
      simp only [DiagramM.intern, Table.put_of_find? hfind] at h
      cases h
      exact ⟨⟨hs.var_lt, hs.capacity_le⟩, trivial⟩
  | none =>
      by_cases hfull : table.isFull = true
      · simp only [DiagramM.intern, Table.put_of_full hfind hfull] at h
        cases h
        exact ⟨⟨hs.var_lt, hs.capacity_le⟩, trivial⟩
      · simp only [DiagramM.intern, Table.put_of_new hfind hfull] at h
        cases h
        refine ⟨⟨fun i m hm => ?_, ?_⟩, trivial⟩
        · rw [Table.value?_of_values (Table.values_intern _ _ _)] at hm
          split at hm
          · cases hm
            exact hn
          · exact hs.var_lt i m hm
        · rw [Store.capacity, Table.capacity_intern]
          exact hs.capacity_le

lemma mkNode {v : Nat} (hv : v < 2 ^ 32) (low high : Handle) :
    KeepsWritable (DiagramM.mkNode v low high) fun _ => True := by
  rw [DiagramM.mkNode]
  split
  · exact .throw
  · split
    · exact .pure trivial
    · split
      · exact .of_bind (.intern hv) fun _ => .pure trivial
      · exact .intern hv

lemma lookUp (t : Triple) : KeepsWritable (DiagramM.lookUp t) fun _ => True := by
  rintro ⟨table, cache, overflowed⟩ a s' hs h
  cases h
  exact ⟨⟨hs.var_lt, hs.capacity_le⟩, trivial⟩

lemma remember (t : Triple) (r : Handle) : KeepsWritable (DiagramM.remember t r) fun _ => True := by
  rintro ⟨table, cache, overflowed⟩ a s' hs h
  cases h
  exact ⟨⟨hs.var_lt, hs.capacity_le⟩, trivial⟩

/-- The nodes of a writable store test variables of 32 bits. -/
lemma var_lt_of_node {s : Store} (hs : s.Writable) {i : Nat} {n : Node} (h : s.node i = .ok n) :
    n.var < 2 ^ 32 := by
  simp only [Store.node, Table.value] at h
  split at h
  · next m hm =>
      cases h
      exact hs.var_lt i n hm
  · cases h

lemma node (i : Nat) : KeepsWritable (DiagramM.read (·.node i)) fun n => n.var < 2 ^ 32 :=
  .read fun _ _ hs h => var_lt_of_node hs h

/-! ## If-then-else

The variable at which a call is split is the smallest that its handles test, so it is taken from a node of
the store.  This is the only place where the answer of a query has to be known.
-/

lemma minVar_lt {s : Store} {v w : Nat} {f : Handle} (hv : v < 2 ^ 32)
    (h : s.minVar v f = .ok w) : w < 2 ^ 32 := by
  simp only [Store.minVar] at h
  split at h
  · cases h
    exact hv
  · obtain ⟨n, -, h⟩ := except_bind_eq_ok h
    cases h
    exact (Nat.min_le_left _ _).trans_lt hv

lemma topVar (t : Triple) : KeepsWritable (DiagramM.read (·.topVar t)) fun v => v < 2 ^ 32 := by
  refine .read fun s v hs h => ?_
  obtain ⟨n, hn, h⟩ := except_bind_eq_ok h
  obtain ⟨w, hw, h⟩ := except_bind_eq_ok h
  exact minVar_lt (minVar_lt (var_lt_of_node hs hn) hw) h

lemma iteWithin : ∀ (d : Nat) (t : Triple), KeepsWritable (DiagramM.iteWithin d t) fun _ => True
  | 0, t => .throw
  | d + 1, t => by
      rw [DiagramM.iteWithin]
      split
      · exact .pure trivial
      · refine .of_bind (.lookUp _) fun found => ?_
        split
        · exact .pure trivial
        · refine .bind (.topVar _) fun v hv => ?_
          refine .of_bind (.read fun _ _ _ _ => trivial) fun parts => ?_
          exact .of_bind (iteWithin d _) fun low => .of_bind (iteWithin d _) fun high =>
            .of_bind (.mkNode hv low high) fun r => .of_bind (.remember _ r) fun _ => .pure trivial

lemma ite (f g h : Handle) : KeepsWritable (DiagramM.ite f g h) fun _ => True :=
  .of_bind .get fun _ => iteWithin _ _

lemma andAll : ∀ (fs : List Handle) (acc : Handle),
    KeepsWritable (DiagramM.andAll acc fs) fun _ => True
  | [], _ => .pure trivial
  | f :: fs, acc => by
      refine .of_bind (.ite acc f _) fun r => ?_
      split
      · exact .pure trivial
      · exact andAll fs r

lemma orAll : ∀ (fs : List Handle) (acc : Handle),
    KeepsWritable (DiagramM.orAll acc fs) fun _ => True
  | [], _ => .pure trivial
  | f :: fs, acc => by
      refine .of_bind (.ite acc _ f) fun r => ?_
      split
      · exact .pure trivial
      · exact orAll fs r

/-! ## Substitution

A variable beyond the list is replaced by itself, and again it comes from a node.
-/

lemma composeWithin (subst : Array Handle) : ∀ (d : Nat) (f : Handle) (done : Rebuilt),
    KeepsWritable (DiagramM.composeWithin subst d f done) fun _ => True
  | 0, _, _ => .throw
  | d + 1, f, done => by
      rw [DiagramM.composeWithin]
      split
      · exact .pure trivial
      · split
        · exact .pure trivial
        · refine .bind (.node _) fun n hn => ?_
          refine .of_bind (composeWithin subst d _ _) fun low => ?_
          refine .of_bind (composeWithin subst d _ _) fun high => ?_
          refine .of_bind ?_ fun g => .of_bind (.ite _ _ _) fun r => .pure trivial
          rw [replacement]
          split
          · exact .pure trivial
          · exact .mkNode hn _ _

lemma compose (f : Handle) (subst : Array Handle) :
    KeepsWritable (DiagramM.compose f subst) fun _ => True :=
  .of_bind .get fun _ => .of_bind (composeWithin _ _ _ _) fun _ => .pure trivial

/-! ## Reading

A text may name variables that no node of the store tests.  The reader refuses those of more than 32 bits,
and this is what keeps the store writable whatever is read into it.
-/

/-- Readers take variables of 32 bits only. -/
lemma readEntry_lt {known : Array Handle} {text : List Char} {v : Nat} {low high : Handle}
    (h : Serial.readEntry known text = .ok (v, low, high)) : v < 2 ^ 32 := by
  simp only [Serial.readEntry] at h
  split at h
  · obtain ⟨w, hw, h⟩ := except_bind_eq_ok h
    obtain ⟨_, -, h⟩ := except_bind_eq_ok h
    obtain ⟨_, -, h⟩ := except_bind_eq_ok h
    cases h
    simp only [Serial.readVar] at hw
    split at hw
    · cases hw
    · cases hw
    · next hread =>
        cases hw
        simp only [Text.readNatBelow, Option.filter_eq_some_iff, decide_eq_true_eq] at hread
        exact hread.2
  · cases h

lemma ofEntries : ∀ (texts : List (List Char)) (known : Array Handle),
    KeepsWritable (DiagramM.ofEntries known texts) fun _ => True
  | [], _ => .pure trivial
  | text :: rest, known => by
      rw [DiagramM.ofEntries]
      split
      · exact .pure trivial
      · next v low high hentry =>
          refine .of_bind (.read fun _ _ _ _ => trivial) fun lowBelow => ?_
          refine .of_bind (.read fun _ _ _ _ => trivial) fun highBelow => ?_
          split
          · exact .of_bind (.mkNode (readEntry_lt hentry) low high) fun f => ofEntries rest _
          · exact .pure trivial

lemma ofSerial (text : String) : KeepsWritable (DiagramM.ofSerial text) fun _ => True := by
  refine .of_bind ?_ fun result => ?_
  · rw [ofSerialChars]
    split
    · exact .pure trivial
    · refine .of_bind (ofEntries _ _) fun known => ?_
      split
      · exact .pure trivial
      · exact .pure trivial
  · split
    · exact .pure trivial
    · exact .pure trivial

end KeepsWritable

end DiagramM

namespace Store

open DiagramM

lemma empty_writable {bits : Nat} (h : validBits bits = true) : (empty bits).Writable := by
  obtain ⟨hvalues, hcapacity⟩ := empty_table h
  refine ⟨fun i n hn => ?_, ?_⟩
  · obtain ⟨i, rfl⟩ : ∃ k, i = k + 1 := ⟨i - 1, by
      have := (Table.value?_eq_some.1 ⟨n, hn⟩).1
      omega⟩
    rw [Table.value?, hvalues] at hn
    rw [List.mem_singleton.1 (Array.mem_toList_iff.2 (Array.mem_of_getElem? hn))]
    decide
  · rw [hcapacity]
    simp only [validBits, Bool.and_eq_true, decide_eq_true_eq] at h
    exact Nat.pow_le_pow_right (by decide) h.2

namespace Call

/-- The variables that a call names have 32 bits. -/
def NamesWords : Call → Prop
  | var v => v < 2 ^ 32
  | node v _ _ => v < 2 ^ 32
  | _ => True

/-- **Calls keep a store writable.** -/
lemma run_keepsWritable {c : Call} (hc : c.NamesWords) : KeepsWritable c.run fun _ => True := by
  cases c with
  | constant b => exact .pure trivial
  | var v => exact .of_bind (.mkNode hc _ _) fun _ => .pure trivial
  | node v low high => exact .of_bind (.mkNode hc _ _) fun _ => .pure trivial
  | ite f g h => exact .of_bind (.ite f g h) fun _ => .pure trivial
  | and f g => exact .of_bind (.ite _ _ _) fun _ => .pure trivial
  | or f g => exact .of_bind (.ite _ _ _) fun _ => .pure trivial
  | not f => exact .pure trivial
  | andMany fs => exact .of_bind (.andAll fs _) fun _ => .pure trivial
  | orMany fs => exact .of_bind (.orAll fs _) fun _ => .pure trivial
  | compose f subst => exact .of_bind (.compose f subst) fun _ => .pure trivial
  | read text =>
      refine .of_bind (.ofSerial text) fun result => ?_
      split
      · exact .pure trivial
      · exact .pure trivial

end Call

end Store

end ModalCalls
