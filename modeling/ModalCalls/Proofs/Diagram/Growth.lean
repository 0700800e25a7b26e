import Mathlib
import ModalCalls.Proofs.Computation
import ModalCalls.Proofs.Diagram.Canonical
import ModalCalls.Proofs.Storage.Cache

/-!
# Building nodes

Operations on diagrams add nodes to the store and entries to its cache.  `Store.Sound` is what they keep:
the store is well shaped, and a finished operation that the cache remembers has the result it ought
to have.  The second half is only claimed as long as the store has not run out of room, because what
is computed after that means nothing; that its handles exist and respect the order of the variables is
claimed always.

* `Store.Grows` — the store after an operation, compared with the store before.
* `Store.Quiet` — the nodes are the same as before.  An operation whose result has a handle already does
  not need a new node, so it cannot run out of room.
* `Store.Shaped.withNode` — a store with one more node is well shaped.
* `DiagramM.mkNode_spec` — node construction.
* `DiagramM.lookUp_spec`, `DiagramM.remember_spec` — the cache of finished operations.
-/

namespace ModalCalls

namespace Store

/-- All three handles of a triple are handles of the store. -/
structure ValidTriple (s : Store) (t : Triple) : Prop where
  test : s.Valid t.test
  yes : s.Valid t.yes
  no : s.Valid t.no

/-- All three handles of a triple may stand below variable `v`. -/
structure BeneathTriple (s : Store) (v : Nat) (t : Triple) : Prop where
  test : s.Beneath v t.test
  yes : s.Beneath v t.yes
  no : s.Beneath v t.no

/-- What an if-then-else ought to compute. -/
def choose (s : Store) (t : Triple) (x : Nat → Bool) : Bool :=
  if s.meaning t.test x then s.meaning t.yes x else s.meaning t.no x

/-- **A sound store.**  It is well shaped and, unless it has run out of room, its cache tells the
truth. -/
structure Sound (s : Store) : Prop extends s.Shaped where
  cached_valid : ∀ t r, s.cache.find? t = some r →
    s.ValidTriple t ∧ s.Valid r ∧ ∀ v, s.BeneathTriple v t → s.Beneath v r
  cached_meaning : s.overflowed = false → ∀ t r, s.cache.find? t = some r →
    ∀ x, s.meaning r x = s.choose t x

/-- The store `s'` that an operation leaves, compared with the store `s` that it found. -/
structure Grows (s s' : Store) : Prop where
  sound : s'.Sound
  keeps : s.Keeps s'
  capacity : s'.capacity = s.capacity
  /-- Once raised, the flag stays up. -/
  overflowed : s'.overflowed = false → s.overflowed = false

/-- No node was added, and none was missing. -/
structure Quiet (s s' : Store) : Prop where
  table : s'.table = s.table
  overflowed : s'.overflowed = s.overflowed

/-- Some handle has this function as its meaning. -/
def Represents (s : Store) (F : (Nat → Bool) → Bool) : Prop :=
  ∃ r, s.Valid r ∧ ∀ x, s.meaning r x = F x

/-- **The outcome of an operation** that was to build the function `F` in the store `s`: a handle `r` and a
store `s'`.  The handle means `F` unless there was no room. -/
structure Built (s : Store) (F : (Nat → Bool) → Bool) (r : Handle) (s' : Store) : Prop where
  grows : s.Grows s'
  valid : s'.Valid r
  meaning : s'.overflowed = false → ∀ x, s'.meaning r x = F x
  /-- A function that has a handle already needs no node. -/
  quiet : s.overflowed = false → s.Represents F → s.Quiet s'

variable {s s' s'' : Store} {f : Handle} {t : Triple} {x y : Nat → Bool}

lemma Fits.keeps {i : Nat} {n : Node} (hn : s.Fits i n) (h : s.Keeps s') : s'.Fits i n :=
  { hn with
    low_beneath := h.beneath hn.low_beneath
    high_beneath := h.beneath hn.high_beneath }

/-- A node that may be stored is not the terminal, so it has a later index. -/
lemma Fits.one_lt {i k : Nat} {n : Node} (hn : s.Fits k n) (hs : s.Shaped)
    (hi : s.table.value? i = some n) : 1 < i := by
  have hpos := (Table.value?_eq_some.1 ⟨n, hi⟩).1
  have hne : i ≠ 1 := by
    rintro rfl
    obtain rfl : n = Node.terminal := Option.some.inj (hi.symm.trans hs.terminal)
    exact absurd hn.var_pos (lt_irrefl 0)
  omega

namespace Grows

lemma refl (hs : s.Sound) : s.Grows s :=
  ⟨hs, Keeps.refl s, rfl, id⟩

lemma trans (h : s.Grows s') (h' : s'.Grows s'') : s.Grows s'' :=
  ⟨h'.sound, h.keeps.trans h'.keeps, h'.capacity.trans h.capacity,
    fun ho => h.overflowed (h'.overflowed ho)⟩

lemma meaning_eq (h : s.Grows s') (hs : s.Shaped) (hf : s.Valid f) :
    s'.meaning f x = s.meaning f x :=
  h.keeps.meaning_eq hs h.sound.toShaped hf

lemma choose_eq (h : s.Grows s') (hs : s.Shaped) (ht : s.ValidTriple t) :
    s'.choose t x = s.choose t x := by
  simp only [choose, h.meaning_eq hs ht.test, h.meaning_eq hs ht.yes, h.meaning_eq hs ht.no]

lemma represents (h : s.Grows s') (hs : s.Shaped) {F : (Nat → Bool) → Bool}
    (hF : s.Represents F) : s'.Represents F := by
  obtain ⟨r, hr, hmean⟩ := hF
  exact ⟨r, h.keeps.valid hr, fun x => (h.meaning_eq hs hr).trans (hmean x)⟩

end Grows

namespace Quiet

lemma refl (s : Store) : s.Quiet s :=
  ⟨rfl, rfl⟩

lemma trans (h : s.Quiet s') (h' : s'.Quiet s'') : s.Quiet s'' :=
  ⟨h'.table.trans h.table, h'.overflowed.trans h.overflowed⟩

lemma keeps (h : s.Quiet s') : s.Keeps s' :=
  Keeps.of_table_eq h.table

/-- A store with the nodes of a well-shaped one is well shaped. -/
lemma shaped (h : s.Quiet s') (hs : s.Shaped) : s'.Shaped := by
  obtain ⟨table, cache, overflowed⟩ := s'
  obtain ⟨rfl, -⟩ := h
  have hkeeps : s.Keeps ⟨s.table, cache, overflowed⟩ := Keeps.of_table_eq rfl
  exact ⟨hs.terminal, fun i n hi hn => (hs.fits i n hi hn).keeps hkeeps, hs.unique, hs.interned,
    hs.buckets_pos, hs.buckets_lt, hs.room⟩

lemma meaning_eq (h : s.Quiet s') (hs : s.Shaped) (hf : s.Valid f) :
    s'.meaning f x = s.meaning f x :=
  h.keeps.meaning_eq hs (h.shaped hs) hf

end Quiet

namespace ValidTriple

lemma keeps (ht : s.ValidTriple t) (h : s.Keeps s') : s'.ValidTriple t :=
  ⟨h.valid ht.test, h.valid ht.yes, h.valid ht.no⟩

end ValidTriple

namespace BeneathTriple

lemma keeps {v : Nat} (ht : s.BeneathTriple v t) (h : s.Keeps s') : s'.BeneathTriple v t :=
  ⟨h.beneath ht.test, h.beneath ht.yes, h.beneath ht.no⟩

end BeneathTriple

lemma choose_eq_of_beneath (hs : s.Shaped) (ht : s.ValidTriple t) {v : Nat}
    (hv : s.BeneathTriple v t) (hxy : ∀ w, v < w → x w = y w) : s.choose t x = s.choose t y := by
  simp only [choose, meaning_eq_of_beneath hs ht.test hv.test hxy,
    meaning_eq_of_beneath hs ht.yes hv.yes hxy, meaning_eq_of_beneath hs ht.no hv.no hxy]

/-- Whether a handle stands below a triple's variable survives in a store that keeps its nodes, in
both directions, as long as the handle is old. -/
lemma Keeps.beneath_iff (h : s.Keeps s') (hf : s.Valid f) {v : Nat} :
    s'.Beneath v f ↔ s.Beneath v f := by
  refine ⟨fun hb => ?_, h.beneath⟩
  rcases hb with hb | ⟨n, hn, hv⟩
  · exact Or.inl hb
  · obtain ⟨m, hm⟩ := hf
    have hnm : m = n := Option.some.inj ((h _ m hm).symm.trans hn)
    exact Or.inr ⟨m, hm, hnm ▸ hv⟩

lemma Keeps.beneathTriple (h : s.Keeps s') (ht : s.ValidTriple t) {v : Nat}
    (hv : s'.BeneathTriple v t) : s.BeneathTriple v t :=
  ⟨(h.beneath_iff ht.test).1 hv.test, (h.beneath_iff ht.yes).1 hv.yes,
    (h.beneath_iff ht.no).1 hv.no⟩

/-- Soundness is kept by whatever keeps the nodes and the remembered operations. -/
lemma Sound.of_keeps (hs : s.Sound) (hs' : s'.Shaped) (h : s.Keeps s')
    (hcache : ∀ t r, s'.cache.find? t = some r → s.cache.find? t = some r)
    (ho : s'.overflowed = false → s.overflowed = false) : s'.Sound where
  toShaped := hs'
  cached_valid := by
    intro t r hr
    obtain ⟨ht, hvalid, hbeneath⟩ := hs.cached_valid t r (hcache t r hr)
    exact ⟨ht.keeps h, h.valid hvalid, fun v hv =>
      h.beneath (hbeneath v (h.beneathTriple ht hv))⟩
  cached_meaning := by
    intro hover t r hr x
    obtain ⟨ht, hvalid, -⟩ := hs.cached_valid t r (hcache t r hr)
    have hmean := hs.cached_meaning (ho hover) t r (hcache t r hr) x
    rw [h.meaning_eq hs.toShaped hs' hvalid, hmean]
    simp only [choose, h.meaning_eq hs.toShaped hs' ht.test, h.meaning_eq hs.toShaped hs' ht.yes,
      h.meaning_eq hs.toShaped hs' ht.no]

/-! ## The empty store

A store begins with the terminal and nothing else.  No operation is finished yet, so what the cache
remembers is right for want of entries.
-/

lemma empty_sound {bits : Nat} (h : validBits bits = true) : (empty bits).Sound := by
  have hbits : 1 ≤ bits := by
    simp only [validBits, Bool.and_eq_true, decide_eq_true_eq] at h
    exact h.1
  have hpow : 2 ≤ Nat.pow 2 bits := by
    calc 2 = 2 ^ 1 := by norm_num
      _ ≤ 2 ^ bits := Nat.pow_le_pow_right (by norm_num) hbits
  have hfull : ¬ (Table.empty bits : Table Node).isFull = true := by
    rw [Table.isFull, decide_eq_true_eq]
    show ¬ Nat.pow 2 bits ≤ 0 + 1
    omega
  have htable : (empty bits).table = (Table.empty bits : Table Node).push Node.terminal := by
    simp only [empty, Table.tryAdd_of_not_isFull hfull]
  have hvalue : ∀ i n, (empty bits).table.value? i = some n → i = 1 := by
    intro i n hn
    have := Table.value?_eq_some.1 ⟨n, hn⟩
    rw [htable, Table.size_push] at this
    have hsize : (Table.empty bits : Table Node).size = 0 := rfl
    omega
  have hbuckets : (empty bits).table.buckets.size = 2 ^ min bits 16 := by
    rw [htable, Table.size_buckets]
    simp [Table.push, Table.empty]
  have hle : (2 : Nat) ^ min bits 16 ≤ 2 ^ 16 :=
    Nat.pow_le_pow_right (by norm_num) (Nat.min_le_right _ _)
  refine ⟨⟨?_, ?_, ?_, ?_, ?_, ?_, ?_⟩, ?_, ?_⟩
  · rw [htable]
    rfl
  · intro i n hi hn
    have := hvalue i n hn
    omega
  · intro i j n hi _ hn
    have := hvalue i n hn
    omega
  · intro i n hi hn
    have := hvalue i n hn
    omega
  · rw [hbuckets]
    exact Nat.pos_of_ne_zero (by simp)
  · rw [hbuckets]
    simp only [UInt64.size]
    omega
  · have hsize : (Table.empty bits : Table Node).size = 0 := rfl
    have hcapacity : (empty bits).capacity = Nat.pow 2 bits := by
      rw [capacity, htable]
      rfl
    rw [Store.size, htable, Table.size_push, hcapacity]
    omega
  · intro t r hr
    simp [empty] at hr
  · intro _ t r hr
    simp [empty] at hr

lemma create_eq_ok {bits : Nat} (h : create bits = .ok s) : validBits bits = true ∧ s = .empty bits := by
  simp only [create] at h
  split at h
  · next hbits =>
      cases h
      exact ⟨hbits, rfl⟩
  · cases h

/-! ## One more node

All that can go wrong with a new node is about its own index: its children have to come before it, its
variable before theirs, and it must not be stored already.  The old nodes keep their indices and their
buckets, so whatever was said of them still holds.
-/

/-- The store with a node more. -/
def withNode (s : Store) (n : Node) : Store :=
  { s with table := s.table.intern (s.table.slot n) n }

lemma value?_withNode (s : Store) (n : Node) (i : Nat) :
    (s.withNode n).table.value? i = if i = s.size + 1 then some n else s.table.value? i :=
  Table.value?_of_values (Table.values_intern _ _ _) i

lemma value?_withNode_last (s : Store) (n : Node) : (s.withNode n).table.value? (s.size + 1) = some n := by
  rw [value?_withNode, if_pos rfl]

lemma size_withNode (s : Store) (n : Node) : (s.withNode n).size = s.size + 1 := by
  simp [withNode, Store.size, Table.size]

lemma capacity_withNode (s : Store) (n : Node) : (s.withNode n).capacity = s.capacity :=
  Table.capacity_intern _ _ _

lemma keeps_withNode (s : Store) (n : Node) : s.Keeps (s.withNode n) := by
  intro i m hm
  have hle : i ≤ s.size := (Table.value?_eq_some.1 ⟨m, hm⟩).2
  rw [value?_withNode, if_neg (by omega), hm]

/-- An index of the new store is the new one or an old one. -/
lemma value?_withNode_cases {n m : Node} {i : Nat} (h : (s.withNode n).table.value? i = some m) :
    (i = s.size + 1 ∧ m = n) ∨ s.table.value? i = some m := by
  rw [value?_withNode] at h
  split at h
  · next hi => exact Or.inl ⟨hi, (Option.some.inj h).symm⟩
  · exact Or.inr h

/-- The new node is in its bucket, and the old ones stay in theirs. -/
lemma Shaped.interned_withNode (hs : s.Shaped) (n : Node) {i : Nat} {m : Node} (hi : 1 < i)
    (hm : (s.withNode n).table.value? i = some m) :
    i ∈ (s.withNode n).table.buckets.getD ((s.withNode n).table.slot m) [] := by
  have hslot : (s.withNode n).table.slot m = s.table.slot m := by
    simp [withNode, Table.slot]
  have hbucket : s.table.slot n < s.table.heads.size := by
    rw [Table.slot, ← Table.size_buckets]
    exact slotOf_lt _ hs.buckets_pos hs.buckets_lt
  rw [hslot, Table.getD_buckets]
  rcases value?_withNode_cases hm with ⟨rfl, rfl⟩ | hm
  · exact Table.mem_chain_intern_self hbucket m
  · refine Table.mem_chain_intern hbucket n ?_
    rw [← Table.getD_buckets]
    exact hs.interned i m hi hm

/-- **A node that fits and is new** may be stored where there is room. -/
lemma Shaped.withNode {n : Node} (hs : s.Shaped) (hn : s.Fits (s.size + 1) n)
    (hnew : ¬ ∃ i, 1 < i ∧ s.table.value? i = some n) (hroom : ¬ s.table.isFull = true) :
    (s.withNode n).Shaped where
  terminal := keeps_withNode s n _ _ hs.terminal
  fits i m hi hm := by
    rcases value?_withNode_cases hm with ⟨rfl, rfl⟩ | hm
    · exact hn.keeps (keeps_withNode s m)
    · exact (hs.fits i m hi hm).keeps (keeps_withNode s n)
  unique i j m hi hj hmi hmj := by
    rcases value?_withNode_cases hmi with ⟨ei, em⟩ | hmi'
    · rcases value?_withNode_cases hmj with ⟨ej, -⟩ | hmj'
      · exact ei.trans ej.symm
      · exact absurd ⟨j, hj, em ▸ hmj'⟩ hnew
    · rcases value?_withNode_cases hmj with ⟨-, em⟩ | hmj'
      · exact absurd ⟨i, hi, em ▸ hmi'⟩ hnew
      · exact hs.unique i j m hi hj hmi' hmj'
  interned _ _ hi hm := hs.interned_withNode n hi hm
  buckets_pos := by
    simpa [Store.withNode] using hs.buckets_pos
  buckets_lt := by
    simpa [Store.withNode] using hs.buckets_lt
  room := by
    have hlt : s.table.values.size + 1 < s.table.capacity := by
      simpa [Table.isFull] using hroom
    rw [size_withNode, capacity_withNode]
    exact hlt

/-! ## When a node is there already

Running out of room is only possible when a node is added, so it matters when none is.  A function that has
some handle is represented by a node with the variable and the children that are about to be asked for: that
is canonicity once more, read in the other direction.  Hence building a represented function finds its node
and adds nothing.
-/

/-- The function "if `v` then `high` else `low`". -/
def branch (s : Store) (v : Nat) (low high : Handle) (x : Nat → Bool) : Bool :=
  if x v then s.meaning high x else s.meaning low x

lemma branch_update (hs : s.Shaped) {v : Nat} {low high : Handle} (hlow : s.Valid low)
    (hhigh : s.Valid high) (hvl : s.Beneath v low) (hvh : s.Beneath v high) (x : Nat → Bool)
    (b : Bool) :
    s.branch v low high (Function.update x v b)
      = if b then s.meaning high x else s.meaning low x := by
  have hagree : ∀ w, v < w → Function.update x v b w = x w := fun w hw =>
    Function.update_of_ne (by omega) _ _
  rw [branch, Function.update_self, meaning_eq_of_beneath hs hlow hvl hagree,
    meaning_eq_of_beneath hs hhigh hvh hagree]

/-- Two different children make a node that may be stored next, freed of a complement on the high one. -/
lemma fits_of_children {v : Nat} (hv : 0 < v) {low high : Handle} (hlow : s.Valid low)
    (hhigh : s.Valid high) (hvl : s.Beneath v low) (hvh : s.Beneath v high) (hne : low ≠ high) :
    s.Fits (s.size + 1) ⟨v, low.negateIf high.isNegated, high.negateIf high.isNegated⟩ := by
  refine ⟨hv, ?_, ?_, ?_, ?_, ?_, ?_, hvl.negateIf _, hvh.negateIf _⟩
  · simpa using hlow.pos
  · have := (valid_iff.1 hlow).2
    simp only [Handle.index_negateIf]
    omega
  · simpa using hhigh.pos
  · have := (valid_iff.1 hhigh).2
    simp only [Handle.index_negateIf]
    omega
  · intro h
    cases hb : high.isNegated <;> simp only [hb, Handle.negateIf_false, Handle.negateIf_true] at h
    · exact hne h
    · exact hne (by rw [← low.neg_neg, ← high.neg_neg, h])
  · cases hb : high.isNegated
    · simpa using hb
    · simp [Handle.isNegated_neg hhigh.pos, hb]

/-- **A represented function has its node stored.**  If some handle means "if `v` then `high` else
`low`", the node with these children, freed of a complement on the high one, is stored. -/
lemma stored_of_represents (hs : s.Shaped) {v : Nat} {low high : Handle} (hlow : s.Valid low)
    (hhigh : s.Valid high) (hvl : s.Beneath v low) (hvh : s.Beneath v high) (hne : low ≠ high)
    (h : s.Represents (s.branch v low high)) :
    ∃ i, 1 < i ∧ s.table.value? i
      = some ⟨v, low.negateIf high.isNegated, high.negateIf high.isNegated⟩ := by
  obtain ⟨r, hr, hmean⟩ := h
  -- `r` depends on `v`, so it has a node, and its variable is not after `v`
  have hbelow : ¬ s.Beneath v r := by
    intro hb
    refine hne (canonical hs hlow hhigh fun x => ?_)
    have heq : s.meaning r (Function.update x v false) = s.meaning r (Function.update x v true) :=
      meaning_eq_of_beneath hs hr hb fun w hw => by
        rw [Function.update_of_ne (by omega), Function.update_of_ne (by omega)]
    rw [hmean, hmean, branch_update hs hlow hhigh hvl hvh,
      branch_update hs hlow hhigh hvl hvh] at heq
    simpa using heq
  have hlt : 1 < r.index := by
    have := hr.pos
    have : r.index ≠ 1 := fun h1 => hbelow (Or.inl h1)
    omega
  obtain ⟨n, hn⟩ := id hr
  have hle : n.var ≤ v := by
    by_contra hgt
    exact hbelow (Or.inr ⟨n, hn, by omega⟩)
  -- nor is it before `v`, since nothing before `v` matters
  have hvar : n.var = v := by
    by_contra hvar
    refine children_differ hs hlt hn (children_agree hs hlt hn fun x b => ?_)
    have hagree : ∀ w, v ≤ w → Function.update x n.var b w = x w := fun w hw =>
      Function.update_of_ne (by omega) _ _
    rw [hmean, hmean, branch, branch, hagree v le_rfl,
      meaning_eq_of_beneath hs hlow hvl fun w hw => hagree w (by omega),
      meaning_eq_of_beneath hs hhigh hvh fun w hw => hagree w (by omega)]
  have hfits := hs.fits _ n hlt hn
  have child : ∀ (x : Nat → Bool) (b : Bool), (if b then s.meaning high x else s.meaning low x)
      = (r.isNegated ^^ if b then s.meaning n.high x else s.meaning n.low x) := by
    intro x b
    rw [← meaning_update hs hlt hn, hmean, hvar, branch_update hs hlow hhigh hvl hvh]
  have ehigh : n.high = high.negateIf r.isNegated :=
    canonical hs (hs.valid_high hlt hn) (hhigh.negateIf _) fun x => by
      have := child x true
      simp only [if_true] at this
      rw [meaning_negateIf hs hhigh, this]
      simp
  have elow : n.low = low.negateIf r.isNegated :=
    canonical hs (hs.valid_low hlt hn) (hlow.negateIf _) fun x => by
      have := child x false
      simp only [Bool.false_eq_true, if_false] at this
      rw [meaning_negateIf hs hlow, this]
      simp
  have hsign : r.isNegated = high.isNegated := by
    have hplain := hfits.plain
    rw [ehigh] at hplain
    cases hr : r.isNegated with
    | false =>
        rw [hr] at hplain
        exact hplain.symm
    | true =>
        rw [hr, Handle.negateIf_true, Handle.isNegated_neg hhigh.pos] at hplain
        simpa using hplain.symm
  refine ⟨r.index, hlt, ?_⟩
  rw [hn, ← hsign, ← elow, ← ehigh, ← hvar]

end Store

namespace DiagramM

open Store

variable {s : Store}

/-- Looking something up that is there. -/
lemma read_ok {α : Type} {query : Store → Except Fault α} {a : α} {post : α → Store → Prop}
    (hquery : query s = .ok a) (h : post a s) : Yields (read query) s post :=
  ⟨a, s, by simp only [read, hquery], h⟩

/-! ## Node construction

A node with equal children is not stored at all, and one with a complemented high child is stored
complemented.  What remains is a node that fits, which is either found or added.  If there is no room, the
flag goes up and the answer is some handle: it is valid and respects the order, so computation can go on,
but its meaning is no longer claimed.
-/

/-- What `intern` does with a node that may be stored next: afterwards the node is stored, if there was
room, and nothing happens if it was stored before. -/
lemma intern_spec (hs : s.Sound) {n : Node} (hn : s.Fits (s.size + 1) n) :
    Yields (intern n) s fun r s' =>
      s.Grows s' ∧ s'.Valid r ∧ (∀ v, v < n.var → s'.Beneath v r) ∧
      (s'.overflowed = false →
        1 < r.index ∧ r.isNegated = false ∧ s'.table.value? r.index = some n) ∧
      ((∃ i, 1 < i ∧ s.table.value? i = some n) → s.Quiet s') := by
  cases hfind : s.table.find? n with
  | some i =>
      have hi := Table.value?_of_find? hfind
      refine ⟨.positive i, s, ?_, Grows.refl hs, ⟨n, hi⟩, ?_, ?_, fun _ => Quiet.refl s⟩
      · simp only [intern, Table.put_of_find? hfind]
      · exact fun v hv => Or.inr ⟨n, hi, hv⟩
      · exact fun _ => ⟨hn.one_lt hs.toShaped hi, Handle.isNegated_positive i, hi⟩
  | none =>
      have hnew : ¬ ∃ i, 1 < i ∧ s.table.value? i = some n := by
        rintro ⟨i, hlt, hi⟩
        exact Table.find?_ne_none hi (hs.interned i n hlt hi) hfind
      by_cases hfull : s.table.isFull = true
      · have hkeeps : s.Keeps ⟨s.table, s.cache, true⟩ := Keeps.of_table_eq rfl
        have hshaped : (⟨s.table, s.cache, true⟩ : Store).Shaped :=
          ⟨hs.terminal, fun i n hi hn => (hs.fits i n hi hn).keeps hkeeps, hs.unique, hs.interned,
            hs.buckets_pos, hs.buckets_lt, hs.room⟩
        refine ⟨.zero, ⟨s.table, s.cache, true⟩, ?_,
          ⟨hs.of_keeps hshaped hkeeps (fun _ _ h => h) ?_, hkeeps, rfl, ?_⟩,
          hshaped.valid_zero, fun v _ => beneath_of_index rfl, ?_, fun h => absurd h hnew⟩
        · simp only [intern, Table.put_of_full hfind hfull]
        all_goals exact fun h => absurd h (by simp)
      · have hkeeps := keeps_withNode s n
        have hlast := value?_withNode_last s n
        have hone : s.size ≠ 0 := by
          have hle : 1 ≤ s.size := (Table.value?_eq_some.1 ⟨_, hs.terminal⟩).2
          omega
        refine ⟨.positive (s.size + 1), s.withNode n, ?_,
          ⟨hs.of_keeps (hs.toShaped.withNode hn hnew hfull) hkeeps (fun _ _ h => h) id, hkeeps,
            capacity_withNode s n, id⟩,
          ⟨n, hlast⟩, fun v hv => Or.inr ⟨n, hlast, hv⟩, fun _ => ⟨?_, ?_, hlast⟩,
          fun h => absurd h hnew⟩
        · simp only [intern, Table.put_of_new hfind hfull]
          rfl
        · rw [Handle.index_positive]
          omega
        · exact Handle.isNegated_positive _

/-- **Node construction** builds the function "if `v` then `high` else `low`".  The result may stand
below every variable before `v`, and no node is added if the function has a handle already. -/
theorem mkNode_spec (hs : s.Sound) {v : Nat} (hv : 0 < v) {low high : Handle}
    (hlow : s.Valid low) (hhigh : s.Valid high) (hvl : s.Beneath v low) (hvh : s.Beneath v high) :
    Yields (mkNode v low high) s fun r s' =>
      s.Built (s.branch v low high) r s' ∧ ∀ w, w < v → s'.Beneath w r := by
  have hv0 : v ≠ 0 := by omega
  by_cases hne : low = high
  · subst hne
    simp only [mkNode, hv0, if_false, if_true]
    refine Yields.pure ⟨⟨Grows.refl hs, hlow, fun _ x => ?_, fun _ _ => Quiet.refl s⟩,
      fun w hw => hvl.mono hw.le⟩
    simp [branch]
  · -- both remaining cases store the node freed of a complement on its high child
    have key : ∀ b : Bool, b = high.isNegated →
        Yields (intern ⟨v, low.negateIf b, high.negateIf b⟩) s fun r s' =>
          s.Built (s.branch v low high) (r.negateIf b) s' ∧
            ∀ w, w < v → s'.Beneath w (r.negateIf b) := by
      rintro b rfl
      refine (intern_spec hs (fits_of_children hv hlow hhigh hvl hvh hne)).mono ?_
      rintro r s' ⟨hgrows, hvalid, hbeneath, hstored, hquiet⟩
      refine ⟨⟨hgrows, hvalid.negateIf _, fun ho x => ?_, fun _ h =>
        hquiet (stored_of_represents hs.toShaped hlow hhigh hvl hvh hne h)⟩,
        fun w hw => (hbeneath w hw).negateIf _⟩
      obtain ⟨hlt, hplain, hr⟩ := hstored ho
      have hshaped := hgrows.sound.toShaped
      rw [meaning_negateIf hshaped hvalid, meaning_of_node hshaped hlt hr, hplain, branch]
      simp only [meaning_negateIf hshaped (hgrows.keeps.valid hlow),
        meaning_negateIf hshaped (hgrows.keeps.valid hhigh), hgrows.meaning_eq hs.toShaped hlow,
        hgrows.meaning_eq hs.toShaped hhigh]
      cases high.isNegated <;> cases x v <;> simp
    simp only [mkNode, hv0, hne, if_false]
    cases hb : high.isNegated with
    | true =>
        simp only [if_true]
        exact Yields.map_pure (key true hb.symm)
    | false =>
        simp only [Bool.false_eq_true, if_false]
        exact key false hb.symm

/-- The variable `v` as a function. -/
lemma mkVar_spec (hs : s.Sound) {v : Nat} (hv : 0 < v) :
    Yields (mkVar v) s (s.Built fun x => x v) := by
  have hbranch : s.branch v .zero .one = fun x => x v := by
    funext x
    rw [branch, meaning_one hs.toShaped, meaning_zero hs.toShaped]
    cases x v <;> rfl
  refine (mkNode_spec hs hv hs.valid_zero hs.valid_one (beneath_of_index rfl)
    (beneath_of_index rfl)).mono ?_
  rintro r s' ⟨hbuilt, -⟩
  rwa [hbranch] at hbuilt

/-! ## Finished operations

The cache may forget at any time and must never lie.  A lookup changes nothing but a counter.  An entry that
is remembered has to be right in every later store too, and that is so because its handles keep their
meaning.
-/

/-- Looking an operation up answers from the cache and changes nothing but its counters. -/
lemma lookUp_spec (hs : s.Sound) (t : Triple) :
    Yields (lookUp t) s fun found s' =>
      s.Grows s' ∧ s.Quiet s' ∧ found = s.cache.find? t := by
  have hquiet : s.Quiet ⟨s.table, (s.cache.get t).2, s.overflowed⟩ := ⟨rfl, rfl⟩
  have hcache : ∀ u, (s.cache.get t).2.find? u = s.cache.find? u := fun u => by
    simp only [Cache.find?, Cache.slot, Cache.slots_get]
  refine ⟨(s.cache.get t).1, ⟨s.table, (s.cache.get t).2, s.overflowed⟩, rfl,
    ⟨hs.of_keeps (hquiet.shaped hs.toShaped) hquiet.keeps ?_ id, hquiet.keeps, rfl, id⟩, hquiet,
    Cache.get_fst _ _⟩
  intro u r hr
  rwa [hcache] at hr

/-- Remembering a correct result keeps the store sound. -/
lemma remember_spec (hs : s.Sound) {t : Triple} {r : Handle} (ht : s.ValidTriple t)
    (hr : s.Valid r) (hbeneath : ∀ v, s.BeneathTriple v t → s.Beneath v r)
    (hmean : s.overflowed = false → ∀ x, s.meaning r x = s.choose t x) :
    Yields (remember t r) s fun _ s' => s.Grows s' ∧ s.Quiet s' := by
  have hquiet : s.Quiet ⟨s.table, s.cache.insert t r, s.overflowed⟩ := ⟨rfl, rfl⟩
  have hshaped := hquiet.shaped hs.toShaped
  have hkeeps := hquiet.keeps
  refine ⟨(), ⟨s.table, s.cache.insert t r, s.overflowed⟩, rfl,
    ⟨⟨hshaped, ?_, ?_⟩, hkeeps, rfl, id⟩, hquiet⟩
  · intro u q hq
    rcases Cache.find?_insert_cases hq with ⟨rfl, rfl⟩ | hq
    · exact ⟨ht.keeps hkeeps, hkeeps.valid hr, fun v hv =>
        hkeeps.beneath (hbeneath v (hkeeps.beneathTriple ht hv))⟩
    · obtain ⟨hu, hvalid, hb⟩ := hs.cached_valid u q hq
      exact ⟨hu.keeps hkeeps, hkeeps.valid hvalid, fun v hv =>
        hkeeps.beneath (hb v (hkeeps.beneathTriple hu hv))⟩
  · intro ho u q hq x
    have hchoose : ∀ u, s.ValidTriple u →
        (⟨s.table, s.cache.insert t r, s.overflowed⟩ : Store).choose u x = s.choose u x := by
      intro u hu
      simp only [choose, hquiet.meaning_eq hs.toShaped hu.test,
        hquiet.meaning_eq hs.toShaped hu.yes, hquiet.meaning_eq hs.toShaped hu.no]
    rcases Cache.find?_insert_cases hq with ⟨rfl, rfl⟩ | hq
    · rw [hquiet.meaning_eq hs.toShaped hr, hchoose u ht, hmean ho]
    · obtain ⟨hu, hvalid, -⟩ := hs.cached_valid u q hq
      rw [hquiet.meaning_eq hs.toShaped hvalid, hchoose u hu, hs.cached_meaning ho u q hq]

end DiagramM

end ModalCalls
