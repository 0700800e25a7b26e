import Mathlib
import ModalCalls.Diagram.Serial
import ModalCalls.Proofs.Diagram.Substitution
import ModalCalls.Proofs.Lockstep

/-!
# Stores of different size

`Store.Twin` relates two stores with the same nodes at the same indices, of which the second has at least as
much room.  Their buckets and caches may look quite different: a larger store has more of either, so what one
of them remembers the other may have lost.

**Operations cannot tell twins apart** as long as the first one has room: they answer the same in both and
leave twins again (`DiagramM.Mirrored`).  The one thing to see is that it does not matter what is
remembered (`DiagramM.iteWithin_mirrored`).  If the result of an operation has a handle already, computing it
adds no node, whether by a lookup or by recursion, and the two answers are the one handle there is.  If it has
none, neither store can remember it, and both go the same way.

**Queries** read nodes only and have the same answer in twins.
-/

namespace ModalCalls

namespace Store

/-- **Twins**: sound stores with the same nodes, the second with at least as much room, and with no node
missing in either. -/
structure Twin (s t : Store) : Prop where
  left : s.Sound
  right : t.Sound
  values : t.table.values = s.table.values
  capacity : s.capacity ≤ t.capacity
  left_room : s.overflowed = false
  right_room : t.overflowed = false

namespace Twin

variable {s t s' t' : Store} {f r r' : Handle} {u : Triple} {F : (Nat → Bool) → Bool}

/-! ## Queries

A query reads nodes, and the nodes are the same.  So the queries are equal as functions, and an operation
that asks one can be rewritten on one side.
-/

lemma value?_eq (h : s.Twin t) (i : Nat) : t.table.value? i = s.table.value? i := by
  cases i with
  | zero => rfl
  | succ i => simp only [Table.value?, h.values]

lemma size_eq (h : s.Twin t) : t.size = s.size := by
  simp only [Store.size, Table.size, h.values]

lemma node_eq (h : s.Twin t) : t.node = s.node := by
  funext i
  simp only [node, Table.value, h.value?_eq]

lemma topVar_eq (h : s.Twin t) : t.topVar = s.topVar := by
  funext u
  simp only [topVar, minVar, h.node_eq]

lemma split_eq (h : s.Twin t) : t.split = s.split := by
  funext v u
  simp only [split, cofactors, h.node_eq]

lemma eval_eq (h : s.Twin t) : t.eval = s.eval := by
  have hwithin : ∀ (x : Nat → Bool) (d : Nat) (f : Handle),
      t.evalWithin x d f = s.evalWithin x d f := by
    intro x d
    induction d with
    | zero => exact fun _ => rfl
    | succ d ih =>
        intro f
        simp only [evalWithin, h.node_eq, ih]
  funext f inputs
  simp only [eval, evalAt, hwithin, h.size_eq]

lemma serial_eq (h : s.Twin t) : t.serial = s.serial := by
  have hwithin : ∀ (d : Nat) (f : Handle) (l : Serial.Listing),
      t.listWithin d f l = s.listWithin d f l := by
    intro d
    induction d with
    | zero => exact fun _ _ => rfl
    | succ d ih =>
        intro f l
        simp only [listWithin, h.node_eq, ih]
  funext f
  simp only [serial, listing, hwithin, h.size_eq]

/-! ## Meaning

Each of the two stores keeps the nodes of the other, so the handles have the same meaning in both, and a
function has a handle in one exactly if it has one in the other.
-/

lemma keeps (h : s.Twin t) : s.Keeps t :=
  fun i _ hn => (h.value?_eq i).trans hn

lemma kept (h : s.Twin t) : t.Keeps s :=
  fun i _ hn => (h.value?_eq i).symm.trans hn

lemma meaning_eq (h : s.Twin t) (hf : s.Valid f) : t.meaning f = s.meaning f :=
  funext fun _ => h.keeps.meaning_eq h.left.toShaped h.right.toShaped hf

lemma choose_eq (h : s.Twin t) (hu : s.ValidTriple u) : t.choose u = s.choose u := by
  funext x
  simp only [choose, h.meaning_eq hu.test, h.meaning_eq hu.yes, h.meaning_eq hu.no]

lemma represents_iff (h : s.Twin t) : t.Represents F ↔ s.Represents F := by
  constructor
  · rintro ⟨r, hr, hmean⟩
    have hr' := h.kept.valid hr
    exact ⟨r, hr', fun x => (congrFun (h.meaning_eq hr') x).symm.trans (hmean x)⟩
  · rintro ⟨r, hr, hmean⟩
    exact ⟨r, h.keeps.valid hr, fun x => (congrFun (h.meaning_eq hr) x).trans (hmean x)⟩

/-! ## Twins stay twins

There are two ways to stay twins.  If neither store gets a new node, it does not matter what the caches have
learnt.  And if a function is built that has a handle, neither store does get a node; by canonicity the two
answers are the same handle.
-/

/-- Nothing happens to the nodes of either. -/
lemma quiet (h : s.Twin t) (hs' : s'.Sound) (ht' : t'.Sound) (hs : s.Quiet s') (ht : t.Quiet t') :
    s'.Twin t' where
  left := hs'
  right := ht'
  values := by rw [ht.table, hs.table, h.values]
  capacity := by
    simp only [Store.capacity, hs.table, ht.table]
    exact h.capacity
  left_room := hs.overflowed.trans h.left_room
  right_room := ht.overflowed.trans h.right_room

/-- **A function that has a handle** is built in both without a new node, and as the same handle. -/
lemma of_represents (h : s.Twin t) (hr : s.Built F r s') (hr' : t.Built F r' t')
    (hF : s.Represents F) : r' = r ∧ s'.Twin t' := by
  have htwin := h.quiet hr.grows.sound hr'.grows.sound (hr.quiet h.left_room hF)
    (hr'.quiet h.right_room (h.represents_iff.2 hF))
  have hvalid := htwin.kept.valid hr'.valid
  refine ⟨canonical hr.grows.sound.toShaped hvalid hr.valid fun x => ?_, htwin⟩
  rw [hr.meaning htwin.left_room, ← hr'.meaning htwin.right_room, htwin.meaning_eq hvalid]

end Twin

/-- An empty store holds the terminal and has the places that were asked for. -/
lemma empty_table {bits : Nat} (h : validBits bits = true) :
    (empty bits).table.values = #[Node.terminal] ∧ (empty bits).capacity = 2 ^ bits := by
  have hroom := (empty_sound h).room
  by_cases hfull : (Table.empty bits : Table Node).isFull = true
  · have hone : (2 : Nat) ^ bits ≤ 1 := by
      simpa [Table.isFull, Table.empty] using hfull
    have hpos : 1 ≤ bits := by
      simp only [validBits, Bool.and_eq_true, decide_eq_true_eq] at h
      exact h.1
    have := Nat.pow_le_pow_right (n := 2) (by omega) hpos
    omega
  · simp only [empty, capacity, Table.tryAdd_of_not_isFull hfull]
    exact ⟨rfl, rfl⟩

/-- Empty stores of growing size are twins. -/
lemma empty_twin {bits bits' : Nat} (h : validBits bits = true) (h' : validBits bits' = true)
    (hle : bits ≤ bits') : (empty bits).Twin (empty bits') := by
  refine ⟨empty_sound h, empty_sound h', ?_, ?_, rfl, rfl⟩
  · rw [(empty_table h).1, (empty_table h').1]
  · rw [(empty_table h).2, (empty_table h').2]
    exact Nat.pow_le_pow_right (by omega) hle

end Store

namespace DiagramM

open Store

variable {α : Type} {s t : Store}

/-- **The same answer in a larger store**: in lockstep, as long as no node is missing. -/
abbrev Mirrored (x y : DiagramM α) (s t : Store) : Prop :=
  Lockstep (fun s => s.overflowed = false) Store.Twin x y s t

/-- It is enough to look at twins, if the store is known to grow. -/
lemma Mirrored.of_grows {x y : DiagramM α} (hgrows : Yields x s fun _ s' => s.Grows s')
    (h : s.Twin t → ∀ a s', x s = .ok a s' → s'.overflowed = false →
      ∃ t', y t = .ok a t' ∧ s'.Twin t') : Mirrored x y s t :=
  fun a s' hx ho => ⟨(hgrows.post_of_ok hx).overflowed ho, fun hst => h hst a s' hx ho⟩

lemma read_eq_ok {query : Store → Except Fault α} {a : α} {s' : Store}
    (h : read query s = .ok a s') : query s = .ok a ∧ s' = s := by
  simp only [read] at h
  split at h
  · next b hb =>
      cases h
      exact ⟨hb, rfl⟩
  · cases h

lemma read_mirrored {query : Store → Except Fault α} (h : s.Twin t → query t = query s) :
    Mirrored (read query) (read query) s t := by
  intro a s' hx ho
  obtain ⟨hquery, rfl⟩ := read_eq_ok hx
  exact ⟨ho, fun hst => ⟨t, by simp only [read, h hst, hquery], hst⟩⟩

/-! ## Node construction

A node is found in both stores or in neither.  If it is new, it goes to the next index, which is the same.
The smaller store may have no room for it, and that is where the lockstep ends: nothing is claimed from then
on.
-/

/-- A node is found in both stores or is new in both, and a new one gets the same index. -/
lemma intern_mirrored (hs : s.Sound) {n : Node} (hn : s.Fits (s.size + 1) n) :
    Mirrored (intern n) (intern n) s t := by
  have hspec := intern_spec hs hn
  refine .of_grows (hspec.mono fun _ _ h => h.1) fun hst r s' hx ho => ?_
  have hsound := (hspec.post_of_ok hx).1.sound
  have hn' : t.Fits (t.size + 1) n := hst.size_eq ▸ hn.keeps hst.keeps
  obtain ⟨r', t', hy, hgrows, -⟩ := intern_spec hst.right hn'
  cases hfind : s.table.find? n with
  | some i =>
      have hi := Table.value?_of_find? hfind
      have hlt := hn.one_lt hs.toShaped hi
      have hi' := (hst.value?_eq i).trans hi
      obtain ⟨j, hj⟩ := Option.ne_none_iff_exists'.1
        (Table.find?_ne_none hi' (hst.right.interned i n hlt hi'))
      have hvalue := Table.value?_of_find? hj
      obtain rfl : j = i :=
        hst.right.unique j i n (hn'.one_lt hst.right.toShaped hvalue) hlt hvalue hi'
      simp only [intern, Table.put_of_find? hfind, EStateM.Result.ok.injEq] at hx
      obtain ⟨rfl, rfl⟩ := hx
      exact ⟨t, by simp only [intern, Table.put_of_find? hj], hst⟩
  | none =>
      have hfind' : t.table.find? n = none := by
        by_contra hfound
        obtain ⟨j, hj⟩ := Option.ne_none_iff_exists'.1 hfound
        have hvalue := (hst.value?_eq j).symm.trans (Table.value?_of_find? hj)
        exact Table.find?_ne_none hvalue
          (hs.interned j n (hn.one_lt hs.toShaped hvalue) hvalue) hfind
      have hroom : ¬ s.table.isFull = true := by
        intro hfull
        simp only [intern, Table.put_of_full hfind hfull, EStateM.Result.ok.injEq] at hx
        rw [← hx.2] at ho
        cases ho
      have hroom' : ¬ t.table.isFull = true := by
        have hcapacity : s.table.capacity ≤ t.table.capacity := hst.capacity
        simp only [Table.isFull, decide_eq_true_eq, hst.values] at hroom ⊢
        omega
      have hnew := hy
      simp only [intern, Table.put_of_new hfind hroom, EStateM.Result.ok.injEq] at hx
      simp only [intern, Table.put_of_new hfind' hroom', EStateM.Result.ok.injEq] at hnew
      obtain ⟨rfl, rfl⟩ := hx
      obtain ⟨rfl, rfl⟩ := hnew
      have hsize : t.table.size = s.table.size := hst.size_eq
      refine ⟨_, hsize ▸ hy, hsound, hgrows.sound, ?_, ?_, hst.left_room, hst.right_room⟩
      · rw [Table.values_intern, Table.values_intern, hst.values]
      · simpa only [Store.capacity, Table.capacity_intern] using hst.capacity

lemma mkNode_mirrored (hs : s.Sound) {v : Nat} (hv : 0 < v) {low high : Handle}
    (hlow : s.Valid low) (hhigh : s.Valid high) (hvl : s.Beneath v low) (hvh : s.Beneath v high) :
    Mirrored (mkNode v low high) (mkNode v low high) s t := by
  have hv0 : v ≠ 0 := by omega
  by_cases hne : low = high
  · simp only [mkNode, hv0, hne, if_false, if_true]
    exact .pure high
  · have hintern := intern_mirrored (t := t) hs (fits_of_children hv hlow hhigh hvl hvh hne)
    simp only [mkNode, hv0, hne, if_false]
    cases hb : high.isNegated with
    | true =>
        rw [hb] at hintern
        exact .map_pure hintern
    | false =>
        rw [hb] at hintern
        exact hintern

lemma mkVar_mirrored (hs : s.Sound) {v : Nat} (hv : 0 < v) :
    Mirrored (mkVar v) (mkVar v) s t :=
  mkNode_mirrored hs hv hs.valid_zero hs.valid_one (beneath_of_index rfl) (beneath_of_index rfl)

/-! ## If-then-else

The two runs may differ in what their caches answer, so they cannot be compared step by step.  They are
compared result by result.  A call whose function has a handle is answered by this handle in both, whichever
way they went.  A call whose function has none is remembered in neither, because remembered results are
handles; then both expand it, and the induction hypothesis applies to its two parts.
-/

/-- A call in normal form, split at its first variable and put together again. -/
def expand (recurse : Triple → DiagramM Handle) (u : Triple) : DiagramM Handle := do
  let v ← read (·.topVar u)
  let (lowPart, highPart) ← read (·.split v u)
  let low ← recurse lowPart
  let high ← recurse highPart
  mkNode v low high

/-- A call in normal form that is not remembered is expanded. -/
lemma iteWithin_general {d : Nat} {u w : Triple} {negate : Bool} (hw : u.reduce = .general negate w) :
    iteWithin (d + 1) u = lookUp w >>= fun found =>
      match found with
      | some r => pure (r.negateIf negate)
      | none => expand (iteWithin d) w >>= fun r => remember w r >>= fun _ =>
          pure (r.negateIf negate) := by
  rw [iteWithin, hw]
  refine bind_congr fun found => ?_
  cases found with
  | some r => rfl
  | none => simp only [expand, bind_assoc]

/-- If the result of a call has no handle yet, the call is not remembered. -/
lemma expand_of_iteWithin {d : Nat} {u w : Triple} {negate : Bool} {r : Handle} {s' : Store}
    (hs : s.Sound) (ho : s.overflowed = false) (hw : u.reduce = .general negate w)
    (hrep : ¬ s.Represents (s.choose w)) (hx : iteWithin (d + 1) u s = .ok r s') :
    ∃ s₁ q s₂, s.Grows s₁ ∧ s.Quiet s₁ ∧ expand (iteWithin d) w s₁ = .ok q s₂ ∧ s₂.Quiet s' ∧
      r = q.negateIf negate := by
  rw [iteWithin_general hw] at hx
  obtain ⟨found, s₁, hlook, hx⟩ := bind_eq_ok hx
  obtain ⟨hgrows, hquiet, hfound⟩ := (lookUp_spec hs w).post_of_ok hlook
  cases found with
  | some q =>
      obtain ⟨-, hq, -⟩ := hs.cached_valid w q hfound.symm
      exact absurd ⟨q, hq, hs.cached_meaning ho w q hfound.symm⟩ hrep
  | none =>
      obtain ⟨q, s₂, hexpand, hx⟩ := bind_eq_ok hx
      obtain ⟨_, s₃, hremember, hx⟩ := bind_eq_ok hx
      cases hremember
      cases hx
      exact ⟨s₁, q, s₂, hgrows, hquiet, hexpand, ⟨rfl, rfl⟩, rfl⟩

/-- An expansion goes the same way in twins if the two calls it makes do. -/
lemma expand_mirrored {d d' : Nat} {w : Triple} (hs : s.Sound) (hw : s.ValidTriple w)
    (htest : 1 < w.test.index) (hd : w.weight ≤ d + 1) (hd' : w.weight ≤ d' + 1)
    (ih : ∀ {s t : Store} {u : Triple}, s.Sound → s.ValidTriple u → u.weight ≤ d → u.weight ≤ d' →
      Mirrored (iteWithin d u) (iteWithin d' u) s t) :
    Mirrored (expand (iteWithin d) w) (expand (iteWithin d') w) s t := by
  obtain ⟨v, htop, hbv, htests, -⟩ := topVar_spec hs.toShaped hw htest
  obtain ⟨lo, hi, hsplit, hlo, hhi, hblo, hbhi, -, hwlo, hwhi⟩ :=
    split_spec hs.toShaped hw hbv htests
  refine .bind (read_mirrored fun h => by rw [h.topVar_eq]) fun v' s₁ t₁ hread => ?_
  obtain ⟨hv', rfl⟩ := read_eq_ok hread
  obtain rfl : v + 1 = v' := Except.ok.inj (htop.symm.trans hv')
  refine .bind (read_mirrored fun h => by rw [h.split_eq]) fun parts s₂ t₂ hread => ?_
  obtain ⟨hparts, rfl⟩ := read_eq_ok hread
  obtain rfl : (lo, hi) = parts := Except.ok.inj (hsplit.symm.trans hparts)
  refine .bind (ih hs hlo (by omega) (by omega)) fun low s₃ t₃ hx => ?_
  obtain ⟨hlow, hlowB⟩ := (iteWithin_spec d hs hlo (by omega)).post_of_ok hx
  have hhi₃ := hhi.keeps hlow.grows.keeps
  refine .bind (ih hlow.grows.sound hhi₃ (by omega) (by omega)) fun high s₄ t₄ hx => ?_
  obtain ⟨hhigh, hhighB⟩ := (iteWithin_spec d hlow.grows.sound hhi₃ (by omega)).post_of_ok hx
  exact mkNode_mirrored hhigh.grows.sound v.succ_pos (hhigh.grows.keeps.valid hlow.valid)
    hhigh.valid (hhigh.grows.keeps.beneath (hlowB _ hblo))
    (hhighB _ (hbhi.keeps hlow.grows.keeps))

/-- **If-then-else goes the same way in twins**, whatever their caches remember, by induction on the bound
of its depth. -/
lemma iteWithin_mirrored : ∀ (d d' : Nat) {s t : Store} {u : Triple}, s.Sound → s.ValidTriple u →
    u.weight ≤ d → u.weight ≤ d' → Mirrored (iteWithin d u) (iteWithin d' u) s t
  | 0, _, _, _, u, _, hu, hd, _ => by
      have := hu.test.pos
      simp only [Triple.weight] at hd
      omega
  | _, 0, _, _, u, _, hu, _, hd' => by
      have := hu.test.pos
      simp only [Triple.weight] at hd'
      omega
  | d + 1, d' + 1, s, t, u, hs, hu, hd, hd' => by
      have hspec := iteWithin_spec (d + 1) hs hu hd
      refine .of_grows (hspec.mono fun _ _ h => h.1.grows) fun hst r s' hx ho => ?_
      have hbuilt := (hspec.post_of_ok hx).1
      obtain ⟨r', t', hy, hbuilt', -⟩ := iteWithin_spec (d' + 1) hst.right (hu.keeps hst.keeps) hd'
      rw [hst.choose_eq hu] at hbuilt'
      by_cases hrep : s.Represents (s.choose u)
      · obtain ⟨rfl, htwin⟩ := hst.of_represents hbuilt hbuilt' hrep
        exact ⟨t', hy, htwin⟩
      rcases Triple.reduce_spec hs.toShaped hu with ⟨q, -, hq, -, hmean⟩ |
        ⟨negate, w, hw, hvalid, hweight, htest, -, hchoose⟩
      · exact absurd ⟨q, hq, hmean⟩ hrep
      -- the result has no handle, so no cache has it
      have hrep' : ¬ s.Represents (s.choose w) := by
        rintro ⟨q, hq, hmean⟩
        refine hrep ⟨q.negateIf negate, hq.negateIf negate, fun x => ?_⟩
        rw [meaning_negateIf hs.toShaped hq, hmean, hchoose]
      obtain ⟨s₁, q, s₂, hgrows, hquiet, hexpand, hend, rfl⟩ :=
        expand_of_iteWithin hs hst.left_room hw hrep' hx
      obtain ⟨t₁, q', t₂, hgrows', hquiet', hexpand', hend', rfl⟩ :=
        expand_of_iteWithin hst.right hst.right_room hw
          (by rwa [hst.choose_eq hvalid, hst.represents_iff]) hy
      have hexpands := expand_mirrored (t := t₁) hgrows.sound (hvalid.keeps hgrows.keeps) htest
        (by omega) (by omega) (iteWithin_mirrored d d')
      obtain ⟨t₂', hsame, htwin⟩ := (hexpands q s₂ hexpand (hend.overflowed.symm.trans ho)).2
        (hst.quiet hgrows.sound hgrows'.sound hquiet hquiet')
      rw [hexpand'] at hsame
      cases hsame
      exact ⟨t', hy, htwin.quiet hbuilt.grows.sound hbuilt'.grows.sound hend hend'⟩

lemma ite_mirrored (hs : s.Sound) {f g h : Handle} (hf : s.Valid f) (hg : s.Valid g)
    (hh : s.Valid h) : Mirrored (ite f g h) (ite f g h) s t := by
  refine .of_grows ((ite_spec hs hf hg hh).mono fun _ _ h => h.grows) fun hst r s' hx ho => ?_
  have hweight : (⟨f, g, h⟩ : Triple).weight ≤ iteDepth s.capacity := by
    have hroom := hs.room
    have hfi := (valid_iff.1 hf).2
    have hgi := (valid_iff.1 hg).2
    have hhi := (valid_iff.1 hh).2
    simp only [Triple.weight, iteDepth]
    omega
  have hcapacity := hst.capacity
  exact (iteWithin_mirrored _ (iteDepth t.capacity) hs ⟨hf, hg, hh⟩ hweight
    (by simp only [iteDepth] at hweight ⊢; omega) r s' hx ho).2 hst

lemma and_mirrored (hs : s.Sound) {f g : Handle} (hf : s.Valid f) (hg : s.Valid g) :
    Mirrored (DiagramM.and f g) (DiagramM.and f g) s t :=
  ite_mirrored hs hf hg hs.valid_zero

lemma or_mirrored (hs : s.Sound) {f g : Handle} (hf : s.Valid f) (hg : s.Valid g) :
    Mirrored (DiagramM.or f g) (DiagramM.or f g) s t :=
  ite_mirrored hs hf hs.valid_one hg

lemma Folds.mirrored {g : Bool → Bool → Bool} {stop : Bool} {op : Handle → Handle → DiagramM Handle}
    {fold : Handle → List Handle → DiagramM Handle} (hfold : Folds g stop op fold)
    (hop : ∀ {s t : Store} {f h : Handle}, s.Sound → s.Valid f → s.Valid h →
      Mirrored (op f h) (op f h) s t) :
    ∀ (fs : List Handle) {s t : Store} {acc : Handle}, s.Sound → s.Valid acc →
      (∀ f ∈ fs, s.Valid f) → Mirrored (fold acc fs) (fold acc fs) s t
  | [], s, t, acc, _, _, _ => by
      rw [hfold.nil]
      exact .pure acc
  | f :: fs, s, t, acc, hs, hacc, hfs => by
      rw [hfold.cons]
      have hf := hfs f (by simp)
      refine .bind (hop hs hacc hf) fun r s₁ t₁ hx => ?_
      have hr := (hfold.op_spec hs hacc hf).post_of_ok hx
      split
      · exact .pure r
      · exact hfold.mirrored hop fs hr.grows.sound hr.valid fun h hh =>
          hr.grows.keeps.valid (hfs h (by simp [hh]))

lemma andMany_mirrored (hs : s.Sound) {fs : List Handle} (hfs : ∀ f ∈ fs, s.Valid f) :
    Mirrored (andMany fs) (andMany fs) s t :=
  andAll_folds.mirrored (fun hs hf hg => and_mirrored hs hf hg) fs hs hs.valid_one hfs

lemma orMany_mirrored (hs : s.Sound) {fs : List Handle} (hfs : ∀ f ∈ fs, s.Valid f) :
    Mirrored (orMany fs) (orMany fs) s t :=
  orAll_folds.mirrored (fun hs hf hg => or_mirrored hs hf hg) fs hs hs.valid_zero hfs

/-! ## Substitution

What is remembered within one substitution is part of the computation and not of the store.  It is the same
on both sides, so here the two runs do go step by step.
-/

variable {subst : Array Handle}

lemma replacement_mirrored (hs : s.Sound) {v : Nat} (hv : 0 < v) :
    Mirrored (replacement subst v) (replacement subst v) s t := by
  unfold replacement
  split
  · exact .pure _
  · exact mkVar_mirrored hs hv

/-- Substitution goes the same way in twins, and remembers the same in the course of it. -/
lemma composeWithin_mirrored : ∀ (d d' : Nat) {s t : Store} {f : Handle} {done : Rebuilt}, s.Sound →
    s.Valid f → s.ValidSubst subst → s.Remembers subst done → f.index ≤ d → f.index ≤ d' →
    Mirrored (composeWithin subst d f done) (composeWithin subst d' f done) s t
  | 0, _, _, _, f, _, _, hf, _, _, hd, _ => by
      have := hf.pos
      omega
  | _, 0, _, _, f, _, _, hf, _, _, _, hd' => by
      have := hf.pos
      omega
  | d + 1, d' + 1, s, t, f, done, hs, hf, hsubst, hdone, hd, hd' => by
      rw [composeWithin, composeWithin]
      by_cases hterm : f.index = 1
      · rw [if_pos (Handle.isTerminal_iff.2 hterm), if_pos (Handle.isTerminal_iff.2 hterm)]
        exact .pure (f, done)
      · have hnot : ¬ f.isTerminal = true := fun h => hterm (Handle.isTerminal_iff.1 h)
        rw [if_neg hnot, if_neg hnot]
        have hlt : 1 < f.index := by
          have := hf.pos
          omega
        obtain ⟨n, hn⟩ := id hf
        have hfits := hs.fits _ n hlt hn
        have hvl := hs.valid_low hlt hn
        have hvh := hs.valid_high hlt hn
        have hll := hfits.low_lt
        have hhl := hfits.high_lt
        cases done[f.index]? with
        | some r => exact .pure _
        | none =>
            refine .bind (read_mirrored fun h => by rw [h.node_eq]) fun m s₀ t₀ hread => ?_
            obtain ⟨hm, rfl⟩ := read_eq_ok hread
            obtain rfl : n = m := Except.ok.inj ((node_of_value? hn).symm.trans hm)
            refine .bind (composeWithin_mirrored d d' hs hvl hsubst hdone (by omega) (by omega)) ?_
            rintro ⟨low, done₁⟩ s₁ t₁ hx
            obtain ⟨hg₁, hlow, hdone₁, -⟩ :=
              (composeWithin_spec d hs hvl hsubst hdone (by omega)).post_of_ok hx
            have hvh₁ := hg₁.keeps.valid hvh
            have hsubst₁ := hsubst.keeps hg₁.keeps
            refine .bind (composeWithin_mirrored d d' hg₁.sound hvh₁ hsubst₁ hdone₁ (by omega)
              (by omega)) ?_
            rintro ⟨high, done₂⟩ s₂ t₂ hx
            obtain ⟨hg₂, hhigh, -⟩ :=
              (composeWithin_spec d hg₁.sound hvh₁ hsubst₁ hdone₁ (by omega)).post_of_ok hx
            refine .bind (replacement_mirrored hg₂.sound hfits.var_pos) fun g s₃ t₃ hx => ?_
            have hg := (replacement_spec hg₂.sound (hsubst₁.keeps hg₂.keeps)
              hfits.var_pos).post_of_ok hx
            exact .map_pure (ite_mirrored hg.grows.sound hg.valid (hg.grows.keeps.valid hhigh)
              (hg.grows.keeps.valid (hg₂.keeps.valid hlow)))

lemma compose_mirrored (hs : s.Sound) {f : Handle} (hf : s.Valid f) (hsubst : s.ValidSubst subst) :
    Mirrored (compose f subst) (compose f subst) s t := by
  refine .of_grows ((compose_spec hs hf hsubst).mono fun _ _ h => h.1) fun hst r s' hx ho => ?_
  have hdepth : f.index ≤ s.capacity := by
    have := (valid_iff.1 hf).2
    have := hs.room
    omega
  have hcapacity := hst.capacity
  have hwithin := composeWithin_mirrored s.capacity t.capacity (t := t) hs hf hsubst
    (remembers_empty s subst) hdepth (by omega)
  exact ((hwithin.map_pure (g := Prod.fst)) r s' hx ho).2 hst

end DiagramM

end ModalCalls
