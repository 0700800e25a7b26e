import Mathlib
import ModalCalls.Diagram.Walk
import ModalCalls.Proofs.Storage.Table

/-!
# What a handle means

A handle of a well-shaped store stands for a Boolean function of the diagram variables, its
`Store.meaning`.  Everything that is proved of diagrams is said through this one view.

**Shape.**  `Store.Shaped` collects what every reachable store has in common, also after it has run out
of room: the terminal stands at index `1`, every other node has children of smaller index that test
later variables, no two nodes are equal, and a node is found again through its bucket.

**Meaning.**  Children have smaller indices, so evaluation reaches the terminal, and any bound on its
depth that is not below the index gives the same answer (`Store.evalWithin_eq`).  The meaning of a
handle is then the case distinction at its node (`Store.meaning_of_node`), complementing the handle
complements the function (`Store.meaning_neg`), and the variables before the top variable do not
matter (`Store.meaning_eq_of_beneath`).

**Growth.**  A store that keeps its nodes keeps the meaning of its handles
(`Store.Keeps.meaning_eq`).
-/

namespace ModalCalls

namespace Handle

@[simp] lemma index_one : one.index = 1 := rfl

@[simp] lemma index_zero : zero.index = 1 := rfl

@[simp] lemma index_constant (b : Bool) : (constant b).index = 1 := by
  cases b <;> rfl

lemma isTerminal_iff {f : Handle} : f.isTerminal = true ↔ f.index = 1 := by
  simp [isTerminal]

/-- The two handles of the terminal are the constants. -/
lemma eq_constant_of_index {f : Handle} (h : f.index = 1) : f = one ∨ f = zero := by
  rw [f.eq_negateIf_positive, h]
  cases f.isNegated
  · exact Or.inl rfl
  · exact Or.inr rfl

/-- Complementing a handle that has a node turns its sign around. -/
lemma isNegated_neg {f : Handle} (h : 1 ≤ f.index) : (-f).isNegated = !f.isNegated := by
  obtain ⟨code⟩ := f
  show decide (-code < 0) = !decide (code < 0)
  have hcode : code ≠ 0 := by
    rintro rfl
    simp [index] at h
  by_cases hneg : code < 0
  · simp [hneg]
    omega
  · simp [hneg]
    omega

lemma negateIf_not (b : Bool) (f : Handle) : f.negateIf (!b) = -f.negateIf b := by
  cases b <;> simp

/-- Handles without sign are equal if their nodes are. -/
lemma eq_of_index_eq {f g : Handle} (hindex : f.index = g.index)
    (hsign : f.isNegated = g.isNegated) : f = g := by
  rw [f.eq_negateIf_positive, g.eq_negateIf_positive, hindex, hsign]

end Handle

namespace Store

/-- A handle of the store: its node is stored. -/
def Valid (s : Store) (f : Handle) : Prop :=
  ∃ n, s.table.value? f.index = some n

/-- A handle that may stand below variable `v`: it is constant or tests a later variable. -/
def Beneath (s : Store) (v : Nat) (f : Handle) : Prop :=
  f.index = 1 ∨ ∃ n, s.table.value? f.index = some n ∧ v < n.var

/-- What is required of a node stored at index `i`. -/
structure Fits (s : Store) (i : Nat) (n : Node) : Prop where
  var_pos : 0 < n.var
  low_pos : 1 ≤ n.low.index
  low_lt : n.low.index < i
  high_pos : 1 ≤ n.high.index
  high_lt : n.high.index < i
  distinct : n.low ≠ n.high
  /-- The high child is not complemented. -/
  plain : n.high.isNegated = false
  low_beneath : s.Beneath n.var n.low
  high_beneath : s.Beneath n.var n.high

/-- **A well-shaped store.**  This holds of every store that operations lead to, also of one that has
run out of room. -/
structure Shaped (s : Store) : Prop where
  terminal : s.table.value? 1 = some Node.terminal
  fits : ∀ i n, 1 < i → s.table.value? i = some n → s.Fits i n
  unique : ∀ i j n, 1 < i → 1 < j → s.table.value? i = some n → s.table.value? j = some n → i = j
  interned : ∀ i n, 1 < i → s.table.value? i = some n →
    i ∈ s.table.buckets.getD (s.table.slot n) []
  buckets_pos : 0 < s.table.buckets.size
  buckets_lt : s.table.buckets.size < UInt64.size
  room : s.size < s.capacity

/-- **Meaning.**  The value of a function when variable `v` has the value `x v`. -/
def meaning (s : Store) (f : Handle) (x : Nat → Bool) : Bool :=
  match s.evalAt f x with
  | .ok b => b
  | .error _ => false

variable {s s' : Store} {f : Handle} {x y : Nat → Bool}

lemma valid_iff : s.Valid f ↔ 1 ≤ f.index ∧ f.index ≤ s.size :=
  Table.value?_eq_some

lemma Valid.pos (h : s.Valid f) : 1 ≤ f.index :=
  (valid_iff.1 h).1

lemma Valid.neg (h : s.Valid f) : s.Valid (-f) := by
  simpa [Valid] using h

lemma Valid.negateIf (h : s.Valid f) (b : Bool) : s.Valid (f.negateIf b) := by
  simpa [Valid] using h

lemma Valid.positive (h : s.Valid f) : s.Valid (.positive f.index) := by
  simpa [Valid] using h

lemma Beneath.neg {v : Nat} (h : s.Beneath v f) : s.Beneath v (-f) := by
  simpa [Beneath] using h

lemma Beneath.negateIf {v : Nat} (h : s.Beneath v f) (b : Bool) : s.Beneath v (f.negateIf b) := by
  simpa [Beneath] using h

lemma beneath_of_index {v : Nat} (h : f.index = 1) : s.Beneath v f :=
  Or.inl h

/-- Standing below a variable is standing below every earlier one. -/
lemma Beneath.mono {v w : Nat} (h : s.Beneath w f) (hv : v ≤ w) : s.Beneath v f := by
  rcases h with h | ⟨n, hn, hw⟩
  · exact Or.inl h
  · exact Or.inr ⟨n, hn, by omega⟩

namespace Shaped

lemma valid_constant (hs : s.Shaped) (b : Bool) : s.Valid (.constant b) := by
  rw [Valid, Handle.index_constant]
  exact ⟨_, hs.terminal⟩

lemma valid_one (hs : s.Shaped) : s.Valid .one :=
  hs.valid_constant true

lemma valid_zero (hs : s.Shaped) : s.Valid .zero :=
  hs.valid_constant false

/-- The children of a stored node are handles of the store. -/
lemma valid_low (hs : s.Shaped) {i : Nat} {n : Node} (hi : 1 < i)
    (hn : s.table.value? i = some n) : s.Valid n.low := by
  have hfits := hs.fits i n hi hn
  have hle := (Table.value?_eq_some.1 ⟨n, hn⟩).2
  exact valid_iff.2 ⟨hfits.low_pos, by have := hfits.low_lt; simp only [Store.size]; omega⟩

lemma valid_high (hs : s.Shaped) {i : Nat} {n : Node} (hi : 1 < i)
    (hn : s.table.value? i = some n) : s.Valid n.high := by
  have hfits := hs.fits i n hi hn
  have hle := (Table.value?_eq_some.1 ⟨n, hn⟩).2
  exact valid_iff.2 ⟨hfits.high_pos, by have := hfits.high_lt; simp only [Store.size]; omega⟩

end Shaped

/-! ## Evaluation

Evaluation is bounded by a depth, so that it is defined for every store.  In a well-shaped one each step
goes to a smaller index, and the index of the handle is depth enough.  The meaning is defined by evaluation
itself; that it can be computed with any sufficient bound is what makes it independent of how large the
store is.
-/

lemma node_of_value? {i : Nat} {n : Node} (h : s.table.value? i = some n) : s.node i = .ok n := by
  simp only [node, Table.value, h]

lemma evalWithin_terminal {d : Nat} (h : f.index = 1) :
    s.evalWithin x (d + 1) f = .ok (decide (f = .one)) := by
  simp only [evalWithin, Handle.isTerminal_iff.2 h, if_true]

lemma evalWithin_node {d : Nat} {n : Node} (h : f.index ≠ 1)
    (hn : s.table.value? f.index = some n) :
    s.evalWithin x (d + 1) f
      = s.evalWithin x d ((if x n.var then n.high else n.low).negateIf f.isNegated) := by
  have hterm : f.isTerminal = false := by simpa [Handle.isTerminal] using h
  simp only [evalWithin, hterm, node_of_value? hn, Bool.false_eq_true, if_false]
  rfl

/-- Evaluation reaches the terminal within as many steps as the index says, and gives the same
answer for any larger bound: every step goes to a smaller index. -/
lemma exists_evalWithin (hs : s.Shaped) (x : Nat → Bool) (f : Handle) (hf : s.Valid f) :
    ∃ b, ∀ d, f.index ≤ d → s.evalWithin x d f = .ok b := by
  induction hi : f.index using Nat.strong_induction_on generalizing f with
  | _ i ih =>
      subst hi
      by_cases h : f.index = 1
      · refine ⟨decide (f = .one), fun d hd => ?_⟩
        obtain ⟨d, rfl⟩ : ∃ k, d = k + 1 := ⟨d - 1, by omega⟩
        exact evalWithin_terminal h
      · obtain ⟨n, hn⟩ := hf
        have hlt : 1 < f.index := by
          have := (Table.value?_eq_some.1 ⟨n, hn⟩).1
          omega
        have hfits := hs.fits _ n hlt hn
        set child := (if x n.var then n.high else n.low).negateIf f.isNegated with hchild
        have hvalid : s.Valid child := by
          rw [hchild]
          split
          · exact (hs.valid_high hlt hn).negateIf _
          · exact (hs.valid_low hlt hn).negateIf _
        have hless : child.index < f.index := by
          rw [hchild, Handle.index_negateIf]
          split
          · exact hfits.high_lt
          · exact hfits.low_lt
        obtain ⟨b, hb⟩ := ih child.index hless child hvalid rfl
        refine ⟨b, fun d hd => ?_⟩
        obtain ⟨d, rfl⟩ : ∃ k, d = k + 1 := ⟨d - 1, by omega⟩
        rw [evalWithin_node h hn]
        exact hb d (by omega)

/-- **Evaluation computes the meaning**, whatever bound is set on its depth as long as it is not below
the index. -/
lemma evalWithin_eq (hs : s.Shaped) (hf : s.Valid f) {d : Nat} (hd : f.index ≤ d) :
    s.evalWithin x d f = .ok (s.meaning f x) := by
  obtain ⟨b, hb⟩ := exists_evalWithin hs x f hf
  have hsize := (valid_iff.1 hf).2
  have heval : s.evalAt f x = .ok b := hb (s.size + 1) (by omega)
  rw [hb d hd, meaning, heval]

lemma evalAt_eq (hs : s.Shaped) (hf : s.Valid f) : s.evalAt f x = .ok (s.meaning f x) :=
  evalWithin_eq hs hf (by have := (valid_iff.1 hf).2; omega)

/-! ## Laws of meaning

From here on evaluation is not opened any more.  A handle is constant, or it distinguishes cases at its
node; the sign comes in front.  The statement about variables before the top one is by induction on the
index, and it is used wherever two assignments differ in places that a diagram does not look at.
-/

lemma meaning_of_index (hs : s.Shaped) (hf : s.Valid f) (h : f.index = 1) :
    s.meaning f x = decide (f = .one) := by
  have heval := evalWithin_eq (x := x) hs hf (d := 1) (by omega)
  rw [evalWithin_terminal h] at heval
  exact (Except.ok.inj heval).symm

lemma meaning_one (hs : s.Shaped) : s.meaning .one x = true := by
  rw [meaning_of_index hs hs.valid_one rfl]
  rfl

lemma meaning_zero (hs : s.Shaped) : s.meaning .zero x = false := by
  rw [meaning_of_index hs hs.valid_zero rfl]
  rfl

lemma meaning_constant (hs : s.Shaped) (b : Bool) : s.meaning (.constant b) x = b := by
  cases b
  · exact meaning_zero hs
  · exact meaning_one hs

/-- The meaning of a handle, one step down its node. -/
lemma meaning_step (hs : s.Shaped) {n : Node} (h : 1 < f.index)
    (hn : s.table.value? f.index = some n) :
    s.meaning f x = s.meaning ((if x n.var then n.high else n.low).negateIf f.isNegated) x := by
  have hfits := hs.fits _ n h hn
  have hvalid : s.Valid ((if x n.var then n.high else n.low).negateIf f.isNegated) := by
    refine Valid.negateIf ?_ _
    split
    · exact hs.valid_high h hn
    · exact hs.valid_low h hn
  have hless : ((if x n.var then n.high else n.low).negateIf f.isNegated).index ≤ f.index := by
    rw [Handle.index_negateIf]
    split
    · exact hfits.high_lt.le
    · exact hfits.low_lt.le
  have heval := evalWithin_eq (x := x) hs ⟨n, hn⟩ (d := f.index + 1) (by omega)
  rw [evalWithin_node (by omega) hn, evalWithin_eq hs hvalid hless] at heval
  exact (Except.ok.inj heval).symm

/-- **Complementing a handle complements its function.** -/
lemma meaning_neg (hs : s.Shaped) (hf : s.Valid f) : s.meaning (-f) x = !s.meaning f x := by
  induction hi : f.index using Nat.strong_induction_on generalizing f with
  | _ i ih =>
      subst hi
      by_cases h : f.index = 1
      · rcases Handle.eq_constant_of_index h with rfl | rfl
        · exact (meaning_zero hs).trans (by rw [meaning_one hs]; rfl)
        · exact (meaning_one hs).trans (by rw [meaning_zero hs]; rfl)
      · have hlt : 1 < f.index := by
          have := hf.pos
          omega
        obtain ⟨n, hn⟩ := hf
        have hfits := hs.fits _ n hlt hn
        have hn' : s.table.value? (-f).index = some n := by rwa [Handle.index_neg]
        rw [meaning_step hs hlt hn, meaning_step hs (by rwa [Handle.index_neg]) hn',
          Handle.isNegated_neg (by omega), Handle.negateIf_not]
        refine ih _ ?_ (Valid.negateIf ?_ _) rfl
        · rw [Handle.index_negateIf]
          split
          · exact hfits.high_lt
          · exact hfits.low_lt
        · split
          · exact hs.valid_high hlt hn
          · exact hs.valid_low hlt hn

lemma meaning_negateIf (hs : s.Shaped) (hf : s.Valid f) (b : Bool) :
    s.meaning (f.negateIf b) x = (b ^^ s.meaning f x) := by
  cases b
  · simp
  · simp [meaning_neg hs hf]

/-- **The case distinction at a node.** -/
lemma meaning_of_node (hs : s.Shaped) {n : Node} (h : 1 < f.index)
    (hn : s.table.value? f.index = some n) :
    s.meaning f x
      = (f.isNegated ^^ if x n.var then s.meaning n.high x else s.meaning n.low x) := by
  rw [meaning_step hs h hn]
  by_cases hx : x n.var
  · simp only [hx, if_true]
    exact meaning_negateIf hs (hs.valid_high h hn) _
  · simp only [hx]
    exact meaning_negateIf hs (hs.valid_low h hn) _

/-- Variables up to `v` do not matter for a handle below `v`. -/
lemma meaning_eq_of_beneath (hs : s.Shaped) (hf : s.Valid f) {v : Nat} (hv : s.Beneath v f)
    (hxy : ∀ w, v < w → x w = y w) : s.meaning f x = s.meaning f y := by
  induction hi : f.index using Nat.strong_induction_on generalizing f v with
  | _ i ih =>
      subst hi
      rcases hv with h | ⟨n, hn, hv⟩
      · rw [meaning_of_index hs hf h, meaning_of_index hs hf h]
      · by_cases h : f.index = 1
        · rw [meaning_of_index hs hf h, meaning_of_index hs hf h]
        · have hlt : 1 < f.index := by
            have := hf.pos
            omega
          have hfits := hs.fits _ n hlt hn
          have hagree : ∀ w, n.var < w → x w = y w := fun w hw => hxy w (by omega)
          rw [meaning_of_node hs hlt hn, meaning_of_node hs hlt hn, hxy n.var hv,
            ih _ hfits.high_lt (hs.valid_high hlt hn) hfits.high_beneath hagree rfl,
            ih _ hfits.low_lt (hs.valid_low hlt hn) hfits.low_beneath hagree rfl]

/-- Every handle stands below the reserved variable `0`, since nodes test positive variables. -/
lemma beneath_zero (hs : s.Shaped) (hf : s.Valid f) : s.Beneath 0 f := by
  by_cases h : f.index = 1
  · exact Or.inl h
  · obtain ⟨n, hn⟩ := hf
    have hpos := (Table.value?_eq_some.1 ⟨n, hn⟩).1
    exact Or.inr ⟨n, hn, (hs.fits _ n (by omega) hn).var_pos⟩

/-- Only positive variables matter. -/
lemma meaning_congr (hs : s.Shaped) (hf : s.Valid f) (hxy : ∀ w, 0 < w → x w = y w) :
    s.meaning f x = s.meaning f y :=
  meaning_eq_of_beneath hs hf (beneath_zero hs hf) hxy

/-! ## Growth

Nodes are never changed nor moved, they only get more.  This is the one fact about operations that almost
everything else rests on: an old handle means in the new store what it meant in the old one, so an argument
about a single step can be used after any number of further steps.
-/

/-- Every node of `s` stands at the same index of `s'`. -/
def Keeps (s s' : Store) : Prop :=
  ∀ i n, s.table.value? i = some n → s'.table.value? i = some n

namespace Keeps

lemma refl (s : Store) : s.Keeps s :=
  fun _ _ h => h

lemma trans {s'' : Store} (h : s.Keeps s') (h' : s'.Keeps s'') : s.Keeps s'' :=
  fun i n hn => h' i n (h i n hn)

lemma of_table_eq (h : s'.table = s.table) : s.Keeps s' := by
  intro i n hn
  rwa [h]

lemma valid (h : s.Keeps s') (hf : s.Valid f) : s'.Valid f := by
  obtain ⟨n, hn⟩ := hf
  exact ⟨n, h _ n hn⟩

lemma beneath (h : s.Keeps s') {v : Nat} (hf : s.Beneath v f) : s'.Beneath v f := by
  rcases hf with hf | ⟨n, hn, hv⟩
  · exact Or.inl hf
  · exact Or.inr ⟨n, h _ n hn, hv⟩

/-- **Old handles keep their meaning.** -/
lemma meaning_eq (h : s.Keeps s') (hs : s.Shaped) (hs' : s'.Shaped) (hf : s.Valid f) :
    s'.meaning f x = s.meaning f x := by
  induction hi : f.index using Nat.strong_induction_on generalizing f with
  | _ i ih =>
      subst hi
      by_cases h1 : f.index = 1
      · rw [meaning_of_index hs' (h.valid hf) h1, meaning_of_index hs hf h1]
      · have hlt : 1 < f.index := by
          have := hf.pos
          omega
        obtain ⟨n, hn⟩ := hf
        have hfits := hs.fits _ n hlt hn
        rw [meaning_of_node hs' hlt (h _ n hn), meaning_of_node hs hlt hn,
          ih _ hfits.high_lt (hs.valid_high hlt hn) rfl,
          ih _ hfits.low_lt (hs.valid_low hlt hn) rfl]

end Keeps

end Store

end ModalCalls
