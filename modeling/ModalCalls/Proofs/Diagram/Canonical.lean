import Mathlib
import ModalCalls.Proofs.Diagram.Meaning

/-!
# One handle for each function

A function has at most one handle in a well-shaped store (`Store.canonical`), so comparing handles is
comparing functions.

The argument reads a handle off its function.  Following high children from an uncomplemented handle
meets no complement, so the sign of a handle is the value of its function where all variables are
true.  The variable of its node is the first one on which the function depends: it does depend on it,
because the children of a node differ.  And the children are what remains of the function when that
variable is fixed.

None of these steps looks at an index, so they compare handles of *two* stores just as well.  That is
`Store.agree_cases`: handles of equal meaning have nodes with the same variable and with children of
equal meaning.  The text form of a diagram depends on nothing else.
-/

namespace ModalCalls

namespace Store

variable {s s' : Store} {f f' : Handle}

/-- The sign of a handle is the value of its function where all variables are true. -/
lemma meaning_true (hs : s.Shaped) (hf : s.Valid f) : s.meaning f (fun _ => true) = !f.isNegated := by
  induction hi : f.index using Nat.strong_induction_on generalizing f with
  | _ i ih =>
      subst hi
      by_cases h : f.index = 1
      · rcases Handle.eq_constant_of_index h with rfl | rfl
        · rw [meaning_one hs]
          rfl
        · rw [meaning_zero hs]
          rfl
      · have hlt : 1 < f.index := by
          have := hf.pos
          omega
        obtain ⟨n, hn⟩ := hf
        have hfits := hs.fits _ n hlt hn
        rw [meaning_of_node hs hlt hn, if_pos rfl,
          ih _ hfits.high_lt (hs.valid_high hlt hn) rfl, hfits.plain]
        simp

/-! ## Reading a handle off its function

Each lemma recovers one part of a handle from its meaning: the sign, the variable of its node, and the
children.  The first variable on which a function depends cannot be told from one assignment, so the lemmas
compare the function with itself under a change of one variable.
-/

/-- Handles of the same meaning have the same sign. -/
lemma sign_eq_of_agree (hs : s.Shaped) (hs' : s'.Shaped) (hf : s.Valid f) (hf' : s'.Valid f')
    (h : ∀ x, s.meaning f x = s'.meaning f' x) : f.isNegated = f'.isNegated := by
  have := h fun _ => true
  rw [meaning_true hs hf, meaning_true hs' hf'] at this
  simpa using this

/-- Fixing the variable of a node leaves the meaning of one of its children. -/
lemma meaning_update (hs : s.Shaped) {n : Node} (h : 1 < f.index)
    (hn : s.table.value? f.index = some n) (x : Nat → Bool) (b : Bool) :
    s.meaning f (Function.update x n.var b)
      = (f.isNegated ^^ if b then s.meaning n.high x else s.meaning n.low x) := by
  have hfits := hs.fits _ n h hn
  have hagree : ∀ w, n.var < w → Function.update x n.var b w = x w := fun w hw =>
    Function.update_of_ne (by omega) _ _
  rw [meaning_of_node hs h hn, Function.update_self,
    meaning_eq_of_beneath hs (hs.valid_high h hn) hfits.high_beneath hagree,
    meaning_eq_of_beneath hs (hs.valid_low h hn) hfits.low_beneath hagree]

/-- If a function does not depend on the variable of its node, the children agree. -/
lemma children_agree (hs : s.Shaped) {n : Node} (h : 1 < f.index)
    (hn : s.table.value? f.index = some n)
    (hind : ∀ x b, s.meaning f (Function.update x n.var b) = s.meaning f x) (x : Nat → Bool) :
    s.meaning n.low x = s.meaning n.high x := by
  have hlow := meaning_update hs h hn x false
  have hhigh := meaning_update hs h hn x true
  rw [hind] at hlow hhigh
  simpa using hlow.symm.trans hhigh

/-- The nodes of two handles with the same meaning, provided that the children of either node differ
in meaning: they test the same variable and their children have the same meaning. -/
lemma agree_nodes (hs : s.Shaped) (hs' : s'.Shaped) (hf : s.Valid f) (hf' : s'.Valid f')
    (hred : ∀ n, 1 < f.index → s.table.value? f.index = some n →
      ¬ ∀ x, s.meaning n.low x = s.meaning n.high x)
    (hred' : ∀ n, 1 < f'.index → s'.table.value? f'.index = some n →
      ¬ ∀ x, s'.meaning n.low x = s'.meaning n.high x)
    (h : ∀ x, s.meaning f x = s'.meaning f' x) {n : Node} (hlt : 1 < f.index)
    (hn : s.table.value? f.index = some n) :
    ∃ n', 1 < f'.index ∧ s'.table.value? f'.index = some n' ∧ n.var = n'.var ∧
      (∀ x, s.meaning n.low x = s'.meaning n'.low x) ∧
      ∀ x, s.meaning n.high x = s'.meaning n'.high x := by
  have hsign := sign_eq_of_agree hs hs' hf hf' h
  -- `f'` depends on the variable of `f`, so it does not stand below it
  have hbelow : ¬ s'.Beneath n.var f' := by
    intro hb
    refine hred n hlt hn (children_agree hs hlt hn fun x b => ?_)
    rw [h, h]
    exact meaning_eq_of_beneath hs' hf' hb fun w hw => Function.update_of_ne (by omega) _ _
  have hlt' : 1 < f'.index := by
    have := hf'.pos
    have : f'.index ≠ 1 := fun h1 => hbelow (Or.inl h1)
    omega
  obtain ⟨n', hn'⟩ := hf'
  have hle : n'.var ≤ n.var := by
    by_contra hgt
    exact hbelow (Or.inr ⟨n', hn', by omega⟩)
  have hge : n.var ≤ n'.var := by
    by_contra hgt
    refine hred' n' hlt' hn' (children_agree hs' hlt' hn' fun x b => ?_)
    have hb : s.Beneath n'.var f := Or.inr ⟨n, hn, by omega⟩
    rw [← h, ← h]
    exact meaning_eq_of_beneath hs hf hb fun w hw => Function.update_of_ne (by omega) _ _
  have hvar : n.var = n'.var := by omega
  refine ⟨n', hlt', hn', hvar, fun x => ?_, fun x => ?_⟩
  · have hx := h (Function.update x n.var false)
    rw [meaning_update hs hlt hn, hvar, meaning_update hs' hlt' hn', hsign] at hx
    simpa using hx
  · have hx := h (Function.update x n.var true)
    rw [meaning_update hs hlt hn, hvar, meaning_update hs' hlt' hn', hsign] at hx
    simpa using hx

/-! ## Canonicity

Handles of equal meaning have nodes with the same variable and children of equal meaning.  By induction the
children are equal, so the two nodes are, and a store has no node twice.  The induction is on a bound for
both indices, since it is not known beforehand on which side the children come first.
-/

/-- **Canonicity.**  Handles of one store with the same meaning are equal. -/
theorem canonical (hs : s.Shaped) {g : Handle} (hf : s.Valid f) (hg : s.Valid g)
    (h : ∀ x, s.meaning f x = s.meaning g x) : f = g := by
  -- by induction on a bound for both indices, so that children are covered on either side
  induction hN : max f.index g.index using Nat.strong_induction_on generalizing f g with
  | _ N ih =>
      subst hN
      have hred : ∀ e : Handle, e.index ≤ max f.index g.index → ∀ n, 1 < e.index →
          s.table.value? e.index = some n → ¬ ∀ x, s.meaning n.low x = s.meaning n.high x := by
        intro e he n hlt hn hagree
        have hfits := hs.fits _ n hlt hn
        have hlow := hfits.low_lt
        have hhigh := hfits.high_lt
        exact hfits.distinct
          (ih _ (by omega) (hs.valid_low hlt hn) (hs.valid_high hlt hn) hagree rfl)
      have hredf := hred f (by omega)
      have hredg := hred g (by omega)
      have hsign := sign_eq_of_agree hs hs hf hg h
      by_cases h1 : f.index = 1
      · by_cases h2 : g.index = 1
        · exact Handle.eq_of_index_eq (h1.trans h2.symm) hsign
        · obtain ⟨n, hn⟩ := id hg
          have hpos := hg.pos
          obtain ⟨_, hlt, _⟩ := agree_nodes hs hs hg hf hredg hredf (fun x => (h x).symm)
            (by omega) hn
          omega
      · obtain ⟨n, hn⟩ := id hf
        have hpos := hf.pos
        have hlt : 1 < f.index := by omega
        obtain ⟨n', hlt', hn', hvar, hlow, hhigh⟩ :=
          agree_nodes hs hs hf hg hredf hredg h hlt hn
        have hfits := hs.fits _ n hlt hn
        have hfits' := hs.fits _ n' hlt' hn'
        have hl1 := hfits.low_lt
        have hl2 := hfits'.low_lt
        have hh1 := hfits.high_lt
        have hh2 := hfits'.high_lt
        have elow : n.low = n'.low :=
          ih _ (by omega) (hs.valid_low hlt hn) (hs.valid_low hlt' hn') hlow rfl
        have ehigh : n.high = n'.high :=
          ih _ (by omega) (hs.valid_high hlt hn) (hs.valid_high hlt' hn') hhigh rfl
        have hnode : n = n' := by
          cases n
          cases n'
          simp_all
        subst hnode
        exact Handle.eq_of_index_eq (hs.unique _ _ n hlt hlt' hn hn') hsign

/-- The children of a stored node differ in meaning. -/
lemma children_differ (hs : s.Shaped) {i : Nat} {n : Node} (hlt : 1 < i)
    (hn : s.table.value? i = some n) : ¬ ∀ x, s.meaning n.low x = s.meaning n.high x := fun h =>
  (hs.fits i n hlt hn).distinct (canonical hs (hs.valid_low hlt hn) (hs.valid_high hlt hn) h)

/-- **Equal meaning, equal shape**, also across stores: handles of the same meaning have the same sign,
and either both are constant or their nodes test the same variable and have children of the same
meaning. -/
theorem agree_cases (hs : s.Shaped) (hs' : s'.Shaped) (hf : s.Valid f) (hf' : s'.Valid f')
    (h : ∀ x, s.meaning f x = s'.meaning f' x) :
    f.isNegated = f'.isNegated ∧
      ((f.index = 1 ∧ f'.index = 1) ∨
        ∃ n n', 1 < f.index ∧ 1 < f'.index ∧ s.table.value? f.index = some n ∧
          s'.table.value? f'.index = some n' ∧ n.var = n'.var ∧
          (∀ x, s.meaning n.low x = s'.meaning n'.low x) ∧
          ∀ x, s.meaning n.high x = s'.meaning n'.high x) := by
  refine ⟨sign_eq_of_agree hs hs' hf hf' h, ?_⟩
  have hpos := hf.pos
  have hpos' := hf'.pos
  by_cases h1 : f.index = 1
  · by_cases h2 : f'.index = 1
    · exact Or.inl ⟨h1, h2⟩
    · obtain ⟨n, hn⟩ := id hf'
      obtain ⟨_, hlt, _⟩ := agree_nodes hs' hs hf' hf (fun _ => children_differ hs')
        (fun _ => children_differ hs) (fun x => (h x).symm) (by omega) hn
      omega
  · obtain ⟨n, hn⟩ := id hf
    obtain ⟨n', hlt', hn', hrest⟩ := agree_nodes hs hs' hf hf' (fun _ => children_differ hs)
      (fun _ => children_differ hs') h (by omega) hn
    exact Or.inr ⟨n, n', by omega, hlt', hn, hn', hrest⟩

end Store

end ModalCalls
