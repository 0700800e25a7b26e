import Mathlib
import ModalCalls.Diagram.Serial
import ModalCalls.Proofs.Diagram.Canonical

/-!
# The serial form depends on the function alone

Two handles of the same meaning have the same serial form, whatever stores they live in and in whatever
order the nodes of these stores were built (`Store.serial_eq_of_agree`).

Both listings visit their nodes in the same order, because nodes of the same meaning test the same
variable and have children of the same meaning.  What the induction carries along is that the
listings are in step: they have the same entries so far, and nodes of the same meaning have the same
number in both (`Serial.InStep`).
-/

namespace ModalCalls

open Store

namespace Serial

/-! ## Listings in step

The invariant of the walk relates two listings over two stores.  It quantifies over all pairs of handles
that mean the same, and not over those that were visited: this way a node that is found to be listed on one
side is known to be listed on the other, under the same number.
-/

/-- The terminal needs no entry; any other node has to be listed. -/
def Listing.Lists (l : Listing) (f : Handle) : Prop :=
  f.index = 1 ∨ (l.numbers[f.index]?).isSome

/-- Listings of two stores with the same entries and the same numbers for nodes of the same
meaning. -/
structure InStep (s s' : Store) (l l' : Listing) : Prop where
  entries : l.entries = l'.entries
  numbers : ∀ f f' : Handle, s.Valid f → s'.Valid f' → 1 < f.index → 1 < f'.index →
    (∀ x, s.meaning f x = s'.meaning f' x) → l.numbers[f.index]? = l'.numbers[f'.index]?

variable {s s' : Store} {l l' : Listing} {f f' : Handle}

/-- Listings in step refer to handles of the same meaning by the same signed number. -/
lemma InStep.reference_eq (h : InStep s s' l l') (hs : s.Shaped) (hs' : s'.Shaped)
    (hf : s.Valid f) (hf' : s'.Valid f') (hagree : ∀ x, s.meaning f x = s'.meaning f' x)
    (hl : l.Lists f) : ∃ k, l.reference f = .ok k ∧ l'.reference f' = .ok k := by
  obtain ⟨hsign, ⟨hone, hone'⟩ | ⟨_, _, hlt, hlt', _⟩⟩ := agree_cases hs hs' hf hf' hagree
  · simp only [Listing.reference, if_pos (Handle.isTerminal_iff.2 hone),
      if_pos (Handle.isTerminal_iff.2 hone'), hsign]
    exact ⟨_, rfl, rfl⟩
  · obtain ⟨k, hk⟩ : ∃ k, l.numbers[f.index]? = some k := by
      rcases hl with hone | hsome
      · omega
      · exact Option.isSome_iff_exists.1 hsome
    have hk' := (h.numbers f f' hf hf' hlt hlt' hagree).symm.trans hk
    have hterm : ¬ f.isTerminal = true := fun h => by
      have := Handle.isTerminal_iff.1 h
      omega
    have hterm' : ¬ f'.isTerminal = true := fun h => by
      have := Handle.isTerminal_iff.1 h
      omega
    simp only [Listing.reference, if_neg hterm, if_neg hterm', hk, hk', hsign]
    exact ⟨_, rfl, rfl⟩

/-- Handles with one node in a store correspond to handles with one node in the other. -/
lemma index_eq_of_agree (hs : s.Shaped) (hs' : s'.Shaped) {g g' : Handle} (hf : s.Valid f)
    (hf' : s'.Valid f') (hg' : s'.Valid g') (hff' : ∀ x, s.meaning f x = s'.meaning f' x)
    (hgg' : ∀ x, s.meaning g x = s'.meaning g' x) (h : f.index = g.index) :
    f'.index = g'.index := by
  by_cases hsign : f.isNegated = g.isNegated
  · obtain rfl := Handle.eq_of_index_eq h hsign
    have : f' = g' := canonical hs' hf' hg' fun x => (hff' x).symm.trans (hgg' x)
    rw [this]
  · obtain rfl : -f = g := by
      refine Handle.eq_of_index_eq ((Handle.index_neg f).trans h) ?_
      rw [Handle.isNegated_neg hf.pos]
      cases hb : f.isNegated <;> cases hc : g.isNegated <;> simp_all
    have : -f' = g' := canonical hs' hf'.neg hg' fun x => by
      rw [meaning_neg hs' hf', ← hff', ← hgg', meaning_neg hs hf]
    rw [← this, Handle.index_neg]

/-- Listing one more node on both sides, with children that have the same numbers. -/
lemma InStep.push (h : InStep s s' l l') (hs : s.Shaped) (hs' : s'.Shaped) (hf : s.Valid f)
    (hf' : s'.Valid f') (hagree : ∀ x, s.meaning f x = s'.meaning f' x) {n n' : Node}
    (hvar : n.var = n'.var) {low high : Int} (hlow : l.reference n.low = .ok low)
    (hlow' : l'.reference n'.low = .ok low) (hhigh : l.reference n.high = .ok high)
    (hhigh' : l'.reference n'.high = .ok high) :
    ∃ m m', l.push f.index n = .ok m ∧ l'.push f'.index n' = .ok m' ∧ InStep s s' m m' ∧
      m.Lists f ∧ ∀ g, l.Lists g → m.Lists g := by
  refine ⟨⟨l.numbers.insert f.index (l.entries.size + 2), l.entries.push ⟨n.var, low, high⟩⟩,
    ⟨l'.numbers.insert f'.index (l'.entries.size + 2), l'.entries.push ⟨n'.var, low, high⟩⟩, ?_, ?_,
    ⟨?_, ?_⟩, ?_, ?_⟩
  · simp only [Listing.push, hlow, hhigh]
    rfl
  · simp only [Listing.push, hlow', hhigh']
    rfl
  · simp only [h.entries, hvar]
  · intro g g' hg hg' hlt hlt' hgg'
    -- within a store there is only one node of a meaning, up to complement
    have hiff : f.index = g.index ↔ f'.index = g'.index :=
      ⟨index_eq_of_agree hs hs' hf hf' hg' hagree hgg',
        index_eq_of_agree hs' hs hf' hf hg (fun x => (hagree x).symm) fun x => (hgg' x).symm⟩
    simp only [Std.TreeMap.getElem?_insert, Nat.compare_eq_eq, h.entries, hiff,
      h.numbers g g' hg hg' hlt hlt' hgg']
  · exact Or.inr (by simp)
  · rintro g (hg | hg)
    · exact Or.inl hg
    · refine Or.inr ?_
      simp only [Std.TreeMap.getElem?_insert]
      split
      · rfl
      · exact hg

end Serial

namespace Store

open Serial

variable {s s' : Store} {f f' : Handle}

/-! ## The walk

The walks below two handles of the same meaning make the same decisions.  Either both handles are constant
or listed, or both nodes are new, and then they test the same variable and their children have the same
meaning.  The depths are bounded separately, since the stores may be of different size.
-/

lemma listWithin_listed {d : Nat} {l : Listing} (h : l.Lists f) :
    s.listWithin (d + 1) f l = .ok l := by
  rw [listWithin, if_pos]
  rcases h with h | h
  · rw [Handle.isTerminal_iff.2 h, Bool.true_or]
  · rw [Listing.contains, Std.TreeMap.contains_eq_isSome_getElem?, h, Bool.or_true]

lemma listWithin_node {d : Nat} {l : Listing} (h : ¬ l.Lists f) {n : Node}
    (hn : s.table.value? f.index = some n) :
    s.listWithin (d + 1) f l = (do
      let l ← s.listWithin d n.low l
      let l ← s.listWithin d n.high l
      l.push f.index n) := by
  rw [listWithin, if_neg, node_of_value? hn]
  · rfl
  · intro hc
    rw [Bool.or_eq_true, Listing.contains, Std.TreeMap.contains_eq_isSome_getElem?,
      Handle.isTerminal_iff] at hc
    exact h hc

/-- Listings of handles of the same meaning stay in step, by induction on the depth. -/
lemma listWithin_inStep (hs : s.Shaped) (hs' : s'.Shaped) : ∀ (d d' : Nat) {f f' : Handle}
    {l l' : Listing}, s.Valid f → s'.Valid f' → (∀ x, s.meaning f x = s'.meaning f' x) →
    f.index ≤ d → f'.index ≤ d' → InStep s s' l l' →
    ∃ m m', s.listWithin d f l = .ok m ∧ s'.listWithin d' f' l' = .ok m' ∧ InStep s s' m m' ∧
      m.Lists f ∧ ∀ g, l.Lists g → m.Lists g
  | 0, _, f, f', l, l', hf, _, _, hd, _, _ => by
      have := hf.pos
      omega
  | d + 1, 0, f, f', l, l', _, hf', _, _, hd', _ => by
      have := hf'.pos
      omega
  | d + 1, d' + 1, f, f', l, l', hf, hf', hagree, hd, hd', hstep => by
      obtain ⟨-, ⟨hone, hone'⟩ | ⟨n, n', hlt, hlt', hn, hn', hvar, hlow, hhigh⟩⟩ :=
        agree_cases hs hs' hf hf' hagree
      · exact ⟨l, l', listWithin_listed (Or.inl hone), listWithin_listed (Or.inl hone'), hstep,
          Or.inl hone, fun _ h => h⟩
      · have hnumbers := hstep.numbers f f' hf hf' hlt hlt' hagree
        by_cases hl : l.Lists f
        · refine ⟨l, l', listWithin_listed hl, listWithin_listed ?_, hstep, hl, fun _ h => h⟩
          rcases hl with hl | hl
          · omega
          · exact Or.inr (hnumbers ▸ hl)
        · have hl' : ¬ l'.Lists f' := by
            rintro (h | h)
            · omega
            · exact hl (Or.inr (hnumbers ▸ h))
          have hfits := hs.fits _ n hlt hn
          have hfits' := hs'.fits _ n' hlt' hn'
          have hvl := hs.valid_low hlt hn
          have hvl' := hs'.valid_low hlt' hn'
          have hvh := hs.valid_high hlt hn
          have hvh' := hs'.valid_high hlt' hn'
          have := hfits.low_lt
          have := hfits'.low_lt
          have := hfits.high_lt
          have := hfits'.high_lt
          obtain ⟨m₁, m₁', h₁, h₁', hstep₁, hlow₁, hkeep₁⟩ :=
            listWithin_inStep hs hs' d d' hvl hvl' hlow (by omega) (by omega) hstep
          obtain ⟨m₂, m₂', h₂, h₂', hstep₂, hhigh₂, hkeep₂⟩ :=
            listWithin_inStep hs hs' d d' hvh hvh' hhigh (by omega) (by omega) hstep₁
          obtain ⟨lowNumber, hrl, hrl'⟩ :=
            hstep₂.reference_eq hs hs' hvl hvl' hlow (hkeep₂ _ hlow₁)
          obtain ⟨highNumber, hrh, hrh'⟩ := hstep₂.reference_eq hs hs' hvh hvh' hhigh hhigh₂
          obtain ⟨m, m', hp, hp', hstep₃, hlists, hkeep⟩ :=
            hstep₂.push hs hs' hf hf' hagree hvar hrl hrl' hrh hrh'
          refine ⟨m, m', ?_, ?_, hstep₃, hlists, fun g hg => hkeep g (hkeep₂ g (hkeep₁ g hg))⟩
          · simp only [listWithin_node hl hn, h₁, bind, Except.bind, h₂, hp]
          · simp only [listWithin_node hl' hn', h₁', bind, Except.bind, h₂', hp']

/-- **Handles of the same meaning have the same serial form.** -/
theorem serial_eq_of_agree (hs : s.Shaped) (hs' : s'.Shaped) (hf : s.Valid f) (hf' : s'.Valid f')
    (hagree : ∀ x, s.meaning f x = s'.meaning f' x) :
    ∃ text, s.serial f = .ok text ∧ s'.serial f' = .ok text := by
  have hd := (valid_iff.1 hf).2
  have hd' := (valid_iff.1 hf').2
  have hnone : InStep s s' {} {} := ⟨rfl, fun _ _ _ _ _ _ _ => by simp⟩
  obtain ⟨m, m', hm, hm', hstep, hlists, -⟩ :=
    listWithin_inStep hs hs' (s.size + 1) (s'.size + 1) hf hf' hagree (by omega) (by omega) hnone
  obtain ⟨root, hr, hr'⟩ := hstep.reference_eq hs hs' hf hf' hagree hlists
  simp only [serial, listing, hm, hm', bind, Except.bind, hr, hr', hstep.entries]
  exact ⟨_, rfl, rfl⟩

end Store

end ModalCalls
