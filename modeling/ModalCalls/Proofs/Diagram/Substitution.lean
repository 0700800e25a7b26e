import Mathlib
import ModalCalls.Diagram.Ite
import ModalCalls.Proofs.Diagram.IfThenElse

/-!
# Substitution composes functions

`DiagramM.compose_spec`: the diagram that `compose f subst` returns means `f` read at the values of the
substituted functions.  The recursion visits a node once and remembers what it was rebuilt into, so the
induction carries along that every remembered result is right (`Store.Remembers`).

A substitution that was carried out before, at these handles and in this store, adds no node when it
is carried out again: `Store.Covered` says that all functions it meets on its way have handles, it
holds after every substitution, and a substitution for which it holds is quiet.
-/

namespace ModalCalls

namespace Store

variable {s s' : Store} {subst : Array Handle} {f : Handle} {x : Nat → Bool}

/-! ## What a substitution meets

A substitution is specified by an assignment: reading the result at `x` is reading the diagram at the values
that the substituted functions have there.  All that a substitution builds on its way are instances of this
for nodes of the diagram, together with the replacements themselves, and `Covered` is the statement that
each of them has a handle.
-/

/-- What a diagram is read at when its variables are replaced. -/
def substituted (s : Store) (subst : Array Handle) (x : Nat → Bool) (v : Nat) : Bool :=
  match subst[v - 1]? with
  | some g => s.meaning g x
  | none => x v

/-- All handles that are put in are handles of the store. -/
def ValidSubst (s : Store) (subst : Array Handle) : Prop :=
  ∀ g ∈ subst, s.Valid g

/-- All functions that a substitution meets below a node have handles: what its variables are
replaced by, and what its nodes are rebuilt into. -/
inductive Covered (s : Store) (subst : Array Handle) : Nat → Prop
  | terminal : Covered s subst 1
  | node {i : Nat} {n : Node} (hi : 1 < i) (hn : s.table.value? i = some n)
      (hvar : s.Represents fun x => s.substituted subst x n.var)
      (hself : s.Represents fun x => s.meaning (.positive i) (s.substituted subst x))
      (hlow : Covered s subst n.low.index) (hhigh : Covered s subst n.high.index) :
      Covered s subst i

lemma Grows.substituted_eq (h : s.Grows s') (hs : s.Shaped) (hsubst : s.ValidSubst subst) :
    s'.substituted subst x = s.substituted subst x := by
  funext v
  simp only [substituted]
  split
  · next g hg => exact h.meaning_eq hs (hsubst g (Array.mem_of_getElem? hg))
  · rfl

lemma ValidSubst.keeps (hsubst : s.ValidSubst subst) (h : s.Keeps s') : s'.ValidSubst subst :=
  fun g hg => h.valid (hsubst g hg)

lemma Covered.grows (hs : s.Shaped) (hsubst : s.ValidSubst subst) (h : s.Grows s') {i : Nat}
    (hc : s.Covered subst i) : s'.Covered subst i := by
  induction hc with
  | terminal => exact .terminal
  | node hi hn hvar hself _ _ ihlow ihhigh =>
      have hpos : s.Valid (.positive _) := ⟨_, by rwa [Handle.index_positive]⟩
      refine .node hi (h.keeps _ _ hn) ?_ ?_ ihlow ihhigh
      · simpa only [h.substituted_eq hs hsubst] using h.represents hs hvar
      · simpa only [h.substituted_eq hs hsubst, h.meaning_eq hs hpos] using h.represents hs hself

lemma Covered.of_node {i : Nat} (hc : s.Covered subst i) (hi : 1 < i) {n : Node}
    (hn : s.table.value? i = some n) :
    (s.Represents fun x => s.substituted subst x n.var) ∧
      (s.Represents fun x => s.meaning (.positive i) (s.substituted subst x)) ∧
      s.Covered subst n.low.index ∧ s.Covered subst n.high.index := by
  cases hc with
  | terminal => exact absurd hi (lt_irrefl 1)
  | node _ hm hvar hself hlow hhigh =>
      obtain rfl := Option.some.inj (hm.symm.trans hn)
      exact ⟨hvar, hself, hlow, hhigh⟩

/-- Every remembered result is what its node is to be rebuilt into. -/
structure Remembers (s : Store) (subst : Array Handle) (done : DiagramM.Rebuilt) : Prop where
  valid : ∀ i r, done[i]? = some r → s.Valid (.positive i) ∧ s.Valid r
  meaning : s.overflowed = false → ∀ i r, done[i]? = some r →
    ∀ x, s.meaning r x = s.meaning (.positive i) (s.substituted subst x)
  covered : s.overflowed = false → ∀ i r, done[i]? = some r → s.Covered subst i

lemma remembers_empty (s : Store) (subst : Array Handle) : s.Remembers subst ∅ := by
  refine ⟨fun i r hr => ?_, fun _ i r hr => ?_, fun _ i r hr => ?_⟩ <;> simp at hr

lemma Remembers.grows {done : DiagramM.Rebuilt} (hs : s.Shaped) (hsubst : s.ValidSubst subst)
    (h : s.Grows s') (hd : s.Remembers subst done) : s'.Remembers subst done where
  valid := fun i r hr => ⟨h.keeps.valid (hd.valid i r hr).1, h.keeps.valid (hd.valid i r hr).2⟩
  meaning := fun ho i r hr x => by
    obtain ⟨hi, hvalid⟩ := hd.valid i r hr
    rw [h.substituted_eq hs hsubst, h.meaning_eq hs hvalid, h.meaning_eq hs hi,
      hd.meaning (h.overflowed ho) i r hr]
  covered := fun ho i r hr => (hd.covered (h.overflowed ho) i r hr).grows hs hsubst h

lemma Remembers.insert {done : DiagramM.Rebuilt} (hd : s.Remembers subst done) {i : Nat} {r : Handle}
    (hi : s.Valid (.positive i)) (hr : s.Valid r)
    (hmean : s.overflowed = false →
      ∀ x, s.meaning r x = s.meaning (.positive i) (s.substituted subst x))
    (hcov : s.overflowed = false → s.Covered subst i) :
    s.Remembers subst (done.insert i r) := by
  have hcases : ∀ j q, (done.insert i r)[j]? = some q → (j = i ∧ q = r) ∨ done[j]? = some q := by
    intro j q hq
    rw [Std.TreeMap.getElem?_insert] at hq
    split at hq
    · next h =>
        simp only [Nat.compare_eq_eq] at h
        exact Or.inl ⟨h.symm, (Option.some.inj hq).symm⟩
    · exact Or.inr hq
  refine ⟨fun j q hq => ?_, fun ho j q hq => ?_, fun ho j q hq => ?_⟩ <;>
    rcases hcases j q hq with ⟨rfl, rfl⟩ | hq
  · exact ⟨hi, hr⟩
  · exact hd.valid j q hq
  · exact hmean ho
  · exact hd.meaning ho j q hq
  · exact hcov ho
  · exact hd.covered ho j q hq

/-- With or without its sign, a handle is rebuilt through its node. -/
lemma meaning_eq_positive (hs : s.Shaped) (hlt : 1 < f.index) {n : Node}
    (hn : s.table.value? f.index = some n) :
    s.meaning f x = (f.isNegated ^^ s.meaning (.positive f.index) x) ∧
      s.meaning (.positive f.index) x
        = if x n.var then s.meaning n.high x else s.meaning n.low x := by
  have hpos := meaning_of_node (f := .positive f.index) (x := x) hs
    (by rwa [Handle.index_positive]) (by rwa [Handle.index_positive])
  rw [Handle.isNegated_positive, Bool.false_xor] at hpos
  rw [meaning_of_node hs hlt hn, hpos]
  exact ⟨rfl, rfl⟩

/-! ## Rebuilding a node from its parts

The recursion makes four steps at a node, and each of them may add nodes to the store.  `RebuildsParts`
gives these steps and the stores between them a name, so that the four things to be shown of a node (its
meaning, that it is remembered, that it is covered, that it was quiet) are four lemmas about one situation.
-/

/-- **A handle that was rebuilt**: `r` has what `f` has become and the results so far, and `s'` is the store that
this leaves. -/
structure Rebuilds (s : Store) (subst : Array Handle) (f : Handle) (r : Handle × DiagramM.Rebuilt)
    (s' : Store) : Prop where
  grows : s.Grows s'
  valid : s'.Valid r.1
  remembers : s'.Remembers subst r.2
  meaning : s'.overflowed = false → ∀ x, s'.meaning r.1 x = s.meaning f (s.substituted subst x)
  covered : s'.overflowed = false → s'.Covered subst f.index
  quiet : s.overflowed = false → s.Covered subst f.index → s.Quiet s'

/-- **The parts of a node**, rebuilt one after the other: its children, the replacement of its variable, and the
if-then-else of these. -/
structure RebuildsParts (s : Store) (subst : Array Handle) (n : Node) (r₀ r₁ : Handle × DiagramM.Rebuilt)
    (g r : Handle) (s₁ s₂ s₃ s₄ : Store) : Prop where
  low : s.Rebuilds subst n.low r₀ s₁
  high : s₁.Rebuilds subst n.high r₁ s₂
  var : s₂.Built (fun x => s₂.substituted subst x n.var) g s₃
  join : s₃.Built (fun x => if s₃.meaning g x then s₃.meaning r₁.1 x else s₃.meaning r₀.1 x) r s₄

namespace RebuildsParts

variable {n : Node} {r₀ r₁ : Handle × DiagramM.Rebuilt} {g r : Handle} {s₁ s₂ s₃ s₄ : Store}

lemma grows (h : s.RebuildsParts subst n r₀ r₁ g r s₁ s₂ s₃ s₄) : s.Grows s₄ :=
  ((h.low.grows.trans h.high.grows).trans h.var.grows).trans h.join.grows

/-- The if-then-else of the rebuilt parts is the rebuilt node. -/
lemma joins (h : s.RebuildsParts subst n r₀ r₁ g r s₁ s₂ s₃ s₄) (hs : s.Shaped)
    (hsubst : s.ValidSubst subst) (hlt : 1 < f.index) (hn : s.table.value? f.index = some n)
    (ho : s₃.overflowed = false) (x : Nat → Bool) :
    (if s₃.meaning g x then s₃.meaning r₁.1 x else s₃.meaning r₀.1 x)
      = s.meaning (.positive f.index) (s.substituted subst x) := by
  have ho₂ := h.var.grows.overflowed ho
  have hs₁ := h.low.grows.sound.toShaped
  have hs₂ := h.high.grows.sound.toShaped
  have hsubst₁ := hsubst.keeps h.low.grows.keeps
  have hlow : s₃.meaning r₀.1 x = s.meaning n.low (s.substituted subst x) := by
    rw [h.var.grows.meaning_eq hs₂ (h.high.grows.keeps.valid h.low.valid),
      h.high.grows.meaning_eq hs₁ h.low.valid, h.low.meaning (h.high.grows.overflowed ho₂)]
  have hhigh : s₃.meaning r₁.1 x = s.meaning n.high (s.substituted subst x) := by
    rw [h.var.grows.meaning_eq hs₂ h.high.valid, h.high.meaning ho₂,
      h.low.grows.substituted_eq hs hsubst, h.low.grows.meaning_eq hs (hs.valid_high hlt hn)]
  have hvar : s₃.meaning g x = s.substituted subst x n.var := by
    rw [h.var.meaning ho, h.high.grows.substituted_eq hs₁ hsubst₁, h.low.grows.substituted_eq hs hsubst]
  rw [(meaning_eq_positive hs hlt hn).2, hlow, hhigh, hvar]

/-- What a node has become, when it is read in the store that this leaves. -/
lemma meaning (h : s.RebuildsParts subst n r₀ r₁ g r s₁ s₂ s₃ s₄) (hs : s.Shaped)
    (hsubst : s.ValidSubst subst) (hlt : 1 < f.index) (hn : s.table.value? f.index = some n)
    (ho : s₄.overflowed = false) (x : Nat → Bool) :
    s₄.meaning r x = s₄.meaning (.positive f.index) (s₄.substituted subst x) := by
  have hpos : s.Valid (.positive f.index) := ⟨n, by rwa [Handle.index_positive]⟩
  rw [h.join.meaning ho, h.joins hs hsubst hlt hn (h.join.grows.overflowed ho),
    h.grows.substituted_eq hs hsubst, h.grows.meaning_eq hs hpos]

lemma covered (h : s.RebuildsParts subst n r₀ r₁ g r s₁ s₂ s₃ s₄) (hs : s.Shaped)
    (hsubst : s.ValidSubst subst) (hlt : 1 < f.index) (hn : s.table.value? f.index = some n)
    (ho : s₄.overflowed = false) : s₄.Covered subst f.index := by
  have ho₃ := h.join.grows.overflowed ho
  have ho₂ := h.var.grows.overflowed ho₃
  have hs₁ := h.low.grows.sound.toShaped
  have hs₂ := h.high.grows.sound.toShaped
  have hsubst₁ := hsubst.keeps h.low.grows.keeps
  have hsubst₂ := hsubst₁.keeps h.high.grows.keeps
  have hlater := h.var.grows.trans h.join.grows
  refine .node hlt (h.grows.keeps _ _ hn) ?_ ⟨r, h.join.valid, h.meaning hs hsubst hlt hn ho⟩ ?_ ?_
  · have hvar := h.join.grows.represents h.var.grows.sound.toShaped (h.var.represents ho₃)
    simpa only [hlater.substituted_eq hs₂ hsubst₂] using hvar
  · exact ((h.low.covered (h.high.grows.overflowed ho₂)).grows hs₁ hsubst₁ h.high.grows).grows hs₂ hsubst₂
      hlater
  · exact (h.high.covered ho₂).grows hs₂ hsubst₂ hlater

/-- If all functions that are met have handles, none of the parts adds a node. -/
lemma quiet (h : s.RebuildsParts subst n r₀ r₁ g r s₁ s₂ s₃ s₄) (hs : s.Shaped)
    (hsubst : s.ValidSubst subst) (hlt : 1 < f.index) (hn : s.table.value? f.index = some n)
    (ho : s.overflowed = false) (hcovered : s.Covered subst f.index) : s.Quiet s₄ := by
  obtain ⟨hvar, hself, hcovlow, hcovhigh⟩ := hcovered.of_node hlt hn
  have hgrows₂ := h.low.grows.trans h.high.grows
  have hq₁ := h.low.quiet ho hcovlow
  have ho₁ : s₁.overflowed = false := hq₁.overflowed.trans ho
  have hq₂ := h.high.quiet ho₁ (hcovhigh.grows hs hsubst h.low.grows)
  have ho₂ : s₂.overflowed = false := hq₂.overflowed.trans ho₁
  have hq₃ := h.var.quiet ho₂ (by
    simpa only [hgrows₂.substituted_eq hs hsubst] using hgrows₂.represents hs hvar)
  have ho₃ : s₃.overflowed = false := hq₃.overflowed.trans ho₂
  have hq₄ := h.join.quiet ho₃ (by
    rw [funext (h.joins hs hsubst hlt hn ho₃)]
    exact (hgrows₂.trans h.var.grows).represents hs hself)
  exact ((hq₁.trans hq₂).trans hq₃).trans hq₄

/-- **A node is rebuilt from its parts.** -/
lemma rebuilds (h : s.RebuildsParts subst n r₀ r₁ g r s₁ s₂ s₃ s₄) (hs : s.Shaped)
    (hsubst : s.ValidSubst subst) (hlt : 1 < f.index) (hn : s.table.value? f.index = some n) :
    s.Rebuilds subst f (r.negateIf f.isNegated, r₁.2.insert f.index r) s₄ where
  grows := h.grows
  valid := h.join.valid.negateIf _
  remembers := by
    have hpos : s.Valid (.positive f.index) := ⟨n, by rwa [Handle.index_positive]⟩
    have hsubst₂ := (hsubst.keeps h.low.grows.keeps).keeps h.high.grows.keeps
    exact (h.high.remembers.grows h.high.grows.sound.toShaped hsubst₂
      (h.var.grows.trans h.join.grows)).insert (h.grows.keeps.valid hpos) h.join.valid
      (h.meaning hs hsubst hlt hn) (h.covered hs hsubst hlt hn)
  meaning := fun ho x => by
    rw [meaning_negateIf h.grows.sound.toShaped h.join.valid, h.join.meaning ho,
      h.joins hs hsubst hlt hn (h.join.grows.overflowed ho), ← (meaning_eq_positive hs hlt hn).1]
  covered := h.covered hs hsubst hlt hn
  quiet := h.quiet hs hsubst hlt hn

end RebuildsParts

end Store

namespace DiagramM

open Store

variable {s : Store} {subst : Array Handle}

/-! ## Substitution

By induction on the depth that is allowed.  What was rebuilt before is looked up, and this is right in the
store as it is now because stores only grow.
-/

lemma replacement_spec (hs : s.Sound) (hsubst : s.ValidSubst subst) {v : Nat} (hv : 0 < v) :
    Yields (replacement subst v) s (s.Built fun x => s.substituted subst x v) := by
  unfold replacement
  cases hg : subst[v - 1]? with
  | some g =>
      refine Yields.pure ⟨Grows.refl hs, hsubst g (Array.mem_of_getElem? hg), fun _ x => ?_,
        fun _ _ => Quiet.refl s⟩
      simp only [substituted, hg]
  | none =>
      simp only [substituted, hg]
      exact mkVar_spec hs hv

/-- Substitution within a bound on its depth, by induction on the bound. -/
lemma composeWithin_spec : ∀ (d : Nat) {s : Store} {f : Handle} {done : Rebuilt}, s.Sound →
    s.Valid f → s.ValidSubst subst → s.Remembers subst done → f.index ≤ d →
    Yields (composeWithin subst d f done) s (s.Rebuilds subst f)
  | 0, s, f, done, hs, hf, hsubst, hdone, hd => by
      have := hf.pos
      omega
  | d + 1, s, f, done, hs, hf, hsubst, hdone, hd => by
      rw [composeWithin]
      by_cases hterm : f.index = 1
      · rw [if_pos (Handle.isTerminal_iff.2 hterm)]
        refine Yields.pure ⟨Grows.refl hs, hf, hdone, fun _ x => ?_, fun _ => ?_, fun _ _ => Quiet.refl s⟩
        · rw [meaning_of_index hs.toShaped hf hterm, meaning_of_index hs.toShaped hf hterm]
        · rw [hterm]
          exact .terminal
      · rw [if_neg fun h => hterm (Handle.isTerminal_iff.1 h)]
        have hlt : 1 < f.index := by
          have := hf.pos
          omega
        obtain ⟨n, hn⟩ := id hf
        cases hfound : done[f.index]? with
        | some r =>
            obtain ⟨-, hr⟩ := hdone.valid _ r hfound
            refine Yields.pure ⟨Grows.refl hs, hr.negateIf _, hdone, fun ho x => ?_,
              fun ho => hdone.covered ho _ r hfound, fun _ _ => Quiet.refl s⟩
            rw [meaning_negateIf hs.toShaped hr, hdone.meaning ho _ r hfound,
              ← (meaning_eq_positive hs.toShaped hlt hn).1]
        | none =>
            have hfits := hs.fits _ n hlt hn
            have hll := hfits.low_lt
            have hhl := hfits.high_lt
            refine Yields.bind (read_ok (node_of_value? hn) ?_)
            refine Yields.bind ((composeWithin_spec d hs (hs.valid_low hlt hn) hsubst hdone (by omega)).mono ?_)
            intro low s₁ hlow
            have hsubst₁ := hsubst.keeps hlow.grows.keeps
            refine Yields.bind ((composeWithin_spec d hlow.grows.sound
              (hlow.grows.keeps.valid (hs.valid_high hlt hn)) hsubst₁ hlow.remembers (by omega)).mono ?_)
            intro high s₂ hhigh
            have hsubst₂ := hsubst₁.keeps hhigh.grows.keeps
            refine Yields.bind ((replacement_spec hhigh.grows.sound hsubst₂ hfits.var_pos).mono ?_)
            intro g s₃ hg
            refine Yields.bind ((ite_spec hg.grows.sound hg.valid (hg.grows.keeps.valid hhigh.valid)
              (hg.grows.keeps.valid (hhigh.grows.keeps.valid hlow.valid))).mono ?_)
            intro r s₄ hr
            have hparts : s.RebuildsParts subst n low high g r s₁ s₂ s₃ s₄ := ⟨hlow, hhigh, hg, hr⟩
            exact Yields.pure (hparts.rebuilds hs.toShaped hsubst hlt hn)

/-- **Substitution** reads a function at the values of the functions put in.  Afterwards all functions it
has met have handles, and it adds no node if they had them before. -/
theorem compose_spec (hs : s.Sound) {f : Handle} (hf : s.Valid f) (hsubst : s.ValidSubst subst) :
    Yields (compose f subst) s fun r s' =>
      s.Grows s' ∧ s'.Valid r ∧
      (s'.overflowed = false →
        (∀ x, s'.meaning r x = s.meaning f (s.substituted subst x)) ∧ s'.Covered subst f.index) ∧
      (s.overflowed = false → s.Covered subst f.index → s.Quiet s') := by
  have hdepth : f.index ≤ s.capacity := by
    have := (valid_iff.1 hf).2
    have := hs.room
    omega
  refine Yields.bind (Yields.get ?_)
  refine Yields.map_pure ((composeWithin_spec s.capacity hs hf hsubst (remembers_empty s subst) hdepth).mono ?_)
  intro r s' hr
  exact ⟨hr.grows, hr.valid, fun ho => ⟨hr.meaning ho, hr.covered ho⟩, hr.quiet⟩

end DiagramM

end ModalCalls
