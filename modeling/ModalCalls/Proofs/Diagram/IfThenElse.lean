import Mathlib
import ModalCalls.Diagram.Ite
import ModalCalls.Proofs.Diagram.Growth

/-!
# If-then-else computes if-then-else

`DiagramM.ite_spec` says of if-then-else what it is for: its result means "if the test then the first
branch else the second", whatever the cache remembers of earlier operations.  The statement covers
every case of the computation in one induction on the bound of its depth.

* The *normal form* of a call changes its three handles but not what is to be computed
  (`Triple.reduce_spec`).
* *Splitting* at the first variable gives two calls about later variables (`Store.split_spec`), and at
  least one of the three handles moves on to a child, so the sum of the indices decreases.
* The parts are put together by node construction.

The parts of a represented function are represented, because they are children of its handle.  So an
if-then-else whose result has a handle already adds no node at any level.
-/

namespace ModalCalls

open Store

namespace Triple

/-- The sum of the three indices, which bounds the depth of an if-then-else. -/
def weight (t : Triple) : Nat :=
  t.test.index + t.yes.index + t.no.index

variable {s : Store} {t : Triple}

/-! ## Normal form

Each step of the normal form is specified in the same four respects: the handles stay valid, the sum of
their indices does not grow, what stood below a variable still does, and the function that is to be computed
is the same or the complement.  `reduce_spec` chains these, so the induction on the depth never looks at a
single step.
-/

lemma shortcut?_spec (hs : s.Shaped) (ht : s.ValidTriple t) {r : Handle}
    (h : t.shortcut? = some r) :
    s.Valid r ∧ (∀ v, s.BeneathTriple v t → s.Beneath v r) ∧
      ∀ x, s.meaning r x = s.choose t x := by
  obtain ⟨f, g, k⟩ := t
  obtain ⟨hf, hg, hk⟩ := ht
  simp only at hf hg hk
  simp only [shortcut?] at h
  split at h
  · next h1 =>
      cases h
      subst h1
      exact ⟨hg, fun v hv => hv.yes, fun x => by simp [choose, meaning_one hs]⟩
  split at h
  · next h1 =>
      cases h
      subst h1
      exact ⟨hk, fun v hv => hv.no, fun x => by simp [choose, meaning_zero hs]⟩
  split at h
  · next h1 =>
      cases h
      subst h1
      exact ⟨hg, fun v hv => hv.yes, fun x => by simp [choose]⟩
  split at h
  · next h1 =>
      cases h
      obtain ⟨rfl, rfl⟩ := h1
      exact ⟨hf, fun v hv => hv.test, fun x => by simp [choose, meaning_one hs, meaning_zero hs]⟩
  split at h
  · next h1 =>
      cases h
      obtain ⟨rfl, rfl⟩ := h1
      refine ⟨hf.neg, fun v hv => hv.test.neg, fun x => ?_⟩
      simp only [choose, meaning_neg hs hf, meaning_one hs, meaning_zero hs]
      cases s.meaning f x <;> rfl
  · simp at h

/-- A call without a shortcut has a test that is not constant. -/
lemma test_index_of_shortcut? (ht : s.ValidTriple t) (h : t.shortcut? = none) :
    1 < t.test.index := by
  have hpos := ht.test.pos
  by_contra hle
  have hone : t.test.index = 1 := by omega
  rcases Handle.eq_constant_of_index hone with h1 | h1 <;> simp [shortcut?, h1] at h
  split at h <;> simp_all

/-- Absorption keeps a branch, or replaces it by the constant that it is where the branch counts. -/
lemma absorbBranch_spec (hs : s.Shaped) {f g : Handle} (hf : s.Valid f) (hg : s.Valid g)
    (value : Bool) :
    s.Valid (absorbBranch f value g) ∧ (absorbBranch f value g).index ≤ g.index ∧
      (∀ v, s.Beneath v g → s.Beneath v (absorbBranch f value g)) ∧
      ∀ x, s.meaning f x = value →
        s.meaning (absorbBranch f value g) x = s.meaning g x := by
  unfold absorbBranch
  split
  · next h =>
      subst h
      refine ⟨hs.valid_constant _, ?_, fun v _ => beneath_of_index (Handle.index_constant _), ?_⟩
      · simpa using hg.pos
      · intro x hx
        rw [meaning_constant hs, hx]
  split
  · next h =>
      subst h
      refine ⟨hs.valid_constant _, ?_, fun v _ => beneath_of_index (Handle.index_constant _), ?_⟩
      · simpa using hf.pos
      · intro x hx
        rw [meaning_constant hs, meaning_neg hs hf, hx]
  · exact ⟨hg, le_rfl, fun v hv => hv, fun x _ => rfl⟩

lemma absorb_spec (hs : s.Shaped) (ht : s.ValidTriple t) :
    s.ValidTriple t.absorb ∧ t.absorb.weight ≤ t.weight ∧
      (∀ v, s.BeneathTriple v t → s.BeneathTriple v t.absorb) ∧
      ∀ x, s.choose t.absorb x = s.choose t x := by
  obtain ⟨hyes, hle, hbyes, hmyes⟩ := absorbBranch_spec hs ht.test ht.yes true
  obtain ⟨hno, hle', hbno, hmno⟩ := absorbBranch_spec hs ht.test ht.no false
  refine ⟨⟨ht.test, hyes, hno⟩, ?_, fun v hv => ⟨hv.test, hbyes v hv.yes, hbno v hv.no⟩,
    fun x => ?_⟩
  · simp only [weight, absorb]
    omega
  · show (if s.meaning t.test x then s.meaning (absorbBranch t.test true t.yes) x
      else s.meaning (absorbBranch t.test false t.no) x)
        = if s.meaning t.test x then s.meaning t.yes x else s.meaning t.no x
    by_cases hx : s.meaning t.test x = true
    · rw [if_pos hx, if_pos hx, hmyes x hx]
    · rw [if_neg hx, if_neg hx, hmno x (by simpa using hx)]

lemma orientTest_spec (hs : s.Shaped) (ht : s.ValidTriple t) :
    s.ValidTriple t.orientTest ∧ t.orientTest.weight = t.weight ∧
      t.orientTest.test.index = t.test.index ∧
      (∀ v, s.BeneathTriple v t → s.BeneathTriple v t.orientTest) ∧
      ∀ x, s.choose t.orientTest x = s.choose t x := by
  unfold orientTest
  split
  · refine ⟨⟨ht.test.neg, ht.no, ht.yes⟩, ?_, Handle.index_neg _,
      fun v hv => ⟨hv.test.neg, hv.no, hv.yes⟩, fun x => ?_⟩
    · simp only [weight, Handle.index_neg]
      omega
    · simp only [choose, meaning_neg hs ht.test]
      cases s.meaning t.test x <;> rfl
  · exact ⟨ht, rfl, rfl, fun v hv => hv, fun x => rfl⟩

lemma orientBranch_spec (hs : s.Shaped) (ht : s.ValidTriple t) :
    s.ValidTriple t.orientBranch.2 ∧ t.orientBranch.2.weight = t.weight ∧
      t.orientBranch.2.test.index = t.test.index ∧
      (∀ v, s.BeneathTriple v t → s.BeneathTriple v t.orientBranch.2) ∧
      ∀ x, s.choose t x = (t.orientBranch.1 ^^ s.choose t.orientBranch.2 x) := by
  unfold orientBranch
  split
  · refine ⟨⟨ht.test, ht.yes.neg, ht.no.neg⟩, ?_, rfl,
      fun v hv => ⟨hv.test, hv.yes.neg, hv.no.neg⟩, fun x => ?_⟩
    · simp only [weight, Handle.index_neg]
    · simp only [choose, meaning_neg hs ht.yes, meaning_neg hs ht.no]
      cases s.meaning t.test x <;> simp
  · exact ⟨ht, rfl, rfl, fun v hv => hv, fun x => by simp⟩

/-- **The normal form of a call** answers it, or leaves a call that computes the same up to
complement, whose test is not constant. -/
lemma reduce_spec (hs : s.Shaped) (ht : s.ValidTriple t) :
    (∃ r, t.reduce = .answer r ∧ s.Valid r ∧ (∀ v, s.BeneathTriple v t → s.Beneath v r) ∧
      ∀ x, s.meaning r x = s.choose t x) ∨
    ∃ negate u, t.reduce = .general negate u ∧ s.ValidTriple u ∧ u.weight ≤ t.weight ∧
      1 < u.test.index ∧ (∀ v, s.BeneathTriple v t → s.BeneathTriple v u) ∧
      ∀ x, s.choose t x = (negate ^^ s.choose u x) := by
  unfold reduce
  cases h1 : t.shortcut? with
  | some r => exact Or.inl ⟨r, rfl, shortcut?_spec hs ht h1⟩
  | none =>
      obtain ⟨habs, hweight, hbeneath, hchoose⟩ := absorb_spec hs ht
      cases h2 : t.absorb.shortcut? with
      | some r =>
          obtain ⟨hr, hb, hm⟩ := shortcut?_spec hs habs h2
          exact Or.inl ⟨r, rfl, hr, fun v hv => hb v (hbeneath v hv), fun x =>
            (hm x).trans (hchoose x)⟩
      | none =>
          have hlt := test_index_of_shortcut? habs h2
          obtain ⟨hv1, hw1, hi1, hb1, hc1⟩ := orientTest_spec hs habs
          obtain ⟨hv2, hw2, hi2, hb2, hc2⟩ := orientBranch_spec hs hv1
          refine Or.inr ⟨_, _, rfl, hv2, ?_, ?_, fun v hv => hb2 v (hb1 v (hbeneath v hv)),
            fun x => ?_⟩
          · show t.absorb.orientTest.orientBranch.2.weight ≤ _
            omega
          · show 1 < t.absorb.orientTest.orientBranch.2.test.index
            omega
          · rw [← hchoose x, ← hc1 x]
            exact hc2 x

end Triple

namespace Store

variable {s : Store} {f : Handle} {t : Triple}

/-! ## Splitting at the first variable

A call in normal form has a test that is not constant, so there is a first variable, and it has the form
`u + 1` where nothing of the call tests a variable up to `u`.  Stated in this way, "the call begins after
`u`" turns into "both parts begin after `u + 1`", which is what the induction needs.  The handle that does
test the variable moves on to a child, and the other two at least do not move back; hence the sum of the
indices decreases.
-/

/-- Which variable `minVar` picks, for a handle that tests `u + 1` at the earliest if it tests anything
up to there. -/
lemma minVar_spec (hf : s.Valid f) (v : Nat) :
    ∃ w, s.minVar v f = .ok w ∧ w ≤ v ∧ (∀ u, u < w → s.Beneath u f) ∧
      (w = v ∨ ∃ n, 1 < f.index ∧ s.table.value? f.index = some n ∧ n.var = w) ∧
      ∀ u, u < v → s.Beneath u f → u < w := by
  unfold minVar
  by_cases h : f.index = 1
  · rw [if_pos (Handle.isTerminal_iff.2 h)]
    exact ⟨v, rfl, le_rfl, fun u _ => Or.inl h, Or.inl rfl, fun u hu _ => hu⟩
  · have hterm : ¬ f.isTerminal = true := fun ht => h (Handle.isTerminal_iff.1 ht)
    have hpos := hf.pos
    obtain ⟨n, hn⟩ := hf
    rw [if_neg hterm, node_of_value? hn]
    refine ⟨min v n.var, rfl, Nat.min_le_left _ _, ?_, ?_, ?_⟩
    · intro u hu
      exact Or.inr ⟨n, hn, by omega⟩
    · rcases Nat.le_total v n.var with hle | hle
      · exact Or.inl (Nat.min_eq_left hle)
      · exact Or.inr ⟨n, by omega, hn, (Nat.min_eq_right hle).symm⟩
    · intro u hu hb
      rcases hb with hb | ⟨m, hm, hlt⟩
      · exact absurd hb h
      · rw [hn] at hm
        cases hm
        omega

/-- A handle whose node tests variable `v`. -/
def Tests (s : Store) (v : Nat) (f : Handle) : Prop :=
  ∃ n, 1 < f.index ∧ s.table.value? f.index = some n ∧ n.var = v

/-- **The first variable of a call** whose test is not constant: no handle tests an earlier one, and
some handle tests it. -/
lemma topVar_spec (hs : s.Shaped) (ht : s.ValidTriple t) (htest : 1 < t.test.index) :
    ∃ u, s.topVar t = .ok (u + 1) ∧ s.BeneathTriple u t ∧
      (s.Tests (u + 1) t.test ∨ s.Tests (u + 1) t.yes ∨ s.Tests (u + 1) t.no) ∧
      ∀ w, s.BeneathTriple w t → w ≤ u := by
  obtain ⟨n, hn⟩ := id ht.test
  have hvar := (hs.fits _ n htest hn).var_pos
  obtain ⟨v₁, h₁, hle₁, hb₁, hc₁, hm₁⟩ := minVar_spec ht.yes n.var
  obtain ⟨v₂, h₂, hle₂, hb₂, hc₂, hm₂⟩ := minVar_spec ht.no v₁
  have htop : s.topVar t = .ok v₂ := by
    simp only [topVar, node_of_value? hn]
    show (s.minVar n.var t.yes >>= fun v => s.minVar v t.no) = _
    rw [h₁]
    exact h₂
  have hpos : 0 < v₂ := by
    have h0 : 0 < v₁ := hm₁ 0 hvar (beneath_zero hs ht.yes)
    exact hm₂ 0 h0 (beneath_zero hs ht.no)
  obtain ⟨u, rfl⟩ : ∃ u, v₂ = u + 1 := ⟨v₂ - 1, by omega⟩
  refine ⟨u, htop, ⟨Or.inr ⟨n, hn, by omega⟩, hb₁ u (by omega), hb₂ u (by omega)⟩, ?_, ?_⟩
  · rcases hc₂ with h | h
    · rcases hc₁ with h' | h'
      · exact Or.inl ⟨n, htest, hn, by omega⟩
      · rw [← h] at h'
        exact Or.inr (Or.inl h')
    · exact Or.inr (Or.inr h)
  · intro w hw
    rcases hw.test with h | ⟨m, hm, hlt⟩
    · omega
    · rw [hn] at hm
      cases hm
      have := hm₂ w (hm₁ w hlt hw.yes) hw.no
      omega

/-- What remains of a function when the variable after `u` is fixed, if it tests nothing before. -/
lemma cofactors_spec (hs : s.Shaped) (hf : s.Valid f) {u : Nat} (hu : s.Beneath u f) :
    ∃ f₀ f₁, s.cofactors (u + 1) f = .ok (f₀, f₁) ∧ s.Valid f₀ ∧ s.Valid f₁ ∧
      s.Beneath (u + 1) f₀ ∧ s.Beneath (u + 1) f₁ ∧
      (∀ x, s.meaning f x = if x (u + 1) then s.meaning f₁ x else s.meaning f₀ x) ∧
      f₀.index ≤ f.index ∧ f₁.index ≤ f.index ∧
      (s.Tests (u + 1) f → f₀.index < f.index ∧ f₁.index < f.index) := by
  unfold cofactors
  by_cases h : f.index = 1
  · rw [if_pos (Handle.isTerminal_iff.2 h)]
    refine ⟨f, f, rfl, hf, hf, Or.inl h, Or.inl h, fun x => by simp, le_rfl, le_rfl, ?_⟩
    rintro ⟨n, hlt, -⟩
    omega
  · have hterm : ¬ f.isTerminal = true := fun ht => h (Handle.isTerminal_iff.1 ht)
    have hlt : 1 < f.index := by
      have := hf.pos
      omega
    obtain ⟨n, hn⟩ := id hf
    have hfits := hs.fits _ n hlt hn
    have hvar : u < n.var := by
      rcases hu with hu | ⟨m, hm, hlt⟩
      · exact absurd hu h
      · rw [hn] at hm
        cases hm
        exact hlt
    rw [if_neg hterm, node_of_value? hn]
    by_cases hlast : u + 1 < n.var
    · refine ⟨f, f, ?_, hf, hf, Or.inr ⟨n, hn, hlast⟩, Or.inr ⟨n, hn, hlast⟩, fun x => by simp,
        le_rfl, le_rfl, ?_⟩
      · show (if u + 1 < n.var then pure (f, f) else _) = _
        rw [if_pos hlast]
        rfl
      · rintro ⟨m, -, hm, hvm⟩
        rw [hn] at hm
        cases hm
        omega
    · have hv : n.var = u + 1 := by omega
      refine ⟨n.low.negateIf f.isNegated, n.high.negateIf f.isNegated, ?_,
        (hs.valid_low hlt hn).negateIf _, (hs.valid_high hlt hn).negateIf _,
        (hv ▸ hfits.low_beneath).negateIf _, (hv ▸ hfits.high_beneath).negateIf _, fun x => ?_, ?_,
        ?_, fun _ => ⟨?_, ?_⟩⟩
      · show (if u + 1 < n.var then pure (f, f) else _) = _
        rw [if_neg hlast, if_neg (not_not.2 hv.symm)]
        rfl
      · rw [meaning_of_node hs hlt hn, hv, meaning_negateIf hs (hs.valid_low hlt hn),
          meaning_negateIf hs (hs.valid_high hlt hn)]
        cases x (u + 1) <;> simp
      all_goals rw [Handle.index_negateIf]
      · exact hfits.low_lt.le
      · exact hfits.high_lt.le
      · exact hfits.low_lt
      · exact hfits.high_lt

/-- **Splitting a call** at its first variable. -/
lemma split_spec (hs : s.Shaped) (ht : s.ValidTriple t) {u : Nat} (hu : s.BeneathTriple u t)
    (htests : s.Tests (u + 1) t.test ∨ s.Tests (u + 1) t.yes ∨ s.Tests (u + 1) t.no) :
    ∃ lo hi, s.split (u + 1) t = .ok (lo, hi) ∧ s.ValidTriple lo ∧ s.ValidTriple hi ∧
      s.BeneathTriple (u + 1) lo ∧ s.BeneathTriple (u + 1) hi ∧
      (∀ x, s.choose t x = if x (u + 1) then s.choose hi x else s.choose lo x) ∧
      lo.weight < t.weight ∧ hi.weight < t.weight := by
  obtain ⟨f₀, f₁, hf, hf0, hf1, hbf0, hbf1, hmf, hlf0, hlf1, hltf⟩ :=
    cofactors_spec hs ht.test hu.test
  obtain ⟨g₀, g₁, hg, hg0, hg1, hbg0, hbg1, hmg, hlg0, hlg1, hltg⟩ :=
    cofactors_spec hs ht.yes hu.yes
  obtain ⟨k₀, k₁, hk, hk0, hk1, hbk0, hbk1, hmk, hlk0, hlk1, hltk⟩ :=
    cofactors_spec hs ht.no hu.no
  refine ⟨⟨f₀, g₀, k₀⟩, ⟨f₁, g₁, k₁⟩, ?_, ⟨hf0, hg0, hk0⟩, ⟨hf1, hg1, hk1⟩, ⟨hbf0, hbg0, hbk0⟩,
    ⟨hbf1, hbg1, hbk1⟩, fun x => ?_, ?_, ?_⟩
  · simp only [split, hf, hg, hk]
    rfl
  · simp only [choose, hmf x, hmg x, hmk x]
    cases x (u + 1) <;> rfl
  all_goals
    simp only [Triple.weight]
    rcases htests with h | h | h
    · have := hltf h
      omega
    · have := hltg h
      omega
    · have := hltk h
      omega

/-! ### Putting the parts together

If the function of a call has a handle, then the children of that handle are handles for the two parts.  So
no node is missing further down, and none is added.  In general the parts are built in stores that grow from
one to the next, and the meanings found in the first are those of the last.
-/

/-- The parts of a represented function are represented: they are what remains of its handle. -/
lemma represents_parts (hs : s.Shaped) {u : Nat} {t lo hi : Triple} (ht : s.ValidTriple t)
    (hu : s.BeneathTriple u t) (hlo : s.ValidTriple lo) (hhi : s.ValidTriple hi)
    (hblo : s.BeneathTriple (u + 1) lo) (hbhi : s.BeneathTriple (u + 1) hi)
    (hsplit : ∀ x, s.choose t x = if x (u + 1) then s.choose hi x else s.choose lo x)
    (h : s.Represents (s.choose t)) :
    s.Represents (s.choose lo) ∧ s.Represents (s.choose hi) := by
  obtain ⟨r, hr, hmean⟩ := h
  -- the handle tests nothing up to `u`, because the function does not depend on it
  have hbr : s.Beneath u r := by
    by_contra hnot
    have hlt : 1 < r.index := by
      have := hr.pos
      have : r.index ≠ 1 := fun h1 => hnot (Or.inl h1)
      omega
    obtain ⟨n, hn⟩ := id hr
    have hle : n.var ≤ u := by
      by_contra hgt
      exact hnot (Or.inr ⟨n, hn, by omega⟩)
    refine children_differ hs hlt hn (children_agree hs hlt hn fun x b => ?_)
    rw [hmean, hmean]
    exact choose_eq_of_beneath hs ht hu fun w hw => Function.update_of_ne (by omega) _ _
  obtain ⟨r₀, r₁, -, hr0, hr1, hb0, hb1, hm, -⟩ := cofactors_spec hs hr hbr
  have hagree : ∀ (x : Nat → Bool) (b : Bool) (w : Nat), u + 1 < w →
      x w = Function.update x (u + 1) b w := fun x b w hw =>
    (Function.update_of_ne (by omega) _ _).symm
  have hfix : ∀ (x : Nat → Bool) (b : Bool),
      (if b then s.meaning r₁ x else s.meaning r₀ x)
        = if b then s.choose hi x else s.choose lo x := by
    intro x b
    have hx := hm (Function.update x (u + 1) b)
    rw [hmean, hsplit, Function.update_self] at hx
    rw [meaning_eq_of_beneath hs hr0 hb0 (hagree x b), meaning_eq_of_beneath hs hr1 hb1 (hagree x b),
      choose_eq_of_beneath hs hlo hblo (hagree x b), choose_eq_of_beneath hs hhi hbhi (hagree x b)]
    exact hx.symm
  exact ⟨⟨r₀, hr0, fun x => hfix x false⟩, ⟨r₁, hr1, fun x => hfix x true⟩⟩

/-- The parts of a call, computed one after the other, make up the call. -/
lemma branch_eq_choose {s₁ s₂ : Store} {u : Nat} {lo hi : Triple} {low high : Handle}
    (hs : s.Sound) (hhi : s.ValidTriple hi)
    (hsplit : ∀ x, s.choose t x = if x (u + 1) then s.choose hi x else s.choose lo x)
    (hlow : s.Built (s.choose lo) low s₁) (hhigh : s₁.Built (s₁.choose hi) high s₂)
    (ho : s₂.overflowed = false) : s₂.branch (u + 1) low high = s.choose t := by
  have ho₁ := hhigh.grows.overflowed ho
  funext x
  rw [branch, hsplit, hhigh.meaning ho, hlow.grows.choose_eq hs.toShaped hhi,
    hhigh.grows.meaning_eq hlow.grows.sound.toShaped hlow.valid, hlow.meaning ho₁]

lemma Built.negateIf (hs : s.Shaped) {F : (Nat → Bool) → Bool} {r : Handle} {s' : Store}
    (h : s.Built F r s') (b : Bool) : s.Built (fun x => b ^^ F x) (r.negateIf b) s' where
  grows := h.grows
  valid := h.valid.negateIf b
  meaning := fun ho x => by
    rw [meaning_negateIf h.grows.sound.toShaped h.valid, h.meaning ho]
  quiet := by
    rintro ho ⟨q, hq, hmean⟩
    refine h.quiet ho ⟨q.negateIf b, hq.negateIf b, fun x => ?_⟩
    rw [meaning_negateIf hs hq, hmean]
    cases b <;> simp

lemma Built.represents {F : (Nat → Bool) → Bool} {r : Handle} {s' : Store} (h : s.Built F r s')
    (ho : s'.overflowed = false) : s'.Represents F :=
  ⟨r, h.valid, h.meaning ho⟩

/-- A call is built from its parts.  If its function has a handle, so have those of the parts, and no node is
added. -/
lemma Built.of_parts {s₁ s₂ s₃ : Store} {u : Nat} {lo hi : Triple} {low high r : Handle} (hs : s.Sound)
    (ht : s.ValidTriple t) (hu : s.BeneathTriple u t) (hlo : s.ValidTriple lo) (hhi : s.ValidTriple hi)
    (hblo : s.BeneathTriple (u + 1) lo) (hbhi : s.BeneathTriple (u + 1) hi)
    (hsplit : ∀ x, s.choose t x = if x (u + 1) then s.choose hi x else s.choose lo x)
    (hlow : s.Built (s.choose lo) low s₁) (hhigh : s₁.Built (s₁.choose hi) high s₂)
    (hr : s₂.Built (s₂.branch (u + 1) low high) r s₃) : s.Built (s.choose t) r s₃ where
  grows := (hlow.grows.trans hhigh.grows).trans hr.grows
  valid := hr.valid
  meaning := fun ho x => by
    rw [hr.meaning ho, branch_eq_choose hs hhi hsplit hlow hhigh (hr.grows.overflowed ho)]
  quiet := fun ho hrep => by
    obtain ⟨hreplo, hrephi⟩ := represents_parts hs.toShaped ht hu hlo hhi hblo hbhi hsplit hrep
    have hq₁ := hlow.quiet ho hreplo
    have ho₁ : s₁.overflowed = false := hq₁.overflowed.trans ho
    have hhi₁ : s₁.choose hi = s.choose hi := funext fun x => hlow.grows.choose_eq hs.toShaped hhi
    have hq₂ := hhigh.quiet ho₁ (hhi₁ ▸ hlow.grows.represents hs.toShaped hrephi)
    have ho₂ : s₂.overflowed = false := hq₂.overflowed.trans ho₁
    have hq₃ := hr.quiet ho₂ (by
      rw [branch_eq_choose hs hhi hsplit hlow hhigh ho₂]
      exact (hlow.grows.trans hhigh.grows).represents hs.toShaped hrep)
    exact (hq₁.trans hq₂).trans hq₃

/-- Steps before and after that add no node. -/
lemma Built.between {s₁ s₂ : Store} {F : (Nat → Bool) → Bool} {r : Handle} (h : s₁.Built F r s₂)
    (hs : s.Shaped) (hbefore : s.Grows s₁) (hquiet : s.Quiet s₁) (hafter : s₂.Grows s')
    (hquiet' : s₂.Quiet s') : s.Built F r s' where
  grows := (hbefore.trans h.grows).trans hafter
  valid := hafter.keeps.valid h.valid
  meaning := fun ho x => by
    rw [hafter.meaning_eq h.grows.sound.toShaped h.valid, h.meaning (hafter.overflowed ho)]
  quiet := fun ho hrep =>
    (hquiet.trans (h.quiet (hquiet.overflowed.trans ho) (hbefore.represents hs hrep))).trans hquiet'

end Store

namespace DiagramM

variable {s : Store}

/-! ## If-then-else

A remembered result is right by soundness of the store.  Otherwise the two parts are computed one after the
other, and the second runs in the store that the first has left; what the first part found there is still
what it means.  The claim about variables is carried through the induction together with the claim about
meaning, because node construction asks for it.
-/

/-- If-then-else within a bound on its depth, by induction on the bound. -/
lemma iteWithin_spec : ∀ (d : Nat) {s : Store} {t : Triple}, s.Sound → s.ValidTriple t →
    t.weight ≤ d →
    Yields (iteWithin d t) s fun r s' =>
      s.Built (s.choose t) r s' ∧ ∀ v, s.BeneathTriple v t → s'.Beneath v r
  | 0, s, t, hs, ht, hd => by
      have := ht.test.pos
      simp only [Triple.weight] at hd
      omega
  | d + 1, s, t, hs, ht, hd => by
      rw [iteWithin]
      rcases Triple.reduce_spec hs.toShaped ht with ⟨r, hr, hvalid, hbeneath, hmean⟩ |
        ⟨negate, u, hu, hvalid, hweight, htest, hbeneath, hchoose⟩
      · simp only [hr]
        exact Yields.pure ⟨⟨Grows.refl hs, hvalid, fun _ => hmean, fun _ _ => Quiet.refl s⟩,
          hbeneath⟩
      · simp only [hu]
        -- it is enough to compute the call in normal form
        have hflip : ∀ {r s'}, s.Built (s.choose u) r s' →
            s.Built (s.choose t) (r.negateIf negate) s' := by
          intro r s' hb
          have := hb.negateIf hs.toShaped negate
          rwa [← funext hchoose] at this
        refine Yields.bind ((lookUp_spec hs u).mono ?_)
        rintro found s₁ ⟨hgrows, hquiet, rfl⟩
        cases hfound : s.cache.find? u with
        | some r =>
            obtain ⟨-, hr, hbr⟩ := hs.cached_valid u r hfound
            refine Yields.pure ⟨hflip ⟨hgrows, hgrows.keeps.valid hr, fun ho x => ?_,
              fun _ _ => hquiet⟩, fun v hv => ?_⟩
            · rw [hgrows.meaning_eq hs.toShaped hr, hs.cached_meaning (hgrows.overflowed ho) u r hfound]
            · exact (hgrows.keeps.beneath (hbr v (hbeneath v hv))).negateIf negate
        | none =>
            have hs₁ := hgrows.sound
            have hvalid₁ := hvalid.keeps hgrows.keeps
            obtain ⟨w, htop, hbw, htests, hleast⟩ := topVar_spec hs₁.toShaped hvalid₁ htest
            obtain ⟨lo, hi, hsplit, hlo, hhi, hblo, hbhi, hparts, hwlo, hwhi⟩ :=
              split_spec hs₁.toShaped hvalid₁ hbw htests
            have hchoose₁ : s₁.choose u = s.choose u :=
              funext fun x => hgrows.choose_eq hs.toShaped hvalid
            refine Yields.bind (read_ok htop (Yields.bind (read_ok hsplit ?_)))
            refine Yields.bind ((iteWithin_spec d hs₁ hlo (by omega)).mono ?_)
            rintro low s₂ ⟨hlow, hlowB⟩
            have hhi₂ := hhi.keeps hlow.grows.keeps
            refine Yields.bind ((iteWithin_spec d hlow.grows.sound hhi₂ (by omega)).mono ?_)
            rintro high s₃ ⟨hhigh, hhighB⟩
            have hlow₃ := hhigh.grows.keeps.valid hlow.valid
            refine Yields.bind ((mkNode_spec hhigh.grows.sound w.succ_pos hlow₃ hhigh.valid
              (hhigh.grows.keeps.beneath (hlowB _ hblo))
              (hhighB _ (hbhi.keeps hlow.grows.keeps))).mono ?_)
            rintro r s₄ ⟨hr, hrB⟩
            have hbuilt : s₁.Built (s.choose u) r s₄ := hchoose₁ ▸
              Built.of_parts hs₁ hvalid₁ hbw hlo hhi hblo hbhi hparts hlow hhigh hr
            have hgrows₄ := hgrows.trans hbuilt.grows
            have hbeneath₄ : ∀ v, s.BeneathTriple v u → s₄.Beneath v r := fun v hv =>
              hrB v (Nat.lt_succ_of_le (hleast v (hv.keeps hgrows.keeps)))
            refine Yields.bind ((remember_spec hr.grows.sound (hvalid.keeps hgrows₄.keeps) hr.valid
              (fun v hv => hbeneath₄ v (hgrows₄.keeps.beneathTriple hvalid hv))
              fun ho x => by rw [hbuilt.meaning ho, hgrows₄.choose_eq hs.toShaped hvalid]).mono ?_)
            rintro ⟨⟩ s₅ ⟨hgrows₅, hquiet₅⟩
            exact Yields.pure ⟨hflip (hbuilt.between hs.toShaped hgrows hquiet hgrows₅ hquiet₅),
              fun v hv => (hgrows₅.keeps.beneath (hbeneath₄ v (hbeneath v hv))).negateIf negate⟩

/-- **If-then-else** computes "if `f` then `g` else `h`". -/
theorem ite_spec (hs : s.Sound) {f g h : Handle} (hf : s.Valid f) (hg : s.Valid g)
    (hh : s.Valid h) :
    Yields (ite f g h) s
      (s.Built fun x => if s.meaning f x then s.meaning g x else s.meaning h x) := by
  have hroom := hs.room
  have hfi := (valid_iff.1 hf).2
  have hgi := (valid_iff.1 hg).2
  have hhi := (valid_iff.1 hh).2
  have hweight : (⟨f, g, h⟩ : Triple).weight ≤ iteDepth s.capacity := by
    simp only [Triple.weight, iteDepth]
    omega
  exact Yields.bind (Yields.get ((iteWithin_spec _ hs ⟨hf, hg, hh⟩ hweight).mono
    fun _ _ hr => hr.1))

lemma and_spec (hs : s.Sound) {f g : Handle} (hf : s.Valid f) (hg : s.Valid g) :
    Yields (DiagramM.and f g) s (s.Built fun x => s.meaning f x && s.meaning g x) := by
  have hfun : (fun x => s.meaning f x && s.meaning g x)
      = fun x => if s.meaning f x then s.meaning g x else s.meaning .zero x := by
    funext x
    rw [meaning_zero hs.toShaped]
    cases s.meaning f x <;> rfl
  rw [hfun]
  exact ite_spec hs hf hg hs.valid_zero

lemma or_spec (hs : s.Sound) {f g : Handle} (hf : s.Valid f) (hg : s.Valid g) :
    Yields (DiagramM.or f g) s (s.Built fun x => s.meaning f x || s.meaning g x) := by
  have hfun : (fun x => s.meaning f x || s.meaning g x)
      = fun x => if s.meaning f x then s.meaning .one x else s.meaning g x := by
    funext x
    rw [meaning_one hs.toShaped]
    cases s.meaning f x <;> rfl
  rw [hfun]
  exact ite_spec hs hf hs.valid_one hg

/-! ## Conjunctions and disjunctions of lists

The two differ in their operation and in the constant that ends them early.  `Folds` says what they have in
common, and `Folds.spec` is proved once.  Ending early is sound because the constant absorbs whatever would
follow.
-/

/-- A fold of a Boolean operation over a list that stops at the operation's absorbing constant. -/
structure Folds (g : Bool → Bool → Bool) (stop : Bool)
    (op : Handle → Handle → DiagramM Handle) (fold : Handle → List Handle → DiagramM Handle) :
    Prop where
  absorbs : ∀ b, g stop b = stop
  op_spec : ∀ {s : Store} {f h : Handle}, s.Sound → s.Valid f → s.Valid h →
    Yields (op f h) s (s.Built fun x => g (s.meaning f x) (s.meaning h x))
  nil : ∀ acc, fold acc [] = pure acc
  cons : ∀ acc f fs, fold acc (f :: fs)
    = op acc f >>= fun r => if r = .constant stop then pure r else fold r fs

lemma andAll_folds : Folds (· && ·) false DiagramM.and andAll where
  absorbs := fun _ => rfl
  op_spec := fun hs hf hh => and_spec hs hf hh
  nil := fun _ => rfl
  cons := fun _ _ _ => rfl

lemma orAll_folds : Folds (· || ·) true DiagramM.or orAll where
  absorbs := fun _ => rfl
  op_spec := fun hs hf hh => or_spec hs hf hh
  nil := fun _ => rfl
  cons := fun _ _ _ => rfl

end DiagramM

namespace Store

variable {s s' : Store} {g : Bool → Bool → Bool}

/-- All intermediate results of a fold have a handle. -/
def Accumulated (s : Store) (g : Bool → Bool → Bool) :
    ((Nat → Bool) → Bool) → List ((Nat → Bool) → Bool) → Prop
  | _, [] => True
  | F, G :: Gs => s.Represents (fun x => g (F x) (G x)) ∧
      Accumulated s g (fun x => g (F x) (G x)) Gs

/-- **The outcome of a fold** over functions `Gs`, beginning with `F`. -/
structure Collected (s : Store) (g : Bool → Bool → Bool) (F : (Nat → Bool) → Bool)
    (Gs : List ((Nat → Bool) → Bool)) (r : Handle) (s' : Store) : Prop where
  grows : s.Grows s'
  valid : s'.Valid r
  meaning : s'.overflowed = false →
    ∀ x, s'.meaning r x = Gs.foldl (fun b G => g b (G x)) (F x)
  accumulated : s'.overflowed = false → s'.Accumulated g F Gs
  quiet : s.overflowed = false → s.Accumulated g F Gs → s.Quiet s'

lemma Accumulated.grows (h : s.Grows s') (hs : s.Shaped) :
    ∀ {F Gs}, s.Accumulated g F Gs → s'.Accumulated g F Gs
  | _, [], _ => trivial
  | _, _ :: _, hacc => ⟨h.represents hs hacc.1, hacc.2.grows h hs⟩

/-- Nothing changes after the absorbing constant. -/
lemma foldl_of_absorbs {stop : Bool} (habs : ∀ b, g stop b = stop) (x : Nat → Bool) :
    ∀ Gs : List ((Nat → Bool) → Bool), Gs.foldl (fun b G => g b (G x)) stop = stop
  | [] => rfl
  | G :: Gs => by
      rw [List.foldl_cons, habs]
      exact foldl_of_absorbs habs x Gs

lemma accumulated_of_absorbs (hs : s.Shaped) {stop : Bool} (habs : ∀ b, g stop b = stop) :
    ∀ Gs, s.Accumulated g (fun _ => stop) Gs
  | [] => trivial
  | G :: Gs => by
      have hstop : (fun x => g stop (G x)) = fun _ => stop := funext fun x => habs _
      rw [Accumulated, hstop]
      exact ⟨⟨.constant stop, hs.valid_constant stop, fun x => meaning_constant hs stop⟩,
        accumulated_of_absorbs hs habs Gs⟩

end Store

lemma foldl_and_eq_all {α : Type} (l : List α) (p : α → Bool) (b : Bool) :
    l.foldl (fun b a => b && p a) b = (b && l.all p) := by
  induction l generalizing b with
  | nil => simp
  | cons a l ih => rw [List.foldl_cons, ih, List.all_cons, Bool.and_assoc]

lemma foldl_or_eq_any {α : Type} (l : List α) (p : α → Bool) (b : Bool) :
    l.foldl (fun b a => b || p a) b = (b || l.any p) := by
  induction l generalizing b with
  | nil => simp
  | cons a l ih => rw [List.foldl_cons, ih, List.any_cons, Bool.or_assoc]

namespace DiagramM

variable {s : Store}

/-- **A fold computes the fold** of the functions that its handles mean, and it adds no node if all
intermediate results have handles. -/
lemma Folds.spec {g : Bool → Bool → Bool} {stop : Bool} {op : Handle → Handle → DiagramM Handle}
    {fold : Handle → List Handle → DiagramM Handle} (hfold : Folds g stop op fold) :
    ∀ (fs : List Handle) {s : Store} {acc : Handle}, s.Sound → s.Valid acc →
      (∀ f ∈ fs, s.Valid f) →
      Yields (fold acc fs) s (s.Collected g (s.meaning acc) (fs.map s.meaning))
  | [], s, acc, hs, hacc, _ => by
      rw [hfold.nil]
      exact Yields.pure ⟨Grows.refl hs, hacc, fun _ x => rfl, fun _ => trivial,
        fun _ _ => Quiet.refl s⟩
  | f :: fs, s, acc, hs, hacc, hfs => by
      rw [hfold.cons]
      refine Yields.bind ((hfold.op_spec hs hacc (hfs f (by simp))).mono ?_)
      intro r s₁ hr
      have hfs₁ : ∀ f ∈ fs, s.Valid f := fun f hf => hfs f (by simp [hf])
      split
      · next hstop =>
          -- the rest is not looked at, and would not change anything
          have hmean : s₁.overflowed = false →
              (fun x => g (s.meaning acc x) (s.meaning f x)) = fun _ => stop := by
            intro ho
            funext x
            rw [← hr.meaning ho, hstop, meaning_constant hr.grows.sound.toShaped]
          refine Yields.pure ⟨hr.grows, hr.valid, fun ho x => ?_, fun ho => ⟨hr.represents ho, ?_⟩,
            fun ho h => hr.quiet ho h.1⟩
          · rw [List.map_cons, List.foldl_cons, congrFun (hmean ho) x,
              foldl_of_absorbs hfold.absorbs, hstop, meaning_constant hr.grows.sound.toShaped]
          · rw [hmean ho]
            exact accumulated_of_absorbs hr.grows.sound.toShaped hfold.absorbs _
      · refine (Folds.spec hfold fs hr.grows.sound hr.valid fun f hf =>
          hr.grows.keeps.valid (hfs₁ f hf)).mono ?_
        intro q s₂ hq
        have hmap : fs.map s₁.meaning = fs.map s.meaning :=
          List.map_congr_left fun f hf => funext fun x =>
            hr.grows.meaning_eq hs.toShaped (hfs₁ f hf)
        rw [hmap] at hq
        refine ⟨hr.grows.trans hq.grows, hq.valid, fun ho x => ?_, fun ho => ?_, fun ho h => ?_⟩
        · rw [hq.meaning ho, List.map_cons, List.foldl_cons, hr.meaning (hq.grows.overflowed ho)]
        · have ho₁ := hq.grows.overflowed ho
          have hfun := funext (hr.meaning ho₁)
          refine ⟨hq.grows.represents hr.grows.sound.toShaped (hr.represents ho₁), ?_⟩
          rw [← hfun]
          exact hq.accumulated ho
        · have hq₁ := hr.quiet ho h.1
          have ho₁ : s₁.overflowed = false := hq₁.overflowed.trans ho
          refine hq₁.trans (hq.quiet ho₁ ?_)
          rw [funext (hr.meaning ho₁)]
          exact h.2.grows hr.grows hs.toShaped

lemma andMany_spec (hs : s.Sound) {fs : List Handle} (hfs : ∀ f ∈ fs, s.Valid f) :
    Yields (andMany fs) s (s.Collected (· && ·) (fun _ => true) (fs.map s.meaning)) := by
  have hone : s.meaning .one = fun _ => true := funext fun x => meaning_one hs.toShaped
  rw [← hone]
  exact andAll_folds.spec fs hs hs.valid_one hfs

lemma orMany_spec (hs : s.Sound) {fs : List Handle} (hfs : ∀ f ∈ fs, s.Valid f) :
    Yields (orMany fs) s (s.Collected (· || ·) (fun _ => false) (fs.map s.meaning)) := by
  have hzero : s.meaning .zero = fun _ => false := funext fun x => meaning_zero hs.toShaped
  rw [← hzero]
  exact orAll_folds.spec fs hs hs.valid_zero hfs

end DiagramM

end ModalCalls
