import Mathlib
import ModalCalls.Storage.Pairing

/-!
# Where pairing is exact

On natural numbers the shell-by-shell pairing function is a bijection, and its inverse takes a square root.
Words wrap, so the question is where the pairing of words still agrees with that of numbers.

* `shellNumber_lt_sq_iff` — the pairs below `k` fill the numbers below `k ^ 2`, so with `k = 2 ^ 32` they fill a
  word and nothing is left over.
* `toNat_pair` — the code of any two words, wrapped.
* `unpair` — the inverse, with `pair_unpair` and `unpair_pair`.
* `pair_exact` — **the pairing of words is exact below `2 ^ 32`** and nowhere else.
-/

namespace ModalCalls

/-- The number of a pair when pairs are numbered shell by shell. -/
def shellNumber (m n : Nat) : Nat :=
  if m < n then n ^ 2 + m else m ^ 2 + m + n

lemma shellNumber_eq_pair (m n : Nat) : shellNumber m n = Nat.pair m n := by
  simp only [shellNumber, Nat.pair, sq]

/-- **Shells.**  The numbers below `k ^ 2` are those of the pairs below `k`. -/
lemma shellNumber_lt_sq_iff {m n k : Nat} : shellNumber m n < k ^ 2 ↔ max m n < k := by
  rw [shellNumber_eq_pair]
  constructor
  · intro h
    have hle : max m n ^ 2 ≤ Nat.pair m n :=
      (Nat.le_add_right _ _).trans (Nat.max_sq_add_min_le_pair m n)
    exact lt_of_pow_lt_pow_left₀ 2 (Nat.zero_le k) (hle.trans_lt h)
  · intro h
    calc Nat.pair m n < (max m n + 1) ^ 2 := Nat.pair_lt_max_add_one_sq m n
      _ ≤ k ^ 2 := Nat.pow_le_pow_left h 2

/-- The pairs below `2 ^ 32` are those whose number is a word. -/
lemma shellNumber_lt_word_iff {m n : Nat} : shellNumber m n < 2 ^ 64 ↔ max m n < 2 ^ 32 :=
  shellNumber_lt_sq_iff (k := 2 ^ 32)

/-- **The code of two words** is the number of the pair, wrapped once. -/
lemma toNat_pair (a b : UInt64) : (pair a b).toNat = shellNumber a.toNat b.toNat % 2 ^ 64 := by
  simp only [pair, shellNumber, UInt64.lt_iff_toNat_lt]
  split
  · simp [UInt64.toNat_add, UInt64.toNat_mul, sq]
  · simp [UInt64.toNat_add, UInt64.toNat_mul, sq]

/-- Nothing wraps exactly if both words are below `2 ^ 32`. -/
lemma toNat_pair_eq_iff {a b : UInt64} :
    (pair a b).toNat = shellNumber a.toNat b.toNat ↔ max a.toNat b.toNat < 2 ^ 32 := by
  rw [toNat_pair, Nat.mod_eq_iff_lt (by norm_num), shellNumber_lt_word_iff]

/-- Two words that are below `k` have a code below `k ^ 2`, as long as `k` is at most `2 ^ 32`. -/
lemma toNat_pair_lt_sq {a b : UInt64} {k : Nat} (hk : k ≤ 2 ^ 32) (h : max a.toNat b.toNat < k) :
    (pair a b).toNat < k ^ 2 := by
  rw [toNat_pair_eq_iff.2 (h.trans_le hk)]
  exact shellNumber_lt_sq_iff.2 h

/-! ## The inverse

Mathlib has the inverse of the pairing of numbers.  A code is a word, so both of its components are below
`2 ^ 32`, and the pairing of words can be undone without ever leaving the range where it is exact.
-/

/-- The pair of a code. -/
def unpair (code : UInt64) : UInt64 × UInt64 :=
  (.ofNat code.toNat.unpair.1, .ofNat code.toNat.unpair.2)

/-- The pair of a code is below `2 ^ 32`, so nothing is lost when it is turned into words. -/
lemma max_natUnpair_lt (code : UInt64) : max code.toNat.unpair.1 code.toNat.unpair.2 < 2 ^ 32 := by
  rw [← shellNumber_lt_word_iff, shellNumber_eq_pair, Nat.pair_unpair]
  exact code.toNat_lt

lemma toNat_unpair (code : UInt64) :
    (unpair code).1.toNat = code.toNat.unpair.1 ∧ (unpair code).2.toNat = code.toNat.unpair.2 := by
  have hlt := max_lt_iff.1 (max_natUnpair_lt code)
  have hword : 2 ^ 32 < UInt64.size := by decide
  exact ⟨UInt64.toNat_ofNat_of_lt' (hlt.1.trans hword), UInt64.toNat_ofNat_of_lt' (hlt.2.trans hword)⟩

lemma max_unpair_lt (code : UInt64) : max (unpair code).1.toNat (unpair code).2.toNat < 2 ^ 32 := by
  obtain ⟨hfst, hsnd⟩ := toNat_unpair code
  rw [hfst, hsnd]
  exact max_natUnpair_lt code

lemma pair_unpair (code : UInt64) : pair (unpair code).1 (unpair code).2 = code := by
  obtain ⟨hfst, hsnd⟩ := toNat_unpair code
  apply UInt64.toNat_inj.1
  rw [toNat_pair_eq_iff.2 (max_unpair_lt code), shellNumber_eq_pair, hfst, hsnd, Nat.pair_unpair]

lemma unpair_pair {a b : UInt64} (h : max a.toNat b.toNat < 2 ^ 32) : unpair (pair a b) = (a, b) := by
  have hunpair : (pair a b).toNat.unpair = (a.toNat, b.toNat) := by
    rw [toNat_pair_eq_iff.2 h, shellNumber_eq_pair, Nat.unpair_pair]
  simp [unpair, hunpair]

/-! ## Codes that tell values apart

For three words the code of the first two is paired with the third.  It has to be below `2 ^ 32` itself,
which is why the first two are asked to be below `2 ^ 16`: the shells up to there fill the numbers up to
there and no more.
-/

/-- Below `2 ^ 32` two words are known by their code. -/
lemma pair_inj {a b a' b' : UInt64} (h : max a.toNat b.toNat < 2 ^ 32) (h' : max a'.toNat b'.toNat < 2 ^ 32)
    (hcode : pair a b = pair a' b') : a = a' ∧ b = b' := by
  have hpairs : (a, b) = (a', b') := by
    rw [← unpair_pair h, hcode, unpair_pair h']
  exact Prod.mk.inj hpairs

/-- Three words are known by their code if the first two are so small that their own code is below `2 ^ 32`. -/
lemma pair3_inj {a b c a' b' c' : UInt64} (h : max a.toNat b.toNat < 2 ^ 16) (hc : c.toNat < 2 ^ 32)
    (h' : max a'.toNat b'.toNat < 2 ^ 16) (hc' : c'.toNat < 2 ^ 32) (hcode : pair3 a b c = pair3 a' b' c') :
    a = a' ∧ b = b' ∧ c = c' := by
  have hsmall : 2 ^ 16 ≤ 2 ^ 32 := by norm_num
  have hfirst : (pair a b).toNat < 2 ^ 32 := toNat_pair_lt_sq hsmall h
  have hfirst' : (pair a' b').toNat < 2 ^ 32 := toNat_pair_lt_sq hsmall h'
  obtain ⟨hpair, hthird⟩ := pair_inj (max_lt hfirst hc) (max_lt hfirst' hc') hcode
  obtain ⟨ha, hb⟩ := pair_inj (h.trans_le hsmall) (h'.trans_le hsmall) hpair
  exact ⟨ha, hb, hthird⟩

/-- **Pairing is exact below `2 ^ 32`.**  The code of two words is their number without wrapping exactly if both
are below `2 ^ 32`, which is when that number is a word at all; every word is the code of exactly one such pair;
and three words are known by their code if the first two are below `2 ^ 16` and the third is below `2 ^ 32`. -/
theorem pair_exact :
    (∀ a b : UInt64,
      (max a.toNat b.toNat < 2 ^ 32 ↔ (pair a b).toNat = shellNumber a.toNat b.toNat) ∧
      (max a.toNat b.toNat < 2 ^ 32 ↔ shellNumber a.toNat b.toNat < 2 ^ 64)) ∧
    Set.BijOn (fun p : UInt64 × UInt64 => pair p.1 p.2) {p | max p.1.toNat p.2.toNat < 2 ^ 32} Set.univ ∧
    Set.InjOn (fun p : UInt64 × UInt64 × UInt64 => pair3 p.1 p.2.1 p.2.2)
      {p | p.1.toNat < 2 ^ 16 ∧ p.2.1.toNat < 2 ^ 16 ∧ p.2.2.toNat < 2 ^ 32} := by
  refine ⟨fun a b => ⟨toNat_pair_eq_iff.symm, shellNumber_lt_word_iff.symm⟩, ?_, ?_⟩
  · refine ⟨Set.mapsTo_univ _ _, ?_, fun code _ => ⟨unpair code, max_unpair_lt code, pair_unpair code⟩⟩
    rintro ⟨a, b⟩ h ⟨a', b'⟩ h' hcode
    obtain ⟨rfl, rfl⟩ := pair_inj h h' hcode
    rfl
  · rintro ⟨a, b, c⟩ ⟨ha, hb, hc⟩ ⟨a', b', c'⟩ ⟨ha', hb', hc'⟩ hcode
    obtain ⟨rfl, rfl, rfl⟩ := pair3_inj (max_lt ha hb) hc (max_lt ha' hb') hc' hcode
    rfl

/-- The largest pair of the range has the largest word as its code, and the next pair has the code of the first. -/
example : pair 4294967295 4294967295 = 18446744073709551615 ∧ pair 0 4294967296 = pair 0 0 := by
  decide

end ModalCalls
