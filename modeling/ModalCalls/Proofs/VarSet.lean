import Mathlib
import ModalCalls.VarSet

/-!
# Members of a bit map

`VarSet.contains` looks at one bit of one word.  What an insertion or a removal does to the members is then a
statement about bits: it changes one and leaves the others as they are.  From this follows what a set that
was made from a vector of truth values contains (`VarSet.contains_ofBools`).

**Listing.**  The members are what `VarSet.toList` lists (`VarSet.mem_toList`), in increasing order
(`VarSet.toList_sorted`).  Within a word the lowest bit comes first, and what is left is the word masked with its
predecessor (`VarSet.bitsOf_eq_cons`).

**Refinement.**  `VarSet.Represents` says which finite set a bit map stands for.  It determines every answer, so
two bit maps are equal exactly if they stand for the same set, whatever their words are.

* `VarSet.construction_refines` — **bit maps are finite sets of natural numbers**, however they were made and changed.
-/

namespace ModalCalls

namespace VarSet

variable {s : VarSet}

/-! ## Members

A number has a word and a bit in it.  Two numbers are the same exactly if both are.  Words that are not
there count as zero, so growing the map changes no member.
-/

lemma getLsbD_maskOf (i k : Nat) : (maskOf i).toBitVec.getLsbD k = decide (k = i % 64) := by
  have hlt : i % 64 < 64 := Nat.mod_lt _ (by norm_num)
  have hmask : (maskOf i).toBitVec = BitVec.twoPow 64 (i % 64) := by
    simp [maskOf, BitVec.twoPow, UInt64.toBitVec_shiftLeft, Nat.mod_eq_of_lt hlt]
  rw [hmask, BitVec.getLsbD_twoPow]
  simp [hlt, eq_comm]

/-- Looking at a word through a mask is looking at one bit. -/
lemma and_maskOf (w : UInt64) (i : Nat) :
    (w &&& maskOf i != 0) = w.toBitVec.getLsbD (i % 64) := by
  rw [Bool.eq_iff_iff, bne_iff_ne, ne_eq]
  constructor
  · intro h
    by_contra hbit
    refine h (UInt64.toBitVec_inj.1 (BitVec.eq_of_getLsbD_eq fun k hk => ?_))
    simp only [UInt64.toBitVec_and, BitVec.getLsbD_and, getLsbD_maskOf]
    by_cases hki : k = i % 64
    · subst hki
      simpa using hbit
    · simp [hki]
  · intro h hzero
    have hbit : (w &&& maskOf i).toBitVec.getLsbD (i % 64) = true := by
      simp [getLsbD_maskOf, h]
    rw [hzero] at hbit
    simp at hbit

/-- Setting a bit of a word. -/
lemma or_maskOf (w : UInt64) (i j : Nat) :
    ((w ||| maskOf i) &&& maskOf j != 0) = (decide (j % 64 = i % 64) || (w &&& maskOf j != 0)) := by
  rw [and_maskOf, and_maskOf, UInt64.toBitVec_or, BitVec.getLsbD_or, getLsbD_maskOf, Bool.or_comm]

/-- Clearing a bit of a word. -/
lemma and_not_maskOf (w : UInt64) (i j : Nat) :
    ((w &&& ~~~ maskOf i) &&& maskOf j != 0)
      = (decide (j % 64 ≠ i % 64) && (w &&& maskOf j != 0)) := by
  have hlt : j % 64 < 64 := Nat.mod_lt _ (by norm_num)
  rw [and_maskOf, and_maskOf, UInt64.toBitVec_and, BitVec.getLsbD_and, UInt64.toBitVec_not, BitVec.getLsbD_not,
    getLsbD_maskOf]
  simp [hlt, Bool.and_comm]

lemma getD_grow (words : Array UInt64) (word w : Nat) :
    (grow words word).getD w 0 = words.getD w 0 := by
  simp only [grow, Array.getD_eq_getD_getElem?, Array.getElem?_append, Array.getElem?_replicate]
  split
  · rfl
  · next h =>
      rw [Array.getElem?_eq_none (by omega)]
      split <;> rfl

lemma size_grow (words : Array UInt64) (word : Nat) : word < (grow words word).size := by
  simp only [grow, Array.size_append, Array.size_replicate]
  omega

/-- Changing one word. -/
lemma getD_modify {words : Array UInt64} {w : Nat} {f : UInt64 → UInt64} (hf : w < words.size ∨ f 0 = 0)
    (v : Nat) : (words.modify w f).getD v 0 = if v = w then f (words.getD v 0) else words.getD v 0 := by
  simp only [Array.getD_eq_getD_getElem?, Array.getElem?_modify]
  by_cases hv : v = w
  · subst hv
    rcases hf with hf | hf
    · simp [hf]
    · cases words[v]? <;> simp [hf]
  · simp [hv, Ne.symm hv]

/-- Numbers of one word are told apart by their bits. -/
lemma mod_eq_iff {i j : Nat} (h : wordOf j = wordOf i) : j % 64 = i % 64 ↔ j = i := by
  simp only [wordOf] at h
  omega

/-- **Insertion** adds one member. -/
lemma contains_insert (i j : Nat) :
    (s.insert i).2.contains j = (decide (j = i) || s.contains j) := by
  unfold insert
  split
  · next h =>
      simp only [contains, getD_grow] at h ⊢
      by_cases hji : j = i
      · subst hji
        rw [h, Bool.or_true]
      · simp [hji]
  · simp only [contains, getD_modify (Or.inl (size_grow s.words (wordOf i))), getD_grow]
    by_cases hw : wordOf j = wordOf i
    · simp only [hw, if_true, or_maskOf, mod_eq_iff hw]
    · have hji : j ≠ i := fun h => hw (by rw [h])
      simp [hw, hji]

/-- **Removal** takes one member away. -/
lemma contains_erase (i j : Nat) :
    (s.erase i).2.contains j = (decide (j ≠ i) && s.contains j) := by
  unfold erase
  split
  · simp only [contains, getD_modify (f := (· &&& ~~~ maskOf i)) (Or.inr UInt64.zero_and)]
    by_cases hw : wordOf j = wordOf i
    · simp only [hw, if_true, and_not_maskOf, ne_eq, mod_eq_iff hw]
    · have hji : j ≠ i := fun h => hw (by rw [h])
      simp [hw, hji]
  · next h =>
      by_cases hji : j = i
      · subst hji
        simpa using h
      · simp [hji]

lemma insert_fst (s : VarSet) (i : Nat) : (s.insert i).1 = !s.contains i := by
  simp only [insert]
  split <;> simp_all

lemma erase_fst (s : VarSet) (i : Nat) : (s.erase i).1 = s.contains i := by
  simp only [erase]
  split <;> simp_all

lemma count_insert (s : VarSet) (i : Nat) :
    (s.insert i).2.count = if s.contains i then s.count else s.count + 1 := by
  simp only [insert]
  split <;> rfl

lemma count_erase (s : VarSet) (i : Nat) :
    (s.erase i).2.count = if s.contains i then s.count - 1 else s.count := by
  simp only [erase]
  split <;> rfl

lemma contains_insertMany : ∀ (is : List Nat) (s : VarSet) (j : Nat),
    (s.insertMany is).contains j = (decide (j ∈ is) || s.contains j)
  | [], s, j => by simp [insertMany]
  | i :: is, s, j => by
      have hcons : s.insertMany (i :: is) = (s.insert i).2.insertMany is := rfl
      rw [hcons, contains_insertMany is, contains_insert]
      by_cases hi : j = i <;> by_cases his : j ∈ is <;> simp [hi, his]

lemma contains_withCapacity (n j : Nat) : (withCapacity n).contains j = false := by
  have hword : (withCapacity n).words.getD (wordOf j) 0 = 0 := by
    simp only [withCapacity, Array.getD_eq_getD_getElem?, Array.getElem?_replicate]
    split <;> rfl
  simp [contains, hword]

/-- **The set of the positions that hold `true`.** -/
theorem contains_ofBools (values : Array Bool) (j : Nat) :
    (ofBools values).contains j = values.getD j false := by
  rw [ofBools, contains_insertMany, contains_withCapacity, Bool.or_false]
  by_cases hj : j < values.size
  · simp [hj]
  · simp [hj]

/-! ## Listing the members

The bits of a word are found by clearing the lowest one as long as there is one.  They are compared with the
list of positions that one would write down from the definition of a bit.  Words come one after another, and
the numbers of a later word are larger.
-/

/-- The positions of the bits of a word. -/
def positions (word : UInt64) : List Nat :=
  (List.range 64).filter word.toNat.testBit

lemma mem_positions {word : UInt64} {k : Nat} : k ∈ positions word ↔ k < 64 ∧ word.toNat.testBit k = true := by
  rw [positions, List.mem_filter, List.mem_range]

lemma positions_sorted (word : UInt64) : (positions word).Pairwise (· < ·) :=
  List.pairwise_lt_range.filter _

/-- Subtracting one turns the lowest set bit and the zeros below it, so masking with the difference clears that
bit and nothing else. -/
lemma testBit_and_sub_one {n k : Nat} (hk : n.testBit k = true) (hlow : ∀ i < k, n.testBit i = false) (i : Nat) :
    (n &&& (n - 1)).testBit i = (n.testBit i && decide (i ≠ k)) := by
  -- the number is an odd multiple of the power of two
  have hmod : n % 2 ^ k = 0 := by
    refine Nat.eq_of_testBit_eq fun i => ?_
    rw [Nat.testBit_mod_two_pow, Nat.zero_testBit]
    by_cases hi : i < k
    · simp [hlow i hi]
    · simp [hi]
  obtain ⟨m, hm⟩ := Nat.dvd_of_mod_eq_zero hmod
  have hodd : m % 2 = 1 := by
    rw [hm, Nat.testBit_two_pow_mul] at hk
    simpa using hk
  have hpos : 0 < 2 ^ k := Nat.two_pow_pos k
  have hsub : n - 1 = 2 ^ k * (m - 1) + (2 ^ k - 1) := by
    obtain ⟨l, rfl⟩ : ∃ l, m = l + 1 := ⟨m - 1, by omega⟩
    rw [hm, Nat.mul_add, Nat.add_sub_cancel, Nat.mul_one]
    omega
  rw [Nat.testBit_and, hsub, Nat.testBit_two_pow_mul_add _ (by omega)]
  rcases Nat.lt_trichotomy i k with hi | rfl | hi
  · simp [hlow i hi]
  · have heven : (m - 1) % 2 = 0 := by omega
    simp [heven]
  · obtain ⟨j, rfl⟩ : ∃ j, i = k + (j + 1) := ⟨i - k - 1, by omega⟩
    have hhalf : (m - 1) / 2 = m / 2 := by omega
    have hbit : (m - 1).testBit (j + 1) = n.testBit (k + (j + 1)) := by
      rw [hm, Nat.testBit_two_pow_mul, Nat.testBit_succ, hhalf]
      simp [Nat.testBit_succ]
    simp [hbit]

/-- The first position is the number of trailing zeros, and the others are those of the word in which that bit is
cleared. -/
lemma positions_eq_cons {word : UInt64} (h : word ≠ 0) :
    positions word = word.toBitVec.ctz.toNat :: positions (word &&& (word - 1)) := by
  have hbits : word.toBitVec ≠ 0#64 := fun hzero => h (UInt64.toBitVec_inj.1 hzero)
  set k := word.toBitVec.ctz.toNat with hk
  have hlt : k < 64 := by
    have := BitVec.lt_def.1 (BitVec.ctz_lt_iff_ne_zero.2 hbits)
    simpa using this
  have htrue : word.toNat.testBit k = true := BitVec.getLsbD_true_ctz_of_ne_zero hbits
  have hlow : ∀ i < k, word.toNat.testBit i = false := fun i hi => BitVec.getLsbD_false_of_lt_ctz hi
  have hcleared : ∀ j, j ∈ positions (word &&& (word - 1)) ↔ j ∈ positions word ∧ j ≠ k := by
    intro j
    have hone : (1 : UInt64) ≤ word :=
      UInt64.le_iff_toNat_le.2 (Nat.one_le_iff_ne_zero.2 fun hzero => h (UInt64.toNat_inj.1 hzero))
    rw [mem_positions, mem_positions, UInt64.toNat_and, UInt64.toNat_sub_of_le _ _ hone,
      UInt64.toNat_one, testBit_and_sub_one htrue hlow]
    simp [and_assoc]
  have hfirst : ∀ j ∈ positions word, k ≤ j := by
    intro j hj
    by_contra hlt
    have := (mem_positions.1 hj).2
    rw [hlow j (by omega)] at this
    cases this
  refine (positions_sorted word).eq_of_mem_iff (List.pairwise_cons.2 ⟨fun j hj => ?_, positions_sorted _⟩)
    fun j => ?_
  · obtain ⟨hj, hne⟩ := (hcleared j).1 hj
    have := hfirst j hj
    omega
  · rw [List.mem_cons, hcleared]
    by_cases hj : j = k
    · simp [hj, mem_positions, hlt, htrue]
    · simp [hj]

/-- Clearing the lowest bit again and again lists all positions, if there are no more of them than are asked for. -/
lemma lowestBits_eq_positions : ∀ {n : Nat} {word : UInt64}, (positions word).length ≤ n →
    lowestBits n word = positions word
  | 0, _, h => (List.length_eq_zero_iff.1 (Nat.le_zero.1 h)).symm
  | n + 1, word, h => by
      rw [lowestBits]
      split
      · next hzero => simp [hzero, positions]
      · next hzero =>
          rw [positions_eq_cons hzero, List.length_cons] at h
          rw [lowestBits_eq_positions (Nat.le_of_succ_le_succ h), positions_eq_cons hzero]

/-- **The bits of a word** are the positions of its bits. -/
lemma bitsOf_eq_positions (word : UInt64) : bitsOf word = positions word := by
  refine lowestBits_eq_positions ?_
  simpa [positions] using List.length_filter_le word.toNat.testBit (List.range 64)

/-- **They are listed from the lowest on**: the number of trailing zeros, then the bits of the word in which that
bit is cleared. -/
lemma bitsOf_eq_cons {word : UInt64} (h : word ≠ 0) :
    bitsOf word = word.toBitVec.ctz.toNat :: bitsOf (word &&& (word - 1)) := by
  rw [bitsOf_eq_positions, bitsOf_eq_positions, positions_eq_cons h]

lemma mem_bitsOf {word : UInt64} {k : Nat} :
    k ∈ bitsOf word ↔ k < 64 ∧ (word &&& maskOf k != 0) = true := by
  rw [bitsOf_eq_positions, mem_positions, and_maskOf]
  refine and_congr_right fun hk => ?_
  rw [Nat.mod_eq_of_lt hk]
  rfl

lemma bitsOf_sorted (word : UInt64) : (bitsOf word).Pairwise (· < ·) :=
  bitsOf_eq_positions word ▸ positions_sorted word

/-- **The members are what is listed.** -/
lemma mem_toList {i : Nat} : i ∈ s.toList ↔ s.contains i = true := by
  simp only [toList, List.mem_flatMap, List.mem_range, List.mem_map, mem_bitsOf]
  have hmask : ∀ w k, k < 64 → wordOf (64 * w + k) = w ∧ maskOf (64 * w + k) = maskOf k := by
    intro w k hk
    simp only [wordOf, maskOf]
    exact ⟨by omega, by rw [Nat.mul_add_mod]⟩
  constructor
  · rintro ⟨w, -, k, ⟨hk, hbit⟩, rfl⟩
    rwa [contains, (hmask w k hk).1, (hmask w k hk).2]
  · intro h
    have hk : i % 64 < 64 := Nat.mod_lt _ (by norm_num)
    have hi : 64 * wordOf i + i % 64 = i := Nat.div_add_mod i 64
    refine ⟨wordOf i, ?_, i % 64, ⟨hk, ?_⟩, hi⟩
    · -- beyond the last word there is no member
      by_contra hout
      simp [contains, Array.getD_eq_getD_getElem?, Array.getElem?_eq_none (not_lt.1 hout)] at h
    · rw [← (hmask (wordOf i) (i % 64) hk).2, hi]
      exact h

/-- The members are listed in increasing order. -/
lemma toList_sorted (s : VarSet) : s.toList.Pairwise (· < ·) := by
  rw [toList, List.pairwise_flatMap]
  constructor
  · intro w _
    exact List.pairwise_map.2 ((bitsOf_sorted _).imp fun hab => by omega)
  · refine List.pairwise_lt_range.imp fun hvw => ?_
    simp only [List.mem_map, mem_bitsOf]
    rintro _ ⟨b, ⟨hb, -⟩, rfl⟩ _ ⟨c, ⟨hc, -⟩, rfl⟩
    omega

/-- Sets that compare equal have the same members. -/
lemma contains_eq_of_beq {t : VarSet} (h : (s == t) = true) (i : Nat) :
    s.contains i = t.contains i := by
  have hlist : s.toList = t.toList := eq_of_beq (Bool.and_eq_true_iff.1 h).2
  rw [Bool.eq_iff_iff, ← mem_toList, ← mem_toList, hlist]

lemma beq_refl (s : VarSet) : (s == s) = true := by
  change beq s s = true
  simp [beq]

lemma getD_toBools (len j : Nat) (hj : j < len) : (s.toBools len).getD j false = s.contains j := by
  simp [toBools, hj]

/-! ## The set that a bit map stands for

The members and the count determine all answers.  Constructions and changes act on finite sets in the same
way as on bit maps, so a history of calls is followed on both sides, call by call.  The capacity of a map
leaves no trace in this.
-/

/-- **The set that a bit map stands for**: it has the same members, and they are counted. -/
structure Represents (s : VarSet) (M : Finset ℕ) : Prop where
  contains_eq : ∀ i, s.contains i = decide (i ∈ M)
  count_eq : s.count = M.card

variable {t : VarSet} {M N : Finset ℕ}

lemma Represents.insert (h : s.Represents M) (i : Nat) : (s.insert i).2.Represents (M ∪ {i}) where
  contains_eq j := by simp [contains_insert, h.contains_eq]
  count_eq := by
    rw [count_insert, h.contains_eq, h.count_eq]
    by_cases hi : i ∈ M <;> simp [hi, Finset.union_comm M]

lemma Represents.erase (h : s.Represents M) (i : Nat) : (s.erase i).2.Represents (M.erase i) where
  contains_eq j := by simp [contains_erase, h.contains_eq]
  count_eq := by
    rw [count_erase, h.contains_eq, h.count_eq]
    by_cases hi : i ∈ M <;> simp [hi]

lemma Represents.insertMany : ∀ (is : List Nat) {s : VarSet} {M : Finset ℕ}, s.Represents M →
    (s.insertMany is).Represents (M ∪ is.toFinset)
  | [], _, _, h => by simpa [VarSet.insertMany] using h
  | i :: is, s, M, h => by
      have hcons : M ∪ (i :: is).toFinset = M ∪ {i} ∪ is.toFinset := by
        ext j
        simp
      rw [hcons]
      exact insertMany is (h.insert i)

/-! ### Constructions and changes

A bit map is made in one of four ways and then changed by calls.  Each of these has a counterpart on finite
sets.
-/

/-- Where the construction of a bit map begins. -/
inductive Origin where
  | new
  | capacity (n : Nat)
  | bools (values : Array Bool)
  | collected (is : List Nat)

/-- The operations that change a bit map. -/
inductive Call where
  | insert (i : Nat)
  | erase (i : Nat)
  | extend (is : List Nat)

namespace Origin

/-- The bit map that a construction begins with. -/
def make : Origin → VarSet
  | new => .empty
  | capacity n => withCapacity n
  | bools values => ofBools values
  | collected is => ofList is

/-- The set that a construction begins with. -/
def members : Origin → Finset ℕ
  | new => ∅
  | capacity _ => ∅
  | bools values => (Finset.range values.size).filter (values.getD · false = true)
  | collected is => is.toFinset

end Origin

/-- What a call does to a bit map. -/
def Call.run (s : VarSet) : Call → VarSet
  | insert i => (s.insert i).2
  | erase i => (s.erase i).2
  | extend is => s.insertMany is

/-- What a call does to the set. -/
def Call.act (M : Finset ℕ) : Call → Finset ℕ
  | insert i => M ∪ {i}
  | erase i => M.erase i
  | extend is => M ∪ is.toFinset

lemma represents_withCapacity (n : Nat) : (withCapacity n).Represents ∅ where
  contains_eq i := by simp [contains_withCapacity]
  count_eq := rfl

lemma Origin.represents (o : Origin) : o.make.Represents o.members := by
  have hempty : empty.Represents ∅ := represents_withCapacity 0
  cases o with
  | new => exact hempty
  | capacity n => exact represents_withCapacity n
  | bools values =>
      have h := (represents_withCapacity values.size).insertMany
        ((List.range values.size).filter (values.getD · false))
      have hset : ∅ ∪ ((List.range values.size).filter (values.getD · false)).toFinset
          = (bools values).members := by
        ext i
        simp [members]
      rwa [hset] at h
  | collected is => simpa [members, make, ofList] using hempty.insertMany is

lemma Call.represents (h : s.Represents M) (call : Call) : (call.run s).Represents (call.act M) := by
  cases call with
  | insert i => exact h.insert i
  | erase i => exact h.erase i
  | extend is => exact h.insertMany is

/-- **What a sequence of calls does to a bit map it does to its set.** -/
lemma represents_foldl : ∀ (calls : List Call) {s : VarSet} {M : Finset ℕ}, s.Represents M →
    (calls.foldl Call.run s).Represents (calls.foldl Call.act M)
  | [], _, _, h => h
  | call :: calls, _, _, h => represents_foldl calls (call.represents h)

lemma Represents.beq_eq (h : s.Represents M) (h' : t.Represents N) : (s == t) = decide (M = N) := by
  rw [Bool.eq_iff_iff, decide_eq_true_iff]
  constructor
  · intro hbeq
    ext i
    have := contains_eq_of_beq hbeq i
    rw [h.contains_eq, h'.contains_eq] at this
    simpa using this
  · rintro rfl
    have hlist : s.toList = t.toList := by
      refine s.toList_sorted.eq_of_mem_iff t.toList_sorted fun i => ?_
      simp [mem_toList, h.contains_eq, h'.contains_eq]
    change VarSet.beq s t = true
    simp [VarSet.beq, hlist, h.count_eq, h'.count_eq]

/-- **A bit map as a finite set.** -/
structure Refines (s : VarSet) (M : Finset ℕ) : Prop where
  contains_eq : ∀ i, s.contains i = decide (i ∈ M)
  /-- Insertion and removal say whether the members have changed. -/
  insert_fst : ∀ i, (s.insert i).1 = decide (i ∉ M)
  erase_fst : ∀ i, (s.erase i).1 = decide (i ∈ M)
  size_eq : s.size = M.card
  isEmpty_eq : s.isEmpty = decide (M = ∅)
  /-- The members are listed, each of them once and in increasing order. -/
  mem_toList_iff : ∀ i, i ∈ s.toList ↔ i ∈ M
  toList_sorted : s.toList.Pairwise (· < ·)
  /-- The bits of a word are listed by taking the lowest one and clearing it. -/
  listing : ∀ word ∈ s.words, word ≠ 0 →
    bitsOf word = word.toBitVec.ctz.toNat :: bitsOf (word &&& (word - 1))
  /-- The characteristic vector has the members below its length.  If it is long enough, it has all of them. -/
  toBools_eq : ∀ n, (s.toBools n).size = n ∧ ∀ i < n, (s.toBools n)[i]? = some (s.contains i)
  ofBools_toBools : ∀ n, (∀ i ∈ M, i < n) → (ofBools (s.toBools n) == s) = true

lemma Represents.ofBools_toBools (h : s.Represents M) {n : Nat} (hn : ∀ i ∈ M, i < n) :
    (ofBools (s.toBools n) == s) = true := by
  have hset : (Origin.bools (s.toBools n)).members = M := by
    ext i
    simp only [Origin.members, Finset.mem_filter, Finset.mem_range]
    constructor
    · rintro ⟨hi, hmem⟩
      have hlt : i < n := by simpa [toBools] using hi
      rw [getD_toBools n i hlt, h.contains_eq] at hmem
      exact of_decide_eq_true hmem
    · intro hi
      have hlt := hn i hi
      refine ⟨by simpa [toBools] using hlt, ?_⟩
      rw [getD_toBools n i hlt, h.contains_eq]
      exact decide_eq_true hi
  have hread := (Origin.bools (s.toBools n)).represents
  rw [hset] at hread
  simpa [Origin.make] using hread.beq_eq h

lemma Represents.refines (h : s.Represents M) : s.Refines M where
  contains_eq := h.contains_eq
  insert_fst i := by simp [VarSet.insert_fst, h.contains_eq]
  erase_fst i := by rw [VarSet.erase_fst, h.contains_eq]
  size_eq := h.count_eq
  isEmpty_eq := by
    rw [isEmpty, h.count_eq, Bool.eq_iff_iff]
    simp
  mem_toList_iff i := by simp [mem_toList, h.contains_eq]
  toList_sorted := s.toList_sorted
  listing _ _ hword := bitsOf_eq_cons hword
  toBools_eq n := ⟨by simp [toBools], fun i hi => by simp [toBools, hi]⟩
  ofBools_toBools _ hn := h.ofBools_toBools hn

/-- **Bit maps are finite sets of natural numbers.**  However a bit map is made, and in whatever way it is changed,
its answers are those of the set that the same construction and the same changes give.  Two bit maps are equal
exactly if their sets are. -/
theorem construction_refines (o : Origin) (calls : List Call) :
    Refines (calls.foldl Call.run o.make) (calls.foldl Call.act o.members) ∧
    ∀ (o' : Origin) (calls' : List Call),
      (calls.foldl Call.run o.make == calls'.foldl Call.run o'.make)
        = decide (calls.foldl Call.act o.members = calls'.foldl Call.act o'.members) := by
  have h : ∀ (o : Origin) (calls : List Call),
      (calls.foldl Call.run o.make).Represents (calls.foldl Call.act o.members) :=
    fun o calls => represents_foldl calls o.represents
  exact ⟨(h o calls).refines, fun o' calls' => (h o calls).beq_eq (h o' calls')⟩

/-- Eight words against one: the sets are the same. -/
example : ([Call.insert 5, .insert 1, .insert 300, .erase 300].foldl Call.run (withCapacity 500)
    == ofList [1, 5]) = true := by
  decide +kernel

end VarSet

end ModalCalls
