import ModalCalls.Fault
import ModalCalls.Storage.Pairing

/-!
# A table that stores every value once

`Table.put` returns the index of a value and stores the value first if it is new, so two equal
values always share one index.  Indices start at `1`; index `0` never names a value.

Values are found again through buckets.  A bucket is a chain of the indices of the values whose code
falls into it, oldest first: the table knows the first index of every bucket and the index that
follows each index, where `0` says that there is none.  Links lead to later indices only, so every
chain ends.  `Table.add` stores a value *without* entering it into a bucket: such a value has an
index but is never found by `put`.

A table of `2 ^ bits` places keeps one of them for index `0` and thus holds `2 ^ bits - 1` values.
-/

namespace ModalCalls

/-- Values by index, with the buckets that find an interned value again. -/
structure Table (α : Type) where
  /-- Number of places, the reserved one included. -/
  capacity : Nat
  /-- The value of index `i + 1` stands at position `i`. -/
  values : Array α
  /-- For each index the next one of its bucket. -/
  links : Array Nat
  /-- For each bucket its first index. -/
  heads : Array Nat
  size_links : links.size = values.size + 1
  lt_link : ∀ i, links.getD i 0 ≠ 0 → i < links.getD i 0 ∧ links.getD i 0 ≤ values.size
  head_le : ∀ k, heads.getD k 0 ≤ values.size

namespace Table

variable {α : Type}

/-- The empty table of `2 ^ bits` places.  Beyond `2 ^ 16` places the buckets grow no further. -/
def empty (bits : Nat) : Table α where
  capacity := Nat.pow 2 bits
  values := #[]
  links := #[0]
  heads := Array.replicate (Nat.pow 2 (min bits 16)) 0
  size_links := rfl
  lt_link i hi := by
    cases i with
    | zero => simp at hi
    | succ i => simp [Array.getD_eq_getD_getElem?] at hi
  head_le k := by
    rw [Array.getD_eq_getD_getElem?, Array.getElem?_replicate]
    split <;> simp

/-- The empty table of `2 ^ bits` places, for sizes a table may have. -/
def create (bits : Nat) : Except Fault (Table α) :=
  if bits ≤ 31 then .ok (empty bits) else .error (.sizeOutOfRange bits)

/-- Number of stored values. -/
def size (t : Table α) : Nat :=
  t.values.size

/-- No place is left. -/
def isFull (t : Table α) : Bool :=
  t.capacity ≤ t.values.size + 1

/-- The value of an index. -/
@[inline]
def value? (t : Table α) : Nat → Option α
  | 0 => none
  | i + 1 => t.values[i]?

/-- The value of an index that the caller knows to be assigned. -/
def value (t : Table α) (i : Nat) : Except Fault α :=
  match t.value? i with
  | some a => .ok a
  | none => .error (.noSuchIndex i)

/-! ## Storing

A new value gets the next index.  It is linked to nothing as yet, so the links that are there stay what they
are, and the conditions on them are carried over.
-/

theorem getD_push (links : Array Nat) (i : Nat) : (links.push 0).getD i 0 = links.getD i 0 := by
  simp only [Array.getD_eq_getD_getElem?, Array.getElem?_push]
  split
  · next h => simp [h]
  · rfl

theorem getD_setIfInBounds {links : Array Nat} {j : Nat} (hj : j < links.size) (i k : Nat) :
    (links.setIfInBounds j k).getD i 0 = if i = j then k else links.getD i 0 := by
  simp only [Array.getD_eq_getD_getElem?, Array.getElem?_setIfInBounds]
  by_cases h : i = j
  · simp [h, hj]
  · simp [h, Ne.symm h]

/-- Store a value under the next index, in no bucket. -/
def push (t : Table α) (a : α) : Table α where
  capacity := t.capacity
  values := t.values.push a
  links := t.links.push 0
  heads := t.heads
  size_links := by rw [Array.size_push, Array.size_push, t.size_links]
  lt_link i hi := by
    rw [getD_push] at hi ⊢
    have := t.lt_link i hi
    rw [Array.size_push]
    omega
  head_le k := by
    have := t.head_le k
    rw [Array.size_push]
    omega

/-- Store a value under the next index, unless the table is full.  The value is not interned. -/
def tryAdd (t : Table α) (a : α) : Option Nat × Table α :=
  if t.isFull then (none, t) else (some (t.size + 1), t.push a)

/-- Store a value under the next index; a full table is a fault of the caller. -/
def add (t : Table α) (a : α) : Except Fault Nat × Table α :=
  match t.tryAdd a with
  | (some i, t) => (.ok i, t)
  | (none, t) => (.error .tableFull, t)

/-! ## Chains

Links lead to larger indices, and none of these exceeds the number of values.  Hence the distance to the end
bounds the walk along a chain.  The bound is hidden by `chainFrom_of_ne_zero`, which follows one link, and
by the induction principle after it.
-/

/-- The index that follows an index in its bucket. -/
def link (t : Table α) (i : Nat) : Nat :=
  t.links.getD i 0

/-- Follow the links for a number of steps. -/
def chainWithin (t : Table α) : Nat → Nat → List Nat
  | 0, _ => []
  | _ + 1, 0 => []
  | steps + 1, i => i :: t.chainWithin steps (t.link i)

/-- The indices from an index on, to the end of the chain.  There are no more of them than indices
that are not before it. -/
def chainFrom (t : Table α) (i : Nat) : List Nat :=
  t.chainWithin (t.size + 1 - i) i

/-- The indices of a bucket. -/
def chain (t : Table α) (k : Nat) : List Nat :=
  t.chainFrom (t.heads.getD k 0)

theorem lt_of_link_ne_zero (t : Table α) {i : Nat} (h : t.link i ≠ 0) : i < t.link i :=
  (t.lt_link i h).1

theorem link_le (t : Table α) (i : Nat) : t.link i ≤ t.size := by
  by_cases hi : t.link i = 0
  · omega
  · exact (t.lt_link i hi).2

theorem chainWithin_zero (t : Table α) (steps : Nat) : t.chainWithin steps 0 = [] := by
  cases steps <;> rfl

theorem chainWithin_succ (t : Table α) (steps : Nat) {i : Nat} (hi : i ≠ 0) :
    t.chainWithin (steps + 1) i = i :: t.chainWithin steps (t.link i) := by
  cases i with
  | zero => exact absurd rfl hi
  | succ i => rfl

/-- A chain ends before the steps do, however many more there are. -/
theorem chainWithin_eq (t : Table α) : ∀ {steps steps' i : Nat}, i ≤ t.size →
    t.size + 1 - i ≤ steps → t.size + 1 - i ≤ steps' → t.chainWithin steps i = t.chainWithin steps' i
  | 0, _, i, hi, hsteps, _ => by omega
  | _, 0, i, hi, _, hsteps => by omega
  | steps + 1, steps' + 1, i, hi, hsteps, hsteps' => by
    by_cases hzero : i = 0
    · rw [hzero, chainWithin_zero, chainWithin_zero]
    · rw [chainWithin_succ t steps hzero, chainWithin_succ t steps' hzero]
      by_cases hlink : t.link i = 0
      · rw [hlink, chainWithin_zero, chainWithin_zero]
      · have hlt := t.lt_of_link_ne_zero hlink
        have htail : t.chainWithin steps (t.link i) = t.chainWithin steps' (t.link i) :=
          chainWithin_eq t (t.link_le i) (by omega) (by omega)
        rw [htail]

theorem chainFrom_zero (t : Table α) : t.chainFrom 0 = [] :=
  chainWithin_zero t _

/-- **A chain follows the links.** -/
theorem chainFrom_of_ne_zero (t : Table α) {i : Nat} (hzero : i ≠ 0) (hi : i ≤ t.size) :
    t.chainFrom i = i :: t.chainFrom (t.link i) := by
  obtain ⟨steps, hsteps⟩ : ∃ steps, t.size + 1 - i = steps + 1 := ⟨t.size - i, by omega⟩
  rw [chainFrom, hsteps, chainWithin_succ t steps hzero]
  by_cases hlink : t.link i = 0
  · rw [hlink, chainWithin_zero, chainFrom, chainWithin_zero]
  · have hlt := t.lt_of_link_ne_zero hlink
    rw [chainFrom, chainWithin_eq t (t.link_le i) (by omega) (Nat.le_refl _)]

/-- Induction along a chain. -/
theorem chainFrom_induction (t : Table α) {motive : Nat → List Nat → Prop} (ends : motive 0 [])
    (step : ∀ i, i ≠ 0 → i ≤ t.size → motive (t.link i) (t.chainFrom (t.link i)) →
      motive i (i :: t.chainFrom (t.link i))) {i : Nat} (hi : i ≤ t.size) :
    motive i (t.chainFrom i) := by
  by_cases hzero : i = 0
  · rw [hzero, chainFrom_zero]
    exact ends
  · rw [t.chainFrom_of_ne_zero hzero hi]
    refine step i hzero hi ?_
    by_cases hlink : t.link i = 0
    · rw [hlink, chainFrom_zero]
      exact ends
    · have hlt := t.lt_of_link_ne_zero hlink
      have hle := t.link_le i
      exact chainFrom_induction t ends step hle
termination_by t.size - i

/-- A chain has later and later indices. -/
theorem le_of_mem_chainFrom (t : Table α) {i j : Nat} (hi : i ≤ t.size) (hj : j ∈ t.chainFrom i) :
    i ≤ j ∧ j ≤ t.size := by
  revert hj
  refine t.chainFrom_induction (motive := fun i l => j ∈ l → i ≤ j ∧ j ≤ t.size) (by simp) ?_ hi
  intro i hzero hi ih hj
  rcases List.mem_cons.1 hj with rfl | hj
  · exact ⟨Nat.le_refl j, hi⟩
  · have hle := ih hj
    by_cases hlink : t.link i = 0
    · rw [hlink, chainFrom_zero] at hj
      simp at hj
    · have := t.lt_of_link_ne_zero hlink
      omega

/-- The last index of a bucket. -/
def last? (t : Table α) (k : Nat) : Option Nat :=
  (t.chain k).getLast?

theorem le_of_last? (t : Table α) {k j : Nat} (h : t.last? k = some j) : j ≤ t.size :=
  (t.le_of_mem_chainFrom (t.head_le k) (List.mem_of_getLast? h)).2

/-! ## Interning

A value is looked for in the bucket of its code.  If it is new it is stored there at the end: either it
begins the bucket or the last index of the chain gets a link to it.
-/

/-- Let a bucket begin with the latest index. -/
def startBucket (t : Table α) (k : Nat) : Table α where
  capacity := t.capacity
  values := t.values
  links := t.links
  heads := t.heads.setIfInBounds k t.size
  size_links := t.size_links
  lt_link := t.lt_link
  head_le i := by
    simp only [Array.getD_eq_getD_getElem?, Array.getElem?_setIfInBounds]
    split
    · split <;> simp [size]
    · rw [← Array.getD_eq_getD_getElem?]
      exact t.head_le i

/-- Let the latest index follow an earlier one. -/
def extendChain (t : Table α) (j : Nat) (hj : j < t.size) : Table α where
  capacity := t.capacity
  values := t.values
  links := t.links.setIfInBounds j t.size
  heads := t.heads
  size_links := by rw [Array.size_setIfInBounds, t.size_links]
  lt_link i hi := by
    have hlt : j < t.links.size := by
      rw [t.size_links]
      exact Nat.lt_succ_of_lt hj
    rw [getD_setIfInBounds hlt] at hi ⊢
    by_cases hij : i = j
    · rw [if_pos hij, hij]
      exact ⟨hj, Nat.le_refl _⟩
    · rw [if_neg hij] at hi ⊢
      exact t.lt_link i hi
  head_le := t.head_le

/-- Store a value under the next index, at the end of a bucket. -/
def intern (t : Table α) (k : Nat) (a : α) : Table α :=
  match h : t.last? k with
  | none => (t.push a).startBucket k
  | some j => (t.push a).extendChain j (by
      rw [size, push, Array.size_push]
      exact Nat.lt_succ_of_le (t.le_of_last? h))

/-- The bucket of a value: its code modulo the number of buckets. -/
def slot [PairHash α] (t : Table α) (a : α) : Nat :=
  slotOf (PairHash.code a) t.heads.size

/-- The index of an interned value. -/
def find? [PairHash α] [DecidableEq α] (t : Table α) (a : α) : Option Nat :=
  (t.chain (t.slot a)).find? fun i => (t.value? i).any (decide <| · = a)

/-- **Interning.**  The index of a value, which is stored first if it is new.  There is no index
if the value is new and the table is full. -/
def put [PairHash α] [DecidableEq α] (t : Table α) (a : α) : Option Nat × Table α :=
  match t.find? a with
  | some i => (some i, t)
  | none => if t.isFull then (none, t) else (some (t.size + 1), t.intern (t.slot a) a)

/-! ## Indices and values

What the operations do, case by case.  How they work together over a history of calls is proved elsewhere.
-/

@[simp] theorem value?_zero (t : Table α) : t.value? 0 = none := rfl

theorem tryAdd_of_isFull {t : Table α} (h : t.isFull) (a : α) : t.tryAdd a = (none, t) := by
  rw [tryAdd, if_pos h]

theorem tryAdd_of_not_isFull {t : Table α} (h : ¬ t.isFull) (a : α) :
    t.tryAdd a = (some (t.size + 1), t.push a) := by
  rw [tryAdd, if_neg h]

/-- What is found under an index is the value that was looked for. -/
theorem value?_of_find? [PairHash α] [DecidableEq α] {t : Table α} {a : α} {i : Nat}
    (h : t.find? a = some i) : t.value? i = some a := by
  have hi := List.find?_some h
  cases hv : t.value? i with
  | none => simp [hv] at hi
  | some b => simpa [hv] using hi

/-- A value that is already interned keeps its index, and the table stays as it is. -/
theorem put_of_find? [PairHash α] [DecidableEq α] {t : Table α} {a : α} {i : Nat}
    (h : t.find? a = some i) : t.put a = (some i, t) := by
  simp only [put, h]

end Table

end ModalCalls
