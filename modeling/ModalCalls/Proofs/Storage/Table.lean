import Mathlib
import ModalCalls.Storage.Table
import ModalCalls.Proofs.Transcript

/-!
# Interning

A table gives equal values one index and different values different ones, and it does so whatever the codes of
the values are: the code says in which bucket to look, and there the values themselves are compared.

Values that were added without interning stand among the others but in no bucket, so a value may well be stored
twice.  What is unique is the index under which it was *put*.  That is a statement about everything that was asked
of the table, so it is made about transcripts, whose events are calls with the indices they answer.

* `Table.chainFrom_redirect` — linking a new index to the end of a chain extends the chains that end there, and no
  others.  `Table.chain_intern` says the same of buckets.
* `Table.Outcome`, `Table.Call.outcome` — what a call can do.
* `Table.Filed` — the invariant: a bucket has exactly the indices under which its values were put.
  `Table.Filed.find?_eq_some_iff` follows from it, and `Table.Call.run_filed` is the step lemma.
* `Table.transcript_interns` — **the laws of interning**.
-/

namespace ModalCalls

namespace Table

variable {α : Type} {t : Table α} {a : α} {i : Nat}

/-! ## Indices, values and buckets

A value is appended, so old indices keep theirs.  Besides, interning sets one number: the head of a bucket
that was empty, or the link of the last index of its chain.
-/

/-- Exactly the numbers from `1` to the number of values are indices. -/
lemma value?_eq_some :
    (∃ a, t.value? i = some a) ↔ 1 ≤ i ∧ i ≤ t.size := by
  cases i with
  | zero => simp
  | succ i =>
      simp only [value?, size]
      constructor
      · rintro ⟨a, ha⟩
        obtain ⟨hi, -⟩ := Array.getElem?_eq_some_iff.1 ha
        omega
      · rintro ⟨-, hi⟩
        exact ⟨t.values[i], Array.getElem?_eq_getElem (by omega)⟩

lemma value_eq_ok_iff : t.value i = .ok a ↔ t.value? i = some a := by
  rw [value]
  split <;> simp_all

lemma value?_of_values {t' : Table α} (h : t'.values = t.values.push a) (i : Nat) :
    t'.value? i = if i = t.size + 1 then some a else t.value? i := by
  cases i with
  | zero => simp [value?]
  | succ i =>
      simp only [value?, size, h, Array.getElem?_push, Nat.add_right_cancel_iff]

@[simp] lemma size_push (t : Table α) (a : α) : (t.push a).size = t.size + 1 :=
  Array.size_push a

@[simp] lemma link_push (t : Table α) (a : α) (i : Nat) : (t.push a).link i = t.link i :=
  getD_push t.links i

lemma head_startBucket {k : Nat} (hk : k < t.heads.size) (k' : Nat) :
    (t.startBucket k).heads.getD k' 0 = if k' = k then t.size else t.heads.getD k' 0 :=
  getD_setIfInBounds hk k' t.size

lemma link_extendChain {j : Nat} (hj : j < t.size) (i : Nat) :
    (t.extendChain j hj).link i = if i = j then t.size else t.link i := by
  refine getD_setIfInBounds ?_ i t.size
  rw [t.size_links]
  exact Nat.lt_succ_of_lt hj

/-! ## Chains

Links lead to later indices only, and this is what makes a chain a list at all.  Everything else follows by
induction along the links: that a chain is sorted, that it depends on nothing but its links, and what
happens to it when the next free index is linked to its end.  In the last case any chain that runs into the
same end is extended with it.  The statement says so, and it is left to the invariant of buckets to rule
that out.
-/

lemma link_of_size_lt (h : t.size < i) : t.link i = 0 := by
  by_contra hlink
  have hlt := t.lt_of_link_ne_zero hlink
  have hle := t.link_le i
  omega

/-- **Chains are sorted**, so they end and have no index twice. -/
lemma sorted_chainFrom (t : Table α) {i : Nat} (hi : i ≤ t.size) : (t.chainFrom i).Pairwise (· < ·) := by
  refine t.chainFrom_induction (motive := fun _ l => l.Pairwise (· < ·)) .nil ?_ hi
  intro i hzero hi ih
  refine List.pairwise_cons.2 ⟨fun j hj => ?_, ih⟩
  by_cases hlink : t.link i = 0
  · simp [hlink, chainFrom_zero] at hj
  · exact (t.lt_of_link_ne_zero hlink).trans_le (t.le_of_mem_chainFrom (t.link_le i) hj).1

/-- Nothing follows the last index of a chain. -/
lemma link_of_getLast? (t : Table α) {i j : Nat} (hi : i ≤ t.size) :
    (t.chainFrom i).getLast? = some j → t.link j = 0 := by
  refine t.chainFrom_induction (motive := fun _ l => l.getLast? = some j → t.link j = 0) (by simp) ?_ hi
  intro i hzero hi ih hlast
  by_cases hlink : t.link i = 0
  · rw [hlink, chainFrom_zero] at hlast
    simp only [List.getLast?_singleton, Option.some.injEq] at hlast
    exact hlast ▸ hlink
  · rw [t.chainFrom_of_ne_zero hlink (t.link_le i)] at hlast ih
    exact ih (by simpa using hlast)

/-- A chain is what its links make it. -/
lemma chainFrom_congr {t' : Table α} (hsize : t.size ≤ t'.size) (hlink : ∀ i, t'.link i = t.link i)
    (hi : i ≤ t.size) : t'.chainFrom i = t.chainFrom i := by
  refine t.chainFrom_induction (motive := fun i l => t'.chainFrom i = l) t'.chainFrom_zero ?_ hi
  intro i hzero hi ih
  rw [t'.chainFrom_of_ne_zero hzero (hi.trans hsize), hlink, ih]

/-- **Linking a new index to the end of a chain** extends all chains that end there, and no others. -/
lemma chainFrom_redirect {t' : Table α} {j : Nat} (hsize : t'.size = t.size + 1) (hle : j ≤ t.size)
    (hj : t.link j = 0) (hlink : ∀ i, t'.link i = if i = j then t.size + 1 else t.link i) (hi : i ≤ t.size) :
    t'.chainFrom i
      = t.chainFrom i ++ if (t.chainFrom i).getLast? = some j then [t.size + 1] else [] := by
  have hnew : t'.chainFrom (t.size + 1) = [t.size + 1] := by
    rw [t'.chainFrom_of_ne_zero (by omega) (by omega), hlink, if_neg (by omega),
      link_of_size_lt (Nat.lt_succ_self _), chainFrom_zero]
  refine t.chainFrom_induction
    (motive := fun i l => t'.chainFrom i = l ++ if l.getLast? = some j then [t.size + 1] else [])
    t'.chainFrom_zero ?_ hi
  intro i hzero hi ih
  rw [t'.chainFrom_of_ne_zero hzero (by omega), hlink]
  by_cases hij : i = j
  · rw [if_pos hij, hnew, hij, hj, chainFrom_zero]
    simp
  · rw [if_neg hij, ih]
    cases hl : t.chainFrom (t.link i) with
    | nil => simp [hij]
    | cons m ms => simp

/-! ## Buckets

Entering a value links its index to the end of a bucket, or makes it the beginning of an empty one.  These
are two different changes of the table, and `chain_intern` puts them under one equation: whatever was in a
bucket stays in it and in the same order, and the new index comes last.
-/

@[simp] lemma values_intern (t : Table α) (k : Nat) (a : α) : (t.intern k a).values = t.values.push a := by
  unfold intern
  split <;> rfl

@[simp] lemma capacity_intern (t : Table α) (k : Nat) (a : α) : (t.intern k a).capacity = t.capacity := by
  unfold intern
  split <;> rfl

@[simp] lemma size_heads_intern (t : Table α) (k : Nat) (a : α) :
    (t.intern k a).heads.size = t.heads.size := by
  unfold intern
  split
  · exact Array.size_setIfInBounds
  · rfl

@[simp] lemma chain_push (t : Table α) (a : α) (k : Nat) : (t.push a).chain k = t.chain k :=
  chainFrom_congr (by simp) (link_push t a) (t.head_le k)

/-- A bucket that begins with the new index has no other, and the other buckets stay as they are. -/
lemma chain_startBucket {k : Nat} (hk : k < t.heads.size) (a : α) (k' : Nat) :
    ((t.push a).startBucket k).chain k' = if k' = k then [t.size + 1] else t.chain k' := by
  have hlink : ∀ i, ((t.push a).startBucket k).link i = t.link i := link_push t a
  have hsize : ((t.push a).startBucket k).size = t.size + 1 := size_push t a
  have hhead := head_startBucket (t := t.push a) hk k'
  rw [chain, hhead]
  split
  · rw [chainFrom_of_ne_zero _ (by simp) (by rw [size_push, hsize]), hlink, size_push,
      link_of_size_lt (Nat.lt_succ_self _), chainFrom_zero]
  · exact chainFrom_congr (by omega) hlink (t.head_le k')

/-- The buckets that end with an index are extended when the new one is linked to it. -/
lemma chain_extendChain {k j : Nat} (hlast : t.last? k = some j) (a : α) (hj : j < (t.push a).size) (k' : Nat) :
    ((t.push a).extendChain j hj).chain k'
      = t.chain k' ++ if t.last? k' = some j then [t.size + 1] else [] := by
  have hlink : ∀ i, ((t.push a).extendChain j hj).link i = if i = j then t.size + 1 else t.link i := by
    intro i
    rw [link_extendChain, size_push, link_push]
  exact chainFrom_redirect (size_push t a) (t.le_of_last? hlast) (link_of_getLast? t (t.head_le k) hlast)
    hlink (t.head_le k')

/-- **Entering a value into a bucket** puts its index at the end, and at the end of any other bucket that should
end with the same index. -/
lemma chain_intern {k : Nat} (hk : k < t.heads.size) (a : α) (k' : Nat) :
    (t.intern k a).chain k' = t.chain k' ++
      if k' = k ∨ ∃ j, t.last? k = some j ∧ t.last? k' = some j then [t.size + 1] else [] := by
  unfold intern
  split
  · next hlast =>
      have hnil : t.chain k = [] := List.getLast?_eq_none_iff.1 hlast
      rw [chain_startBucket hk]
      by_cases hkk : k' = k
      · simp [hkk, hnil]
      · simp [hkk, hlast]
  · next j hlast =>
      rw [chain_extendChain hlast]
      by_cases hkk : k' = k <;> simp [hkk, hlast]

/-- An index stays in its bucket. -/
lemma mem_chain_intern {k k' : Nat} (hk : k < t.heads.size) (a : α) (hi : i ∈ t.chain k') :
    i ∈ (t.intern k a).chain k' := by
  rw [chain_intern hk]
  exact List.mem_append_left _ hi

/-- The new index is in its bucket. -/
lemma mem_chain_intern_self {k : Nat} (hk : k < t.heads.size) (a : α) :
    t.size + 1 ∈ (t.intern k a).chain k := by
  rw [chain_intern hk]
  simp

/-- The buckets, each with its indices in order. -/
def buckets (t : Table α) : Array (List Nat) :=
  t.heads.map t.chainFrom

@[simp] lemma size_buckets (t : Table α) : t.buckets.size = t.heads.size :=
  Array.size_map

@[simp] lemma getD_buckets (t : Table α) (k : Nat) : t.buckets.getD k [] = t.chain k := by
  simp only [buckets, chain, Array.getD_eq_getD_getElem?, Array.getElem?_map]
  cases t.heads[k]? with
  | none => exact t.chainFrom_zero.symm
  | some i => rfl

variable [PairHash α] [DecidableEq α]

lemma put_of_full (hfind : t.find? a = none) (hfull : t.isFull = true) : t.put a = (none, t) := by
  simp only [put, hfind, if_pos hfull]

lemma put_of_new (hfind : t.find? a = none) (hfull : ¬ t.isFull = true) :
    t.put a = (some (t.size + 1), t.intern (t.slot a) a) := by
  simp only [put, hfind, if_neg hfull]

/-- A value that stands in its bucket is found. -/
lemma find?_ne_none {i : Nat} (hi : t.value? i = some a)
    (hmem : i ∈ t.buckets.getD (t.slot a) []) : t.find? a ≠ none := by
  rw [getD_buckets] at hmem
  intro hnone
  have := List.find?_eq_none.1 hnone i hmem
  simp [hi] at this

/-! ## Calls

Three operations store values, and they fail and succeed under different conditions.  `Outcome` lists once
what can happen, guards included, so that the invariant below is proved for four kinds of outcome and not
for three definitions with all their branches.
-/

/-- The operations that may store a value. -/
inductive Call (α : Type) where
  | add (a : α)
  | tryAdd (a : α)
  | put (a : α)
deriving DecidableEq

namespace Call

/-- The value that a call is about. -/
def value : Call α → α
  | add a => a
  | tryAdd a => a
  | put a => a

/-- Carry a call out.  The event is the call with the index that it answers; adding to a full table is a fault
and answers with none. -/
def run : Call α → Table α → List (Call α × Option Nat) × Table α
  | add a, t => ([(add a, (t.add a).1.toOption)], (t.add a).2)
  | tryAdd a, t => ([(tryAdd a, (t.tryAdd a).1)], (t.tryAdd a).2)
  | put a, t => ([(put a, (t.put a).1)], (t.put a).2)

end Call

/-- **What a call can do** to a table, with the index that it answers and the table that it leaves. -/
inductive Outcome (t : Table α) : Call α → Option Nat → Table α → Prop
  | refused {call : Call α} (hfull : t.isFull = true) (hfind : ∀ a, call = .put a → t.find? a = none) :
      Outcome t call none t
  | found {a : α} {i : Nat} (hfind : t.find? a = some i) : Outcome t (.put a) (some i) t
  | appended {call : Call α} (hroom : ¬ t.isFull = true) (hcall : ∀ a, call ≠ .put a) :
      Outcome t call (some (t.size + 1)) (t.push call.value)
  | interned {a : α} (hroom : ¬ t.isFull = true) (hfind : t.find? a = none) :
      Outcome t (.put a) (some (t.size + 1)) (t.intern (t.slot a) a)

/-- Adding a value with or without a fault is the same but for the fault. -/
lemma Call.run_of_ne_put {call : Call α} (hcall : ∀ a, call ≠ .put a) (t : Table α) :
    call.run t = ([(call, (t.tryAdd call.value).1)], (t.tryAdd call.value).2) := by
  cases call with
  | add a =>
      simp only [run, value, Table.add]
      rcases t.tryAdd a with ⟨_ | i, t'⟩ <;> rfl
  | tryAdd a => rfl
  | put a => exact absurd rfl (hcall a)

lemma Call.outcome (call : Call α) (t : Table α) :
    ∃ index t', call.run t = ([(call, index)], t') ∧ Outcome t call index t' := by
  by_cases hput : ∃ a, call = .put a
  · obtain ⟨a, rfl⟩ := hput
    cases hfind : t.find? a with
    | some i => exact ⟨_, _, by rw [run, put_of_find? hfind], .found hfind⟩
    | none =>
        by_cases hfull : t.isFull = true
        · refine ⟨_, _, by rw [run, put_of_full hfind hfull], .refused hfull ?_⟩
          rintro _ ⟨⟩
          exact hfind
        · exact ⟨_, _, by rw [run, put_of_new hfind hfull], .interned hfull hfind⟩
  · have hcall : ∀ a, call ≠ .put a := fun a ha => hput ⟨a, ha⟩
    by_cases hfull : t.isFull = true
    · refine ⟨_, _, by rw [run_of_ne_put hcall, tryAdd_of_isFull hfull], .refused hfull ?_⟩
      exact fun a ha => absurd ha (hcall a)
    · exact ⟨_, _, by rw [run_of_ne_put hcall, tryAdd_of_not_isFull hfull], .appended hfull hcall⟩

/-! ## The history of a table

What a table holds is compared with the calls that were made and the indices that they answered.  `Filed` is
the invariant.  Its core is that a bucket has exactly the indices under which values of that bucket were
put; a value that was added without interning has an index and is in no bucket, so a later put of the same
value does not find it.
-/

/-- A value has been put under some index. -/
def IsPut (log : List (Call α × Option Nat)) (a : α) : Prop :=
  ∃ i, (Call.put a, some i) ∈ log

instance (log : List (Call α × Option Nat)) (a : α) : Decidable (IsPut log a) :=
  decidable_of_iff (∃ event ∈ log, event.1 = .put a ∧ event.2.isSome = true) <| by
    constructor
    · rintro ⟨⟨_, _ | i⟩, hmem, rfl, hsome⟩
      · cases hsome
      · exact ⟨i, hmem⟩
    · rintro ⟨i, hmem⟩
      exact ⟨_, hmem, rfl, rfl⟩

/-- **The number of calls that have stored a value**: those that answered with an index, but for a put of a
value that had been put before. -/
def additions : List (Call α × Option Nat) → Nat
  | [] => 0
  | (_, none) :: earlier => additions earlier
  | (.put a, some _) :: earlier => additions earlier + if IsPut earlier a then 0 else 1
  | (_, some _) :: earlier => additions earlier + 1

/-- **The invariant.**  The chains have what has been put, the indices keep their values, and the number of
values is that of the calls that stored one. -/
structure Filed (bits : Nat) (t : Transcript (Table α) (Call α × Option Nat)) : Prop where
  capacity : t.state.capacity = 2 ^ bits
  heads : t.state.heads.size = 2 ^ min bits 16
  room : t.state.size < t.state.capacity
  size_eq : t.state.size = additions t.log
  value?_of_mem : ∀ {call i}, (call, some i) ∈ t.log → t.state.value? i = some call.value
  mem_of_value? : ∀ {i a}, t.state.value? i = some a → ∃ call, (call, some i) ∈ t.log
  mem_chain_iff : ∀ {k i}, i ∈ t.state.chain k ↔
    ∃ a, (Call.put a, some i) ∈ t.log ∧ t.state.slot a = k
  index_unique : ∀ {a i j}, (Call.put a, some i) ∈ t.log → (Call.put a, some j) ∈ t.log → i = j

variable {bits : Nat} {r : Transcript (Table α) (Call α × Option Nat)}

/-- **Exactly what has been put is found**, and under the index that was given out. -/
lemma Filed.find?_eq_some_iff (h : Filed bits r) :
    r.state.find? a = some i ↔ (Call.put a, some i) ∈ r.log := by
  have hfound : ∀ {i}, r.state.find? a = some i → (Call.put a, some i) ∈ r.log := by
    intro i hi
    obtain ⟨b, hb, -⟩ := h.mem_chain_iff.1 (List.mem_of_find?_eq_some hi)
    -- the index was given out for some value of the bucket, and that is the value that was looked for
    have hvalue := (h.value?_of_mem hb).symm.trans (value?_of_find? hi)
    simp only [Call.value, Option.some.injEq] at hvalue
    exact hvalue ▸ hb
  constructor
  · exact hfound
  · intro hput
    cases hfind : r.state.find? a with
    | none =>
        have hmem : i ∈ r.state.chain (r.state.slot a) := h.mem_chain_iff.2 ⟨a, hput, rfl⟩
        exact absurd hfind (find?_ne_none (h.value?_of_mem hput) (by rwa [getD_buckets]))
    | some j => rw [h.index_unique hput (hfound hfind)]

lemma Filed.find?_eq_none_iff (h : Filed bits r) : r.state.find? a = none ↔ ¬ IsPut r.log a := by
  rw [Option.eq_none_iff_forall_ne_some]
  simp only [ne_eq, h.find?_eq_some_iff, IsPut, not_exists]

lemma Filed.index_le (h : Filed bits r) {call : Call α} (hmem : (call, some i) ∈ r.log) :
    1 ≤ i ∧ i ≤ r.state.size :=
  value?_eq_some.1 ⟨_, h.value?_of_mem hmem⟩

/-! ## One more call

Two things can happen to the history.  A call that gives out nothing new leaves the table as it was and only
lengthens the log.  A call that stores its value gives out the next index, and then all fields of the
invariant are about one index more.  For a put, the new index lands in the bucket of its value and in no
other, because two buckets never share an index.
-/

/-- A call that gives out nothing new leaves the table as it is. -/
lemma Filed.of_log (h : Filed bits r) {log : List (Call α × Option Nat)}
    (hlog : ∀ call i, (call, some i) ∈ log ↔ (call, some i) ∈ r.log) (hadd : additions log = additions r.log) :
    Filed bits ⟨r.state, log⟩ where
  capacity := h.capacity
  heads := h.heads
  room := h.room
  size_eq := h.size_eq.trans hadd.symm
  value?_of_mem hmem := h.value?_of_mem ((hlog _ _).1 hmem)
  mem_of_value? hi := by simpa only [hlog] using h.mem_of_value? hi
  mem_chain_iff {k i} := by simpa only [hlog] using h.mem_chain_iff (k := k) (i := i)
  index_unique hi hj := h.index_unique ((hlog _ _).1 hi) ((hlog _ _).1 hj)

/-- Of two buckets at most one has a given index. -/
lemma Filed.chain_disjoint (h : Filed bits r) {k k' : Nat} (hi : i ∈ r.state.chain k)
    (hi' : i ∈ r.state.chain k') : k = k' := by
  obtain ⟨a, ha, rfl⟩ := h.mem_chain_iff.1 hi
  obtain ⟨b, hb, rfl⟩ := h.mem_chain_iff.1 hi'
  have hvalue := (h.value?_of_mem ha).symm.trans (h.value?_of_mem hb)
  simp only [Call.value, Option.some.injEq] at hvalue
  rw [hvalue]

/-- A call that stores its value gives out the next index.  What it leaves is left open here but for the chains:
they get the new index exactly if the call is a put. -/
lemma Filed.stored (h : Filed bits r) (call : Call α) (hroom : ¬ r.state.isFull = true) {t' : Table α}
    (hcapacity : t'.capacity = r.state.capacity) (hvalues : t'.values = r.state.values.push call.value)
    (hheads : t'.heads.size = r.state.heads.size)
    (hchain : ∀ {k i}, i ∈ t'.chain k ↔
      i ∈ r.state.chain k ∨ i = r.state.size + 1 ∧ ∃ a, call = .put a ∧ r.state.slot a = k)
    (hnew : ∀ a, call = .put a → ¬ IsPut r.log a)
    (hadd : additions ((call, some (r.state.size + 1)) :: r.log) = additions r.log + 1) :
    Filed bits ⟨t', (call, some (r.state.size + 1)) :: r.log⟩ where
  capacity := hcapacity.trans h.capacity
  heads := hheads.trans h.heads
  room := by
    simp only [isFull, decide_eq_true_eq, not_le] at hroom
    simpa only [size, hvalues, hcapacity, Array.size_push] using hroom
  size_eq := by
    rw [hadd, ← h.size_eq]
    simp only [size, hvalues, Array.size_push]
  value?_of_mem {c i} hmem := by
    rw [value?_of_values hvalues]
    simp only [List.mem_cons, Prod.mk.injEq, Option.some.injEq] at hmem
    rcases hmem with ⟨rfl, rfl⟩ | hmem
    · rw [if_pos rfl]
    · have := h.index_le hmem
      rw [if_neg (by omega), h.value?_of_mem hmem]
  mem_of_value? {i b} hi := by
    rw [value?_of_values hvalues] at hi
    split_ifs at hi with hlast
    · exact ⟨call, by simp [hlast]⟩
    · obtain ⟨c, hc⟩ := h.mem_of_value? hi
      exact ⟨c, List.mem_cons_of_mem _ hc⟩
  mem_chain_iff {k i} := by
    have hslot : ∀ b, t'.slot b = r.state.slot b := fun b => by simp only [slot, hheads]
    simp only [hchain, h.mem_chain_iff, hslot, List.mem_cons, Prod.mk.injEq, Option.some.injEq]
    constructor
    · rintro (⟨b, hb, hk⟩ | ⟨hi, b, hb, hk⟩)
      · exact ⟨b, Or.inr hb, hk⟩
      · exact ⟨b, Or.inl ⟨hb.symm, hi⟩, hk⟩
    · rintro ⟨b, ⟨hb, hi⟩ | hb, hk⟩
      · exact Or.inr ⟨hi, b, hb.symm, hk⟩
      · exact Or.inl ⟨b, hb, hk⟩
  index_unique {b i j} hi hj := by
    simp only [List.mem_cons, Prod.mk.injEq, Option.some.injEq] at hi hj
    rcases hi with ⟨hb, hi⟩ | hi <;> rcases hj with ⟨hb', hj⟩ | hj
    · rw [hi, hj]
    · exact absurd ⟨j, hj⟩ (hnew b hb.symm)
    · exact absurd ⟨i, hi⟩ (hnew b hb'.symm)
    · exact h.index_unique hi hj

/-- **A call keeps the invariant.** -/
theorem Call.run_filed (h : Filed bits r) (call : Call α) : Filed bits (r.call Call.run call) := by
  obtain ⟨index, t', hrun, houtcome⟩ := call.outcome r.state
  have hnext : r.call Call.run call = ⟨t', (call, index) :: r.log⟩ := by
    simp only [Transcript.call, hrun, List.singleton_append]
  rw [hnext]
  cases houtcome with
  | refused hfull hfind =>
      refine h.of_log (fun c i => by simp) ?_
      simp only [additions]
  | @found a i hfind =>
      have hmem := h.find?_eq_some_iff.1 hfind
      refine h.of_log (fun c j => ?_) ?_
      · simp only [List.mem_cons, or_iff_right_iff_imp]
        intro heq
        exact heq ▸ hmem
      · have hput : IsPut r.log a := ⟨i, hmem⟩
        simp only [additions, hput, if_true, Nat.add_zero]
  | appended hroom hcall =>
      refine h.stored call hroom rfl rfl rfl ?_ (fun a ha => absurd ha (hcall a)) ?_
      · simp [hcall]
      · cases call with
        | put a => exact absurd rfl (hcall a)
        | _ => rfl
  | @interned a hroom hfind =>
      have hnew := h.find?_eq_none_iff.1 hfind
      have hslot : r.state.slot a < r.state.heads.size := by
        refine slotOf_lt _ ?_ ?_ <;> rw [h.heads]
        · positivity
        · exact lt_of_le_of_lt (Nat.pow_le_pow_right (by norm_num) (min_le_right bits 16)) (by decide)
      refine h.stored (.put a) hroom (by simp) (by simp [Call.value]) (by simp) ?_ ?_ ?_
      · intro k i
        -- no other bucket ends where this one does
        have hends : (k = r.state.slot a ∨ ∃ j, r.state.last? (r.state.slot a) = some j ∧
            r.state.last? k = some j) ↔ r.state.slot a = k := by
          constructor
          · rintro (rfl | ⟨j, hj, hj'⟩)
            · rfl
            · exact h.chain_disjoint (List.mem_of_getLast? hj) (List.mem_of_getLast? hj')
          · rintro rfl
            exact Or.inl rfl
        simp only [chain_intern hslot, hends, List.mem_append]
        by_cases hk : r.state.slot a = k <;> simp [hk]
      · rintro b ⟨⟩
        exact hnew
      · simp only [additions, hnew, if_false]

/-- A new table has nothing to file. -/
lemma filed_empty (bits : Nat) : Filed bits (⟨empty bits, []⟩ : Transcript (Table α) _) where
  capacity := rfl
  heads := by simp [empty]
  room := by simp [empty, size]
  size_eq := rfl
  value?_of_mem := by simp
  mem_of_value? {i a} hi := by
    have := value?_eq_some.1 ⟨a, hi⟩
    simp only [empty, size, List.size_toArray, List.length_nil] at this
    omega
  mem_chain_iff {k i} := by
    have hhead : (empty bits : Table α).heads.getD k 0 = 0 := Nat.le_zero.1 ((empty bits).head_le k)
    simp [chain, hhead, chainFrom_zero]
  index_unique := by simp

/-! ## The laws of interning

The laws are read off the invariant.  They are about the transcript as a whole: what is stored under an
index is what the index was given out for, however long ago that was, and a put is refused exactly if the
value is new and there is no place for it.
-/

/-- **A table of `2 ^ bits` places and its history.** -/
structure Interns (bits : Nat) (t : Transcript (Table α) (Call α × Option Nat)) : Prop where
  capacity : t.state.capacity = 2 ^ bits
  /-- A put ends: it looks at different indices, and at no more than there are. -/
  bucket : ∀ a, (t.state.buckets.getD (t.state.slot a) []).Nodup ∧
    (t.state.buckets.getD (t.state.slot a) []).length ≤ t.state.size
  /-- An index has the value that it was given out for, and no other index has a value. -/
  value_eq_ok_iff : ∀ i a, t.state.value i = .ok a ↔ ∃ call, (call, some i) ∈ t.log ∧ call.value = a
  /-- Equal values are put under one index, and different values under different ones. -/
  index_eq_iff : ∀ a b i j, (Call.put a, some i) ∈ t.log → (Call.put b, some j) ∈ t.log → (i = j ↔ a = b)
  /-- Only a value that has never been put is refused, and only if there is no place left. -/
  put_eq_none_iff : ∀ a, (t.state.put a).1 = none ↔
    ¬ IsPut t.log a ∧ t.state.size = t.state.capacity - 1
  /-- A put that is refused changes nothing, so whatever comes later is answered as if it had not been asked. -/
  put_of_refused : ∀ a, (t.state.put a).1 = none → (t.state.put a).2 = t.state
  size_eq : t.state.size = additions t.log

lemma put_fst_eq_none_iff : (t.put a).1 = none ↔ t.find? a = none ∧ t.isFull = true := by
  cases hfind : t.find? a with
  | some i => simp [put_of_find? hfind]
  | none =>
      by_cases hfull : t.isFull = true
      · simp [put_of_full hfind hfull, hfull]
      · simp [put_of_new hfind hfull, hfull]

/-- The laws hold of everything that is filed in this way. -/
lemma Filed.interns (h : Filed bits r) : Interns bits r where
  capacity := h.capacity
  bucket a := by
    rw [getD_buckets]
    have hnodup : (r.state.chain (r.state.slot a)).Nodup :=
      (sorted_chainFrom r.state (r.state.head_le _)).imp Nat.ne_of_lt
    refine ⟨hnodup, ?_⟩
    have hsub : r.state.chain (r.state.slot a) ⊆ List.range' 1 r.state.size := by
      intro i hi
      obtain ⟨b, hb, -⟩ := h.mem_chain_iff.1 hi
      have := h.index_le hb
      simp only [List.mem_range'_1]
      omega
    simpa using (hnodup.subperm hsub).length_le
  value_eq_ok_iff i a := by
    rw [Table.value_eq_ok_iff]
    constructor
    · intro hi
      obtain ⟨call, hcall⟩ := h.mem_of_value? hi
      exact ⟨call, hcall, Option.some.inj ((h.value?_of_mem hcall).symm.trans hi)⟩
    · rintro ⟨call, hcall, rfl⟩
      exact h.value?_of_mem hcall
  index_eq_iff a b i j hi hj := by
    constructor
    · rintro rfl
      exact Option.some.inj ((h.value?_of_mem hi).symm.trans (h.value?_of_mem hj))
    · rintro rfl
      exact h.index_unique hi hj
  put_eq_none_iff a := by
    have hfull : r.state.isFull = true ↔ r.state.size = r.state.capacity - 1 := by
      have hroom := h.room
      simp only [isFull, decide_eq_true_eq, size] at hroom ⊢
      omega
    rw [put_fst_eq_none_iff, h.find?_eq_none_iff, hfull]
  put_of_refused a hrefused := by
    obtain ⟨hfind, hfull⟩ := put_fst_eq_none_iff.1 hrefused
    rw [put_of_full hfind hfull]
  size_eq := h.size_eq

/-- **The table interns.**  Create a table and make any sequence of calls, for whatever codes the values have.
What was put is found again under its index and under no other, a value is refused only if it is new and no place
is left, and the number of values is that of the calls that stored one.  Whatever is called later, an index keeps
its value. -/
theorem transcript_interns {t : Table α} (hcreate : create bits = .ok t) (calls : List (Call α)) :
    Interns bits (.of Call.run t calls) ∧
    ∀ later i a, (Transcript.of Call.run t calls).state.value i = .ok a →
      (Transcript.of Call.run t (calls ++ later)).state.value i = .ok a := by
  have hstart : Filed bits ⟨t, []⟩ := by
    simp only [create] at hcreate
    split at hcreate
    · cases hcreate
      exact filed_empty bits
    · cases hcreate
  have hfiled : ∀ calls, Filed bits (.of Call.run t calls) :=
    Transcript.of_induction hstart fun _ call h => Call.run_filed h call
  refine ⟨(hfiled calls).interns, fun later i a hi => ?_⟩
  obtain ⟨call, hcall, ha⟩ := ((hfiled calls).interns.value_eq_ok_iff i a).1 hi
  refine ((hfiled (calls ++ later)).interns.value_eq_ok_iff i a).2 ⟨call, ?_, ha⟩
  exact (Transcript.log_suffix_of_append Call.run t calls later).subset hcall

/-- Three places.  The values `5` and `1` share a bucket, and `7` is stored without being interned.  When all
places are taken, `5` is still found, and neither `9` nor `7` can be put. -/
theorem transcript_interns_crowded :
    ∃ t : Transcript (Table UInt64) (Call UInt64 × Option Nat),
      create 2 = .ok (.empty 2 : Table UInt64) ∧
      t = .of Call.run (.empty 2) [.put 5, .add 7, .put 1, .put 5, .put 9, .put 7, .add 5] ∧
      t.log = [(.add 5, none), (.put 7, none), (.put 9, none), (.put 5, some 1), (.put 1, some 3),
        (.add 7, some 2), (.put 5, some 1)] ∧
      Interns 2 t :=
  ⟨_, rfl, rfl, by decide, (transcript_interns rfl _).1⟩

end Table

end ModalCalls
