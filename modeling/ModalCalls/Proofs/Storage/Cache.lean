import Mathlib
import ModalCalls.Storage.Cache
import ModalCalls.Proofs.Transcript

/-!
# What a cache remembers

A slot holds the entry that was stored last among all keys of that slot.  So an entry may be lost at any time,
to a key that has nothing to do with it but the slot, and what a lookup finds is a statement about the whole
history of the cache.

* `Cache.find?_insert` — storing an entry, for all keys at once.
* `Cache.Call.run_remembers` — the step lemma.
* `Cache.transcript_remembers` — **a lookup finds a value exactly if the latest entry of the slot is that value
  for that very key**, whatever the codes of keys are, and the counters count the lookups that found something
  and those that did not.
-/

namespace ModalCalls

namespace Cache

variable {κ ν : Type}

/-- The operations of a cache. -/
inductive Call (κ ν : Type) where
  | insert (key : κ) (value : ν)
  | get (key : κ)
  | clear

/-- What happens to a cache. -/
inductive Event (κ ν : Type) where
  | inserted (key : κ) (value : ν)
  | looked (key : κ) (found : Option ν)
  | cleared

namespace Event

/-- A lookup that found something. -/
def isHit : Event κ ν → Bool
  | looked _ found => found.isSome
  | _ => false

/-- A lookup that found nothing. -/
def isMiss : Event κ ν → Bool
  | looked _ found => found.isNone
  | _ => false

/-- After such an event the slot of a key holds what the event has left there, and nothing older.  There
are `2 ^ bits` slots. -/
def Displaces [PairHash κ] (bits : Nat) (key : κ) : Event κ ν → Prop
  | inserted other _ => (PairHash.code other).toNat % 2 ^ bits = (PairHash.code key).toNat % 2 ^ bits
  | looked _ _ => False
  | cleared => True

end Event

lemma create_eq_ok {bits : Nat} {c : Cache κ ν} (h : create bits = .ok c) :
    bits ≤ 31 ∧ c = empty bits := by
  simp only [create] at h
  split at h
  · next hbits =>
      cases h
      exact ⟨hbits, rfl⟩
  · cases h

@[simp] lemma hits_clear (c : Cache κ ν) : c.clear.hits = c.hits := rfl

@[simp] lemma misses_clear (c : Cache κ ν) : c.clear.misses = c.misses := rfl

variable [PairHash κ]

@[simp] lemma hits_insert (c : Cache κ ν) (key : κ) (value : ν) : (c.insert key value).hits = c.hits := rfl

@[simp] lemma misses_insert (c : Cache κ ν) (key : κ) (value : ν) :
    (c.insert key value).misses = c.misses := rfl

@[simp] lemma size_slots_insert (c : Cache κ ν) (key : κ) (value : ν) :
    (c.insert key value).slots.size = c.slots.size := by
  simp [insert]

/-- The slots are numbered by the codes modulo their number. -/
lemma slot_eq_mod {c : Cache κ ν} {bits : Nat} (hbits : bits ≤ 31) (hsize : c.slots.size = 2 ^ bits)
    (key : κ) : c.slot key = (PairHash.code key).toNat % 2 ^ bits := by
  have hword : 2 ^ bits < UInt64.size :=
    lt_of_le_of_lt (Nat.pow_le_pow_right (by norm_num) hbits) (by decide)
  rw [slot, hsize, slotOf_eq_mod _ hword]

variable [DecidableEq κ]

/-- **Storing an entry**, for all keys at once.  The keys of its slot find it or nothing, and for the others
nothing changes. -/
lemma find?_insert {c : Cache κ ν} {key : κ} (hlt : c.slot key < c.slots.size) (value : ν) (other : κ) :
    (c.insert key value).find? other
      = if c.slot key = c.slot other then (if key = other then some value else none)
        else c.find? other := by
  by_cases hslot : c.slot key = c.slot other
  · rw [if_pos hslot]
    have hsame : (c.insert key value).slot other = c.slot key := by
      rw [slot, size_slots_insert, hslot, slot]
    have hentry : (c.insert key value).slots.getD (c.slot key) none = some (key, value) := by
      simp [insert, hlt]
    simp only [find?, hsame, hentry]
  · rw [if_neg hslot]
    exact find?_insert_of_slot_ne c value hslot

/-- After an insertion a lookup finds the new entry or an old one. -/
lemma find?_insert_cases {c : Cache κ ν} {key key' : κ} {value r : ν}
    (h : (c.insert key value).find? key' = some r) :
    (key' = key ∧ r = value) ∨ c.find? key' = some r := by
  by_cases hlt : c.slot key < c.slots.size
  · rw [find?_insert hlt] at h
    split_ifs at h with hslot hkey
    · simp only [Option.some.injEq] at h
      exact Or.inl ⟨hkey.symm, h.symm⟩
    · exact Or.inr h
  · have hsame : c.insert key value = c := by
      simp only [insert, Array.setIfInBounds_eq_of_size_le (not_lt.1 hlt)]
    rw [hsame] at h
    exact Or.inr h

/-- A lookup leaves the entries alone. -/
lemma find?_get (c : Cache κ ν) (key other : κ) : (c.get key).2.find? other = c.find? other := by
  simp only [find?, slot, slots_get]

lemma hits_get (c : Cache κ ν) (key : κ) :
    (c.get key).2.hits = c.hits + if (c.get key).1.isSome then 1 else 0 := by
  cases h : c.find? key <;> simp [get, h]

lemma misses_get (c : Cache κ ν) (key : κ) :
    (c.get key).2.misses = c.misses + if (c.get key).1.isNone then 1 else 0 := by
  cases h : c.find? key <;> simp [get, h]

/-! ## Sequences of calls

A cache is used through three calls, and the transcript of a sequence of them has everything that a reader
could ask about.  The invariant compares what the cache answers now with that transcript alone.  The slot of
a key is told by its code modulo the number of slots, and no more is assumed about codes; so two keys that
collide are covered by the same statement as two that do not.

An insertion is the only call that can make the invariant fail, and it does so for the keys of its own slot.
For these the new entry is the latest, which is exactly what the slot now holds.
-/

/-- Carry a call out. -/
def Call.run : Call κ ν → Cache κ ν → List (Event κ ν) × Cache κ ν
  | insert key value, c => ([.inserted key value], c.insert key value)
  | get key, c => ([.looked key (c.get key).1], (c.get key).2)
  | clear, c => ([.cleared], c.clear)

/-- **A cache of `2 ^ bits` slots and its history.** -/
structure Remembers (bits : Nat) (t : Transcript (Cache κ ν) (Event κ ν)) : Prop where
  size_slots : t.state.slots.size = 2 ^ bits
  /-- A lookup finds a value exactly if this value was stored for this key, and since then the slot of the key
  was not filled again, for whatever key, nor freed. -/
  get_eq_some_iff : ∀ key value, (t.state.get key).1 = some value ↔
    Since (· = .inserted key value) (Event.Displaces bits key) t.log
  hits : t.state.hits = t.log.countP Event.isHit
  misses : t.state.misses = t.log.countP Event.isMiss

variable {bits : Nat} {t : Transcript (Cache κ ν) (Event κ ν)}

/-- A new cache has no history. -/
lemma remembers_empty (bits : Nat) : Remembers bits (⟨empty bits, []⟩ : Transcript (Cache κ ν) _) where
  size_slots := by simp [empty]
  get_eq_some_iff := by simp
  hits := rfl
  misses := rfl

/-- **A call keeps the cache in step with its history.** -/
theorem Call.run_remembers (hbits : bits ≤ 31) (h : Remembers bits t) (call : Call κ ν) :
    Remembers bits (t.call Call.run call) := by
  have hfind : ∀ key value, t.state.find? key = some value ↔
      Since (· = .inserted key value) (Event.Displaces bits key) t.log := by
    simpa only [get_fst] using h.get_eq_some_iff
  have hslot : ∀ key, t.state.slot key = (PairHash.code key).toNat % 2 ^ bits :=
    slot_eq_mod hbits h.size_slots
  cases call with
  | insert key value =>
      have hlt : t.state.slot key < t.state.slots.size := by
        rw [hslot, h.size_slots]
        exact Nat.mod_lt _ (by positivity)
      refine ⟨?_, ?_, ?_, ?_⟩
      · simpa only [Transcript.call, run, size_slots_insert] using h.size_slots
      · intro other found
        simp only [Transcript.call, run, get_fst, find?_insert hlt, List.singleton_append, since_cons,
          Event.Displaces, ← hslot, ← hfind, Event.inserted.injEq]
        by_cases hsame : t.state.slot key = t.state.slot other
        · by_cases hkey : key = other <;> simp [hsame, hkey]
        · have hkey : key ≠ other := fun heq => hsame (by rw [heq])
          simp [hsame, hkey]
      · simpa [Transcript.call, run, Event.isHit] using h.hits
      · simpa [Transcript.call, run, Event.isMiss] using h.misses
  | get key =>
      refine ⟨?_, ?_, ?_, ?_⟩
      · simpa only [Transcript.call, run, slots_get] using h.size_slots
      · intro other found
        simp [Transcript.call, run, find?_get, since_cons, Event.Displaces, hfind]
      · simp only [Transcript.call, run, hits_get, h.hits, List.singleton_append, List.countP_cons]
        rfl
      · simp only [Transcript.call, run, misses_get, h.misses, List.singleton_append, List.countP_cons]
        rfl
  | clear =>
      refine ⟨?_, ?_, ?_, ?_⟩
      · simpa [Transcript.call, run, Cache.clear] using h.size_slots
      · intro other found
        simp [Transcript.call, run, since_cons, Event.Displaces]
      · simpa [Transcript.call, run, Event.isHit] using h.hits
      · simpa [Transcript.call, run, Event.isMiss] using h.misses

/-- **A cache never answers for another key.**  Create a cache and make any sequence of calls, for whatever
codes the keys have.  A lookup finds a value exactly if, among the entries that were stored since the cache was
last cleared and fall into the slot of the key, the latest one is this value for this key.  The lookups that
found something and those that found nothing are counted, and clearing the cache does not reset that. -/
theorem transcript_remembers {c : Cache κ ν} (hcreate : create bits = .ok c) (calls : List (Call κ ν)) :
    Remembers bits (.of Call.run c calls) := by
  obtain ⟨hbits, rfl⟩ := create_eq_ok hcreate
  exact Transcript.of_induction (remembers_empty bits) (fun _ call ht => Call.run_remembers hbits ht call) calls

/-- Keys `1` and `5` share a slot of four: the second entry takes the place of the first.  After clearing
nothing is found, and the earlier lookups still count. -/
theorem transcript_remembers_collision :
    ∃ t : Transcript (Cache UInt64 String) (Event UInt64 String),
      t = .of Call.run (.empty 2)
        [.insert 1 "one", .insert 5 "five", .get 1, .get 5, .clear, .get 5, .insert 1 "one"] ∧
      create 2 = .ok (.empty 2 : Cache UInt64 String) ∧ Remembers 2 t ∧
      (t.state.get 1).1 = some "one" ∧ (t.state.get 5).1 = none ∧ t.state.hits = 1 ∧ t.state.misses = 2 :=
  ⟨_, rfl, rfl, transcript_remembers rfl _, by decide, by decide, by decide, by decide⟩

end Cache

end ModalCalls
