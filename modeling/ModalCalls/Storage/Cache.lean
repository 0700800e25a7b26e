import ModalCalls.Fault
import ModalCalls.Storage.Pairing

/-!
# A direct-mapped operation cache

A cache of `2 ^ bits` slots.  Each key has exactly one slot, chosen by its code, and a newer entry
replaces whatever the slot held.  The full key is stored beside the value and compared on lookup,
so an entry is lost by eviction but never answers for another key.

Lookups are counted, and clearing the slots keeps the counters: they describe the history of the
cache and not its content.
-/

namespace ModalCalls

/-- A direct-mapped cache with counters for the lookups that found their key and for those that
did not. -/
structure Cache (κ ν : Type) where
  slots : Array (Option (κ × ν))
  hits : Nat
  misses : Nat

namespace Cache

variable {κ ν : Type}

/-- The cache of `2 ^ bits` free slots. -/
def empty (bits : Nat) : Cache κ ν where
  slots := Array.replicate (Nat.pow 2 bits) none
  hits := 0
  misses := 0

/-- The cache of `2 ^ bits` free slots, for sizes a cache may have. -/
def create (bits : Nat) : Except Fault (Cache κ ν) :=
  if bits ≤ 31 then .ok (empty bits) else .error (.sizeOutOfRange bits)

/-- Free every slot.  The counters stay. -/
def clear (c : Cache κ ν) : Cache κ ν :=
  { c with slots := Array.replicate c.slots.size none }

/-- The slot of a key: its code modulo the number of slots. -/
def slot [PairHash κ] (c : Cache κ ν) (key : κ) : Nat :=
  slotOf (PairHash.code key) c.slots.size

/-- The value stored for a key, leaving the counters alone. -/
def find? [PairHash κ] [DecidableEq κ] (c : Cache κ ν) (key : κ) : Option ν :=
  match c.slots.getD (c.slot key) none with
  | some (stored, value) => if stored = key then some value else none
  | none => none

/-- Look a key up and count the outcome. -/
def get [PairHash κ] [DecidableEq κ] (c : Cache κ ν) (key : κ) : Option ν × Cache κ ν :=
  match c.find? key with
  | some value => (some value, { c with hits := c.hits + 1 })
  | none => (none, { c with misses := c.misses + 1 })

/-- Store a value for a key, replacing whatever its slot held. -/
def insert [PairHash κ] (c : Cache κ ν) (key : κ) (value : ν) : Cache κ ν :=
  let slot := c.slot key
  { c with slots := c.slots.setIfInBounds slot (some (key, value)) }

/-! ## What a lookup finds

An entry is found from the time it was stored until its slot is used for another one or all slots are freed.
The key decides about the slot, so entries in other slots are not touched.
-/

/-- Whatever slot is read of free slots, it is free. -/
theorem getD_replicate_none (n i : Nat) :
    (Array.replicate n (none : Option (κ × ν))).getD i none = none := by
  simp only [Array.getD_eq_getD_getElem?, Array.getElem?_replicate]
  split <;> rfl

section Laws

variable [PairHash κ] [DecidableEq κ]

@[simp] theorem find?_empty (bits : Nat) (key : κ) : (empty bits : Cache κ ν).find? key = none := by
  simp only [find?, empty, getD_replicate_none]

@[simp] theorem find?_clear (c : Cache κ ν) (key : κ) : c.clear.find? key = none := by
  simp only [find?, clear, getD_replicate_none]

/-- An entry that was just stored is found. -/
theorem find?_insert_self (c : Cache κ ν) (key : κ) (value : ν) (h : c.slot key < c.slots.size) :
    (c.insert key value).find? key = some value := by
  have hslot : (c.insert key value).slot key = c.slot key := by
    simp only [slot, insert, Array.size_setIfInBounds]
  simp only [find?, hslot]
  simp [insert, h]

/-- Storing an entry changes nothing for keys of other slots. -/
theorem find?_insert_of_slot_ne (c : Cache κ ν) {key other : κ} (value : ν)
    (h : c.slot key ≠ c.slot other) : (c.insert key value).find? other = c.find? other := by
  have hslot : (c.insert key value).slot other = c.slot other := by
    simp only [slot, insert, Array.size_setIfInBounds]
  simp only [find?, hslot]
  simp [insert, h]

@[simp] theorem get_fst (c : Cache κ ν) (key : κ) : (c.get key).1 = c.find? key := by
  simp only [get]
  split <;> simp_all

/-- A lookup leaves the entries alone. -/
@[simp] theorem slots_get (c : Cache κ ν) (key : κ) : (c.get key).2.slots = c.slots := by
  simp only [get]
  split <;> rfl

end Laws

end Cache

end ModalCalls
