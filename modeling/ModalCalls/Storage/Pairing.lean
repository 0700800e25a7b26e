/-!
# Pairing machine words

Tables and caches spread their values over slots by a 64-bit code.  The code of a compound value
is built from the codes of its parts by a pairing function that walks the plane shell by shell:
the pairs with maximum `m` are sent to the numbers from `m * m` to `m * m + 2 * m`.

Arithmetic wraps, so two different pairs may share a code once a component reaches `2 ^ 32`.  That
is why every table and cache below compares the full value before it answers.

* `pair`, `pair3`: the pairing functions on words.
* `PairHash`: types whose values have a code.
* `slotOf`: the slot of a code, which is the code modulo the number of slots.
-/

namespace ModalCalls

/-- The shell-by-shell pairing function, on words. -/
@[inline]
def pair (a b : UInt64) : UInt64 :=
  if a < b then b * b + a else a * a + a + b

/-- Three words folded into one, from the left. -/
def pair3 (a b c : UInt64) : UInt64 :=
  pair (pair a b) c

/-- Types whose values have a 64-bit code.  Nothing is assumed about the code: equal values have
equal codes because it is a function, and different values may collide. -/
class PairHash (α : Type) where
  code : α → UInt64

instance : PairHash UInt64 where
  code a := a

instance : PairHash (UInt64 × UInt64) where
  code p := pair p.1 p.2

instance : PairHash (UInt64 × UInt64 × UInt64) where
  code p := pair3 p.1 p.2.1 p.2.2

/-- The slot of a code among `slots` slots. -/
@[inline]
def slotOf (code : UInt64) (slots : Nat) : Nat :=
  (code % UInt64.ofNat slots).toNat

/-- As long as the number of slots is a word, the slot of a code is the code modulo that number. -/
theorem slotOf_eq_mod (code : UInt64) {slots : Nat} (h : slots < UInt64.size) :
    slotOf code slots = code.toNat % slots := by
  rw [slotOf, UInt64.toNat_mod, UInt64.toNat_ofNat_of_lt' h]

/-- A slot is one of the slots. -/
theorem slotOf_lt (code : UInt64) {slots : Nat} (hpos : 0 < slots) (h : slots < UInt64.size) :
    slotOf code slots < slots := by
  rw [slotOf_eq_mod code h]
  exact Nat.mod_lt _ hpos

end ModalCalls
