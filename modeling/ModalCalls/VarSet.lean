/-!
# Sets of variables

A `VarSet` is a finite set of natural numbers kept as a bit map: number `i` is bit `i % 64` of word
`i / 64`.  The words grow on demand and are never dropped, so two equal sets may differ in their
trailing zero words; the comparison `VarSet.beq` looks at the members only.  The number of members
is kept beside the words.

Members are listed in increasing order, which is the order every answer built from a set shows.
-/

namespace ModalCalls

/-- A finite set of natural numbers as a bit map, with its number of members. -/
structure VarSet where
  words : Array UInt64
  count : Nat
deriving Inhabited

namespace VarSet

/-- The empty set. -/
def empty : VarSet :=
  ⟨#[], 0⟩

/-- The empty set, with words for the numbers below `capacity` in place. -/
def withCapacity (capacity : Nat) : VarSet :=
  ⟨Array.replicate ((capacity + 63) / 64) 0, 0⟩

/-- The word that a number's bit stands in. -/
def wordOf (i : Nat) : Nat :=
  i / 64

/-- A number's bit within its word. -/
def maskOf (i : Nat) : UInt64 :=
  1 <<< UInt64.ofNat (i % 64)

/-- Membership. -/
def contains (s : VarSet) (i : Nat) : Bool :=
  s.words.getD (wordOf i) 0 &&& maskOf i != 0

/-- The words, extended by zero words so that word `word` exists. -/
def grow (words : Array UInt64) (word : Nat) : Array UInt64 :=
  words ++ Array.replicate (word + 1 - words.size) 0

/-- Add a member, and say whether it was absent. -/
def insert (s : VarSet) (i : Nat) : Bool × VarSet :=
  if s.contains i then (false, ⟨grow s.words (wordOf i), s.count⟩)
  else (true, ⟨(grow s.words (wordOf i)).modify (wordOf i) (· ||| maskOf i), s.count + 1⟩)

/-- Remove a member, and say whether it was present. -/
def erase (s : VarSet) (i : Nat) : Bool × VarSet :=
  if s.contains i then (true, ⟨s.words.modify (wordOf i) (· &&& ~~~ maskOf i), s.count - 1⟩)
  else (false, s)

/-- Add all numbers of a list. -/
def insertMany (s : VarSet) (is : List Nat) : VarSet :=
  is.foldl (fun s i => (s.insert i).2) s

/-- The set of the numbers of a list. -/
def ofList (is : List Nat) : VarSet :=
  empty.insertMany is

/-- The set of the positions that hold `true`. -/
def ofBools (values : Array Bool) : VarSet :=
  (withCapacity values.size).insertMany ((List.range values.size).filter (values.getD · false))

/-- The characteristic vector of the numbers below `len`. -/
def toBools (s : VarSet) (len : Nat) : Array Bool :=
  Array.ofFn fun i : Fin len => s.contains i

/-- Number of members. -/
def size (s : VarSet) : Nat :=
  s.count

/-- Whether there is no member. -/
def isEmpty (s : VarSet) : Bool :=
  s.count == 0

/-- The lowest bits of a word, up to a number of them.  The lowest one stands after the trailing
zeros and is cleared by masking the word with its predecessor. -/
def lowestBits : Nat → UInt64 → List Nat
  | 0, _ => []
  | n + 1, word =>
    if word = 0 then [] else word.toBitVec.ctz.toNat :: lowestBits n (word &&& (word - 1))

/-- The bits of a word, in increasing order. -/
def bitsOf (word : UInt64) : List Nat :=
  lowestBits 64 word

/-- The members in increasing order. -/
def toList (s : VarSet) : List Nat :=
  (List.range s.words.size).flatMap fun w =>
    (bitsOf (s.words.getD w 0)).map fun b => 64 * w + b

/-- Equality of sets: the same members, whatever the words. -/
def beq (s t : VarSet) : Bool :=
  s.count == t.count && s.toList == t.toList

instance : BEq VarSet where
  beq := beq

/-- The members between braces. -/
def display (s : VarSet) : String :=
  "\x7b" ++ String.intercalate ", " (s.toList.map toString) ++ "\x7d"

end VarSet

end ModalCalls
