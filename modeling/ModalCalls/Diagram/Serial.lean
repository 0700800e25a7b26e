import ModalCalls.Diagram.Walk
import Std.Data.TreeMap

/-!
# The serial form of a diagram

A text form that does not depend on the store a diagram lives in.  Nodes are listed children first
as `variable,low,high`, separated by `;`, and followed by `|` and the root.  Children and root are
signed local numbers: `1` is the terminal, `k + 2` is the node listed at position `k`, and a minus
sign marks a complement.  The constants are `|1` and `|-1`.

* `Text`: blanks, decimal integers and separators, which is all there is to the lexical side.
* `Store.serial`: writing.
* `DiagramM.ofSerial`: reading.  Entries pass through node construction, so a text whose nodes are not
  reduced is read all the same and its diagram is reduced on the way.  What is read before an error
  stays in the store.
-/

namespace ModalCalls

/-! ## Texts

The pieces that a serial form is made of, as lists of characters.  Nothing here knows of diagrams.  Blank are the
characters with the property `White_Space`: the ASCII blanks and line breaks, the next-line character, and the
space and separator characters of the other scripts.  A number is a non-empty run of ASCII digits, leading zeros
allowed, and has to fit the range that the reader is asked for; a plus sign may always stand in front, a minus
sign only where negative numbers are wanted.
-/

namespace Text

/-- The ranges of the blank characters, in increasing order. -/
def blankRanges : List (Nat × Nat) :=
  [(0x9, 0xD), (0x20, 0x20), (0x85, 0x85), (0xA0, 0xA0), (0x1680, 0x1680), (0x2000, 0x200A),
    (0x2028, 0x2029), (0x202F, 0x202F), (0x205F, 0x205F), (0x3000, 0x3000)]

/-- A character with the property `White_Space`. -/
def isBlank (c : Char) : Bool :=
  blankRanges.any fun (first, last) => first ≤ c.toNat && c.toNat ≤ last

/-- A text without the blanks at its two ends. -/
def trim (cs : List Char) : List Char :=
  ((cs.dropWhile isBlank).reverse.dropWhile isBlank).reverse

/-- The value of a digit. -/
def digitValue (c : Char) : Nat :=
  c.toNat - '0'.toNat

/-- The value of a run of digits, after the digits read so far. -/
def digitsValue (acc : Nat) : List Char → Option Nat
  | [] => some acc
  | c :: cs => if c.isDigit then digitsValue (10 * acc + digitValue c) cs else none

/-- The value of a non-empty run of digits. -/
def readDigits : List Char → Option Nat
  | [] => none
  | c :: cs => digitsValue 0 (c :: cs)

/-- A number below `limit`, with an optional plus sign. -/
def readNatBelow (limit : Nat) (cs : List Char) : Option Nat :=
  let digits := match cs with
    | '+' :: rest => rest
    | _ => cs
  (readDigits digits).filter (· < limit)

/-- A number in `[-limit, limit)`, with an optional sign. -/
def readIntBelow (limit : Nat) : List Char → Option Int
  | '-' :: rest => ((readDigits rest).filter (· ≤ limit)).map fun n => -(n : Int)
  | cs => (readNatBelow limit cs).map Int.ofNat

/-- The fields of a text between the occurrences of a separator.  There is always at least one. -/
def fields (sep : Char) : List Char → List (List Char)
  | [] => [[]]
  | c :: cs =>
    if c = sep then [] :: fields sep cs
    else
      match fields sep cs with
      | first :: rest => (c :: first) :: rest
      | [] => [[c]]

/-- A text before and after the first occurrence of a separator. -/
def splitFirst (sep : Char) : List Char → Option (List Char × List Char)
  | [] => none
  | c :: cs =>
    if c = sep then some ([], cs)
    else (splitFirst sep cs).map fun (before, after) => (c :: before, after)

end Text

/-! ## Writing

A walk below the handle lists every node once, children first, so that an entry only refers to what stands before
it.  The numbers are local to the text: they are places in the list and not indices of the store.
-/

namespace Serial

/-- A listed node: its variable, and its children by signed local number. -/
structure Entry where
  var : Nat
  low : Int
  high : Int
deriving DecidableEq, Inhabited

/-- The written form of an entry. -/
def Entry.display (e : Entry) : String :=
  toString e.var ++ "," ++ toString e.low ++ "," ++ toString e.high

/-- The nodes listed so far. -/
structure Listing where
  /-- The local number of each listed node. -/
  numbers : Std.TreeMap Nat Nat := ∅
  /-- The entries in order. -/
  entries : Array Entry := #[]

namespace Listing

/-- Whether a node is listed. -/
def contains (l : Listing) (index : Nat) : Bool :=
  l.numbers.contains index

/-- The signed local number of a handle whose node is the terminal or listed. -/
def reference (l : Listing) (f : Handle) : Except Fault Int := do
  let number ←
    if f.isTerminal then pure 1
    else
      match l.numbers[f.index]? with
      | some number => pure number
      | none => throw (.noSuchIndex f.index)
  return if f.isNegated then -(number : Int) else number

/-- List one more node, whose children are the terminal or listed. -/
def push (l : Listing) (index : Nat) (n : Node) : Except Fault Listing := do
  let low ← l.reference n.low
  let high ← l.reference n.high
  return ⟨l.numbers.insert index (l.entries.size + 2), l.entries.push ⟨n.var, low, high⟩⟩

end Listing

end Serial

namespace Store

/-- List the nodes below a handle, children before parents and low child before high child, after
the nodes that are already listed. -/
def listWithin (s : Store) : Nat → Handle → Serial.Listing → Except Fault Serial.Listing
  | 0, _, _ => .error .cyclicNodes
  | depth + 1, f, l =>
    if f.isTerminal || l.contains f.index then .ok l
    else do
      let n ← s.node f.index
      let l ← s.listWithin depth n.low l
      let l ← s.listWithin depth n.high l
      l.push f.index n

/-- The nodes below a handle in the order in which the serial form lists them. -/
def listing (s : Store) (f : Handle) : Except Fault Serial.Listing :=
  s.listWithin (s.size + 1) f {}

/-- **The serial form of a diagram.** -/
def serial (s : Store) (f : Handle) : Except Fault String := do
  let l ← s.listing f
  let root ← l.reference f
  return String.intercalate ";" (l.entries.toList.map (·.display)) ++ "|" ++ toString root

end Store

/-! ## Reading

Entries are read in order, each with the handles of the entries before it.  A reference that points further than
that is dangling, and an entry whose children do not test later variables would break the order of the store:
both are found before a node is built.
-/

/-- Why a text is not the serial form of a diagram. -/
inductive SerialFlaw where
  | missingBar
  | fieldCount
  | badVariable
  | zeroVariable
  | badReference
  | zeroReference
  | danglingReference
  | variableOrder
deriving DecidableEq, Inhabited

/-- The wording of a flaw. -/
def SerialFlaw.message : SerialFlaw → String
  | missingBar => "missing '|'"
  | fieldCount => "node must have three fields"
  | badVariable => "bad variable"
  | zeroVariable => "variable 0 is reserved"
  | badReference => "bad node reference"
  | zeroReference => "node reference 0 is reserved"
  | danglingReference => "dangling node reference"
  | variableOrder => "variable order violated"

/-- Why serial forms could not be read back. -/
inductive SerialError where
  /-- A text has a flaw. -/
  | malformed (input : String) (flaw : SerialFlaw)
  /-- A vector of diagrams has the wrong length. -/
  | wrongArity (expected found : Nat)
deriving DecidableEq, Inhabited

/-- The wording of a reading error. -/
def SerialError.message : SerialError → String
  | malformed input flaw =>
    "malformed serialized diagram '" ++ input ++ "': " ++ flaw.message
  | wrongArity expected found =>
    "expected " ++ toString expected ++ " serialized diagrams, found " ++ toString found

namespace Serial

/-- The handle a reference stands for, given the handles of the terminal and the entries so far. -/
def resolve (known : Array Handle) (text : List Char) : Except SerialFlaw Handle :=
  match Text.readIntBelow (Nat.pow 2 63) (Text.trim text) with
  | none => .error .badReference
  | some number =>
    if number = 0 then .error .zeroReference
    else
      match known[number.natAbs - 1]? with
      | none => .error .danglingReference
      | some f => .ok (f.negateIf (number < 0))

/-- The variable of an entry. -/
def readVar (text : List Char) : Except SerialFlaw Nat :=
  match Text.readNatBelow (Nat.pow 2 32) (Text.trim text) with
  | none => .error .badVariable
  | some 0 => .error .zeroVariable
  | some v => .ok v

/-- An entry before its node is built: the variable and the two children. -/
def readEntry (known : Array Handle) (text : List Char) :
    Except SerialFlaw (Nat × Handle × Handle) := do
  match Text.fields ',' text with
  | [v, low, high] =>
    let v ← readVar v
    let low ← resolve known low
    let high ← resolve known high
    return (v, low, high)
  | _ => throw .fieldCount

/-- The entries of a body: what stands between semicolons, empty pieces skipped. -/
def entriesOf (body : List Char) : List (List Char) :=
  (Text.fields ';' body).filter fun text => !text.isEmpty

end Serial

namespace Store

/-- Whether a child may stand below variable `v`: it is constant or tests a later variable. -/
def isBelow (s : Store) (v : Nat) (f : Handle) : Except Fault Bool :=
  if f.isTerminal then .ok true
  else do
    let n ← s.node f.index
    return v < n.var

end Store

namespace DiagramM

/-- Build the nodes of a list of entries, after the handles known so far. -/
def ofEntries (known : Array Handle) :
    List (List Char) → DiagramM (Except SerialFlaw (Array Handle))
  | [] => pure (.ok known)
  | text :: rest =>
    match Serial.readEntry known text with
    | .error flaw => pure (.error flaw)
    | .ok (v, low, high) => do
      let lowBelow ← read (·.isBelow v low)
      let highBelow ← read (·.isBelow v high)
      if lowBelow && highBelow then
        let f ← mkNode v low high
        ofEntries (known.push f) rest
      else
        return .error .variableOrder

/-- Read a serial form, or name its first flaw. -/
def ofSerialChars (input : List Char) : DiagramM (Except SerialFlaw Handle) :=
  match Text.splitFirst '|' input with
  | none => pure (.error .missingBar)
  | some (body, root) => do
    match ← ofEntries #[.one] (Serial.entriesOf body) with
    | .error flaw => return .error flaw
    | .ok known => return Serial.resolve known root

/-- **Reading a serial form** into the current store. -/
def ofSerial (input : String) : DiagramM (Except SerialError Handle) := do
  match ← ofSerialChars input.toList with
  | .ok f => return .ok f
  | .error flaw => return .error (.malformed input flaw)

end DiagramM

end ModalCalls
