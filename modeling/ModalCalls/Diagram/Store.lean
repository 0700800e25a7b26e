import ModalCalls.Storage.Cache
import ModalCalls.Storage.Table
import ModalCalls.Diagram.Handle

/-!
# The store of diagram nodes

A Boolean function is kept as a binary decision diagram: a node tests a variable and continues
with its low or its high child.  All nodes of a computation live in one `Store`, and a function is
named by a `Handle` into it.

Two rules keep the representation unique for a fixed variable order.  Every node is interned, so
equal nodes share an index; and no stored node has a complemented high child, because `mkNode`
moves that complement up into the handle.  A node with equal children is never stored at all.

Variables are numbered from `1`, smaller ones closer to the root; `0` marks the terminal.

A store has room for a fixed number of nodes.  When it runs out, a missing node is replaced by the
constant `0` and the flag `overflowed` goes up and stays up: results computed from then on mean
nothing, and whoever runs a computation looks at the flag before trusting an answer.
-/

namespace ModalCalls

/-- A stored node: the variable it tests and its two children. -/
structure Node where
  var : Nat
  low : Handle
  high : Handle
deriving DecidableEq, Inhabited

/-- The terminal node.  Its children are never followed. -/
def Node.terminal : Node :=
  ⟨0, .one, .one⟩

instance : PairHash Node where
  code n := pair3 (UInt64.ofNat n.var) n.low.literal n.high.literal

/-- The arguments of an if-then-else: the test, the value if it holds, the value if it does not. -/
structure Triple where
  test : Handle
  yes : Handle
  no : Handle
deriving DecidableEq, Inhabited

instance : PairHash Triple where
  code t := pair3 t.test.literal t.yes.literal t.no.literal

/-- All diagram nodes of a computation, with the cache of finished if-then-else operations. -/
structure Store where
  table : Table Node
  cache : Cache Triple Handle
  /-- A node could not be stored for want of room. -/
  overflowed : Bool

/-- Computations over a store.  A fault ends the computation and leaves the store as it was
reached. -/
abbrev DiagramM := EStateM Fault Store

namespace Store

/-- The store of `2 ^ bits` places that holds the terminal node only. -/
def empty (bits : Nat) : Store where
  table := ((Table.empty bits).tryAdd Node.terminal).2
  cache := Cache.empty (min bits 16)
  overflowed := false

/-- Whether a store may have `2 ^ bits` places: it needs room for the terminal. -/
def validBits (bits : Nat) : Bool :=
  1 ≤ bits && bits ≤ 31

/-- The store of `2 ^ bits` places, for sizes a store may have. -/
def create (bits : Nat) : Except Fault Store :=
  if validBits bits then .ok (empty bits) else .error (.sizeOutOfRange bits)

/-- The size of a store when nothing else is asked for. -/
def defaultBits : Nat :=
  20

/-- Number of places of the table, the reserved one included. -/
def capacity (s : Store) : Nat :=
  s.table.capacity

/-- Number of stored nodes, the terminal included. -/
def size (s : Store) : Nat :=
  s.table.size

/-- The node of an index. -/
def node (s : Store) (index : Nat) : Except Fault Node :=
  s.table.value index

/-- The low child of a handle, with the handle's complement applied. -/
def lowOf (s : Store) (f : Handle) : Except Fault Handle := do
  let n ← s.node f.index
  return n.low.negateIf f.isNegated

/-- The high child of a handle, with the handle's complement applied. -/
def highOf (s : Store) (f : Handle) : Except Fault Handle := do
  let n ← s.node f.index
  return n.high.negateIf f.isNegated

/-- A one-line description of a store. -/
def debug (s : Store) : String :=
  "Bdd \x7b capacity: " ++ toString s.capacity ++ ", size: " ++ toString s.size ++
    ", cache_hits: " ++ toString s.cache.hits ++ ", cache_misses: " ++ toString s.cache.misses ++
    " \x7d"

end Store

namespace DiagramM

/-- Run a reading operation on the current store. -/
def read {α : Type} (query : Store → Except Fault α) : DiagramM α := fun s =>
  match query s with
  | .ok a => .ok a s
  | .error e => .error e s

/-- The handle of a node with distinct children and a high child that is not complemented.  A
store without room answers `0` and remembers that it did. -/
def intern (n : Node) : DiagramM Handle := fun ⟨table, cache, overflowed⟩ =>
  match table.put n with
  | (some i, table) => .ok (.positive i) ⟨table, cache, overflowed⟩
  | (none, table) => .ok .zero ⟨table, cache, true⟩

/-- **Node construction.**  The function "if `v` then `high` else `low`", for children that test
only variables after `v`.  Equal children need no node, and a complemented high child is avoided
by complementing both children and the result. -/
def mkNode (v : Nat) (low high : Handle) : DiagramM Handle :=
  if v = 0 then throw .reservedVariable
  else if low = high then pure low
  else if high.isNegated then do
    let f ← intern ⟨v, -low, -high⟩
    return -f
  else intern ⟨v, low, high⟩

/-- The function that is the variable `v`. -/
def mkVar (v : Nat) : DiagramM Handle :=
  mkNode v .zero .one

/-- Look a finished operation up, counting the lookup. -/
def lookUp (t : Triple) : DiagramM (Option Handle) := fun ⟨table, cache, overflowed⟩ =>
  match cache.get t with
  | (found, cache) => .ok found ⟨table, cache, overflowed⟩

/-- Note a finished operation. -/
def remember (t : Triple) (result : Handle) : DiagramM Unit := fun ⟨table, cache, overflowed⟩ =>
  .ok () ⟨table, cache.insert t result, overflowed⟩

end DiagramM

end ModalCalls
