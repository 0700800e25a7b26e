import ModalCalls.Diagram.Store
import ModalCalls.VarSet

/-!
# Reading a diagram

Operations that follow the nodes of a diagram without changing the store: evaluation, the set of
nodes below some handles, and the bracket form that shows a diagram as nested text.

A walk from a handle meets no node twice on one path, so its depth is at most the number of stored
nodes.  That number bounds every recursion here.
-/

namespace ModalCalls

namespace Store

/-! ## Evaluation

At each node the value of its variable decides which way to go.  A complement met on the way is handed on to
the child, so that only one constant is compared with in the end.
-/

/-- Evaluation along at most `depth` nodes. -/
def evalWithin (s : Store) (value : Nat → Bool) : Nat → Handle → Except Fault Bool
  | 0, _ => .error .cyclicNodes
  | depth + 1, f =>
    if f.isTerminal then .ok (decide (f = .one))
    else do
      let n ← s.node f.index
      let child := if value n.var then n.high else n.low
      s.evalWithin value depth (child.negateIf f.isNegated)

/-- **The value of a function** when variable `v` has the value `value v`. -/
def evalAt (s : Store) (f : Handle) (value : Nat → Bool) : Except Fault Bool :=
  s.evalWithin value (s.size + 1) f

/-- The values of the diagram variables when input `i` is given at position `i`: variable `i + 1`
reads input `i`, and a missing input is false. -/
def inputValue (inputs : Array Bool) (v : Nat) : Bool :=
  inputs.getD (v - 1) false

/-- The value of a function on a vector of inputs. -/
def eval (s : Store) (f : Handle) (inputs : Array Bool) : Except Fault Bool :=
  s.evalAt f (inputValue inputs)

/-! ## Nodes below a handle

Nodes are shared, so those that were seen are kept in a set, and no node is opened twice.  Complements do
not count here.
-/

/-- Visit the nodes of a list of handles and everything below them.  Each node adds its two
children once, so `steps` visits suffice if there is one for each handle and two for each node. -/
def descend (s : Store) : Nat → List Handle → VarSet → Except Fault VarSet
  | _, [], seen => .ok seen
  | 0, _ :: _, _ => .error .cyclicNodes
  | steps + 1, f :: rest, seen =>
    if f.isTerminal || seen.contains f.index then s.descend steps rest seen
    else do
      let n ← s.node f.index
      s.descend steps (n.high :: n.low :: rest) (seen.insert f.index).2

/-- The indices of all nodes below some handles, the terminal left out. -/
def descendants (s : Store) (roots : List Handle) : Except Fault VarSet :=
  s.descend (roots.length + 2 * s.size) roots .empty

/-- Number of nodes of a diagram, the terminal left out. -/
def nodeCount (s : Store) (f : Handle) : Except Fault Nat := do
  let below ← s.descendants [f]
  return below.size

/-! ## Bracket form

The nested text repeats what is shared.  It is meant to be looked at, and the serial form is what is read
back.
-/

/-- The bracket form of a diagram at most `depth` nodes deep. -/
def bracketWithin (s : Store) : Nat → Handle → Except Fault String
  | 0, _ => .error .cyclicNodes
  | depth + 1, f =>
    if f = .zero then .ok "(0)"
    else if f = .one then .ok "(1)"
    else do
      let n ← s.node f.index
      let high ← s.bracketWithin depth (n.high.negateIf f.isNegated)
      let low ← s.bracketWithin depth (n.low.negateIf f.isNegated)
      return f.display ++ ":(x" ++ toString n.var ++ ", " ++ high ++ ", " ++ low ++ ")"

/-- **Bracket form.**  `(0)`, `(1)`, or the handle, its variable and its high and low child. -/
def bracket (s : Store) (f : Handle) : Except Fault String :=
  s.bracketWithin (s.size + 1) f

end Store

end ModalCalls
