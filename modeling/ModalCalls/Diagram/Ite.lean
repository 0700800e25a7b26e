import ModalCalls.Diagram.Store
import Std.Data.TreeMap

/-!
# If-then-else, and the operations built on it

Every Boolean operation on diagrams is an if-then-else.  Before it recurses, a call is brought into
a normal form that does not look at any node:

* **Shortcuts** (`Triple.shortcut?`) answer at once when the test is constant, when both branches
  are the same, or when the branches are the two constants.
* **Absorption** (`Triple.absorb`) replaces a branch that repeats the test, or its complement, by
  the constant it has on that branch.
* **Orientation** (`Triple.orient`) makes the test and the first branch uncomplemented, by exchanging
  the branches and by complementing the result.

What is left is looked up in the cache of finished operations and otherwise split at its smallest
variable, low part first.

Simultaneous substitution (`DiagramM.compose`) walks one diagram and puts the results of its parts together by
if-then-else.
-/

namespace ModalCalls

/-! ## The normal form of a call

Many calls mean the same, and only one of them should occupy a place in the cache.  The steps below look at
handles alone, so two calls that they make equal are found equal without a look into the store.
-/

namespace Triple

/-- The answer, if it can be read off the arguments. -/
def shortcut? (t : Triple) : Option Handle :=
  if t.test = .one then some t.yes
  else if t.test = .zero then some t.no
  else if t.yes = t.no then some t.yes
  else if t.yes = .one ∧ t.no = .zero then some t.test
  else if t.yes = .zero ∧ t.no = .one then some (-t.test)
  else none

/-- A branch under a test that is known to be `value` there: the test itself is constant. -/
def absorbBranch (test : Handle) (value : Bool) (branch : Handle) : Handle :=
  if branch = test then .constant value
  else if branch = -test then .constant (!value)
  else branch

/-- Replace a branch that repeats the test or its complement by a constant. -/
def absorb (t : Triple) : Triple where
  test := t.test
  yes := absorbBranch t.test true t.yes
  no := absorbBranch t.test false t.no

/-- An uncomplemented test: exchange the branches if need be. -/
def orientTest (t : Triple) : Triple :=
  if t.test.isNegated then ⟨-t.test, t.no, t.yes⟩ else t

/-- An uncomplemented first branch: complement both branches if need be, and say so. -/
def orientBranch (t : Triple) : Bool × Triple :=
  if t.yes.isNegated then (true, ⟨t.test, -t.yes, -t.no⟩) else (false, t)

/-- An uncomplemented test and first branch; the flag says that the result is complemented. -/
def orient (t : Triple) : Bool × Triple :=
  t.orientTest.orientBranch

/-- A triple in normal form: either its answer, or the general triple to compute and whether its
result is to be complemented. -/
inductive Reduced where
  | answer (result : Handle)
  | general (negate : Bool) (t : Triple)

/-- **Normal form of a call.**  Shortcuts, absorption, shortcuts again, orientation. -/
def reduce (t : Triple) : Reduced :=
  match t.shortcut? with
  | some r => .answer r
  | none =>
    match t.absorb.shortcut? with
    | some r => .answer r
    | none => .general t.absorb.orient.1 t.absorb.orient.2

end Triple

/-! ## Splitting at a variable

All three arguments are split at the smallest variable that any of them tests at its top.  An argument that does
not test it stands unchanged on both sides.
-/

namespace Store

/-- The smaller of `v` and the variable of a handle; constants test no variable. -/
def minVar (s : Store) (v : Nat) (f : Handle) : Except Fault Nat :=
  if f.isTerminal then .ok v
  else do
    let n ← s.node f.index
    return min v n.var

/-- The smallest variable a triple tests at its top, given that its test is not constant. -/
def topVar (s : Store) (t : Triple) : Except Fault Nat := do
  let n ← s.node t.test.index
  let v ← s.minVar n.var t.yes
  s.minVar v t.no

/-- What remains of a function when `v` is false and when it is true, for a `v` that is not after
the function's top variable. -/
def cofactors (s : Store) (v : Nat) (f : Handle) : Except Fault (Handle × Handle) :=
  if f.isTerminal then .ok (f, f)
  else do
    let n ← s.node f.index
    if v < n.var then return (f, f)
    if v ≠ n.var then throw (.lateSplit v)
    return (n.low.negateIf f.isNegated, n.high.negateIf f.isNegated)

/-- A triple split at a variable: its low part and its high part. -/
def split (s : Store) (v : Nat) (t : Triple) : Except Fault (Triple × Triple) := do
  let (f₀, f₁) ← s.cofactors v t.test
  let (g₀, g₁) ← s.cofactors v t.yes
  let (h₀, h₁) ← s.cofactors v t.no
  return (⟨f₀, g₀, h₀⟩, ⟨f₁, g₁, h₁⟩)

end Store

/-! ## If-then-else and the Boolean operations

The recursion is bounded by a depth, since nothing in the type of a store says that children come before their
parents.  In every store that the operations can build the bound is never met.
-/

namespace DiagramM

/-- If-then-else with a bound on the depth of the recursion.  Every level moves at least one of the
three handles to a child, so the sum of their indices is a bound in a store whose children come
before their parents. -/
def iteWithin : Nat → Triple → DiagramM Handle
  | 0, _ => throw .cyclicNodes
  | depth + 1, t =>
    match t.reduce with
    | .answer r => pure r
    | .general negate t => do
      match ← lookUp t with
      | some r => return r.negateIf negate
      | none =>
        let v ← read (·.topVar t)
        let (lowPart, highPart) ← read (·.split v t)
        let low ← iteWithin depth lowPart
        let high ← iteWithin depth highPart
        let r ← mkNode v low high
        remember t r
        return r.negateIf negate

/-- A depth that no if-then-else over a store of this capacity exceeds. -/
def iteDepth (capacity : Nat) : Nat :=
  3 * capacity

/-- **If-then-else**: `(f ∧ g) ∨ (¬ f ∧ h)`. -/
def ite (f g h : Handle) : DiagramM Handle := do
  let s ← get
  iteWithin (iteDepth s.capacity) ⟨f, g, h⟩

/-- Conjunction. -/
def and (f g : Handle) : DiagramM Handle :=
  ite f g .zero

/-- Disjunction. -/
def or (f g : Handle) : DiagramM Handle :=
  ite f .one g

/-- Conjunction of `acc` with a list, left to right; handles after the first `0` are not looked
at. -/
def andAll (acc : Handle) : List Handle → DiagramM Handle
  | [] => pure acc
  | f :: fs => do
    let r ← and acc f
    if r = .zero then return r
    andAll r fs

/-- Disjunction of `acc` with a list, left to right; handles after the first `1` are not looked
at. -/
def orAll (acc : Handle) : List Handle → DiagramM Handle
  | [] => pure acc
  | f :: fs => do
    let r ← or acc f
    if r = .one then return r
    orAll r fs

/-- Conjunction of a list. -/
def andMany (fs : List Handle) : DiagramM Handle :=
  andAll .one fs

/-- Disjunction of a list. -/
def orMany (fs : List Handle) : DiagramM Handle :=
  orAll .zero fs

/-! ## Simultaneous substitution

`compose f subst` replaces every variable of `f` at once: variable `i + 1` by entry `i` of `subst`, and a variable
beyond the list by itself.  The functions put in may test any variables, so the result is rebuilt by if-then-else
rather than by placing nodes.  Within one call each node is rebuilt once.  The results so far are remembered by
node index, without the sign: substitution commutes with complement.
-/

/-- Rebuilt nodes of one substitution, by index. -/
abbrev Rebuilt := Std.TreeMap Nat Handle

/-- What a variable is replaced by. -/
def replacement (subst : Array Handle) (v : Nat) : DiagramM Handle :=
  match subst[v - 1]? with
  | some g => pure g
  | none => mkVar v

/-- Substitution with a bound on the depth of the recursion. -/
def composeWithin (subst : Array Handle) : Nat → Handle → Rebuilt → DiagramM (Handle × Rebuilt)
  | 0, _, _ => throw .cyclicNodes
  | depth + 1, f, done =>
    if f.isTerminal then pure (f, done)
    else
      match done[f.index]? with
      | some r => pure (r.negateIf f.isNegated, done)
      | none => do
        let n ← read (·.node f.index)
        let (low, done) ← composeWithin subst depth n.low done
        let (high, done) ← composeWithin subst depth n.high done
        let g ← replacement subst n.var
        let r ← ite g high low
        return (r.negateIf f.isNegated, done.insert f.index r)

/-- **Simultaneous substitution** `f[x₁ := subst 0, x₂ := subst 1, …]`. -/
def compose (f : Handle) (subst : Array Handle) : DiagramM Handle := do
  let s ← get
  let (r, _) ← composeWithin subst s.capacity f ∅
  return r

end DiagramM

end ModalCalls
