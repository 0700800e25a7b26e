import ModalCalls.VarSet

/-!
# Equation systems

A formula is solved as a system of equations, one for each of its subformulas.  The equations are
numbered from `0` and refer to each other by number.  They are grouped into blocks, each of which is
solved as one least or one greatest fixpoint; higher blocks belong to more deeply nested fixpoints
and are solved first.  Within a block variables are listed children first.

The last part evaluates a system at a state without successors (`EquationSystem.deadlock`).
-/

namespace ModalCalls

/-! ## Equations and blocks

An equation keeps the written form of its subformula for reports only.  A variable belongs to exactly one block of
a system that was made from a formula; the structure does not insist on it, and a look-up that fails has an answer
all the same.
-/

/-- The right-hand side of an equation; operands are variable numbers. -/
inductive Operator where
  | top
  | bot
  | atom (p : String)
  | neg (child : Nat)
  | conj (left right : Nat)
  | disj (left right : Nat)
  | box (action : Option String) (child : Nat)
  | dia (action : Option String) (child : Nat)
deriving DecidableEq, Inhabited

/-- The name of an operator in reports. -/
def Operator.name : Operator → String
  | top => "True"
  | bot => "False"
  | atom _ => "Atomic"
  | neg _ => "Not"
  | conj .. => "And"
  | disj .. => "Or"
  | box .. => "Box"
  | dia .. => "Diamond"

/-- An equation: the variable it defines, its right-hand side, and the written form of the subformula it
stands for. -/
structure Equation where
  var : Nat
  operator : Operator
  label : String
deriving DecidableEq, Inhabited

/-- Variables that are solved together. -/
structure Block where
  /-- Whether the greatest solution is wanted. -/
  isMax : Bool
  /-- The variables, children before parents. -/
  vars : List Nat
deriving DecidableEq, Inhabited

/-- A fixpoint binder, with the number of its body. -/
structure Fixpoint where
  name : String
  var : Nat
  isMax : Bool
deriving DecidableEq, Inhabited

/-- A system of equations. -/
structure EquationSystem where
  /-- The equation of each variable. -/
  equations : Array Equation
  /-- The blocks, outermost first. -/
  blocks : Array Block
  /-- The fixpoint binders of the formula, outer before inner and left before right. -/
  fixpoints : List Fixpoint
deriving DecidableEq, Inhabited

namespace EquationSystem

/-- Number of variables. -/
def size (e : EquationSystem) : Nat :=
  e.equations.size

/-- The right-hand side of a variable. -/
def operator? (e : EquationSystem) (v : Nat) : Option Operator :=
  e.equations[v]?.map (·.operator)

/-- The written form of a variable's subformula. -/
def label? (e : EquationSystem) (v : Nat) : Option String :=
  e.equations[v]?.map (·.label)

/-- The block a variable belongs to. -/
def blockOf (e : EquationSystem) (v : Nat) : Nat :=
  e.blocks.findIdx (·.vars.contains v)

/-- Whether a variable belongs to a block whose greatest solution is wanted. -/
def isMax (e : EquationSystem) (v : Nat) : Bool :=
  e.blocks.any fun b => b.isMax && b.vars.contains v

/-- The labels of a set of variables, in variable order. -/
def labels (e : EquationSystem) (vars : VarSet) : List String :=
  vars.toList.map fun v => (e.label? v).getD ""

end EquationSystem

/-! ## Truth at a deadlock

At a state without successors `[a]f` holds and `<a>f` fails whatever `f` is, so one pass over the equations
computes all values: blocks from the last to the first, each in its stored order, so that operands come before the
operators that use them.  References are the exception.  Where an operator other than a modality reads one, it
counts as false.
-/

namespace Operator

/-- The value of an operator at a deadlock, given the values of its operands. -/
def atDeadlock (holds : String → Bool) (value : Nat → Bool) : Operator → Bool
  | top => true
  | bot => false
  | atom p => holds p
  | neg c => !value c
  | conj l r => value l && value r
  | disj l r => value l || value r
  | box .. => true
  | dia .. => false

end Operator

namespace EquationSystem

/-- The order in which the pass visits the variables. -/
def innermostFirst (e : EquationSystem) : List Nat :=
  e.blocks.toList.reverse.flatMap (·.vars)

/-- Set the value of one variable from the values so far. -/
def settle (e : EquationSystem) (holds : String → Bool) (values : Array Bool) (v : Nat) :
    Array Bool :=
  match e.operator? v with
  | some op => values.setIfInBounds v (op.atDeadlock holds (values.getD · false))
  | none => values

/-- The values of all variables at a deadlock, where `holds` gives the atoms. -/
def deadlockValues (e : EquationSystem) (holds : String → Bool) : Array Bool :=
  e.innermostFirst.foldl (e.settle holds) (Array.replicate e.size false)

/-- **The variables that hold at a deadlock.** -/
def deadlock (e : EquationSystem) (holds : String → Bool) : VarSet :=
  .ofBools (e.deadlockValues holds)

end EquationSystem

end ModalCalls
