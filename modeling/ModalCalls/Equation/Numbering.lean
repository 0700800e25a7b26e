import ModalCalls.Equation.Basic
import ModalCalls.Formula.Normal
import ModalCalls.Journal

/-!
# From formulas to equations

Subformulas are numbered in pre-order, starting with `0` for the root.  Binders and references get
no number of their own: a binder shares the number of its body, and a reference stands for the
number of the innermost binder of its name.  So `mu X.(<b>true || <>X)` has four variables:

```
0: (<b>true || <>X)      disj 1 3
1: <b>true               dia b 2
2: true                  top
3: <>X                   dia _ 0
```

The outermost block is a greatest one unless the formula is a least fixpoint.  Going down, a binder
of the other kind than the current block opens a new block after all others.  A block may end up
without variables, namely when its binder's body is a binder of the other kind; such blocks are
dropped at the end.

Numbering rejects formulas without a meaning as a system of monotone equations: references to a name
that is not bound, fixpoints whose body is a bare reference, and references under a negation.
Everything is done on the negation normal form, so "under a negation" means an odd number of negations
between a reference and its binder.

Each numbered subformula is reported as soon as its operands are numbered.
-/

namespace ModalCalls

/-- Why a formula is not a system of monotone equations. -/
inductive FormulaError where
  /-- A reference without a binder. -/
  | unboundVariable (x : String)
  /-- A fixpoint whose body is a reference. -/
  | bareFixpoint (x : String)
  /-- A reference under a negation. -/
  | negativeVariable (x : String)
  /-- A branching operator, which has no equation. -/
  | branchingOperator (label : String)
deriving DecidableEq, Inhabited

/-- The wording of a formula error. -/
def FormulaError.message : FormulaError → String
  | unboundVariable x => s!"variable '{x}' is not bound by any enclosing fixpoint"
  | bareFixpoint x => s!"fixpoint '{x}' has a bare variable as its body"
  | negativeVariable x =>
    s!"variable '{x}' occurs under a negation, so its fixpoint is not monotone"
  | branchingOperator label => s!"branching operator '{label}' is not an equation"

namespace Numbering

/-! ## Places and parts

A subformula is numbered at a place, which has everything that is known from above and from the left: the
names in scope, the next number, and the block.  What comes out is a part.  Parts are put together without
looking at the place again, so numbering goes through the formula once.
-/

/-- Where in a formula numbering has arrived. -/
structure Place where
  /-- The number each name in scope stands for, innermost first. -/
  scope : List (String × Nat)
  /-- The next free number. -/
  next : Nat
  /-- The block that takes new equations. -/
  block : Nat
  /-- Whether that block is a greatest one. -/
  isMax : Bool
  /-- Number of blocks opened so far. -/
  blocks : Nat
deriving Inhabited

/-- What numbering a subformula yields. -/
structure Part where
  /-- The number that stands for the subformula. -/
  root : Nat
  /-- The equations in pre-order, each with its block. -/
  equations : List (Nat × Equation)
  /-- The binders met. -/
  fixpoints : List Fixpoint
  /-- The kinds of the blocks opened. -/
  opened : List Bool
deriving Inhabited

/-- Numbering reports what it does, also when it ends with an error. -/
abbrev NumberM := EStateM FormulaError Journal

/-- The place of the first operand of the subformula at `p`. -/
def Place.inside (p : Place) : Place :=
  { p with next := p.next + 1 }

/-- The place after a part that starts at `p`. -/
def Place.after (p : Place) (part : Part) : Place :=
  { p with next := p.next + part.equations.length, blocks := p.blocks + part.opened.length }

/-- The place of the body of a binder. -/
def Place.enter (p : Place) (x : String) (isMax : Bool) : Place where
  scope := (x, p.next) :: p.scope
  next := p.next
  block := if isMax = p.isMax then p.block else p.blocks
  isMax := isMax
  blocks := if isMax = p.isMax then p.blocks else p.blocks + 1

/-- The part of a reference: no equation, only a number. -/
def Part.reference (v : Nat) : Part :=
  ⟨v, [], [], []⟩

/-- Two parts one after the other. -/
def Part.append (l r : Part) : Part :=
  ⟨l.root, l.equations ++ r.equations, l.fixpoints ++ r.fixpoints, l.opened ++ r.opened⟩

/-- The part of a binder at `p`, from the part of its body. -/
def Part.bind (p : Place) (x : String) (isMax : Bool) (body : Part) : Part where
  root := body.root
  equations := body.equations
  fixpoints := ⟨x, p.next, isMax⟩ :: body.fixpoints
  opened := if isMax = p.isMax then body.opened else isMax :: body.opened

/-- The part of an operator at `p`, from the parts of its operands. -/
def Part.ofOperator (p : Place) (f : Formula) (operator : Operator) (operands : Part) : Part :=
  { operands with
    root := p.next
    equations := (p.block, ⟨p.next, operator, f.display⟩) :: operands.equations }

/-- No operands. -/
def Part.none : Part :=
  ⟨0, [], [], []⟩

/-- Report an operator that is done and return its part. -/
def finish (p : Place) (f : Formula) (operator : Operator) (operands : Part) : NumberM Part := do
  modify (·.push (.subformulaNumbered p.next operator.name f.display))
  return .ofOperator p f operator operands

/-- The name a formula refers to, if it is a reference to a name in scope. -/
def scopedRef? (p : Place) : Formula → Option String
  | .ref x => if (p.scope.lookup x).isSome then some x else none
  | _ => none

/-- **Numbering** of a formula in negation normal form, starting at a place. -/
def number : Formula → Place → NumberM Part
  | .ref x, p =>
    match p.scope.lookup x with
    | some v => pure (.reference v)
    | none => throw (.unboundVariable x)
  | .mu x f, p =>
    if f.isRef then throw (.bareFixpoint x)
    else do
      let body ← number f (p.enter x false)
      return body.bind p x false
  | .nu x f, p =>
    if f.isRef then throw (.bareFixpoint x)
    else do
      let body ← number f (p.enter x true)
      return body.bind p x true
  | .top, p => finish p .top .top .none
  | .bot, p => finish p .bot .bot .none
  | .atom a, p => finish p (.atom a) (.atom a) .none
  | .neg f, p =>
    match scopedRef? p f with
    | some x => throw (.negativeVariable x)
    | none => do
      let operand ← number f p.inside
      finish p (.neg f) (.neg operand.root) operand
  | .conj f g, p => do
    let l ← number f p.inside
    let r ← number g (p.inside.after l)
    finish p (.conj f g) (.conj l.root r.root) (l.append r)
  | .disj f g, p => do
    let l ← number f p.inside
    let r ← number g (p.inside.after l)
    finish p (.disj f g) (.disj l.root r.root) (l.append r)
  | .box a f, p => do
    let operand ← number f p.inside
    finish p (.box a f) (.box a operand.root) operand
  | .dia a f, p => do
    let operand ← number f p.inside
    finish p (.dia a f) (.dia a operand.root) operand
  | .af f, _ => throw (.branchingOperator (Formula.af f).display)
  | .ag f, _ => throw (.branchingOperator (Formula.ag f).display)
  | .au f g, _ => throw (.branchingOperator (Formula.au f g).display)
  | .aw f g, _ => throw (.branchingOperator (Formula.aw f g).display)
  | .ef f, _ => throw (.branchingOperator (Formula.ef f).display)
  | .eg f, _ => throw (.branchingOperator (Formula.eg f).display)
  | .eu f g, _ => throw (.branchingOperator (Formula.eu f g).display)
  | .ew f g, _ => throw (.branchingOperator (Formula.ew f g).display)

/-! ## Whole formulas

The outermost block is there from the beginning, and all others are opened on the way.  Equations are sorted
into the blocks at the end.  A block lists its variables last number first, since operands are numbered
after their operators and are to be computed before them.
-/

/-- Whether the outermost block of a formula is a greatest one. -/
def rootIsMax : Formula → Bool
  | .mu .. => false
  | _ => true

/-- The place at which the numbering of a whole formula starts. -/
def Place.start (f : Formula) : Place where
  scope := []
  next := 0
  block := 0
  isMax := rootIsMax f
  blocks := 1

/-- The variables whose equations went into a block, last one first. -/
def blockVars (part : Part) (block : Nat) : List Nat :=
  ((part.equations.mapIdx fun v (b, _) => (v, b)).filter (·.2 = block)).map (·.1) |>.reverse

/-- The blocks of a formula: the outermost one and those opened, empty ones dropped. -/
def blocksOf (f : Formula) (part : Part) : List Block :=
  ((rootIsMax f :: part.opened).mapIdx fun b isMax => Block.mk isMax (blockVars part b)).filter
    fun block => !block.vars.isEmpty

/-- The equation system of a numbered formula. -/
def assemble (f : Formula) (part : Part) : EquationSystem where
  equations := (part.equations.map (·.2)).toArray
  blocks := (blocksOf f part).toArray
  fixpoints := part.fixpoints

/-- The equation system of a formula in negation normal form, with reports. -/
def ofNormal (f : Formula) : NumberM EquationSystem := do
  let part ← number f (.start f)
  let system := assemble f part
  modify (·.push (.equationsBuilt f.display system.size system.blocks.size))
  return system

end Numbering

namespace EquationSystem

/-- **The equation system of a formula**, or why it has none. -/
def ofFormula (f : Formula) : Except FormulaError EquationSystem :=
  match Numbering.ofNormal f.normal #[] with
  | .ok system _ => .ok system
  | .error e _ => .error e

end EquationSystem

end ModalCalls
