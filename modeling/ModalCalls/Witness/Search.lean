import ModalCalls.Session.Basic
import ModalCalls.Witness.Tree
import Std.Data.HashSet

/-!
# Finding a witness

For a formula that only asks for something to be reachable, a satisfied verdict can be explained by
a path.  The search goes breadth-first over positions: a state of a procedure, a subformula, the
stack of pending returns, and what holds after the current procedure returns.  The transformers of
the converged session tell whether a subformula holds at a position, and only positions where it does
are followed.

* A disjunction leads to its operands.
* A diamond leads along a must edge that it speaks about to its operand, without an action into a
  called procedure, and without an action out of a finished one.
* Truth, atoms and negated atoms end the search.

Formulas with conjunctions, boxes, greatest fixpoints or other negations are not supported.
-/

namespace ModalCalls

/-- Why there is no witness. -/
inductive WitnessError where
  /-- The run itself failed. -/
  | solve (e : SolveError)
  /-- A part of the formula cannot be explained by a path. -/
  | unsupported (label : String)
  /-- The search reached as many positions as it may. -/
  | exhausted (positions : Nat)
deriving DecidableEq, Inhabited

/-- The wording of a failed search. -/
def WitnessError.message : WitnessError → String
  | solve e => e.message
  | unsupported label => s!"witness extraction does not support '{label}'"
  | exhausted positions => s!"no witness found within {positions} search states"

/-- A return to come: where to, and what holds after the return after that. -/
structure Frame where
  procedure : Nat
  state : Nat
  context : Array Bool
deriving DecidableEq, Hashable, Inhabited

/-- A position of the search. -/
structure Position where
  /-- Pending returns, the next one first. -/
  stack : List Frame
  procedure : Nat
  state : Nat
  var : Nat
  /-- What holds after the current procedure returns. -/
  context : Array Bool
deriving DecidableEq, Hashable, Inhabited

/-- A step of the search: a position and the action that leads to it. -/
abbrev Move := Position × Option String

namespace Session

/-! ## What is supported

A path can show that something is reachable.  It cannot show that two things hold, that something holds
after all steps, or that something holds for ever.  So conjunctions, boxes and greatest fixpoints are turned
away before a search begins, with the label of the part that is to blame.
-/

/-- Whether the negation of a variable can end a search. -/
def isAtomVar (e : EquationSystem) (v : Nat) : Bool :=
  match e.operator? v with
  | some (.atom _) => true
  | _ => false

/-- Whether an operator can be explained by a path. -/
def isSupported (e : EquationSystem) : Operator → Bool
  | .box .. | .conj .. => false
  | .neg c => isAtomVar e c
  | _ => true

/-- The first part of a formula that cannot be explained by a path: a greatest fixpoint if there is
one, else an equation. -/
def unsupported? (e : EquationSystem) : Option String :=
  match e.fixpoints.find? (·.isMax) with
  | some x => some ("nu " ++ x.name)
  | none => (e.equations.toList.find? fun q => !isSupported e q.operator).map (·.label)

/-! ## Moves

A position keeps what the transformers need: the truth of each variable after the return, for the current
procedure and for every frame below.  Entering a procedure computes these values from the transformer at the
target of the call; returning takes them from the frame.
-/

/-- Whether the subformula of a position holds there. -/
def holdsAt (s : Session) (p : Position) : Except Fault Bool := do
  let t ← s.transformer p.procedure p.state
  let vars ← t.evaluate s.store p.context
  return vars.contains p.var

/-- The position after entering the procedure of a call edge. -/
def enter (s : Session) (p : Position) (e : Edge) : Except Fault Position := do
  let some i := s.program.indexOf? e.label | throw .noSuchProcedure
  let callee ← s.procedure i
  let t ← s.transformer p.procedure e.target
  let vars ← t.evaluate s.store p.context
  return {
    stack := ⟨p.procedure, e.target, p.context⟩ :: p.stack
    procedure := i
    state := callee.initial
    var := p.var
    context := vars.toBools s.equations.size }

/-- The moves of a diamond along an edge. -/
def movesAlong (s : Session) (p : Position) (action : Option String) (child : Nat) (e : Edge) :
    Except Fault (List Move) :=
  if e.isCall then do
    let q ← s.enter p e
    return [(q, none)]
  else if e.isMust && Transformer.speaksOf action e.label then
    return [({ p with state := e.target, var := child }, some e.label)]
  else return []

/-- The move out of a finished procedure. -/
def returnMove (p : Position) : List Move :=
  match p.stack with
  | [] => []
  | frame :: rest =>
    [(⟨rest, frame.procedure, frame.state, p.var, frame.context⟩, none)]

/-- All moves from a position, whether the subformula holds after them or not. -/
def moves (s : Session) (p : Position) : Except Fault (List Move) := do
  match s.equations.operator? p.var with
  | some (.disj l r) => return [({ p with var := l }, none), ({ p with var := r }, none)]
  | some (.dia action child) =>
    let here ← s.procedure p.procedure
    if p.state = here.final then return returnMove p
    let parts ← (here.graph.edgesFrom p.state).mapM (s.movesAlong p action child)
    return parts.flatten
  | _ => return []

/-- **The moves that are followed**: those to positions where the subformula holds. -/
def successors (s : Session) (p : Position) : Except Fault (List Move) := do
  let all ← s.moves p
  all.filterM fun (q, _) => s.holdsAt q

/-- Whether a search ends at a variable. -/
def isLeaf (s : Session) (v : Nat) : Bool :=
  match s.equations.operator? v with
  | some .top | some (.atom _) | some (.neg _) => true
  | _ => false

/-! ## The search

Positions are numbered in the order in which they are reached, and they are followed up in the same
order.  So the queue of a breadth-first search is the list of positions itself, together with the
number of the next one to follow up.
-/

/-- What a search has reached. -/
structure Frontier where
  tree : WitnessTree
  /-- The position of each node of the tree. -/
  positions : Array Position
  /-- The positions as a set. -/
  reached : Std.HashSet Position

/-- Searches report what they reach. -/
abbrev SearchM := EStateM WitnessError Journal

/-- Ask a question about the session. -/
def ask {α : Type} (answer : Except Fault α) : SearchM α :=
  match answer with
  | .ok a => pure a
  | .error f => throw (.solve (.fault f))

/-- The node of a position. -/
def witnessNode (s : Session) (parent : Option Nat) (p : Position) (action : Option String) :
    Except Fault WitnessNode := do
  let here ← s.procedure p.procedure
  let label ← Transformer.label s.equations p.var
  return { parent, procedure := here.name, state := p.state, var := p.var, label, action }

/-- Add the positions that some moves from node `id` newly reach. -/
def reach (s : Session) (id : Nat) : List Move → Frontier → SearchM Frontier
  | [], fr => pure fr
  | (p, action) :: rest, fr =>
    if fr.reached.contains p then s.reach id rest fr
    else if s.options.witnessLimit ≤ fr.tree.size then throw (.exhausted fr.tree.size)
    else do
      let n ← ask (s.witnessNode (some id) p action)
      modify (·.push (.positionReached fr.tree.size id p.state p.var))
      s.reach id rest ⟨fr.tree.push n, fr.positions.push p, fr.reached.insert p⟩

/-- Follow up the positions from number `id` on, at most `count` of them, until one ends the
search. -/
def explore (s : Session) : Nat → Nat → Frontier → SearchM WitnessTree
  | 0, _, _ => throw (.solve (.fault .stepBoundReached))
  | count + 1, id, fr =>
    match fr.positions[id]? with
    | none => throw (.exhausted fr.tree.size)
    | some p =>
      if s.isLeaf p.var then do
        let tree := (fr.tree.computePath id).2
        modify (·.push (.witnessFound tree.path.length tree.size))
        return tree
      else do
        let next ← ask (s.successors p)
        let fr ← s.reach id next fr
        s.explore count (id + 1) fr

/-- The position a search begins with: the formula itself where the main procedure begins. -/
def rootPosition (s : Session) : Except Fault Position := do
  let main ← s.procedure s.program.main
  return ⟨[], s.program.main, main.initial, 0, s.deadlock⟩

/-- A number of positions that a search never exceeds, with one to spare. -/
def searchBound (s : Session) : Nat :=
  max 1 s.options.witnessLimit + 1

/-- **A witness** for a converged session: the tree of the search, or nothing if the formula does
not hold. -/
def findWitness (s : Session) : SearchM (Option WitnessTree) := do
  match unsupported? s.equations with
  | some label => throw (.unsupported label)
  | none =>
    if !s.isConverged then throw (.solve (.fault .notConverged))
    if !(← ask s.isSat) then return none
    let root ← ask s.rootPosition
    let n ← ask (s.witnessNode none root none)
    let fr : Frontier := ⟨({} : WitnessTree).push n, #[root], Std.HashSet.emptyWithCapacity.insert root⟩
    let tree ← s.explore s.searchBound 0 fr
    return some tree

end Session

end ModalCalls
