/-!
# Broken preconditions

Most failures of this library are verdicts about its input: a formula that is not well formed, a
system that is not guarded, a store that ran out of room.  Those have their own types, next to
the capability that raises them.

A `Fault` is different: it says that a *caller* left the contract of an operation, for instance by
passing a handle that no store ever gave out.  Operations that can meet such an argument return
the fault as a value, together with whatever state they had reached, so that every function of
the library is total and nothing is hidden by a default.
-/

namespace ModalCalls

/-- The ways in which a caller can leave the contract of an operation. -/
inductive Fault where
  /-- A table, cache or store was asked for with a size outside its range. -/
  | sizeOutOfRange (bits : Nat)
  /-- A value was added unconditionally to a table without room. -/
  | tableFull
  /-- A handle or index names no stored value. -/
  | noSuchIndex (index : Nat)
  /-- Diagram variable `0` is reserved for the terminal node. -/
  | reservedVariable
  /-- A diagram was to be split at a variable that comes after the one at its top. -/
  | lateSplit (var : Nat)
  /-- A walk over stored nodes was longer than there are nodes, so the nodes form a cycle. -/
  | cyclicNodes
  /-- A process graph has no such state. -/
  | noSuchState (state : Nat)
  /-- A process graph has no such edge. -/
  | noSuchEdge (edge : Nat)
  /-- An equation system has no such variable. -/
  | noSuchVariable (var : Nat)
  /-- An equation system has no such block. -/
  | noSuchBlock (block : Nat)
  /-- A program has no procedure of this number or name. -/
  | noSuchProcedure
  /-- Transformers of different stores were combined. -/
  | mixedStores
  /-- The transformer of a final state is fixed and takes no update. -/
  | finalStateUpdate
  /-- Recording was switched on after the first update. -/
  | lateRecording
  /-- A witness was asked for before the session converged. -/
  | notConverged
  /-- A witness tree has no such node. -/
  | noSuchWitness (id : Nat)
  /-- A run took more steps than a session of its size can take. -/
  | stepBoundReached
deriving DecidableEq, Inhabited

end ModalCalls
