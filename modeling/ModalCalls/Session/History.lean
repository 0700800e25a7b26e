/-!
# Recorded runs

A run may record every update.  Transformers are recorded in their serial form, so a record outlives
the store it was made in and can be read back into any other session for the same formula.
-/

namespace ModalCalls

/-- A procedure before the first update. -/
structure ProcedureRecord where
  name : String
  /-- The states, in order. -/
  states : List Nat
  /-- The serial transformer of each state. -/
  transformers : List (List String)
  /-- The subformulas that hold at each state. -/
  satisfied : List (List String)
deriving DecidableEq, Inhabited

/-- One update of a state. -/
structure UpdateRecord where
  procedure : String
  state : Nat
  /-- The block the update was computed for. -/
  block : Nat
  /-- The transformer before the update. -/
  transformer : List String
  /-- The transformer after the update. -/
  updated : List String
  /-- The transformers along the outgoing edges, in edge order. -/
  along : List (List String)
  /-- The states left to update, once this update and any change of block is done. -/
  pending : List (String × List Nat)
  /-- The subformulas that hold at the state after the update. -/
  satisfied : List String
deriving DecidableEq, Inhabited

namespace UpdateRecord

/-- Whether the update changed the transformer. -/
def changed (r : UpdateRecord) : Bool :=
  r.transformer != r.updated

/-- Whether no state was left to update. -/
def isLast (r : UpdateRecord) : Bool :=
  r.pending.all fun (_, states) => states.isEmpty

end UpdateRecord

/-- What a session has recorded so far. -/
structure Recording where
  procedures : List ProcedureRecord := []
  updates : Array UpdateRecord := #[]
deriving DecidableEq, Inhabited

/-- A recorded run. -/
structure History where
  /-- Whether the formula holds. -/
  satisfied : Bool
  recording : Recording
  /-- The transformers of must edges by label, in the order in which they were built. -/
  must : List (String × List String)
  /-- The transformers of may edges by label, in the order in which they were built. -/
  may : List (String × List String)
deriving DecidableEq, Inhabited

namespace History

/-- Number of updates that changed a transformer. -/
def changes (h : History) : Nat :=
  (h.recording.updates.toList.filter (·.changed)).length

/-- The state that was updated last. -/
def lastState? (h : History) : Option Nat :=
  h.recording.updates.back?.map (·.state)

end History

end ModalCalls
