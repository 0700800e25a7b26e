import ModalCalls.Equation.Numbering
import ModalCalls.Equation.Basic
import ModalCalls.Process.Program
import ModalCalls.Session.History
import ModalCalls.Transformer.Basic
import ModalCalls.WorkSet

/-!
# Sessions

A session is the state of one run: the equations of the formula, a store, and for each procedure the
transformers of its states and the states that are still to be updated.  It begins with all states
but the final ones to be updated, in the innermost block.

Operations on a session run in `SessionM`.  They keep the session they have reached when they end
with an error, so that a caller may look at it and even go on, and they report what they do.
-/

namespace ModalCalls

/-- How a run is carried out.  Where references stand under modalities, no verdict depends on this. -/
structure Options where
  /-- Which state is updated next. -/
  pick : PickOrder := .oldest
  /-- The number of updates after which a run is given up. -/
  budget : Option Nat := none
  /-- The number of positions a witness search may reach. -/
  witnessLimit : Nat := 100000
  /-- The store has `2 ^ storageBits` places. -/
  storageBits : Nat := Store.defaultBits
deriving DecidableEq, Inhabited

/-- Why a run gave no verdict. -/
inductive SolveError where
  /-- The formula is not a system of equations. -/
  | formula (e : FormulaError)
  /-- The store ran out of room. -/
  | storage (e : StorageError)
  /-- The updates allowed are used up. -/
  | budgetExhausted (updates : Nat)
  /-- A precondition was broken. -/
  | fault (f : Fault)
deriving DecidableEq, Inhabited

/-- The wording of a run's failure. -/
def SolveError.message : SolveError → String
  | formula e => e.message
  | storage e => e.message
  | budgetExhausted updates => s!"update budget exhausted after {updates} node updates"
  | fault _ => "a precondition was broken"

/-- How far a procedure has come. -/
structure Progress where
  /-- The transformer of each state. -/
  transformers : Array Transformer
  /-- The states still to be updated. -/
  pending : WorkSet
deriving Inhabited

/-- The state of one run. -/
structure Session where
  program : Program
  options : Options
  equations : EquationSystem
  /-- How far each procedure has come. -/
  progress : Array Progress
  /-- The transformers of must edges by label, in the order in which they were built. -/
  must : List (String × Transformer)
  /-- The transformers of may edges by label, in the order in which they were built. -/
  may : List (String × Transformer)
  /-- The block that is being solved. -/
  block : Nat
  /-- Number of updates so far. -/
  updates : Nat
  /-- The truth of every variable at the end of the main procedure. -/
  deadlock : Array Bool
  /-- What was recorded, if anything is. -/
  recording : Option Recording
  store : Store

/-- A session together with its reports. -/
structure Run where
  session : Session
  journal : Journal

/-- Operations on a session.  An error leaves the session as it was reached. -/
abbrev SessionM := EStateM SolveError Run

/-! ## Looking at a session

Procedures, states and blocks are named by numbers.  A number that names nothing is a fault of the caller,
and every question that might meet one says so in its type.
-/

namespace Session

/-- The procedure at a position. -/
def procedure (s : Session) (i : Nat) : Except Fault Procedure :=
  match s.program.procedures[i]? with
  | some p => .ok p
  | none => .error .noSuchProcedure

/-- The transformer of a state, if there is such a state. -/
def transformer? (s : Session) (i state : Nat) : Option Transformer := do
  let p ← s.progress[i]?
  p.transformers[state]?

/-- The transformer of a state that the caller knows to exist. -/
def transformer (s : Session) (i state : Nat) : Except Fault Transformer :=
  match s.transformer? i state with
  | some t => .ok t
  | none => .error (.noSuchState state)

/-- The position of a procedure and the transformer of one of its states, if they exist. -/
def locate? (s : Session) (name : String) (state : Nat) : Option (Nat × Transformer) := do
  let i ← s.program.indexOf? name
  let t ← s.transformer? i state
  return (i, t)

/-- No state is left to update. -/
def isIdle (s : Session) : Bool :=
  s.progress.all (·.pending.isEmpty)

/-- No state is left to update and no block is left to solve. -/
def isConverged (s : Session) : Bool :=
  s.block == 0 && s.isIdle

/-- The variables that hold at a state, given what holds at the end of the main procedure. -/
def holding (s : Session) (i state : Nat) : Except Fault VarSet := do
  let t ← s.transformer i state
  t.evaluate s.store s.deadlock

/-- The subformulas that hold at a state. -/
def satisfied (s : Session) (i state : Nat) : Except Fault (List String) := do
  let vars ← s.holding i state
  return s.equations.labels vars

/-- **The verdict**: whether the formula holds where the main procedure begins. -/
def isSat (s : Session) : Except Fault Bool := do
  let main ← s.procedure s.program.main
  let vars ← s.holding s.program.main main.initial
  return vars.contains 0

/-- The states left to update in each procedure, in the order in which they would be taken. -/
def pendingStates (s : Session) : List (String × List Nat) :=
  List.zipWith (fun p q => (p.name, q.pending.toList)) s.program.procedures.toList
    s.progress.toList

/-- The serial transformer of a state. -/
def serialAt (s : Session) (i state : Nat) : Except Fault (List String) := do
  let t ← s.transformer i state
  t.serial s.store

/-- The variables of the block that is being solved. -/
def blockVars (s : Session) : Except Fault (List Nat) :=
  match s.equations.blocks[s.block]? with
  | some b => .ok b.vars
  | none => .error (.noSuchBlock s.block)

/-- The edge transformers of a modality. -/
def edgeTransformers (s : Session) : Modality → List (String × Transformer)
  | .must => s.must
  | .may => s.may

/-- Note the transformer of an edge label. -/
def addEdgeTransformer (s : Session) (modality : Modality) (label : String) (t : Transformer) :
    Session :=
  match modality with
  | .must => { s with must := s.must ++ [(label, t)] }
  | .may => { s with may := s.may ++ [(label, t)] }

/-- Replace the transformer of a state. -/
def setTransformer (s : Session) (i state : Nat) (t : Transformer) : Session :=
  { s with
    progress := s.progress.modify i fun p =>
      { p with transformers := p.transformers.setIfInBounds state t } }

/-- Replace the states that a procedure has left to update. -/
def setPending (s : Session) (i : Nat) (w : WorkSet) : Session :=
  { s with progress := s.progress.modify i fun p => { p with pending := w } }

/-- Mark states of a procedure to be updated. -/
def markAll (s : Session) (i : Nat) (states : List Nat) : Session :=
  { s with progress := s.progress.modify i fun p => { p with pending := p.pending.insertMany states } }

end Session

/-! ## Operating on a session

Operations on a session are made of a few: asking a question, making a change, reporting, and letting a
computation work on the store.  The last one reports when the store has become full.  Whether that is an
error is not decided there but by `check`, once an update is complete.
-/

namespace SessionM

/-- Ask a question about the current session. -/
def inspect {α : Type} (query : Session → Except Fault α) : SessionM α := fun r =>
  match query r.session with
  | .ok a => .ok a r
  | .error f => .error (.fault f) r

/-- Change the current session. -/
def change (f : Session → Session) : SessionM Unit :=
  modify fun r => { r with session := f r.session }

/-- Report something. -/
def report (e : Event) : SessionM Unit :=
  modify fun r => { r with journal := r.journal.push e }

/-- A run with another store, whose overflow is reported if it is new. -/
def afterStore (r : Run) (before : Bool) (store : Store) : Run where
  session := { r.session with store := store }
  journal :=
    if store.overflowed && !before then r.journal.push (.storeOverflowed store.capacity)
    else r.journal

/-- Run a computation on the session's store.  The store is taken out while it runs. -/
def onStore {α : Type} (x : DiagramM α) : SessionM α := fun r =>
  let store := r.session.store
  let before := store.overflowed
  let r := { r with session := { r.session with store := .empty 0 } }
  match x store with
  | .ok a store => .ok a (afterStore r before store)
  | .error f store => .error (.fault f) (afterStore r before store)

/-- End with an error if the store cannot be trusted. -/
def check : SessionM Unit := fun r =>
  match r.session.store.check with
  | .ok _ => .ok () r
  | .error e => .error (.storage e) r

end SessionM

/-! ## Starting a session

The equations are made first, then the store and the transformers of all states.  If these do not fit into
the store, there is no session, and the store is released with a report.
-/

namespace Session

/-- The transformers that the states of a procedure begin with. -/
def startTransformers (e : EquationSystem) (p : Procedure) : DiagramM (Array Transformer) := do
  let ts ← p.graph.stateNumbers.mapM fun state =>
    if state = p.final then Transformer.identity e else pure (.start e)
  return ts.toArray

/-- How far a procedure has come before the first update: all states but the final one are left. -/
def startProgress (order : PickOrder) (e : EquationSystem) (p : Procedure) : DiagramM Progress := do
  let ts ← startTransformers e p
  return ⟨ts, (WorkSet.empty order).insertMany p.innerStates⟩

/-- The truth of every variable where the main procedure ends. -/
def startDeadlock (p : Program) (e : EquationSystem) : Array Bool :=
  let props := match p.procedures[p.main]? with
    | some main => main.graph.propsOf main.final
    | none => []
  (e.deadlock (props.contains ·)).toBools e.size

/-- The equations of a formula, with reports. -/
def equationsOf (f : Formula) : EStateM SolveError Journal EquationSystem := fun j =>
  match Numbering.ofNormal f.normal j with
  | .ok e j => .ok e j
  | .error err j => .error (.formula err) j

/-- A report that a store is given up. -/
def released (store : Store) : Event :=
  .storeReleased store.debug

/-- **A session** for a formula, before the first update. -/
def begin (p : Program) (o : Options) (f : Formula) : EStateM SolveError Journal Session := do
  let e ← equationsOf f
  match p.procedures.toList.mapM (startProgress o.pick e) (.empty o.storageBits) with
  | .error err _ => throw (.fault err)
  | .ok progress store =>
    if store.overflowed then modify (·.push (.storeOverflowed store.capacity))
    match store.check with
    | .error err =>
      modify (·.push (released store))
      throw (.storage err)
    | .ok _ =>
      let block := e.blocks.size - 1
      modify (·.push (.sessionStarted f.display block))
      return {
        program := p
        options := o
        equations := e
        progress := progress.toArray
        must := []
        may := []
        block := block
        updates := 0
        deadlock := startDeadlock p e
        recording := none
        store := store }

/-- Run an operation on a session to its end and give up the store. -/
def conclude {α : Type} (s : Session) (x : SessionM α) : EStateM SolveError Journal α := fun j =>
  match x ⟨s, j⟩ with
  | .ok a r => .ok a (r.journal.push (released r.session.store))
  | .error e r => .error e (r.journal.push (released r.session.store))

end Session

end ModalCalls
