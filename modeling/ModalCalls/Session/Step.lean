import ModalCalls.Session.Basic

/-!
# Updates, steps and runs

The transformer of a state is computed from the transformers along its outgoing edges: for an
internal edge the transformer of its label, for a call the transformer of the callee's initial state,
each composed with the transformer of the edge's target.  An update recomputes the entries of the
current block.  If that changes the transformer, every state that reads it has to be updated again:
the predecessors and, for an initial state, the call sites of its procedure.

A step updates one state, or moves on to the next outer block when no state is left.  A run steps
until nothing is left to do.  Within a block transformers move in one direction only, so a run ends
within `Session.stepBound` steps.  An audit asks of every state whether an update would still change it.
-/

namespace ModalCalls

namespace SessionM

/-! ## Updating a state

An update first computes (`candidate`) and then stores (`install`).  Only the second half changes what is to be
done next, and an audit uses the first half alone.  Edge labels are few and edges many, so the transformer of a
label is built once and kept.
-/

/-- The transformer of an internal edge label, built when it is first needed. -/
def labelTransformer (label : String) (modality : Modality) : SessionM Transformer := do
  match ← inspect fun s => .ok ((s.edgeTransformers modality).lookup label) with
  | some t => return t
  | none =>
    report (.edgeTransformerBuilt modality.name label)
    let e ← inspect fun s => .ok s.equations
    let t ← onStore (Transformer.ofEdge e label modality)
    change (·.addEdgeTransformer modality label t)
    return t

/-- The transformer of the initial state of a procedure. -/
def calleeTransformer (name : String) : SessionM Transformer :=
  inspect fun s =>
    match s.program.indexOf? name with
    | none => .error .noSuchProcedure
    | some i => do
      let p ← s.procedure i
      s.transformer i p.initial

/-- The transformer of an edge. -/
def edgeTransformer (e : Edge) : SessionM Transformer :=
  if e.isCall then calleeTransformer e.label else labelTransformer e.label e.modality

/-- The transformer along an edge of procedure `i`: that of the edge, and then that of its target. -/
def alongEdge (i : Nat) (e : Edge) : SessionM Transformer := do
  let step ← edgeTransformer e
  let target ← inspect (·.transformer i e.target)
  onStore (step.compose target)

/-- The transformers along the edges of a state, and the new transformer of the state. -/
def candidate (i state : Nat) : SessionM (List Transformer × Transformer) := do
  let p ← inspect (·.procedure i)
  let ts ← (p.graph.edgesFrom state).mapM (alongEdge i)
  let old ← inspect (·.transformer i state)
  let e ← inspect fun s => .ok s.equations
  let vars ← inspect (·.blockVars)
  let new ← onStore (old.update e (p.graph.propsOf state) ts vars)
  return (ts, new)

/-- Mark everything that reads the transformer of a state to be updated. -/
def markReaders (i state : Nat) : SessionM Unit := do
  let p ← inspect (·.procedure i)
  change (·.markAll i (p.graph.predecessors state))
  if state = p.initial then
    change fun s =>
      (s.program.callSites p.name).foldl (fun s (caller, site) => s.markAll caller [site]) s

/-- Mark all states but the final ones to be updated. -/
def markEverything (s : Session) : Session :=
  s.program.procedures.toList.zipIdx.foldl (fun s (p, i) => s.markAll i p.innerStates) s

/-- Go on with the next outer block. -/
def advance : SessionM Unit := do
  change fun s => { s with block := s.block - 1 }
  let (block, updates) ← inspect fun s => .ok (s.block, s.updates)
  report (.blockAdvanced block updates)
  change markEverything

/-- Count an update and report it. -/
def countUpdate (state : Nat) (procedure : String) (block : Nat) (changed : Bool) :
    SessionM Unit := do
  change fun s => { s with updates := s.updates + 1 }
  let count ← inspect fun s => .ok s.updates
  report (.stateUpdated count state procedure block changed)

/-- Put another transformer in the place of the old one.  If it is the same, nothing has to be looked
at again. -/
def replace (i state : Nat) (old new : Transformer) : SessionM Unit := do
  if new ≠ old then
    change (·.setTransformer i state new)
    markReaders i state

/-- Go on with the next outer block if there is one and nothing is left to do. -/
def advanceIfIdle : SessionM Unit := do
  if ← inspect fun s => .ok (decide (0 < s.block) && s.isIdle) then advance

/-- The record of an update. -/
def updateRecord (i state block : Nat) (ts : List Transformer) (old new : Transformer)
    (s : Session) : Except Fault UpdateRecord := do
  let p ← s.procedure i
  return {
    procedure := p.name
    state := state
    block := block
    transformer := ← old.serial s.store
    updated := ← new.serial s.store
    along := ← ts.mapM fun t => t.serial s.store
    pending := s.pendingStates
    satisfied := ← s.satisfied i state }

/-- Add the record of an update, if updates are recorded. -/
def record (i state block : Nat) (ts : List Transformer) (old new : Transformer) :
    SessionM Unit := do
  match ← inspect fun s => .ok s.recording with
  | none => return
  | some recording =>
    let entry ← inspect (updateRecord i state block ts old new)
    change fun s => { s with recording := some { recording with updates := recording.updates.push entry } }

/-- Store the new transformer of a state, and see what is to be done next. -/
def install (p : Procedure) (i state : Nat) (ts : List Transformer) (old new : Transformer) :
    SessionM Unit := do
  let block ← inspect fun s => .ok s.block
  countUpdate state p.name block (decide (new ≠ old))
  replace i state old new
  advanceIfIdle
  record i state block ts old new

/-- **Update** the transformer of a state. -/
def update (i state : Nat) : SessionM Unit := do
  let p ← inspect (·.procedure i)
  if state = p.final then throw (.fault .finalStateUpdate)
  let (ts, new) ← candidate i state
  let old ← inspect (·.transformer i state)
  install p i state ts old new

/-! ## Steps and runs

The budget is looked at before an update and not after it, so a budget of `n` allows `n` updates, and a session
that was stopped can be given more and go on.  That is why the state that was taken goes back.
-/

/-- The state to be updated next, with its procedure and the states left after it.  Earlier
procedures come first. -/
def next? (s : Session) : Option (Nat × Nat × WorkSet) :=
  s.progress.toList.zipIdx.findSome? fun (p, i) =>
    p.pending.pop?.map fun (state, rest) => (i, state, rest)

/-- The budget, if it is used up. -/
def exhausted? (s : Session) : Option Nat :=
  s.options.budget.filter (· ≤ s.updates)

/-- **A step**: one update, or one change of block.  The answer is whether there may be more to do.
If the budget is used up, the state that was taken goes back to the others. -/
def step : SessionM Bool := do
  match ← inspect fun s => .ok (next? s) with
  | none =>
    if ← inspect fun s => .ok (s.block == 0) then return false
    advance
    return true
  | some (i, state, rest) =>
    match ← inspect fun s => .ok (exhausted? s) with
    | some budget =>
      let (block, updates) ← inspect fun s => .ok (s.block, s.updates)
      report (.budgetExhausted budget block)
      change (·.setPending i (rest.insert state).2)
      throw (.budgetExhausted updates)
    | none =>
      change (·.setPending i rest)
      update i state
      check
      return true

/-- Steps until nothing is left to do, but at most as many as given. -/
def runWithin : Nat → SessionM Unit
  | 0 => throw (.fault .stepBoundReached)
  | steps + 1 => do
    if ← step then runWithin steps
    else
      let updates ← inspect fun s => .ok s.updates
      report (.sessionConverged updates)

end SessionM

namespace Session

/-- Number of states of all procedures. -/
def stateCount (s : Session) : Nat :=
  s.program.procedures.toList.foldr (fun p n => p.size + n) 0

/-- A bound on the steps of a run.  In a block every change of a transformer turns some entry, at
some state, from false to true or from true to false on some inputs, and it never turns back.  After
a change at most all states are marked, so the updates of a block are at most the states, times one
more than the changes; and every block takes one step to leave. -/
def stepBound (s : Session) : Nat :=
  let changes := s.stateCount * s.equations.size * Nat.pow 2 s.equations.size
  (s.block + 1) * (s.stateCount * (changes + 1) + 1) + 1

end Session

namespace SessionM

/-- **A run**: steps until nothing is left to do. -/
def run : SessionM Unit := do
  let bound ← inspect fun s => .ok s.stepBound
  runWithin bound

/-! ## Other operations

What can be asked of a session besides a run.  None of these stores a transformer or marks a state; building a
diagram may still add nodes to the store.
-/

/-- The transformer that an update of a state would store, without storing it.  There is none for a
final state and for a state that does not exist. -/
def recompute (name : String) (state : Nat) : SessionM (Option Transformer) := do
  match ← inspect fun s => .ok (s.program.indexOf? name) with
  | none => return none
  | some i =>
    let p ← inspect (·.procedure i)
    if state = p.final ∨ p.size ≤ state then return none
    let (_, t) ← candidate i state
    return some t

/-- Read a transformer into the session's store. -/
def ofSerial (texts : List String) : SessionM (Except SerialError Transformer) := do
  let e ← inspect fun s => .ok s.equations
  onStore (Transformer.ofSerial e texts)

/-- The record of a procedure before the first update. -/
def procedureRecord (s : Session) (i : Nat) (p : Procedure) : Except Fault ProcedureRecord := do
  return {
    name := p.name
    states := p.graph.stateNumbers
    transformers := ← p.graph.stateNumbers.mapM (s.serialAt i)
    satisfied := ← p.graph.stateNumbers.mapM (s.satisfied i) }

/-- Record every update from now on.  This is for sessions without an update. -/
def startRecording : SessionM Unit := do
  if ← inspect fun s => .ok (s.updates != 0) then throw (.fault .lateRecording)
  let procedures ← inspect fun s =>
    s.program.procedures.toList.zipIdx.mapM fun (p, i) => procedureRecord s i p
  change fun s => { s with recording := some { procedures := procedures } }

end SessionM

namespace Session

/-- The serial forms of edge transformers. -/
def serialEdges (s : Session) (ts : List (String × Transformer)) :
    Except Fault (List (String × List String)) :=
  ts.mapM fun (label, t) => do
    let texts ← t.serial s.store
    return (label, texts)

/-- What was recorded, with the verdict. -/
def history (s : Session) : Except Fault History := do
  let must ← s.serialEdges s.must
  let may ← s.serialEdges s.may
  let sat ← s.isSat
  return ⟨sat, s.recording.getD {}, must, may⟩

end Session

/-! ## Audits

An audit computes the transformer of every state once more and compares it with the one that is stored.  A state
where the two agree is stable: an update would leave it as it is.  Final states are never updated, so nothing is
said of their stability.
-/

/-- What an audit says of a state. -/
structure StateReport where
  procedure : String
  state : Nat
  /-- The serial form of the stored transformer. -/
  transformer : List String
  /-- The subformulas that hold at the state. -/
  satisfied : List String
  /-- Whether an update would leave the state as it is. -/
  stable : Option Bool
deriving DecidableEq, Inhabited

namespace SessionM

/-- Audit one state. -/
def auditState (i : Nat) (p : Procedure) (state : Nat) : SessionM StateReport := do
  let again ← recompute p.name state
  let t ← inspect (·.transformer i state)
  return {
    procedure := p.name
    state := state
    transformer := ← inspect (·.serialAt i state)
    satisfied := ← inspect (·.satisfied i state)
    stable := again.map fun u => decide (u = t) }

/-- **Audit** all states, procedure by procedure. -/
def audit : SessionM (List StateReport) := do
  let procedures ← inspect fun s => .ok s.program.procedures.toList
  let reports ← procedures.zipIdx.mapM fun (p, i) => p.graph.stateNumbers.mapM (auditState i p)
  return reports.flatten

end SessionM

end ModalCalls
