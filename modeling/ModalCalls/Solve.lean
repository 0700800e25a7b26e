import ModalCalls.Session.Step
import ModalCalls.Witness.Search

/-!
# Checking a formula

The operations a user of the library starts from.  Each takes a program, options and a formula, begins
a session of its own and gives up the session's store when it ends, whatever the outcome.  Reports
are collected in a journal along the way.
-/

namespace ModalCalls

namespace Program

/-- The report that a program was validated. -/
def validated (p : Program) : Event :=
  let main := (p.procedures[p.main]?.map (·.name)).getD ""
  .systemValidated p.procedures.size main p.called.length

/-- The verdict of a session after a run. -/
def runToVerdict (f : Formula) : SessionM Bool := do
  SessionM.run
  let sat ← SessionM.inspect (·.isSat)
  SessionM.report (.verdictReached f.display sat)
  return sat

/-- **Model checking**: whether a formula holds where the main procedure begins. -/
def solve (p : Program) (o : Options) (f : Formula) : EStateM SolveError Journal Bool := do
  let s ← Session.begin p o f
  s.conclude (runToVerdict f)

/-- Model checking with a record of every update. -/
def solveRecorded (p : Program) (o : Options) (f : Formula) :
    EStateM SolveError Journal History := do
  let s ← Session.begin p o f
  s.conclude do
    SessionM.startRecording
    SessionM.run
    SessionM.inspect (·.history)

/-- A session that has run, or the error it ended with. -/
def converge (s : Session) : EStateM SolveError Journal Session := fun j =>
  match SessionM.run ⟨s, j⟩ with
  | .ok _ r => .ok r.session r.journal
  | .error e r => .error e (r.journal.push (Session.released r.session.store))

/-- Failures of a run as failures of a search. -/
def liftSolve {α : Type} (x : EStateM SolveError Journal α) : Session.SearchM α := fun j =>
  match x j with
  | .ok a j => .ok a j
  | .error e j => .error (.solve e) j

/-- Search for a witness in a session that has run, and give up its store. -/
def concludeSearch (s : Session) : Session.SearchM (Option WitnessTree) := fun j =>
  match s.findWitness j with
  | .ok tree j => .ok tree (j.push (Session.released s.store))
  | .error e j => .error e (j.push (Session.released s.store))

/-- **Witness extraction**: model checking, and a witness if the formula holds. -/
def findWitness (p : Program) (o : Options) (f : Formula) :
    Session.SearchM (Option WitnessTree) := do
  let s ← liftSolve (Session.begin p o f)
  let s ← liftSolve (converge s)
  concludeSearch s

end Program

end ModalCalls
