import ModalCalls.Process.Graph

/-!
# Systems and programs

A system is a list of named procedures, one of which is the entry point.  A program is a system that can be
checked.  A system can be checked if its entry point exists and every procedure is well shaped: it has an
initial and a final state, no edge leaves the final state, no call leaves the initial state, and only
procedures of the system are called.  The ban on calls from the initial state is what makes calls
guarded: entering a procedure always leads to a real step before the next call.

`Program.ofSystem` tests these conditions, procedure by procedure in order and within each in the
order above, and returns the first violation.
-/

namespace ModalCalls

/-! ## Systems

Names are unique: adding a procedure under a name that is taken replaces the graph and keeps its place in the
list.  The type carries the proof, so that the position of a name is never in doubt.
-/

/-- Named procedures and the name of the one that runs first. -/
structure System where
  main : String
  procedures : List (String × ProcessGraph) := []
  /-- No name is used twice. -/
  names_nodup : (procedures.map Prod.fst).Nodup := by simp

namespace System

instance : Inhabited System where
  default := { main := "" }

/-- The names of the procedures, in order. -/
def names (s : System) : List String :=
  s.procedures.map Prod.fst

/-- Whether a procedure of this name is defined. -/
def defines (s : System) (name : String) : Bool :=
  s.names.contains name

/-- Add a procedure, or replace the one of this name. -/
def addProcedure (s : System) (name : String) (graph : ProcessGraph) : System :=
  if h : s.defines name then
    { s with
      procedures := s.procedures.map fun p => if p.1 = name then (name, graph) else p
      names_nodup := by
        have hmap : (s.procedures.map fun p => if p.1 = name then (name, graph) else p).map Prod.fst
            = s.procedures.map Prod.fst := by
          rw [List.map_map]
          refine List.map_congr_left fun p _ => ?_
          simp only [Function.comp]
          split <;> simp_all
        rw [hmap]
        exact s.names_nodup }
  else
    { s with
      procedures := s.procedures ++ [(name, graph)]
      names_nodup := by
        rw [List.map_append, List.nodup_append]
        refine ⟨s.names_nodup, by simp, ?_⟩
        intro x hx y hy hxy
        simp only [List.map_cons, List.map_nil, List.mem_singleton] at hy
        subst hy hxy
        exact h (by simpa [defines, names] using hx) }

/-- The position of the procedure of this name. -/
def indexOf? (s : System) (name : String) : Option Nat :=
  s.names.idxOf? name

end System

/-! ## Programs

A program has its procedures by position, with the initial and the final state at hand.
-/

/-- Why a system cannot be checked. -/
inductive ProgramError where
  /-- The entry point is not defined. -/
  | undefinedMain (name : String)
  | missingInitial (procedure : String)
  | missingFinal (procedure : String)
  /-- An edge leaves the final state. -/
  | finalHasSuccessors (procedure : String)
  /-- A call leaves the initial state. -/
  | unguarded (procedure : String)
  | undefinedCallee (caller callee : String)
  /-- The initial or final state is not a state of the graph. -/
  | fault (f : Fault)
deriving DecidableEq, Inhabited

/-- The wording of a violation. -/
def ProgramError.message : ProgramError → String
  | undefinedMain name => s!"main process '{name}' is not defined"
  | missingInitial p => s!"procedure '{p}' has no initial node"
  | missingFinal p => s!"procedure '{p}' has no final node"
  | finalHasSuccessors p => s!"final node of procedure '{p}' has outgoing edges"
  | unguarded p =>
    s!"initial node of procedure '{p}' is not guarded: it has an outgoing call edge"
  | undefinedCallee caller callee =>
    s!"procedure '{caller}' calls undefined procedure '{callee}'"
  | fault _ => "the initial or final node is not a node of its graph"

/-- A procedure of a program. -/
structure Procedure where
  name : String
  graph : ProcessGraph
  initial : Nat
  final : Nat
deriving Inhabited

namespace Procedure

/-- Number of states. -/
def size (p : Procedure) : Nat :=
  p.graph.size

/-- The states whose transformers are computed: all but the final one. -/
def innerStates (p : Procedure) : List Nat :=
  p.graph.stateNumbers.filter (· ≠ p.final)

end Procedure

/-- A system that can be checked. -/
structure Program where
  /-- The position of the entry point. -/
  main : Nat
  procedures : Array Procedure
deriving Inhabited

namespace Program

/-- The position of the procedure of a name. -/
def indexOf? (p : Program) (name : String) : Option Nat :=
  p.procedures.findIdx? (·.name = name)

/-- The states that call the procedure of a name, each once and with the position of its procedure. -/
def callSites (p : Program) (callee : String) : List (Nat × Nat) :=
  p.procedures.toList.zipIdx.foldl (fun found (q, i) =>
    q.graph.collect (fun e => e.isCall && e.label = callee) (fun state => (i, state)) found) []

/-- The names of the procedures that are called somewhere. -/
def called (p : Program) : List String :=
  (p.procedures.toList.map (·.name)).filter fun name => !(p.callSites name).isEmpty

/-! ## Validation

The order of the tests can be observed: a system with several violations is refused with the first of them.
-/

/-- The first callee of a procedure that the system does not define. -/
def undefinedCallee? (s : System) (graph : ProcessGraph) : Option String :=
  (graph.stateNumbers.flatMap graph.edgesFrom).findSome? fun e =>
    if e.isCall && !s.defines e.label then some e.label else none

/-- The edges leaving a state, an unknown state being a fault. -/
def edgesAt (graph : ProcessGraph) (state : Nat) : Except ProgramError (List Edge) :=
  (graph.outgoing state).mapError .fault

/-- Test one procedure of a system. -/
def checkProcedure (s : System) (name : String) (graph : ProcessGraph) :
    Except ProgramError Procedure := do
  let some initial := graph.initial | throw (.missingInitial name)
  let some final := graph.final | throw (.missingFinal name)
  let fromFinal ← edgesAt graph final
  if !fromFinal.isEmpty then throw (.finalHasSuccessors name)
  let fromInitial ← edgesAt graph initial
  if fromInitial.any (·.isCall) then throw (.unguarded name)
  match undefinedCallee? s graph with
  | some callee => throw (.undefinedCallee name callee)
  | none => return ⟨name, graph, initial, final⟩

/-- **Validation.**  The program of a system, or the first violation. -/
def ofSystem (s : System) : Except ProgramError Program := do
  let some main := s.indexOf? s.main | throw (.undefinedMain s.main)
  let procedures ← s.procedures.mapM fun (name, graph) => checkProcedure s name graph
  return ⟨main, procedures.toArray⟩

end Program

end ModalCalls
