import ModalCalls.Fault

/-!
# Process graphs

A procedure is a graph whose states carry atomic propositions and whose edges carry a label, a
modality and a kind.  A must edge is guaranteed to be there and a may edge is merely allowed; an
internal edge is a step by the action of its label, and a call edge runs the procedure of that name
before it arrives at its target.

States and edges are numbered in the order in which they were added.  Edges know their source, and
the edges leaving a state are those with that source, in order.  Every edge of a graph points to
one of its states; this is part of the type.
-/

namespace ModalCalls

/-- Whether an edge is guaranteed or merely allowed. -/
inductive Modality where
  | must
  | may
deriving DecidableEq, Inhabited

/-- The name of a modality in reports. -/
def Modality.name : Modality → String
  | must => "Must"
  | may => "May"

/-- Whether an edge is a step of its own or runs another procedure. -/
inductive EdgeKind where
  | internal
  | call
deriving DecidableEq, Inhabited

/-- An edge.  An edge that was added from a state that does not exist is kept, but leaves from
nowhere. -/
structure Edge where
  source : Option Nat
  target : Nat
  label : String
  modality : Modality
  kind : EdgeKind
deriving DecidableEq, Inhabited

/-- Whether an edge is guaranteed. -/
def Edge.isMust (e : Edge) : Bool :=
  e.modality = .must

/-- Whether an edge runs another procedure. -/
def Edge.isCall (e : Edge) : Bool :=
  e.kind = .call

/-- The graph of a procedure. -/
structure ProcessGraph where
  /-- The atomic propositions of each state. -/
  states : Array (List String) := #[]
  edges : Array Edge := #[]
  initial : Option Nat := none
  final : Option Nat := none
  /-- Edges connect states of the graph. -/
  edges_lt : ∀ e ∈ edges, e.target < states.size ∧ ∀ n, e.source = some n → n < states.size := by
    simp

namespace ProcessGraph

instance : Inhabited ProcessGraph where
  default := {}

/-- Number of states. -/
def size (g : ProcessGraph) : Nat :=
  g.states.size

/-! ## Building a graph

States and edges are numbered in the order in which they are added.  To name a state that is not there is a
fault, but an edge without a source is added before that is noticed.  The initial and the final state are
looked at only when a program is put together.
-/

/-- Add a state with some atomic propositions, and return its number. -/
def addState (g : ProcessGraph) (props : List String) : Nat × ProcessGraph :=
  (g.states.size,
    { g with
      states := g.states.push props
      edges_lt := fun e he => by
        have h := g.edges_lt e he
        rw [Array.size_push]
        exact ⟨by omega, fun n hn => by have := h.2 n hn; omega⟩ })

/-- Add an atomic proposition to a state. -/
def addProp (g : ProcessGraph) (state : Nat) (p : String) : Except Fault ProcessGraph :=
  if state < g.states.size then
    .ok { g with
      states := g.states.modify state (· ++ [p])
      edges_lt := fun e he => by
        rw [Array.size_modify]
        exact g.edges_lt e he }
  else .error (.noSuchState state)

/-- Add an edge, and return its number.  The target has to exist.  If the source does not, the edge
is added all the same and leaves from nowhere. -/
def addEdge (g : ProcessGraph) (source target : Nat) (label : String) (modality : Modality)
    (kind : EdgeKind) : Except Fault Nat × ProcessGraph :=
  if ht : target < g.states.size then
    let origin := if source < g.states.size then some source else none
    let g' : ProcessGraph :=
      { g with
        edges := g.edges.push ⟨origin, target, label, modality, kind⟩
        edges_lt := fun e he => by
          rcases Array.mem_push.1 he with he | rfl
          · exact g.edges_lt e he
          · refine ⟨ht, fun n hn => ?_⟩
            simp only [origin] at hn
            split at hn <;> simp_all }
    (if source < g.states.size then .ok g.edges.size else .error (.noSuchState source), g')
  else (.error (.noSuchState target), g)

/-- Name the initial state. -/
def setInitial (g : ProcessGraph) (state : Nat) : ProcessGraph :=
  { g with initial := some state }

/-- Name the final state. -/
def setFinal (g : ProcessGraph) (state : Nat) : ProcessGraph :=
  { g with final := some state }

/-! ## Looking at a graph

Most questions have two forms, one for a state that is known to be there and one that says so if it is not.
-/

/-- The atomic propositions of a state; a state that does not exist has none. -/
def propsOf (g : ProcessGraph) (state : Nat) : List String :=
  g.states.getD state []

/-- The atomic propositions of a state that the caller knows to exist. -/
def props (g : ProcessGraph) (state : Nat) : Except Fault (List String) :=
  if state < g.states.size then .ok (g.propsOf state) else .error (.noSuchState state)

/-- The edges that leave a state, in the order in which they were added. -/
def edgesFrom (g : ProcessGraph) (state : Nat) : List Edge :=
  g.edges.toList.filter fun e => e.source = some state

/-- The edges that leave a state that the caller knows to exist. -/
def outgoing (g : ProcessGraph) (state : Nat) : Except Fault (List Edge) :=
  if state < g.states.size then .ok (g.edgesFrom state) else .error (.noSuchState state)

/-- The numbers of the edges that leave a state. -/
def outgoingNumbers (g : ProcessGraph) (state : Nat) : Except Fault (List Nat) :=
  if state < g.states.size then
    .ok ((g.edges.toList.zipIdx.filter fun (e, _) => e.source = some state).map (·.2))
  else .error (.noSuchState state)

/-- The edge of a number. -/
def edge (g : ProcessGraph) (number : Nat) : Except Fault Edge :=
  match g.edges[number]? with
  | some e => .ok e
  | none => .error (.noSuchEdge number)

/-- The states in order. -/
def stateNumbers (g : ProcessGraph) : List Nat :=
  List.range g.size

/-- Add something at the end of a list, unless it is there already. -/
def addOnce {α : Type} [BEq α] (found : List α) (a : α) : List α :=
  if found.contains a then found else found ++ [a]

/-- Go through the states in order, and for each one through the edges that leave it.  Whenever an edge has
a property, add what is made of the state. -/
def collect {α : Type} [BEq α] (g : ProcessGraph) (p : Edge → Bool) (make : Nat → α)
    (found : List α) : List α :=
  g.stateNumbers.foldl (fun found state =>
    (g.edgesFrom state).foldl (fun found e => if p e then addOnce found (make state) else found)
      found) found

/-- The states with an edge to a state, each once and in order. -/
def predecessors (g : ProcessGraph) (state : Nat) : List Nat :=
  g.collect (·.target = state) id []

end ProcessGraph

/-- The written form of a state. -/
def stateName (state : Nat) : String :=
  "s" ++ toString state

end ModalCalls
