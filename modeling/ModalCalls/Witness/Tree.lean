import ModalCalls.Diagram.Dot
import ModalCalls.Fault

/-!
# Witness trees

A witness tree records a search: each node is a position the search reached, namely a state of a
procedure and a subformula, with the action of the step from its parent if the step had one.  Nodes
are numbered in the order in which they were added, and a node can only be added below a node that is
there, so a parent has a smaller number than its children.

Once the search has arrived, `WitnessTree.computePath` marks the nodes from the root to the last one,
and `WitnessTree.word` reads the actions along them.
-/

namespace ModalCalls

/-- A position a search reached. -/
structure WitnessNode where
  parent : Option Nat
  procedure : String
  state : Nat
  var : Nat
  /-- The written form of the subformula. -/
  label : String
  /-- The action of the step from the parent. -/
  action : Option String
  /-- Whether the node lies on the result path. -/
  marked : Bool := false
deriving DecidableEq, Inhabited

/-- The positions of a search, and the one it ended with. -/
structure WitnessTree where
  nodes : Array WitnessNode := #[]
  finishing : Option Nat := none
deriving DecidableEq, Inhabited

namespace WitnessTree

/-- Number of nodes. -/
def size (t : WitnessTree) : Nat :=
  t.nodes.size

/-- Add a node as it is. -/
def push (t : WitnessTree) (n : WitnessNode) : WitnessTree :=
  { t with nodes := t.nodes.push { n with marked := false } }

/-- Add a node below its parent, and return its number. -/
def add (t : WitnessTree) (n : WitnessNode) : Except Fault Nat × WitnessTree :=
  match n.parent with
  | none => (.ok t.size, t.push n)
  | some p => if p < t.size then (.ok t.size, t.push n) else (.error (.noSuchWitness p), t)

/-- The numbers on the way from the root to a node that is at most `depth` steps away from it. -/
def pathWithin (t : WitnessTree) : Nat → Nat → List Nat
  | 0, _ => []
  | depth + 1, id =>
    match t.nodes[id]? with
    | none => []
    | some n =>
      match n.parent with
      | none => [id]
      | some p => t.pathWithin depth p ++ [id]

/-- The numbers on the way from the root to a node. -/
def pathTo (t : WitnessTree) (id : Nat) : List Nat :=
  t.pathWithin t.size id

/-- The numbers on the result path, root first. -/
def path (t : WitnessTree) : List Nat :=
  match t.finishing with
  | none => []
  | some id => t.pathTo id

/-- The actions along the result path. -/
def word (t : WitnessTree) : List String :=
  t.path.filterMap fun id => (t.nodes[id]?).bind (·.action)

/-- The numbers of the marked nodes. -/
def marked (t : WitnessTree) : List Nat :=
  (t.nodes.toList.zipIdx.filter fun (n, _) => n.marked).map (·.2)

/-- Mark exactly the nodes whose numbers are in a list. -/
def markOnly (t : WitnessTree) (ids : List Nat) : WitnessTree :=
  { t with nodes := t.nodes.mapIdx fun i n => { n with marked := ids.contains i } }

/-- **The result path.**  Mark the way from the root to a node and take that node as the end.  For a
number that is not there the marks are dropped and the end stays what it was. -/
def computePath (t : WitnessTree) (id : Nat) : Except Fault Unit × WitnessTree :=
  if id < t.size then (.ok (), { t.markOnly (t.pathTo id) with finishing := some id })
  else (.error (.noSuchWitness id), t.markOnly [])

/-! ## Drawing

Every node is a box, with an edge from its parent.  A node that is marked has the colour of the result, and
so has the edge to it.
-/

/-- The box of a node.  The procedure stands there as it is, and the subformula quoted. -/
def nodeText (style : Dot.Style) (stateText : Nat → String) (id : Nat) (n : WitnessNode) :
    String :=
  let label := n.procedure ++ " " ++ stateText n.state ++ "\\n" ++ Dot.quote n.label
  let color := if n.marked then ", color=" ++ style.resultColor else ""
  Dot.line (toString id ++ " [label=\"" ++ label ++ "\"" ++ color ++ "];")

/-- The attributes of the edge to a node. -/
def edgeAttributes (style : Dot.Style) (n : WitnessNode) : List String :=
  (n.action.map fun a => "label=\"" ++ Dot.quote a ++ "\"").toList ++
    if n.marked then ["color=" ++ style.resultColor] else []

/-- The edge to a node from its parent. -/
def edgeText (style : Dot.Style) (id : Nat) (n : WitnessNode) : String :=
  match n.parent with
  | none => ""
  | some p =>
    let attributes := edgeAttributes style n
    let suffix :=
      if attributes.isEmpty then "" else " [" ++ String.intercalate ", " attributes ++ "]"
    Dot.line (toString p ++ " -> " ++ toString id ++ suffix ++ ";")

/-- **The drawing of a tree**, given how states are written. -/
def dot (style : Dot.Style) (stateText : Nat → String) (t : WitnessTree) : String :=
  Dot.line "digraph \x7b" ++
    Dot.line ("node [shape=" ++ style.rootShape ++ "];") ++
    String.join (t.nodes.toList.mapIdx (nodeText style stateText)) ++
    String.join (t.nodes.toList.mapIdx (edgeText style)) ++
    Dot.line "\x7d"

end WitnessTree

end ModalCalls
