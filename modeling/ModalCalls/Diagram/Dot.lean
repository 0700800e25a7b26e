import ModalCalls.Diagram.Walk

/-!
# Drawings

Drawings in the DOT language, of decision diagrams here and of witness trees elsewhere.

* `Dot.Style`, `Dot.quote`: what all drawings share, which is how they look and how a text is put between
  double quotes.
* `Store.dotLabelled`: the drawing of some diagrams that live in one store.
-/

namespace ModalCalls

/-! ## Style and quoting

A label is any text, so it has to be protected before it can stand between double quotes.  The order matters:
were the quotes protected first, the backslashes put in front of them would be doubled afterwards.
-/

namespace Dot

/-- What a drawing looks like. -/
structure Style where
  /-- Shape of variable nodes. -/
  nodeShape : String := "circle"
  /-- Shape of the two constants. -/
  terminalShape : String := "square"
  /-- Shape of the roots, and of the boxes of a witness tree. -/
  rootShape : String := "rect"
  /-- Line of a high edge. -/
  highStyle : String := "solid"
  /-- Line of a low edge. -/
  lowStyle : String := "dashed"
  /-- Line of a complemented edge. -/
  negatedStyle : String := "dotted"
  /-- Whether variables are written with a subscript. -/
  htmlLabels : Bool := true
  /-- Colour of the result path of a witness tree. -/
  resultColor : String := "red"
deriving DecidableEq, Inhabited

/-- A text with every occurrence of a character protected by a backslash. -/
def protect (special : Char) : List Char → List Char
  | [] => []
  | c :: cs => if c = special then '\\' :: c :: protect special cs else c :: protect special cs

/-- A text fit to stand between double quotes: backslashes are protected first, then quotes. -/
def quote (text : String) : String :=
  String.ofList (protect '"' (protect '\\' text.toList))

/-- A statement of a drawing on a line of its own. -/
def line (text : String) : String :=
  text ++ "\n"

end Dot

/-! ## Diagrams

The constants stand at the bottom and the labelled roots at the top; in between, the nodes that test the same
variable share a rank, ranks by variable and nodes by index.  A node is labelled with the input it tests, which is
one less than its variable.  The end of a complemented edge is a circle, except that a complemented edge to the
terminal is drawn as one to the constant `0`.  High edges are never complemented.
-/

namespace Store

/-- Nodes with their indices. -/
abbrev Numbered := List (Nat × Node)

/-- The nodes below some roots, with their indices, in index order. -/
def numberedBelow (s : Store) (roots : List Handle) : Except Fault Numbered := do
  let below ← s.descendants roots
  below.toList.mapM fun i => do
    let n ← s.node i
    return (i, n)

/-- Nodes grouped by variable, smallest variable first, the order within a group kept. -/
def levels (nodes : Numbered) : List Numbered :=
  let vars := (nodes.map fun (_, n) => n.var).mergeSort.eraseDups
  vars.map fun v => nodes.filter fun (_, n) => n.var = v

/-- The label of a node that tests variable `v`. -/
def inputLabel (style : Dot.Style) (v : Nat) : String :=
  if style.htmlLabels then "<x<SUB>" ++ toString (v - 1) ++ "</SUB>>"
  else "\"x" ++ toString (v - 1) ++ "\""

/-- The rank of the nodes of one level. -/
def rankText (style : Dot.Style) (level : Numbered) : String :=
  Dot.line "\x7b rank=same" ++
    String.join (level.map fun (i, n) =>
      Dot.line (toString i ++ " [label=" ++ inputLabel style n.var ++ "];")) ++
    Dot.line "\x7d"

/-- The edge to a low child.  A complemented terminal is drawn as the constant `0`. -/
def lowEdge (style : Dot.Style) (i : Nat) (low : Handle) : String :=
  if low.isNegated then
    if low.isTerminal then
      Dot.line (toString i ++ " -- 0 [style=" ++ style.lowStyle ++ "];")
    else
      Dot.line (toString i ++ " -- " ++ toString low.index ++ " [style=" ++ style.negatedStyle ++
        ", dir=forward, arrowhead=odot];")
  else
    Dot.line (toString i ++ " -- " ++ toString low.index ++ " [style=" ++ style.lowStyle ++ "];")

/-- The two edges of a node. -/
def nodeEdges (style : Dot.Style) (i : Nat) (n : Node) : String :=
  Dot.line (toString i ++ " -- " ++ toString n.high.index ++ " [style=" ++ style.highStyle ++ "];")
    ++ lowEdge style i n.low

/-- The statement of a root. -/
def rootText (style : Dot.Style) (position : Nat) (label : String) : String :=
  Dot.line ("r" ++ toString position ++ " [shape=" ++ style.rootShape ++ ", label=\"" ++
    Dot.quote label ++ "\"];")

/-- The edge from a root to its diagram. -/
def rootEdge (position : Nat) (f : Handle) : String :=
  if f.isNegated then
    if f.isTerminal then Dot.line ("r" ++ toString position ++ " -- 0;")
    else Dot.line ("r" ++ toString position ++ " -- " ++ toString f.index ++
      " [dir=forward, arrowhead=odot];")
  else Dot.line ("r" ++ toString position ++ " -- " ++ toString f.index ++ ";")

/-- The statements before the nodes. -/
def preamble (style : Dot.Style) : String :=
  Dot.line "graph \x7b" ++
    Dot.line ("node [shape=" ++ style.nodeShape ++ ", fixedsize=true];") ++
    Dot.line "\x7b rank=sink" ++
    Dot.line ("0 [shape=" ++ style.terminalShape ++ ", label=\"0\"];") ++
    Dot.line ("1 [shape=" ++ style.terminalShape ++ ", label=\"1\"];") ++
    Dot.line "\x7d"

/-- **The drawing of labelled roots.** -/
def dotLabelled (s : Store) (style : Dot.Style) (roots : List (Handle × String)) :
    Except Fault String := do
  let nodes ← s.numberedBelow (roots.map (·.1))
  let levels := levels nodes
  return preamble style ++
    String.join (levels.map (rankText style)) ++
    String.join (levels.map fun level => String.join (level.map fun (i, n) => nodeEdges style i n)) ++
    Dot.line "\x7b rank=source" ++
    String.join (roots.mapIdx fun k (_, label) => rootText style k label) ++
    Dot.line "\x7d" ++
    String.join (roots.mapIdx fun k (f, _) => rootEdge k f) ++
    Dot.line "\x7d"

/-- The drawing of some diagrams, each root labelled with its handle. -/
def dot (s : Store) (style : Dot.Style) (roots : List Handle) : Except Fault String :=
  s.dotLabelled style (roots.map fun f => (f, f.display))

end Store

end ModalCalls
