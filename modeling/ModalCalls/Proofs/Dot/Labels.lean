import Mathlib
import ModalCalls.Equation.Numbering
import ModalCalls.Proofs.Computation
import ModalCalls.Transformer.Basic
import ModalCalls.Witness.Tree

/-!
# Labels in drawings

A drawing has labels between double quotes, and what is written there comes from names and formulas.  Whoever
reads a drawing takes a label to end at the first quote that no backslash protects (`Dot.readLabel`).  A label
is *closed* if that is the quote that was written to end it, whatever comes after (`Dot.IsClosed`).

Reading goes from left to right and remembers only whether the last character protects the next one.  So a
label is closed exactly if reading it meets no quote without protection, and ends without protecting what
comes next (`Dot.isClosed_iff`).  Both can be said of a label part by part.

* `Dot.isClosed_quote` — a text that was quoted is closed.
* `WitnessTree.isClosed_boxLabel` — the label of a box in a tree has the procedure in it as it is, so it is
  closed only if the name does not break it.
* `Dot.labels_closed` — **which labels of a drawing are closed**, for trees and transformers.
-/

namespace ModalCalls

namespace Dot

/-! ## Reading a label

A reader is defined first, independently of anything that writes.  Its state is one bit, so a text acts on
it in two ways only: it may meet a quote without protection, and it may leave what follows protected.
`breaks` and `guards` compute these two, and both go through a concatenation from left to right.
-/

/-- What stands before the first quote that is not protected, and what comes after it.  `guarded` says
whether the character before protects the first one. -/
def readLabel (guarded : Bool) : List Char → Option (List Char × List Char)
  | [] => none
  | c :: cs =>
    if !guarded && c == '"' then some ([], cs)
    else (readLabel (!guarded && c == '\\') cs).map fun read => (c :: read.1, read.2)

/-- Whether a text has a quote that is not protected. -/
def breaks (guarded : Bool) : List Char → Bool
  | [] => false
  | c :: cs => !guarded && c == '"' || breaks (!guarded && c == '\\') cs

/-- Whether a text protects what comes after it. -/
def guards (guarded : Bool) (cs : List Char) : Bool :=
  cs.foldl (fun guarded c => !guarded && c == '\\') guarded

/-- **A label is closed**: the first quote that is not protected is the one that ends it, whatever comes
after. -/
def IsClosed (body : String) : Prop :=
  ∀ rest, readLabel false (body.toList ++ '"' :: rest) = some (body.toList, rest)

variable {g : Bool} {cs ds : List Char}

lemma guards_append (g : Bool) (cs ds : List Char) : guards g (cs ++ ds) = guards (guards g cs) ds :=
  List.foldl_append

lemma breaks_append (g : Bool) (cs ds : List Char) :
    breaks g (cs ++ ds) = (breaks g cs || breaks (guards g cs) ds) := by
  induction cs generalizing g with
  | nil => rfl
  | cons c cs ih =>
      simp only [List.cons_append, breaks, ih, Bool.or_assoc]
      rfl

/-- A text without a quote of its own is read through. -/
lemma readLabel_append (h : breaks g cs = false) (ds : List Char) :
    readLabel g (cs ++ ds) = (readLabel (guards g cs) ds).map fun read => (cs ++ read.1, read.2) := by
  induction cs generalizing g with
  | nil => simp [guards]
  | cons c cs ih =>
      simp only [breaks, Bool.or_eq_false_iff] at h
      simp only [List.cons_append, readLabel, h.1, Bool.false_eq_true, if_false, ih h.2, Option.map_map]
      rfl

/-- A text with a quote of its own is not. -/
lemma readLabel_of_breaks (h : breaks g cs = true) (ds : List Char) :
    ∃ read, readLabel g (cs ++ ds) = some read ∧ read.1.length < cs.length := by
  induction cs generalizing g with
  | nil => cases h
  | cons c cs ih =>
      simp only [List.cons_append, readLabel]
      cases hquote : !g && c == '"' with
      | true => exact ⟨([], cs ++ ds), by simp, by simp⟩
      | false =>
          rw [breaks, hquote, Bool.false_or] at h
          obtain ⟨read, hread, hlt⟩ := ih h
          exact ⟨(c :: read.1, read.2), by simp [hread], by simpa using hlt⟩

/-- **When a label is closed**: no quote in it is without protection, and its end protects nothing. -/
theorem isClosed_iff (body : String) :
    IsClosed body ↔ breaks false body.toList = false ∧ guards false body.toList = false := by
  constructor
  · intro h
    have hbreaks : breaks false body.toList = false := by
      by_contra hbreaks
      rw [Bool.not_eq_false] at hbreaks
      obtain ⟨read, hread, hlt⟩ := readLabel_of_breaks hbreaks ['"']
      rw [h []] at hread
      cases hread
      exact lt_irrefl _ hlt
    refine ⟨hbreaks, ?_⟩
    by_contra hguards
    rw [Bool.not_eq_false] at hguards
    have hread := h []
    rw [readLabel_append hbreaks, hguards] at hread
    simp [readLabel] at hread
  · rintro ⟨hbreaks, hguards⟩ rest
    rw [readLabel_append hbreaks, hguards]
    simp [readLabel]

/-! ## Quoting

Protecting backslashes and then quotes amounts to one walk that puts a backslash in front of either.  The
reader comes out of each such pair as it went in, so a quoted text neither breaks nor guards.
-/

/-- Protecting both characters goes through a text one character at a time. -/
lemma protect_protect_cons (c : Char) (cs : List Char) :
    protect '"' (protect '\\' (c :: cs))
      = (if c = '\\' ∨ c = '"' then ['\\', c] else [c]) ++ protect '"' (protect '\\' cs) := by
  by_cases hslash : c = '\\'
  · subst hslash
    simp [protect]
  · by_cases hquote : c = '"'
    · subst hquote
      simp [protect]
    · simp [protect, hslash, hquote]

/-- **A text that was quoted is closed.** -/
theorem isClosed_quote (text : String) : IsClosed (quote text) := by
  rw [isClosed_iff, quote, String.toList_ofList]
  induction text.toList with
  | nil => exact ⟨rfl, rfl⟩
  | cons c cs ih =>
      rw [protect_protect_cons, breaks_append, guards_append]
      have hfirst : breaks false (if c = '\\' ∨ c = '"' then ['\\', c] else [c]) = false ∧
          guards false (if c = '\\' ∨ c = '"' then ['\\', c] else [c]) = false := by
        split
        · simp [breaks, guards]
        · next hplain =>
            rw [not_or] at hplain
            simp [breaks, guards, hplain.1, hplain.2]
      rw [hfirst.1, hfirst.2, Bool.false_or]
      exact ih

/-! ## Parts of a drawing

A drawing is one long text, and which of its parts are labels cannot be told from the text alone.  So it is
taken apart into pieces, and the drawing functions are shown to render these pieces.  After that the labels
of a drawing are a list, and a statement about all of them is a statement about the members of a list.
-/

/-- A part of a drawing: some text as it is, or a label. -/
inductive Piece
  | plain (text : String)
  | label (body : String)

/-- What is written for a part. -/
def Piece.text : Piece → String
  | plain text => text
  | label body => "label=\"" ++ body ++ "\""

/-- What is written between the quotes of a label. -/
def Piece.body? : Piece → Option String
  | plain _ => none
  | label body => some body

/-- A drawing from its parts. -/
def render (pieces : List Piece) : String :=
  String.join (pieces.map Piece.text)

/-- The labels of a drawing, in their order. -/
def labels (pieces : List Piece) : List String :=
  pieces.filterMap Piece.body?

lemma render_append (ps qs : List Piece) : render (ps ++ qs) = render ps ++ render qs := by
  rw [render, List.map_append, String.join_append]
  rfl

lemma labels_append (ps qs : List Piece) : labels (ps ++ qs) = labels ps ++ labels qs :=
  List.filterMap_append

@[simp] lemma render_plain (text : String) : render [.plain text] = text := by
  simp [render, Piece.text]

@[simp] lemma labels_plain (text : String) : labels [.plain text] = [] :=
  rfl

/-- A statement with a label in it. -/
def around (before body after : String) : List Piece :=
  [.plain before, .label body, .plain after]

lemma labels_around (before body after : String) : labels (around before body after) = [body] :=
  rfl

/-- Parts that are drawn one after the other. -/
lemma join_mapIdx {α : Type} : ∀ {f : Nat → α → String} {pieces : Nat → α → List Piece},
    (∀ k a, f k a = render (pieces k a)) → ∀ l : List α,
      String.join (l.mapIdx f) = render (l.mapIdx pieces).flatten
  | _, _, _, [] => rfl
  | f, pieces, h, a :: l => by
      rw [List.mapIdx_cons, List.mapIdx_cons, String.join_cons, List.flatten_cons, render_append, h,
        join_mapIdx (fun k a => h (k + 1) a) l]

/-- The labels of such parts, if they do not depend on the place. -/
lemma labels_mapIdx {α : Type} {g : α → List String} : ∀ {f : Nat → α → List Piece},
    (∀ k a, labels (f k a) = g a) → ∀ l : List α, labels (l.mapIdx f).flatten = l.flatMap g
  | _, _, [] => rfl
  | _, h, a :: l => by
      rw [List.mapIdx_cons, List.flatten_cons, labels_append, h, labels_mapIdx (fun k a => h (k + 1) a) l,
        List.flatMap_cons]

end Dot

/-! ## Trees

The label of a box is put together from the name of the procedure, the state and a quoted formula, with an
escape for the line break between them.  The escape begins with a backslash.  A name that ends in one would
protect it, and still nothing is left protected behind the two characters; this is why only an unprotected
quote in the name can break the label.
-/

namespace WitnessTree

open Dot

variable (style : Dot.Style) (stateText : Nat → String)

/-- The label of the box of a node. -/
def boxLabel (n : WitnessNode) : String :=
  n.procedure ++ " " ++ stateText n.state ++ "\\n" ++ quote n.label

/-- The label of the edge to a node, if it has a parent and an action. -/
def edgeLabel (n : WitnessNode) : Option String :=
  n.parent.bind fun _ => n.action.map quote

/-- The parts of the box of a node. -/
def nodePieces (id : Nat) (n : WitnessNode) : List Piece :=
  around (toString id ++ " [") (boxLabel stateText n)
    ((if n.marked then ", color=" ++ style.resultColor else "") ++ "];\n")

/-- The parts of the edge to a node. -/
def edgePieces (id : Nat) (n : WitnessNode) : List Piece :=
  match n.parent, n.action with
  | none, _ => []
  | some p, none =>
    [.plain (toString p ++ " -> " ++ toString id ++
      (if n.marked then " [color=" ++ style.resultColor ++ "]" else "") ++ ";\n")]
  | some p, some a =>
    around (toString p ++ " -> " ++ toString id ++ " [") (quote a)
      ((if n.marked then ", color=" ++ style.resultColor else "") ++ "];\n")

/-- The parts of the drawing of a tree. -/
def pieces (t : WitnessTree) : List Piece :=
  [.plain (line "digraph \x7b" ++ line ("node [shape=" ++ style.rootShape ++ "];"))] ++
    (t.nodes.toList.mapIdx (nodePieces style stateText)).flatten ++
    (t.nodes.toList.mapIdx (edgePieces style)).flatten ++ [.plain (line "\x7d")]

lemma nodeText_eq (id : Nat) (n : WitnessNode) :
    nodeText style stateText id n = render (nodePieces style stateText id n) := by
  rw [← String.toList_inj]
  simp [nodeText, nodePieces, around, render, Piece.text, line, boxLabel]

lemma edgeText_eq (id : Nat) (n : WitnessNode) :
    edgeText style id n = render (edgePieces style id n) := by
  obtain ⟨parent, procedure, state, var, label, action, marked⟩ := n
  cases parent with
  | none => rfl
  | some p =>
      rw [← String.toList_inj]
      cases action <;> cases marked <;>
        simp [edgeText, edgeAttributes, edgePieces, around, render, Piece.text, line]

/-- **The drawing of a tree** is made of its parts. -/
lemma dot_eq_render (t : WitnessTree) :
    t.dot style stateText = render (t.pieces style stateText) := by
  rw [dot, pieces, join_mapIdx (nodeText_eq style stateText), join_mapIdx (edgeText_eq style),
    render_append, render_append, render_append, render_plain, render_plain]

/-- The labels of the drawing of a tree are those of the boxes and then those of the edges. -/
lemma labels_pieces (t : WitnessTree) : labels (t.pieces style stateText)
    = t.nodes.toList.map (boxLabel stateText) ++ t.nodes.toList.filterMap edgeLabel := by
  have hnodes : labels (t.nodes.toList.mapIdx (nodePieces style stateText)).flatten
      = t.nodes.toList.flatMap fun n => [boxLabel stateText n] :=
    labels_mapIdx (fun _ n => labels_around _ (boxLabel stateText n) _) _
  have hedges : labels (t.nodes.toList.mapIdx (edgePieces style)).flatten
      = t.nodes.toList.flatMap fun n => (edgeLabel n).toList := by
    refine labels_mapIdx (fun id n => ?_) _
    obtain ⟨parent, procedure, state, var, label, action, marked⟩ := n
    cases parent <;> cases action <;> rfl
  simp only [pieces, labels_append, hnodes, hedges, labels_plain, List.nil_append, List.append_nil,
    List.map_eq_flatMap, List.filterMap_eq_flatMap_toList]

/-- What follows the state of a box leaves nothing protected, also if the name ends with a backslash. -/
lemma guards_newline (g : Bool) : breaks g ['\\', 'n'] = false ∧ guards g ['\\', 'n'] = false := by
  cases g <;> exact ⟨rfl, rfl⟩

/-- **The label of a box is closed exactly if the name of the procedure and the state do not break it.** -/
theorem isClosed_boxLabel (n : WitnessNode) : IsClosed (boxLabel stateText n) ↔
    breaks false (n.procedure ++ " " ++ stateText n.state).toList = false := by
  obtain ⟨hbreaks, hguards⟩ := (isClosed_iff _).1 (isClosed_quote n.label)
  obtain ⟨hline, hopen⟩ := guards_newline (guards false (n.procedure ++ " " ++ stateText n.state).toList)
  have hnewline : ("\\n" : String).toList = ['\\', 'n'] := rfl
  rw [isClosed_iff, boxLabel, String.toList_append, String.toList_append, hnewline]
  simp only [breaks_append, guards_append, hline, hopen, hbreaks, hguards, Bool.or_false, and_true]

/-- The label of an edge is closed. -/
lemma isClosed_edgeLabel {n : WitnessNode} {body : String} (h : edgeLabel n = some body) :
    IsClosed body := by
  obtain ⟨_, -, h⟩ := Option.bind_eq_some_iff.1 h
  obtain ⟨a, -, rfl⟩ := Option.map_eq_some_iff.1 h
  exact isClosed_quote a

end WitnessTree

/-! ## Transformers

Only the roots of a drawing are labelled with text from the formula, and that text is quoted.  What comes
before and after the roots is made of numbers and styles and is kept as two plain pieces.
-/

namespace Store

open Dot

variable (style : Dot.Style)

/-- The parts of the statement of a root. -/
def rootPieces (position : Nat) (root : Handle × String) : List Piece :=
  around ("r" ++ toString position ++ " [shape=" ++ style.rootShape ++ ", ") (quote root.2) "];\n"

/-- What is drawn before the roots. -/
def textBefore (nodes : Numbered) : String :=
  preamble style ++ String.join ((levels nodes).map (rankText style)) ++
    String.join ((levels nodes).map fun level => String.join (level.map fun a => nodeEdges style a.1 a.2)) ++
    line "\x7b rank=source"

/-- What is drawn after the roots. -/
def textAfter (roots : List (Handle × String)) : String :=
  line "\x7d" ++ String.join (roots.mapIdx fun k root => rootEdge k root.1) ++ line "\x7d"

/-- The parts of the drawing of labelled roots over their nodes. -/
def piecesLabelled (nodes : Numbered) (roots : List (Handle × String)) : List Piece :=
  [.plain (textBefore style nodes)] ++ (roots.mapIdx (rootPieces style)).flatten ++
    [.plain (textAfter roots)]

lemma rootText_eq (position : Nat) (root : Handle × String) :
    rootText style position root.2 = render (rootPieces style position root) := by
  rw [← String.toList_inj]
  simp [rootText, rootPieces, around, render, Piece.text, line]

lemma dotLabelled_eq_render (s : Store) (roots : List (Handle × String)) :
    s.dotLabelled style roots
      = (s.numberedBelow (roots.map (·.1))).map fun nodes => render (piecesLabelled style nodes roots) := by
  cases hnodes : s.numberedBelow (roots.map (·.1)) with
  | error err =>
      rw [dotLabelled, hnodes]
      rfl
  | ok nodes =>
      rw [dotLabelled, hnodes]
      show Except.ok _ = Except.ok (render (piecesLabelled style nodes roots))
      rw [Except.ok.injEq, piecesLabelled, render_append, render_append, render_plain, render_plain,
        ← join_mapIdx (rootText_eq style), textBefore, textAfter]
      simp only [String.append_assoc]

lemma labels_piecesLabelled (nodes : Numbered) (roots : List (Handle × String)) :
    labels (piecesLabelled style nodes roots) = roots.map fun root => quote root.2 := by
  have hroots : labels (roots.mapIdx (rootPieces style)).flatten
      = roots.flatMap fun root => [quote root.2] :=
    labels_mapIdx (fun _ root => labels_around _ (quote root.2) _) _
  simp only [piecesLabelled, labels_append, hroots, labels_plain, List.nil_append, List.append_nil,
    List.map_eq_flatMap]

end Store

namespace Transformer

open Dot

/-- What is drawn at the top: each entry with its variable and subformula. -/
def roots (e : EquationSystem) (t : Transformer) : Except Fault (List (Handle × String)) :=
  t.entries.toList.zipIdx.mapM fun (f, v) => do
    let text ← label e v
    return (f, toString v ++ ": " ++ text)

/-- The parts of the drawing of a transformer. -/
def pieces (e : EquationSystem) (s : Store) (style : Dot.Style) (t : Transformer) :
    Except Fault (List Piece) := do
  let roots ← t.roots e
  let nodes ← s.numberedBelow (roots.map (·.1))
  return Store.piecesLabelled style nodes roots

/-- **The drawing of a transformer** is made of its parts. -/
lemma dot_eq_render (e : EquationSystem) (s : Store) (style : Dot.Style) (t : Transformer) :
    t.dot e s style = (t.pieces e s style).map render := by
  show (t.roots e >>= s.dotLabelled style) = _
  rw [pieces]
  cases t.roots e with
  | error err => rfl
  | ok roots =>
      show s.dotLabelled style roots = _
      rw [Store.dotLabelled_eq_render]
      show _ = Except.map render (s.numberedBelow (roots.map (·.1)) >>= fun nodes =>
        .ok (Store.piecesLabelled style nodes roots))
      cases s.numberedBelow (roots.map (·.1)) <;> rfl

/-- The labels of the drawing of a transformer are those at the top, all of them quoted. -/
lemma labels_of_pieces {e : EquationSystem} {s : Store} {style : Dot.Style} {t : Transformer}
    {ps : List Piece} (h : t.pieces e s style = .ok ps) :
    ∃ roots, t.roots e = .ok roots ∧ labels ps = roots.map fun root => quote root.2 := by
  obtain ⟨roots, hroots, h⟩ := except_bind_eq_ok h
  obtain ⟨nodes, -, h⟩ := except_bind_eq_ok h
  cases h
  exact ⟨roots, hroots, Store.labels_piecesLabelled style nodes roots⟩

end Transformer

/-! ## Drawings

Both kinds of drawing in one statement.  The last theorem is the case that fails: nothing quotes the name of
a procedure.
-/

namespace Dot

/-- **Which labels of a drawing are closed.**  In the drawing of a tree, the labels are those of the boxes and
then those of the edges.  Those of edges are closed; that of a box is closed exactly if the name of its
procedure, with the state after it, has no quote that is not protected.  In the drawing of a transformer the
labels that come from the formula are those of the roots, and all of them are closed. -/
theorem labels_closed (style : Dot.Style) :
    (∀ (stateText : Nat → String) (t : WitnessTree),
      t.dot style stateText = render (t.pieces style stateText) ∧
      labels (t.pieces style stateText) = t.nodes.toList.map (WitnessTree.boxLabel stateText) ++
        t.nodes.toList.filterMap WitnessTree.edgeLabel ∧
      (∀ n ∈ t.nodes, IsClosed (WitnessTree.boxLabel stateText n) ↔
        breaks false (n.procedure ++ " " ++ stateText n.state).toList = false) ∧
      ∀ body ∈ t.nodes.toList.filterMap WitnessTree.edgeLabel, IsClosed body) ∧
    ∀ (e : EquationSystem) (s : Store) (u : Transformer),
      u.dot e s style = (u.pieces e s style).map render ∧
      ∀ ps, u.pieces e s style = .ok ps → ∃ roots, u.roots e = .ok roots ∧
        labels ps = roots.map (fun root => quote root.2) ∧ ∀ body ∈ labels ps, IsClosed body := by
  constructor
  · intro stateText t
    refine ⟨t.dot_eq_render style stateText, t.labels_pieces style stateText,
      fun n _ => WitnessTree.isClosed_boxLabel stateText n, fun body hbody => ?_⟩
    obtain ⟨n, -, hn⟩ := List.mem_filterMap.1 hbody
    exact WitnessTree.isClosed_edgeLabel hn
  · intro e s u
    refine ⟨u.dot_eq_render e s style, fun ps hps => ?_⟩
    obtain ⟨roots, hroots, hlabels⟩ := Transformer.labels_of_pieces hps
    refine ⟨roots, hroots, hlabels, fun body hbody => ?_⟩
    rw [hlabels, List.mem_map] at hbody
    obtain ⟨root, -, rfl⟩ := hbody
    exact isClosed_quote root.2

/-- A search that has reached one position. -/
def onePosition (procedure label : String) : WitnessTree :=
  ({} : WitnessTree).push ⟨none, procedure, 0, 0, label, none, false⟩

theorem labels_closed_quotedAtom : ∃ e ps,
    EquationSystem.ofFormula (.atom "\"\\") = .ok e ∧
    (Transformer.start e).pieces e (.empty 3) {} = .ok ps ∧ (labels ps).length = 1 ∧
    (∀ body ∈ labels ps, IsClosed body) ∧
    ∀ n ∈ (onePosition "main\\" "\"\\").nodes, IsClosed (WitnessTree.boxLabel toString n) := by
  have hcheck : ((EquationSystem.ofFormula (.atom "\"\\")).toOption.bind fun e =>
      ((Transformer.start e).pieces e (.empty 3) {}).toOption.map fun ps => (labels ps).length)
      = some 1 := by
    decide +kernel
  obtain ⟨e, he, hcheck⟩ := Option.bind_eq_some_iff.1 hcheck
  obtain ⟨ps, hps, hlength⟩ := Option.map_eq_some_iff.1 hcheck
  have hok : ∀ {ε α : Type} {x : Except ε α} {a : α}, x.toOption = some a → x = .ok a := by
    rintro ε α (err | b) a h <;> cases h
    rfl
  obtain ⟨htrees, htransformers⟩ := labels_closed {}
  obtain ⟨-, -, hboxes, -⟩ := htrees toString (onePosition "main\\" "\"\\")
  obtain ⟨-, -, -, hclosed⟩ := (htransformers e (.empty 3) (.start e)).2 ps (hok hps)
  have hbox : ∀ n ∈ (onePosition "main\\" "\"\\").nodes, IsClosed (WitnessTree.boxLabel toString n) := by
    intro n hn
    rw [hboxes n hn]
    obtain rfl : n = ⟨none, "main\\", 0, 0, "\"\\", none, false⟩ := by
      simpa [onePosition, WitnessTree.push] using hn
    decide +kernel
  exact ⟨e, ps, hok he, hok hps, hlength, hclosed, hbox⟩

/-- **A name breaks a label**: a procedure whose name is a quote ends the label of its box where it
begins. -/
theorem quotedName_breaks :
    (onePosition "\"" "x").dot {} toString
      = "digraph \x7b\nnode [shape=rect];\n0 [label=\"" ++ "\" 0\\nx\"];\n\x7d\n" ∧
    readLabel false "\" 0\\nx\"];\n\x7d\n".toList = some ([], " 0\\nx\"];\n\x7d\n".toList) := by
  constructor
  · decide +kernel
  · decide +kernel

end Dot

end ModalCalls
