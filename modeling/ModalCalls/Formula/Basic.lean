/-!
# Formulas

The modal mu-calculus with the operators of branching time.  A modality names an action or, with
`none`, ranges over all of them: `[a]f` holds if every `a`-successor satisfies `f`, and `<a>f` if
some `a`-successor along a must edge does.  Fixpoints bind names; a name may be bound again inside
its own scope.

The eight branching operators quantify over maximal paths.  They are defined in terms of fixpoints
by `Formula.expand`.
-/

namespace ModalCalls

/-- A formula. -/
inductive Formula where
  | top
  | bot
  | atom (p : String)
  | neg (f : Formula)
  | conj (f g : Formula)
  | disj (f g : Formula)
  /-- Every successor by the action satisfies `f`. -/
  | box (action : Option String) (f : Formula)
  /-- Some must successor by the action satisfies `f`. -/
  | dia (action : Option String) (f : Formula)
  /-- Least fixpoint. -/
  | mu (x : String) (f : Formula)
  /-- Greatest fixpoint. -/
  | nu (x : String) (f : Formula)
  /-- The fixpoint bound to a name. -/
  | ref (x : String)
  /-- On every path, at some time. -/
  | af (f : Formula)
  /-- On every path, at all times. -/
  | ag (f : Formula)
  /-- On every path, `f` until `g`. -/
  | au (f g : Formula)
  /-- On every path, `f` until `g` or for ever. -/
  | aw (f g : Formula)
  /-- On some path, at some time. -/
  | ef (f : Formula)
  /-- On some path, at all times. -/
  | eg (f : Formula)
  /-- On some path, `f` until `g`. -/
  | eu (f g : Formula)
  /-- On some path, `f` until `g` or for ever. -/
  | ew (f g : Formula)
deriving DecidableEq, Inhabited

namespace Formula

/-- Immediate subformulas, left to right. -/
def children : Formula → List Formula
  | top | bot | atom _ | ref _ => []
  | neg f | box _ f | dia _ f | mu _ f | nu _ f | af f | ag f | ef f | eg f => [f]
  | conj f g | disj f g | au f g | aw f g | eu f g | ew f g => [f, g]

/-- Whether a branching operator occurs. -/
def isBranching : Formula → Bool
  | top | bot | atom _ | ref _ => false
  | neg f | box _ f | dia _ f | mu _ f | nu _ f => f.isBranching
  | conj f g | disj f g => f.isBranching || g.isBranching
  | af _ | ag _ | au .. | aw .. | ef _ | eg _ | eu .. | ew .. => true

/-- The names of all fixpoints, bound or referred to.  A formula comes before its subformulas, and
a right operand before a left one. -/
def names : Formula → List String
  | top | bot | atom _ => []
  | ref x => [x]
  | mu x f | nu x f => x :: f.names
  | neg f | box _ f | dia _ f | af f | ag f | ef f | eg f => f.names
  | conj f g | disj f g | au f g | aw f g | eu f g | ew f g => g.names ++ f.names

/-- Whether a formula is just a reference to a fixpoint. -/
def isRef : Formula → Bool
  | ref _ => true
  | _ => false

/-- The action of a modality as it stands between its brackets. -/
def actionText (action : Option String) : String :=
  action.getD ""

/-- The written form of a formula. -/
def display : Formula → String
  | top => "true"
  | bot => "false"
  | atom p => "\"" ++ p ++ "\""
  | neg f => "!" ++ f.display
  | conj f g => "(" ++ f.display ++ " && " ++ g.display ++ ")"
  | disj f g => "(" ++ f.display ++ " || " ++ g.display ++ ")"
  | box a f => "[" ++ actionText a ++ "]" ++ f.display
  | dia a f => "<" ++ actionText a ++ ">" ++ f.display
  | mu x f => "mu " ++ x ++ "." ++ f.display
  | nu x f => "nu " ++ x ++ "." ++ f.display
  | ref x => x
  | af f => "AF " ++ f.display
  | ag f => "AG " ++ f.display
  | au f g => "A[" ++ f.display ++ " U " ++ g.display ++ "]"
  | aw f g => "A[" ++ f.display ++ " W " ++ g.display ++ "]"
  | ef f => "EF " ++ f.display
  | eg f => "EG " ++ f.display
  | eu f g => "E[" ++ f.display ++ " U " ++ g.display ++ "]"
  | ew f g => "E[" ++ f.display ++ " W " ++ g.display ++ "]"

end Formula

end ModalCalls
