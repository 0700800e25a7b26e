import ModalCalls.Diagram.Ite
import ModalCalls.Diagram.Serial
import ModalCalls.Diagram.Dot
import ModalCalls.Equation.Basic
import ModalCalls.Process.Graph

/-!
# Property transformers

What holds at a state of a procedure depends on what holds where the procedure returns to.  A
`Transformer` records this dependence: for each variable of an equation system it has a diagram over
inputs `0, 1, …`, where input `v` stands for "variable `v` holds after the return".  Diagram variable
`v + 1` reads input `v`.

* `Transformer.start` is what a state begins with: true in greatest blocks, false in least ones.
* `Transformer.identity` belongs to a final state: what holds there is what holds after the return.
* `Transformer.ofEdge` belongs to an internal edge: what holds before the step, as far as this step
  alone can tell, in terms of what holds after it.
* `Transformer.compose` puts one after another, and `Transformer.update` computes the entries of a
  block from the transformers along the outgoing edges.

Transformers are vectors of handles, and since a function has only one handle, comparing
transformers is comparing handles.
-/

namespace ModalCalls

/-- A diagram for each variable of an equation system. -/
structure Transformer where
  entries : Array Handle
deriving DecidableEq, Inhabited

/-- A failure of the storage behind transformers. -/
inductive StorageError where
  /-- A store may not have this size. -/
  | invalidBits (bits : Nat)
  /-- A node could not be stored. -/
  | storageFull (capacity : Nat)
deriving DecidableEq, Inhabited

/-- The wording of a storage failure. -/
def StorageError.message : StorageError → String
  | invalidBits bits => s!"storage bits should be in the range 1..=31, got {bits}"
  | storageFull capacity => s!"unique table is full ({capacity} nodes)"

/-- The size of a store as asked for, if a store may have it. -/
def Store.checkBits (bits : Nat) : Except StorageError Nat :=
  if Store.validBits bits then .ok bits else .error (.invalidBits bits)

/-- Whether everything computed in a store so far can be trusted. -/
def Store.check (s : Store) : Except StorageError Unit :=
  if s.overflowed then .error (.storageFull s.capacity) else .ok ()

namespace Transformer

/-! ## Elementary transformers

Three transformers are known before anything is solved.  An edge says nothing about operators that are not
modal; their entries are false, and no update reads them.
-/

/-- The diagram that reads input `v`. -/
def input (v : Nat) : DiagramM Handle :=
  DiagramM.mkVar (v + 1)

/-- What a state begins with. -/
def start (e : EquationSystem) : Transformer :=
  ⟨((List.range e.size).map fun v => Handle.constant (e.isMax v)).toArray⟩

/-- The transformer of a final state. -/
def identity (e : EquationSystem) : DiagramM Transformer := do
  let entries ← (List.range e.size).mapM input
  return ⟨entries.toArray⟩

/-- Whether a modality speaks about steps with a label. -/
def speaksOf (action : Option String) (label : String) : Bool :=
  action.all (· = label)

/-- The entry of an operator at an internal edge.  A box that does not speak about the label asks
nothing of the step, and only a must edge can serve a diamond. -/
def edgeEntry (label : String) (modality : Modality) : Operator → DiagramM Handle
  | .box action child => if speaksOf action label then input child else pure .one
  | .dia action child =>
    if speaksOf action label && decide (modality = .must) then input child else pure .zero
  | _ => pure .zero

/-- The transformer of an internal edge. -/
def ofEdge (e : EquationSystem) (label : String) (modality : Modality) : DiagramM Transformer := do
  let entries ← e.equations.toList.mapM fun q => edgeEntry label modality q.operator
  return ⟨entries.toArray⟩

/-! ## Composition and update

An update reads two kinds of entries.  Modal operators read the transformers along the edges, where the step
has been taken already.  All others read the entries of the state itself, as they are at that moment.
-/

/-- **Composition**: first `u`, then `t` on what `u` yields. -/
def compose (t u : Transformer) : DiagramM Transformer := do
  let entries ← t.entries.toList.mapM fun f => DiagramM.compose f u.entries
  return ⟨entries.toArray⟩

/-- An entry that the caller knows to exist. -/
def entry (entries : Array Handle) (v : Nat) : Except Fault Handle :=
  match entries[v]? with
  | some f => .ok f
  | none => .error (.noSuchVariable v)

/-- The new entry of an operator at a state with some atomic propositions, from the entries so far
and from the transformers along the outgoing edges. -/
def operatorEntry (props : List String) (along : List Transformer) (entries : Array Handle)
    (v : Nat) : Operator → DiagramM Handle
  | .top => pure .one
  | .bot => pure .zero
  | .atom p => pure (.constant (props.contains p))
  | .neg c => do
    let f ← DiagramM.read fun _ => entry entries c
    return -f
  | .conj l r => do
    let f ← DiagramM.read fun _ => entry entries l
    let g ← DiagramM.read fun _ => entry entries r
    DiagramM.and f g
  | .disj l r => do
    let f ← DiagramM.read fun _ => entry entries l
    let g ← DiagramM.read fun _ => entry entries r
    DiagramM.or f g
  | .box .. => do
    let fs ← DiagramM.read fun _ => along.mapM fun t => entry t.entries v
    DiagramM.andMany fs
  | .dia .. => do
    let fs ← DiagramM.read fun _ => along.mapM fun t => entry t.entries v
    DiagramM.orMany fs

/-- Compute the entry of one variable again. -/
def updateEntry (e : EquationSystem) (props : List String) (along : List Transformer)
    (entries : Array Handle) (v : Nat) : DiagramM (Array Handle) :=
  match e.operator? v with
  | none => throw (.noSuchVariable v)
  | some op => do
    let f ← operatorEntry props along entries v op
    return entries.setIfInBounds v f

/-- **Update**: the entries of some variables computed again, one after the other, so that operands
listed before an operator are seen with their new entries. -/
def update (e : EquationSystem) (t : Transformer) (props : List String) (along : List Transformer)
    (vars : List Nat) : DiagramM Transformer := do
  let entries ← vars.foldlM (updateEntry e props along) t.entries
  return ⟨entries⟩

/-! ## Reading transformers

Entries are evaluated, written, read and drawn one after the other, in the order of variables.  Reading
stops at the first text that is malformed; what was read before stays in the store.
-/

/-- The truth of every variable, given what holds after the return. -/
def values (s : Store) (t : Transformer) (inputs : Array Bool) : Except Fault (List Bool) :=
  t.entries.toList.mapM fun f => s.eval f inputs

/-- **The variables that hold**, given what holds after the return. -/
def evaluate (s : Store) (t : Transformer) (inputs : Array Bool) : Except Fault VarSet := do
  let values ← t.values s inputs
  return .ofBools values.toArray

/-- The serial forms of the entries. -/
def serial (s : Store) (t : Transformer) : Except Fault (List String) :=
  t.entries.toList.mapM s.serial

/-- Read the entries one after the other, up to the first that is malformed. -/
def readEntries : List String → DiagramM (Except SerialError (List Handle))
  | [] => pure (.ok [])
  | text :: rest => do
    match ← DiagramM.ofSerial text with
    | .error e => return .error e
    | .ok f =>
      match ← readEntries rest with
      | .error e => return .error e
      | .ok fs => return .ok (f :: fs)

/-- The transformer of an equation system with given serial forms. -/
def ofSerial (e : EquationSystem) (texts : List String) :
    DiagramM (Except SerialError Transformer) :=
  if texts.length = e.size then do
    match ← readEntries texts with
    | .error err => return .error err
    | .ok fs => return .ok ⟨fs.toArray⟩
  else
    pure (.error (.wrongArity e.size texts.length))

/-- The bracket forms of the entries, quoted and between brackets. -/
def bracket (s : Store) (t : Transformer) : Except Fault String := do
  let texts ← t.entries.toList.mapM s.bracket
  return "[" ++ String.intercalate ", " (texts.map fun text => "\"" ++ text ++ "\"") ++ "]"

/-- The written form of the subformula of an entry. -/
def label (e : EquationSystem) (v : Nat) : Except Fault String :=
  match e.label? v with
  | some label => .ok label
  | none => .error (.noSuchVariable v)

/-- The drawing of all entries, each root labelled with its variable and subformula. -/
def dot (e : EquationSystem) (s : Store) (style : Dot.Style) (t : Transformer) :
    Except Fault String := do
  let roots ← t.entries.toList.zipIdx.mapM fun (f, v) => do
    let text ← label e v
    return (f, toString v ++ ": " ++ text)
  s.dotLabelled style roots

end Transformer

end ModalCalls
