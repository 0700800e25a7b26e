/-!
# What a run reports

A run reports what it does as a list of `Event`s: how a formula was numbered, which states were
updated, when a block was finished, what a search visited.  An event is data; its level, the part of
the program it comes from and its wording are read off it, so a run builds no text.
-/

namespace ModalCalls

/-- How important a report is. -/
inductive Level where
  | debug
  | info
  | warn
deriving DecidableEq, Inhabited

/-- The written form of a level. -/
def Level.display : Level → String
  | debug => "DEBUG"
  | info => "INFO"
  | warn => "WARN"

/-- Something a run reports. -/
inductive Event where
  /-- A system passed validation. -/
  | systemValidated (procedures : Nat) (main : String) (called : Nat)
  /-- A subformula received its number. -/
  | subformulaNumbered (var : Nat) (operator label : String)
  /-- A formula was turned into equations. -/
  | equationsBuilt (formula : String) (vars blocks : Nat)
  /-- A session began. -/
  | sessionStarted (formula : String) (block : Nat)
  /-- The transformer of an edge label was built. -/
  | edgeTransformerBuilt (modality label : String)
  /-- The transformer of a state was computed again. -/
  | stateUpdated (count state : Nat) (procedure : String) (block : Nat) (changed : Bool)
  /-- A block is finished and the next one begins. -/
  | blockAdvanced (block updates : Nat)
  /-- The number of updates allowed is used up. -/
  | budgetExhausted (budget block : Nat)
  /-- Nothing is left to update. -/
  | sessionConverged (updates : Nat)
  /-- The verdict on a formula. -/
  | verdictReached (formula : String) (satisfied : Bool)
  /-- The store has no room for another node. -/
  | storeOverflowed (capacity : Nat)
  /-- A store is given up. -/
  | storeReleased (description : String)
  /-- A search reached a new position. -/
  | positionReached (id parent state var : Nat)
  /-- A search found what it looked for. -/
  | witnessFound (length positions : Nat)
deriving DecidableEq, Inhabited

namespace Event

/-- The level of a report. -/
def level : Event → Level
  | systemValidated .. | subformulaNumbered .. | edgeTransformerBuilt .. | stateUpdated ..
  | storeReleased .. | positionReached .. => .debug
  | equationsBuilt .. | sessionStarted .. | blockAdvanced .. | sessionConverged ..
  | verdictReached .. | witnessFound .. => .info
  | budgetExhausted .. | storeOverflowed .. => .warn

/-- The part of the program a report comes from. -/
def origin : Event → String
  | subformulaNumbered .. | equationsBuilt .. => "dependency"
  | storeOverflowed .. => "bdd"
  | storeReleased .. => "bdd_transformer"
  | positionReached .. | witnessFound .. => "witness"
  | systemValidated .. | sessionStarted .. | edgeTransformerBuilt .. | stateUpdated ..
  | blockAdvanced .. | budgetExhausted .. | sessionConverged .. | verdictReached .. => "solver"

/-- The wording of a report. -/
def message : Event → String
  | systemValidated procedures main called =>
    s!"Validated system with {procedures} procedures, main '{main}', {called} called procedures"
  | subformulaNumbered var operator label => s!"var {var} = {operator}: {label}"
  | equationsBuilt formula vars blocks =>
    s!"Built dependency graph for {formula}: {vars} variables in {blocks} blocks"
  | sessionStarted formula block => s!"Starting session for {formula} at block {block}"
  | edgeTransformerBuilt modality label => s!"Creating {modality} transformer for '{label}'"
  | stateUpdated count state procedure block changed =>
    s!"Update #{count} of NodeId({state}) in '{procedure}' at block {block}: " ++
      if changed then "changed" else "stable"
  | blockAdvanced block updates => s!"Advancing to block {block} after {updates} updates"
  | budgetExhausted budget block => s!"Update budget of {budget} exhausted at block {block}"
  | sessionConverged updates => s!"Converged after {updates} updates"
  | verdictReached formula satisfied =>
    formula ++ if satisfied then " is satisfied" else " is not satisfied"
  | storeOverflowed capacity => s!"Storage is full ({capacity} nodes)"
  | storeReleased description => s!"Releasing BDD manager: {description}"
  | positionReached id parent state var =>
    s!"Witness state {id} <- {parent}: NodeId({state}) var {var}"
  | witnessFound length positions =>
    s!"Found witness of length {length} after {positions} search states"

end Event

/-- The reports of a run, oldest first. -/
abbrev Journal := Array Event

end ModalCalls
