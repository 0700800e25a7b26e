import ModalCalls.Transformer.Basic

/-!
# Several stores for one equation system

A pool holds several stores over the same equations.  A transformer taken from a pool remembers the
store its handles refer to, because a handle means nothing elsewhere: composing or comparing
transformers of different stores is a fault.  Only `Pool.update` takes the transformers along the
edges as they come, without asking where they belong.
-/

namespace ModalCalls

/-- Stores over one equation system. -/
structure Pool where
  equations : EquationSystem
  stores : Array Store

/-- A transformer together with the position of its store. -/
structure Pooled where
  store : Nat
  transformer : Transformer
deriving DecidableEq, Inhabited

/-- Computations over a pool.  A fault leaves the pool as it was reached. -/
abbrev PoolM := EStateM Fault Pool

namespace Pool

/-- A pool of fresh stores of the given sizes. -/
def create (e : EquationSystem) (bits : List Nat) : Pool :=
  ⟨e, (bits.map Store.empty).toArray⟩

/-- Run a computation on one store of the pool.  The store is taken out while it runs. -/
def onStore {α : Type} (k : Nat) (x : DiagramM α) : PoolM α := fun p =>
  match p.stores[k]? with
  | none => .error (.noSuchIndex k) p
  | some store =>
    let p := { p with stores := p.stores.setIfInBounds k (.empty 0) }
    match x store with
    | .ok a store => .ok a { p with stores := p.stores.setIfInBounds k store }
    | .error e store => .error e { p with stores := p.stores.setIfInBounds k store }

/-- Look at one store of the pool. -/
def inspect {α : Type} (k : Nat) (query : Store → Except Fault α) : PoolM α := fun p =>
  match p.stores[k]? with
  | none => .error (.noSuchIndex k) p
  | some store =>
    match query store with
    | .ok a => .ok a p
    | .error e => .error e p

/-- Ask a question about a transformer, its equations and its store. -/
def query {α : Type} (t : Pooled) (ask : EquationSystem → Store → Transformer → Except Fault α) :
    PoolM α := do
  let e := (← get).equations
  inspect t.store fun s => ask e s t.transformer

/-- What states begin with, in store `k`. -/
def start (k : Nat) : PoolM Pooled := do
  let e := (← get).equations
  inspect k fun _ => .ok ⟨k, .start e⟩

/-- The transformer of final states, in store `k`. -/
def identity (k : Nat) : PoolM Pooled := do
  let e := (← get).equations
  return ⟨k, ← onStore k (Transformer.identity e)⟩

/-- The transformer of an internal edge, in store `k`. -/
def ofEdge (k : Nat) (label : String) (modality : Modality) : PoolM Pooled := do
  let e := (← get).equations
  return ⟨k, ← onStore k (Transformer.ofEdge e label modality)⟩

/-- Read a transformer into store `k`. -/
def ofSerial (k : Nat) (texts : List String) : PoolM (Except SerialError Pooled) := do
  let e := (← get).equations
  match ← onStore k (Transformer.ofSerial e texts) with
  | .ok t => return .ok ⟨k, t⟩
  | .error err => return .error err

/-- Composition of transformers of one store. -/
def compose (t u : Pooled) : PoolM Pooled :=
  if t.store = u.store then do
    return ⟨t.store, ← onStore t.store (t.transformer.compose u.transformer)⟩
  else throw .mixedStores

/-- Equality of transformers of one store. -/
def equal (t u : Pooled) : PoolM Bool :=
  if t.store = u.store then return decide (t.transformer = u.transformer)
  else throw .mixedStores

/-- The variables of a block. -/
def blockVars (block : Nat) : PoolM (List Nat) := do
  match (← get).equations.blocks[block]? with
  | some b => return b.vars
  | none => throw (.noSuchBlock block)

/-- Update a transformer in its store. -/
def update (t : Pooled) (props : List String) (along : List Pooled) (vars : List Nat) :
    PoolM Pooled := do
  let e := (← get).equations
  let t' ← onStore t.store (t.transformer.update e props (along.map (·.transformer)) vars)
  return ⟨t.store, t'⟩

end Pool

end ModalCalls
