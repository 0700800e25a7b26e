import Mathlib
import ModalCalls.Proofs.Semantics.Trails
import ModalCalls.Witness.Tree

/-!
# Paths in a witness tree

Every node of a witness tree comes after its parent.  So the way from the root to a node is found by going
from parent to parent, and the bound that `WitnessTree.pathTo` sets on this is never reached
(`WitnessTree.Leads.map_pathWithin`).  Neither a node that is added nor a mark changes a way that is there
(`WitnessTree.Keeps`).
-/

namespace ModalCalls

/-- What a node says about a visit. -/
def WitnessNode.visit (n : WitnessNode) : Visit :=
  ⟨n.procedure, n.state, n.var, n.action⟩

namespace WitnessTree

variable {t t' : WitnessTree} {id k : Nat} {n : WitnessNode} {visits : List Visit}

/-! ## Nodes

A tree is an array of nodes in which a node is known by its number.  It grows at the end, and marks are set
all at once.
-/

lemma lt_size_of_getElem? (hn : t.nodes[id]? = some n) : id < t.size :=
  (Array.getElem?_eq_some_iff.1 hn).1

lemma size_push (t : WitnessTree) (n : WitnessNode) : (t.push n).size = t.size + 1 := by
  simp [push, size]

lemma getElem?_push_of_lt (hk : k < t.size) (n : WitnessNode) : (t.push n).nodes[k]? = t.nodes[k]? := by
  rw [push, Array.getElem?_push_lt hk, ← Array.getElem?_eq_getElem hk]

lemma getElem?_push_size (t : WitnessTree) (n : WitnessNode) :
    (t.push n).nodes[t.size]? = some { n with marked := false } := by
  simp [push, size]

lemma size_markOnly (t : WitnessTree) (ids : List Nat) : (t.markOnly ids).size = t.size := by
  simp [markOnly, size]

lemma getElem?_markOnly (t : WitnessTree) (ids : List Nat) (k : Nat) :
    (t.markOnly ids).nodes[k]? = (t.nodes[k]?).map fun n => { n with marked := ids.contains k } := by
  simp [markOnly]

/-- Every node of a tree is in another one, where only its mark may differ. -/
def Keeps (t t' : WitnessTree) : Prop :=
  ∀ (k : Nat) n, t.nodes[k]? = some n → ∃ mark, t'.nodes[k]? = some { n with marked := mark }

lemma keeps_push (t : WitnessTree) (n : WitnessNode) : t.Keeps (t.push n) :=
  fun _ m hm => ⟨m.marked, (getElem?_push_of_lt (lt_size_of_getElem? hm) n).trans hm⟩

lemma keeps_markOnly (t : WitnessTree) (ids : List Nat) : t.Keeps (t.markOnly ids) := by
  intro k n hn
  rw [getElem?_markOnly, hn]
  exact ⟨_, rfl⟩

/-! ## Ways

A way is defined from the root on, each node after its parent.  The function that computes it goes the other
way, from the node to the root, and puts the numbers in front of each other.
-/

/-- What the node of a number says about a visit. -/
def visitAt (t : WitnessTree) (id : Nat) : Option Visit :=
  (t.nodes[id]?).map WitnessNode.visit

/-- **The visits on the way from the root to a node**, with every parent before its children. -/
inductive Leads (t : WitnessTree) : Nat → List Visit → Prop
  | root {id : Nat} {n : WitnessNode} (hn : t.nodes[id]? = some n) (hparent : n.parent = none) :
      Leads t id [n.visit]
  | child {id parent : Nat} {n : WitnessNode} {visits : List Visit} (hn : t.nodes[id]? = some n)
      (hparent : n.parent = some parent) (hlt : parent < id) (h : Leads t parent visits) :
      Leads t id (visits ++ [n.visit])

lemma Leads.lt_size (h : t.Leads id visits) : id < t.size := by
  cases h with
  | root hn => exact lt_size_of_getElem? hn
  | child hn => exact lt_size_of_getElem? hn

/-- The numbers that are computed are those of the visits. -/
lemma Leads.map_pathWithin (h : t.Leads id visits) :
    ∀ {depth : Nat}, id < depth → (t.pathWithin depth id).map t.visitAt = visits.map some := by
  induction h with
  | @root id n hn hparent =>
      intro depth hdepth
      cases depth with
      | zero => omega
      | succ depth => simp [pathWithin, hn, hparent, visitAt]
  | @child id parent n visits hn hparent hlt _ ih =>
      intro depth hdepth
      cases depth with
      | zero => omega
      | succ depth =>
          simp only [pathWithin, hn, hparent, List.map_append, ih (show parent < depth by omega)]
          simp [visitAt, hn]

/-- A tree that keeps the nodes keeps the ways. -/
lemma Leads.of_keeps (h : t.Leads id visits) (hkeep : t.Keeps t') : t'.Leads id visits := by
  induction h with
  | @root _ n hn hparent =>
      obtain ⟨mark, hn'⟩ := hkeep _ n hn
      exact .root (n := { n with marked := mark }) hn' hparent
  | @child _ _ n _ hn hparent hlt _ ih =>
      obtain ⟨mark, hn'⟩ := hkeep _ n hn
      exact .child (n := { n with marked := mark }) hn' hparent hlt ih

lemma Leads.push (h : t.Leads id visits) (n : WitnessNode) : (t.push n).Leads id visits :=
  h.of_keeps (keeps_push t n)

/-- The way to a node that is added. -/
lemma Leads.push_child (h : t.Leads id visits) {n : WitnessNode} (hparent : n.parent = some id) :
    (t.push n).Leads t.size (visits ++ [n.visit]) :=
  .child (n := { n with marked := false }) (getElem?_push_size t n) hparent h.lt_size (h.push n)

/-- **The result path** has the visits on the way to its end, and the word has their actions. -/
theorem Leads.computePath (h : t.Leads id visits) {result : WitnessTree}
    (hresult : result = (t.computePath id).2) :
    result.path.map result.visitAt = visits.map some ∧
      result.word = visits.filterMap (·.action) := by
  have hend : result = { t.markOnly (t.pathTo id) with finishing := some id } := by
    rw [hresult, WitnessTree.computePath, if_pos h.lt_size]
  have hleads : result.Leads id visits := by
    rw [hend]
    exact h.of_keeps (keeps_markOnly t (t.pathTo id))
  have hpath : result.path.map result.visitAt = visits.map some := by
    have hfinishing : result.finishing = some id := by rw [hend]
    simp only [path, hfinishing]
    exact hleads.map_pathWithin hleads.lt_size
  refine ⟨hpath, ?_⟩
  calc result.word
      = (result.path.map result.visitAt).filterMap (·.bind (·.action)) := by
        rw [word, List.filterMap_map]
        refine List.filterMap_congr fun k _ => ?_
        simp only [Function.comp_apply, visitAt]
        cases result.nodes[k]? <;> rfl
    _ = visits.filterMap (·.action) := by
        rw [hpath, List.filterMap_map]
        rfl

end WitnessTree

end ModalCalls
