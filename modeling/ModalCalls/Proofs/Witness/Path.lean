import Mathlib
import ModalCalls.Proofs.Transcript
import ModalCalls.Proofs.Witness.Tree

/-!
# Result paths

A tree holds its marks and the end of its result path side by side, and goes on growing after a path was
computed.  Nothing in its type ties them together.  What does is that a node is only added below a node that is
there: so parents have smaller numbers, and nothing that is added later lies on a path that is known.

* `WitnessTree.Leads.isRoute`, `WitnessTree.Leads.iterate_up` — the way to a node, read downwards and upwards.
  The second says that the walk to the root ends, and that the bound of `WitnessTree.pathTo` does not cut it short.
* `WitnessTree.Outcome` — what a call can do to a tree.
* `WitnessTree.Records` — the invariant of all sequences of calls, also of those that name nodes that are not
  there, with the step lemma `WitnessTree.Call.run_records`.
* `WitnessTree.transcript_traces` — **numbers, marks, path and word** after any sequence of calls that name only
  nodes of the tree.
-/

namespace ModalCalls

namespace WitnessTree

variable {t t' : WitnessTree} {id p k : Nat} {n m : WitnessNode} {visits : List Visit}

/-! ## The way to a node

The walk from a node to its root is bounded in its definition, by the number of nodes.  Parents have smaller
numbers, so any bound above the number of the node gives the same way.
-/

/-- If all parents come before their children then there is a way to every node. -/
lemma exists_leads (h : ∀ (id : Nat) n p, t.nodes[id]? = some n → n.parent = some p → p < id) :
    ∀ id, id < t.size → ∃ visits, t.Leads id visits := by
  intro id
  induction id using Nat.strong_induction_on with
  | _ id ih =>
      intro hid
      have hn : t.nodes[id]? = some t.nodes[id] := Array.getElem?_eq_getElem hid
      cases hparent : t.nodes[id].parent with
      | none => exact ⟨_, .root hn hparent⟩
      | some p =>
          have hlt := h id _ p hn hparent
          obtain ⟨visits, hleads⟩ := ih p hlt (hlt.trans hid)
          exact ⟨_, .child hn hparent hlt hleads⟩

/-- The bound on the way does not matter once it exceeds the number of the node. -/
lemma Leads.pathWithin_congr (h : t.Leads id visits) :
    ∀ {depth depth' : Nat}, id < depth → id < depth' → t.pathWithin depth id = t.pathWithin depth' id := by
  induction h with
  | root hn hparent =>
      rintro (_ | depth) (_ | depth') hdepth hdepth'
      · rfl
      · omega
      · omega
      · simp only [pathWithin, hn, hparent]
  | child hn hparent hlt _ ih =>
      rintro (_ | depth) (_ | depth') hdepth hdepth'
      · rfl
      · omega
      · omega
      · simp only [pathWithin, hn, hparent, ih (show _ < depth by omega) (show _ < depth' by omega)]

lemma pathTo_root (hn : t.nodes[id]? = some n) (hparent : n.parent = none) : t.pathTo id = [id] := by
  have hid := lt_size_of_getElem? hn
  have hsize : t.size = t.size - 1 + 1 := by omega
  rw [pathTo, hsize]
  simp only [pathWithin, hn, hparent]

lemma pathTo_child (hn : t.nodes[id]? = some n) (hparent : n.parent = some p) (hlt : p < id)
    (h : t.Leads p visits) : t.pathTo id = t.pathTo p ++ [id] := by
  have hid := lt_size_of_getElem? hn
  have hsize : t.size = t.size - 1 + 1 := by omega
  rw [pathTo, hsize]
  simp only [pathWithin, hn, hparent]
  rw [pathTo, h.pathWithin_congr (by omega) h.lt_size]

/-- **A way through the tree** that ends at a given node. -/
structure IsRoute (t : WitnessTree) (id : Nat) (ids : List Nat) : Prop where
  /-- It starts at a node without parent. -/
  root : ∃ first n, ids.head? = some first ∧ t.nodes[first]? = some n ∧ n.parent = none
  /-- Every other node stands right after its parent. -/
  linked : ids.IsChain fun p k => ∃ n, t.nodes[k]? = some n ∧ n.parent = some p
  last : ids.getLast? = some id
  increasing : ids.Pairwise (· < ·)

/-- One round of the walk to the root.  It has ended once there is no node left. -/
def up (t : WitnessTree) (current : Option Nat) : Option Nat :=
  current.bind fun id => (t.nodes[id]?).bind (·.parent)

lemma up_some (hn : t.nodes[id]? = some n) : t.up (some id) = n.parent := by
  simp [up, hn]

namespace Leads

/-- No number on the way to a node exceeds that of the node. -/
lemma le_of_mem_pathTo (h : t.Leads id visits) (hk : k ∈ t.pathTo id) : k ≤ id := by
  induction h with
  | root hn hparent =>
      rw [pathTo_root hn hparent, List.mem_singleton] at hk
      exact hk.le
  | child hn hparent hlt h ih =>
      rw [pathTo_child hn hparent hlt h, List.mem_append, List.mem_singleton] at hk
      rcases hk with hk | rfl
      · exact (ih hk).trans hlt.le
      · exact le_rfl

/-- **The way to a node, from the root down.** -/
theorem isRoute (h : t.Leads id visits) : t.IsRoute id (t.pathTo id) := by
  induction h with
  | @root id n hn hparent =>
      rw [pathTo_root hn hparent]
      exact ⟨⟨id, n, rfl, hn, hparent⟩, List.isChain_singleton _, rfl, List.pairwise_singleton _ _⟩
  | @child id p n _ hn hparent hlt h ih =>
      rw [pathTo_child hn hparent hlt h]
      refine ⟨?_, ?_, ?_, ?_⟩
      · obtain ⟨first, r, hfirst, hr⟩ := ih.root
        exact ⟨first, r, by simp [hfirst], hr⟩
      · refine List.isChain_append.2 ⟨ih.linked, List.isChain_singleton _, ?_⟩
        rintro _ hlast _ ⟨⟩
        rw [ih.last] at hlast
        cases hlast
        exact ⟨n, hn, hparent⟩
      · simp
      · refine List.pairwise_append.2 ⟨ih.increasing, List.pairwise_singleton _ _, ?_⟩
        intro k hk _ hid
        rw [List.mem_singleton.1 hid]
        exact (h.le_of_mem_pathTo hk).trans_lt hlt

/-- **The way to a node, from the node up.**  The walk visits the numbers on the way in reverse, and ends. -/
theorem iterate_up (h : t.Leads id visits) (k : Nat) : t.up^[k] (some id) = (t.pathTo id).reverse[k]? := by
  induction h generalizing k with
  | root hn hparent =>
      rw [pathTo_root hn hparent]
      cases k with
      | zero => rfl
      | succ k =>
          have hend : t.up none = none := rfl
          rw [Function.iterate_succ_apply, up_some hn, hparent, Function.iterate_fixed hend]
          simp
  | child hn hparent hlt h ih =>
      rw [pathTo_child hn hparent hlt h, List.reverse_append]
      cases k with
      | zero => rfl
      | succ k =>
          rw [Function.iterate_succ_apply, up_some hn, hparent, ih k]
          rfl

/-- A tree that keeps the nodes finds the same ways. -/
lemma pathTo_of_keeps (h : t.Leads id visits) (hkeep : t.Keeps t') : t'.pathTo id = t.pathTo id := by
  induction h with
  | root hn hparent =>
      obtain ⟨mark, hn'⟩ := hkeep _ _ hn
      rw [pathTo_root hn hparent, pathTo_root hn' hparent]
  | child hn hparent hlt h ih =>
      obtain ⟨mark, hn'⟩ := hkeep _ _ hn
      rw [pathTo_child hn hparent hlt h, pathTo_child hn' hparent hlt (h.of_keeps hkeep), ih]

end Leads

/-! ## Calls

A call may name a node that is not there.  Adding a node below it is refused and changes nothing; a path to
it is not found, but the marks are dropped before that is noticed.  `Outcome` lists these cases once for
everything that follows.
-/

/-- The operations that change a tree. -/
inductive Call where
  | add (n : WitnessNode)
  | computePath (id : Nat)

/-- What happens to a tree. -/
inductive Event where
  | added (n : WitnessNode) (id : Nat)
  | refused (n : WitnessNode)
  | computed (id : Nat)
  | missed (id : Nat)

namespace Event

/-- The number that was given out. -/
def number? : Event → Option Nat
  | added _ id => some id
  | _ => none

/-- A path was computed. -/
def IsComputed : Event → Prop
  | computed _ => True
  | _ => False

/-- A path to a node that is not there was asked for. -/
def IsMissed : Event → Prop
  | missed _ => True
  | _ => False

/-- A call has failed. -/
def IsFailure : Event → Prop
  | refused _ => True
  | missed _ => True
  | _ => False

end Event

namespace Call

/-- Carry a call out. -/
def run : Call → WitnessTree → List Event × WitnessTree
  | add n, t => ([match (t.add n).1 with | .ok id => .added n id | .error _ => .refused n], (t.add n).2)
  | computePath id, t =>
    ([match (t.computePath id).1 with | .ok _ => .computed id | .error _ => .missed id], (t.computePath id).2)

/-- A call names only nodes that are there. -/
def Known (t : WitnessTree) : Call → Prop
  | add n => ∀ p ∈ n.parent, p < t.size
  | computePath id => id < t.size

instance (t : WitnessTree) : DecidablePred (Known t)
  | add n => inferInstanceAs (Decidable (∀ p ∈ n.parent, p < t.size))
  | computePath id => inferInstanceAs (Decidable (id < t.size))

end Call

/-- The tree that shows the way to a node as its result path. -/
def showing (t : WitnessTree) (id : Nat) : WitnessTree :=
  { t.markOnly (t.pathTo id) with finishing := some id }

/-- **What a call can do** to a tree, with the event and the tree that it leaves. -/
inductive Outcome (t : WitnessTree) : Call → Event → WitnessTree → Prop
  | added {n : WitnessNode} (hknown : Call.Known t (.add n)) : Outcome t (.add n) (.added n t.size) (t.push n)
  | refused {n : WitnessNode} (hunknown : ¬ Call.Known t (.add n)) : Outcome t (.add n) (.refused n) t
  | computed {id : Nat} (hknown : Call.Known t (.computePath id)) :
      Outcome t (.computePath id) (.computed id) (t.showing id)
  | missed {id : Nat} (hunknown : ¬ Call.Known t (.computePath id)) :
      Outcome t (.computePath id) (.missed id) (t.markOnly [])

lemma Call.outcome (call : Call) (t : WitnessTree) :
    ∃ event t', call.run t = ([event], t') ∧ Outcome t call event t' := by
  cases call with
  | add n =>
      by_cases hknown : Known t (.add n)
      · have hadd : t.add n = (.ok t.size, t.push n) := by
          simp only [WitnessTree.add]
          split
          · rfl
          · next p hp => rw [if_pos (hknown p hp)]
        exact ⟨_, _, by rw [run, hadd], .added hknown⟩
      · have hparent : ∃ p, n.parent = some p ∧ ¬ p < t.size := by
          simpa [Known] using hknown
        obtain ⟨p, hp, hlt⟩ := hparent
        have hadd : t.add n = (.error (.noSuchWitness p), t) := by
          simp only [WitnessTree.add, hp, if_neg hlt]
        exact ⟨_, _, by rw [run, hadd], .refused hknown⟩
  | computePath id =>
      by_cases hid : id < t.size
      · have hcompute : t.computePath id = (.ok (), t.showing id) := if_pos hid
        exact ⟨_, _, by rw [run, hcompute], .computed hid⟩
      · have hcompute : t.computePath id = (.error (.noSuchWitness id), t.markOnly []) := if_neg hid
        exact ⟨_, _, by rw [run, hcompute], .missed hid⟩

/-! ## The history of a tree

Marks and the end of the path are compared with the history of the tree.  The end is that of the latest path
that was computed.  The marks are more delicate, because a failing call drops them and leaves the end: they
show the path unless such a call came after it.
-/

/-- **Growth.** -/
structure Grows (r : Transcript WitnessTree Event) : Prop where
  /-- The numbers that were given out are those below the number of nodes, in order, latest first. -/
  numbers : r.log.filterMap Event.number? = (List.range r.state.size).reverse
  /-- Under its number stands the node that was added, and only its mark may have changed. -/
  nodes : ∀ n id, Event.added n id ∈ r.log → ∃ mark, r.state.nodes[id]? = some { n with marked := mark }
  /-- A parent comes before its children. -/
  parent_lt : ∀ (id : Nat) n p, r.state.nodes[id]? = some n → n.parent = some p → p < id

/-- **The invariant.**  The end of the result path is the latest that was asked for, and the marks show that path
unless a call for a node that is not there has dropped them since. -/
structure Records (r : Transcript WitnessTree Event) : Prop extends Grows r where
  finishing_lt : ∀ id, r.state.finishing = some id → id < r.state.size
  finishing_iff : ∀ id, r.state.finishing = some id ↔
    Since (· = .computed id) Event.IsComputed r.log
  marked_iff : ∀ (id : Nat) n, r.state.nodes[id]? = some n →
    (n.marked = true ↔ id ∈ r.state.path ∧ ¬ Since Event.IsMissed Event.IsComputed r.log)

variable {r : Transcript WitnessTree Event}

lemma Records.exists_leads_finishing (h : Records r) (hid : r.state.finishing = some id) :
    ∃ visits, r.state.Leads id visits :=
  exists_leads h.parent_lt id (h.finishing_lt id hid)

/-- The nodes on the result path are there. -/
lemma Records.lt_size_of_mem_path (h : Records r) (hk : k ∈ r.state.path) : k < r.state.size := by
  simp only [path] at hk
  split at hk
  · simp at hk
  · next id hid =>
      obtain ⟨visits, hleads⟩ := h.exists_leads_finishing hid
      exact (hleads.le_of_mem_pathTo hk).trans_lt (h.finishing_lt id hid)

/-- A new tree has no history. -/
lemma records_empty : Records ⟨{}, []⟩ where
  numbers := rfl
  nodes := by simp
  parent_lt := by simp
  finishing_lt := by simp
  finishing_iff := by simp
  marked_iff := by simp

/-! ## One more call

One lemma for each outcome.  A new node has no mark and lies on no way that is known, because its number is
larger than all others.  Computing a path changes marks only.
-/

lemma getElem?_push_cases (hm : (t.push n).nodes[k]? = some m) :
    (k = t.size ∧ m = { n with marked := false }) ∨ t.nodes[k]? = some m := by
  have hk := lt_size_of_getElem? hm
  rw [size_push, Nat.lt_succ_iff] at hk
  rcases hk.eq_or_lt with rfl | hk
  · rw [getElem?_push_size, Option.some.injEq] at hm
    exact Or.inl ⟨rfl, hm.symm⟩
  · rw [getElem?_push_of_lt hk] at hm
    exact Or.inr hm

lemma Grows.added (h : Grows r) (hknown : Call.Known r.state (.add n)) :
    Grows ⟨r.state.push n, .added n r.state.size :: r.log⟩ where
  numbers := by simp [Event.number?, h.numbers, size_push, List.range_succ]
  nodes m id hm := by
    rcases List.mem_cons.1 hm with heq | hm
    · cases heq
      exact ⟨false, getElem?_push_size r.state n⟩
    · obtain ⟨mark, hm⟩ := h.nodes m id hm
      exact keeps_push r.state n id { m with marked := mark } hm
  parent_lt id m p hm hp := by
    rcases getElem?_push_cases hm with ⟨rfl, rfl⟩ | hm
    · exact hknown p hp
    · exact h.parent_lt id m p hm hp

/-- Marks do not matter for growth. -/
lemma Grows.remarked (h : Grows r) {ids : List Nat} (hnodes : t.nodes = (r.state.markOnly ids).nodes)
    {event : Event} (hevent : event.number? = none) : Grows ⟨t, event :: r.log⟩ where
  numbers := by
    have hsize : t.size = r.state.size := by rw [size, hnodes, ← size, size_markOnly]
    rw [List.filterMap_cons_none hevent, h.numbers, hsize]
  nodes n id hn := by
    rcases List.mem_cons.1 hn with rfl | hn
    · cases hevent
    · obtain ⟨mark, hn⟩ := h.nodes n id hn
      rw [hnodes]
      exact keeps_markOnly r.state ids id { n with marked := mark } hn
  parent_lt id n p hn hp := by
    rw [hnodes, getElem?_markOnly] at hn
    obtain ⟨m, hm, rfl⟩ := Option.map_eq_some_iff.1 hn
    exact h.parent_lt id m p hm hp

/-- The result path stays if its end and the nodes do. -/
lemma Records.path_of_keeps (h : Records r) (hend : t.finishing = r.state.finishing)
    (hkeep : r.state.Keeps t) : t.path = r.state.path := by
  simp only [path, hend]
  cases hid : r.state.finishing with
  | none => rfl
  | some id =>
      obtain ⟨visits, hleads⟩ := h.exists_leads_finishing hid
      exact hleads.pathTo_of_keeps hkeep

/-- A node that is added lies on no path that is known. -/
lemma Records.added (h : Records r) (hknown : Call.Known r.state (.add n)) :
    Records ⟨r.state.push n, .added n r.state.size :: r.log⟩ where
  toGrows := h.toGrows.added hknown
  finishing_lt id hid := (h.finishing_lt id hid).trans (by simp [size_push])
  finishing_iff id := by
    rw [since_cons]
    refine (h.finishing_iff id).trans ?_
    simp [Event.IsComputed]
  marked_iff id m hm := by
    have hpath : (r.state.push n).path = r.state.path := h.path_of_keeps rfl (keeps_push r.state n)
    rw [hpath, since_cons]
    simp only [Event.IsMissed, Event.IsComputed, false_or, not_false_eq_true, true_and]
    rcases getElem?_push_cases hm with ⟨rfl, rfl⟩ | hm
    · have hnew : r.state.size ∉ r.state.path := fun hmem => (h.lt_size_of_mem_path hmem).false
      simp [hnew]
    · exact h.marked_iff id m hm

lemma Records.refused (h : Records r) (n : WitnessNode) : Records ⟨r.state, .refused n :: r.log⟩ where
  numbers := h.numbers
  nodes m id hm := h.nodes m id (by simpa using hm)
  parent_lt := h.parent_lt
  finishing_lt := h.finishing_lt
  finishing_iff id := by
    rw [h.finishing_iff, since_cons]
    simp [Event.IsComputed]
  marked_iff id m hm := by
    rw [h.marked_iff id m hm, since_cons]
    simp [Event.IsComputed, Event.IsMissed]

lemma Records.computed (h : Records r) (hid : id < r.state.size) :
    Records ⟨r.state.showing id, .computed id :: r.log⟩ where
  toGrows := h.toGrows.remarked (t := r.state.showing id) rfl rfl
  finishing_lt k hk := by
    cases hk
    exact hid.trans_eq (size_markOnly r.state _).symm
  finishing_iff k := by
    rw [since_cons]
    simp [showing, Event.IsComputed]
  marked_iff k n hn := by
    obtain ⟨visits, hleads⟩ := exists_leads h.parent_lt id hid
    have hpath : (r.state.showing id).path = r.state.pathTo id :=
      hleads.pathTo_of_keeps (keeps_markOnly r.state _)
    obtain ⟨m, -, rfl⟩ := Option.map_eq_some_iff.1 ((getElem?_markOnly _ _ k).symm.trans hn)
    rw [hpath, since_cons]
    simp [Event.IsMissed, Event.IsComputed]

/-- A call for a node that is not there leaves the path as it is but not its marks. -/
lemma Records.missed (h : Records r) (id : Nat) : Records ⟨r.state.markOnly [], .missed id :: r.log⟩ where
  toGrows := h.toGrows.remarked rfl rfl
  finishing_lt k hk := (h.finishing_lt k hk).trans_eq (size_markOnly r.state _).symm
  finishing_iff k := by
    rw [since_cons]
    refine (h.finishing_iff k).trans ?_
    simp [Event.IsComputed]
  marked_iff k n hn := by
    obtain ⟨m, -, rfl⟩ := Option.map_eq_some_iff.1 ((getElem?_markOnly _ _ k).symm.trans hn)
    rw [since_cons]
    simp [Event.IsMissed]

/-- **A call keeps the invariant**, whether it fails or not. -/
theorem Call.run_records (h : Records r) (call : Call) : Records (r.call Call.run call) := by
  obtain ⟨event, t', hrun, houtcome⟩ := call.outcome r.state
  have hnext : r.call Call.run call = ⟨t', event :: r.log⟩ := by
    simp only [Transcript.call, hrun, List.singleton_append]
  rw [hnext]
  cases houtcome with
  | added hknown => exact h.added hknown
  | refused _ => exact h.refused _
  | computed hknown => exact h.computed hknown
  | missed _ => exact h.missed _

/-! ## The result path

What the result path is follows from the invariant, with no further induction over calls.
-/

lemma Records.isRoute_path (h : Records r) (hid : r.state.finishing = some id) :
    r.state.IsRoute id r.state.path := by
  obtain ⟨visits, hleads⟩ := h.exists_leads_finishing hid
  simpa only [path, hid] using hleads.isRoute

/-- Some path was computed exactly if one was computed last. -/
lemma exists_since_computed_iff : ∀ log : List Event,
    (∃ id, Since (· = .computed id) Event.IsComputed log) ↔ ∃ id, Event.computed id ∈ log
  | [] => by simp
  | event :: log => by
      have ih := exists_since_computed_iff log
      simp only [since_cons, List.mem_cons]
      cases event with
      | computed id => exact iff_of_true ⟨id, Or.inl rfl⟩ ⟨id, Or.inl rfl⟩
      | _ => simpa [Event.IsComputed] using ih

lemma Records.path_eq_nil_iff (h : Records r) : r.state.path = [] ↔ ∀ id, Event.computed id ∉ r.log := by
  rw [← not_exists, ← exists_since_computed_iff]
  simp only [← h.finishing_iff]
  cases hid : r.state.finishing with
  | none => simp [path, hid]
  | some id =>
      have hlast := (h.isRoute_path hid).last
      refine iff_of_false (fun hnil => ?_) (fun hnone => hnone ⟨id, rfl⟩)
      simp [hnil] at hlast

/-- All nodes on the result path are there, so none is passed over in the word. -/
lemma Records.word_eq (h : Records r) : ∃ nodes : List WitnessNode,
    r.state.path.map (fun id => r.state.nodes[id]?) = nodes.map some ∧
      r.state.word = nodes.filterMap (·.action) := by
  refine ⟨r.state.path.filterMap fun id => r.state.nodes[id]?, ?_, ?_⟩
  · rw [List.map_filterMap_some_eq_filter_map_isSome, List.filter_eq_self.2]
    intro n hn
    obtain ⟨id, hid, rfl⟩ := List.mem_map.1 hn
    rw [Array.getElem?_eq_getElem (h.lt_size_of_mem_path hid)]
    rfl
  · rw [word, List.filterMap_filterMap]

/-! ## Sequences of calls

Whether a call is legal depends on the tree at that time.  A legal sequence never fails, hence drops no
marks, and the marked nodes are then exactly those of the path.
-/

/-- Every call of a sequence names only nodes that are there when it is made. -/
def Legal (t : WitnessTree) : List Call → Prop
  | [] => True
  | call :: later => call.Known t ∧ Legal (call.run t).2 later

instance decidableLegal : ∀ (t : WitnessTree) (calls : List Call), Decidable (Legal t calls)
  | _, [] => inferInstanceAs (Decidable True)
  | t, call :: later =>
    have := decidableLegal (call.run t).2 later
    inferInstanceAs (Decidable (call.Known t ∧ Legal (call.run t).2 later))

/-- Such a sequence does not fail. -/
lemma Legal.not_isFailure : ∀ {calls : List Call} {r : Transcript WitnessTree Event}, Legal r.state calls →
    (∀ event ∈ r.log, ¬ event.IsFailure) →
    ∀ event ∈ (calls.foldl (Transcript.call Call.run) r).log, ¬ event.IsFailure
  | [], _, _, hlog => hlog
  | call :: later, r, ⟨hknown, hlater⟩, hlog => by
      refine Legal.not_isFailure (r := r.call Call.run call) hlater ?_
      obtain ⟨event, t', hrun, houtcome⟩ := call.outcome r.state
      simp only [Transcript.call, hrun, List.singleton_append, List.forall_mem_cons]
      refine ⟨?_, hlog⟩
      cases houtcome with
      | added _ => exact not_false
      | refused hunknown => exact absurd hknown hunknown
      | computed _ => exact not_false
      | missed hunknown => exact absurd hknown hunknown

/-- **A tree and its history**, if every call has named only nodes that are there. -/
structure Traces (r : Transcript WitnessTree Event) : Prop extends Grows r where
  accepted : ∀ event ∈ r.log, ¬ event.IsFailure
  /-- From every node the walk to the root ends, after the nodes that make up the way to it. -/
  walk : ∀ id, id < r.state.size → ∀ k, r.state.up^[k] (some id) = (r.state.pathTo id).reverse[k]?
  /-- A node is marked exactly if it lies on the result path. -/
  marked_iff : ∀ (id : Nat) n, r.state.nodes[id]? = some n → (n.marked = true ↔ id ∈ r.state.path)
  path_eq_nil_iff : r.state.path = [] ↔ ∀ id, Event.computed id ∉ r.log
  /-- The result path leads to the node that was asked for last. -/
  route : ∀ id, Since (· = .computed id) Event.IsComputed r.log → r.state.IsRoute id r.state.path
  /-- The word has the actions of the nodes on the path, in this order. -/
  word_eq : ∃ nodes : List WitnessNode,
    r.state.path.map (fun id => r.state.nodes[id]?) = nodes.map some ∧
      r.state.word = nodes.filterMap (·.action)

/-- **Result paths.**  Start with the empty tree and, in any order, add nodes and roots and compute paths, naming
only nodes that are there.  The nodes are numbered without gaps, and parents come before their children, so that the
walk from a node to its root ends.  The marked nodes are those on the result path.  It is empty as long as none was
computed; otherwise it goes from a root, from parent to child and with increasing numbers, to the node that was
asked for last, and the word is read along it. -/
theorem transcript_traces {calls : List Call} (hlegal : Legal {} calls) :
    Traces (.of Call.run {} calls) := by
  have h : Records (.of Call.run {} calls) :=
    Transcript.of_induction records_empty (fun _ call hr => Call.run_records hr call) calls
  have haccepted : ∀ event ∈ (Transcript.of Call.run {} calls).log, ¬ event.IsFailure :=
    hlegal.not_isFailure (r := ⟨{}, []⟩) (by simp)
  refine { h.toGrows with
    accepted := haccepted
    walk := fun id hid k => ?_
    marked_iff := fun id n hn => ?_
    path_eq_nil_iff := h.path_eq_nil_iff
    route := fun id hid => h.isRoute_path ((h.finishing_iff id).2 hid)
    word_eq := h.word_eq }
  · obtain ⟨visits, hleads⟩ := exists_leads h.parent_lt id hid
    exact hleads.iterate_up k
  · -- nothing was missed, so nothing has dropped the marks
    have hmissed : ¬ Since Event.IsMissed Event.IsComputed (Transcript.of Call.run {} calls).log := by
      rintro ⟨later, event, earlier, hlog, hevent, -⟩
      refine haccepted event (by simp [hlog]) ?_
      cases event with
      | missed id => trivial
      | _ => exact hevent.elim
    rw [h.marked_iff id n hn, and_iff_left hmissed]

/-- Two roots: a path is computed below the first, then one below the second, and the tree grows further. -/
theorem transcript_traces_two_roots :
    ∃ calls : List Call, ∃ t : WitnessTree,
      calls = [.add ⟨none, "main", 0, 0, "root", none, false⟩, .add ⟨some 0, "main", 1, 1, "x", some "a", false⟩,
        .add ⟨some 0, "main", 2, 1, "x", some "c", false⟩, .add ⟨some 1, "main", 3, 2, "y", none, false⟩,
        .computePath 3, .add ⟨none, "main", 0, 0, "root", none, false⟩,
        .add ⟨some 4, "main", 1, 1, "x", some "b", false⟩, .computePath 5,
        .add ⟨some 5, "main", 1, 1, "x", some "a", false⟩] ∧
      t = (Transcript.of Call.run {} calls).state ∧ Legal {} calls ∧ Traces (.of Call.run {} calls) ∧
      t.path = [4, 5] ∧ t.marked = [4, 5] ∧ t.word = ["b"] := by
  refine ⟨_, _, rfl, rfl, ?_, transcript_traces ?_, ?_, ?_, ?_⟩ <;> decide

end WitnessTree

end ModalCalls
