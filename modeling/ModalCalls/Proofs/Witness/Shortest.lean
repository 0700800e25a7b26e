import Mathlib
import ModalCalls.Proofs.Session.Overflow
import ModalCalls.Proofs.Session.Replay
import ModalCalls.Proofs.Transformer.Extensional
import ModalCalls.Proofs.Witness.Search

/-!
# Witnesses are shortest

A search goes breadth-first: the positions it has found lie in layers, and it follows them up layer by layer.
`Session.Frontier.Layered` is the invariant of this.  It gives every position its layer, which is the number
of steps on the path of the tree to it; layers only go up along the list of positions, and no position lies
more than one layer beyond the one that is followed up.  So if the search ends, no derivation is shorter than
the path of its tree (`Session.Frontier.Layered.le_length_of_derivation`).

Nothing of this asks what the transformers mean.  It holds in every session that has converged, also if the
store was full before, and such a search ends in one of the ways that are foreseen: all positions it looks at
exist (`Session.Intact.successors_fit`), and it never has more of them than it may.

* `Session.Reachable` — what a session may have become, whatever was asked of it.
* `Session.findWitness_shortest` — **a search in any session that has converged**.
-/

namespace ModalCalls

namespace Session

variable {s : Session} {pos : Position} {i n : Nat}

/-! ## Derivations

A derivation is what a search could follow without a tree, a limit or an order.  Lengths of witnesses are
compared with these.
-/

/-- **A derivation**: positions from the one where a search begins, each of them a move from the one before
it. -/
inductive Derivation (s : Session) : List Position → Position → Prop
  | root {root : Position} (hroot : s.rootPosition = .ok root) : Derivation s [root] root
  | move {ps : List Position} {pos : Position} {ms : List Move} {m : Move} (h : Derivation s ps pos)
      (hms : s.successors pos = .ok ms) (hm : m ∈ ms) : Derivation s (ps ++ [m.1]) m.1

/-! ## Positions that exist

To look at a position its procedure, its state and its variable have to be there, and so have the states on
its stack, to which it may return.  This is all that is asked of a position here, since nothing is claimed
about meanings.
-/

/-- There is such a state. -/
def HasState (s : Session) (i n : Nat) : Prop :=
  ∃ q : Procedure, s.program.procedures[i]? = some q ∧ n < q.size

/-- A position of states and a variable that exist. -/
structure Fits (s : Session) (pos : Position) : Prop where
  state : s.HasState pos.procedure pos.state
  var_lt : pos.var < s.equations.size
  frames : ∀ frame ∈ pos.stack, s.HasState frame.procedure frame.state

/-- A position that exists has a node. -/
lemma Fits.exists_node (hfit : s.Fits pos) (parent : Option Nat) (action : Option String) :
    ∃ node, s.witnessNode parent pos action = .ok node ∧ node.parent = parent := by
  obtain ⟨q, hq, -⟩ := hfit.state
  obtain ⟨equation, hequation⟩ : ∃ equation, s.equations.equations[pos.var]? = some equation :=
    ⟨_, Array.getElem?_eq_getElem hfit.var_lt⟩
  refine ⟨⟨parent, q.name, pos.state, pos.var, equation.label, action, false⟩, ?_, rfl⟩
  simp only [witnessNode, procedure_ok hq, Transformer.label, EquationSystem.label?, hequation]
  rfl

namespace Intact

/-- What holds at a state can be asked for. -/
lemma exists_evaluate (h : s.Intact) (hstate : s.HasState i n) (context : Array Bool) :
    ∃ t vars, s.transformer i n = .ok t ∧ t.evaluate s.store context = .ok vars := by
  obtain ⟨q, hq, hn⟩ := hstate
  obtain ⟨t, ht⟩ := h.exists_transformer hq hn
  obtain ⟨vars, hvars, -⟩ := Transformer.evaluate_ok h.store.toShaped (h.lives i n t ht) context
  exact ⟨t, vars, transformer_ok ht, hvars⟩

lemma holdsAt_fit (h : s.Intact) (hfit : s.Fits pos) : ∃ b, s.holdsAt pos = .ok b := by
  obtain ⟨t, vars, ht, hvars⟩ := h.exists_evaluate hfit.state pos.context
  refine ⟨vars.contains pos.var, ?_⟩
  simp only [holdsAt, ht]
  show (t.evaluate s.store pos.context >>= fun vars => .ok (vars.contains pos.var)) = _
  rw [hvars]
  rfl

/-- The moves along an edge lead to positions that exist. -/
lemma movesAlong_fit (h : s.Intact) (hfit : s.Fits pos) {q : Procedure}
    (hq : s.program.procedures[pos.procedure]? = some q) {edge : Edge}
    (hedge : edge ∈ q.graph.edgesFrom pos.state) {child : Nat} (hchild : child < s.equations.size)
    (action : Option String) :
    ∃ part, s.movesAlong pos action child edge = .ok part ∧ ∀ m ∈ part, s.Fits m.1 := by
  have htarget : s.HasState pos.procedure edge.target := ⟨q, hq, ProcessGraph.target_lt hedge⟩
  cases hcall : edge.isCall with
  | true =>
      obtain ⟨i, callee, hindex, hcallee⟩ := h.program.callee _ q pos.state hq edge hedge hcall
      obtain ⟨t, vars, ht, hvars⟩ := h.exists_evaluate htarget pos.context
      have henter : s.enter pos edge = .ok ⟨⟨pos.procedure, edge.target, pos.context⟩ :: pos.stack, i,
          callee.initial, pos.var, vars.toBools s.equations.size⟩ := by
        simp only [enter, hindex, procedure_ok hcallee, ht]
        show (t.evaluate s.store pos.context >>= _) = _
        rw [hvars]
        rfl
      refine ⟨_, by simp only [movesAlong, hcall, if_true, henter]; rfl, fun m hm => ?_⟩
      obtain rfl := List.mem_singleton.1 hm
      refine ⟨⟨callee, hcallee, h.program.initial_lt i callee hcallee⟩, hfit.var_lt, ?_⟩
      rintro frame (_ | ⟨_, hframe⟩)
      · exact htarget
      · exact hfit.frames frame hframe
  | false =>
      simp only [movesAlong, hcall, Bool.false_eq_true, if_false]
      split
      · refine ⟨_, rfl, fun m hm => ?_⟩
        obtain rfl := List.mem_singleton.1 hm
        exact ⟨htarget, hchild, hfit.frames⟩
      · exact ⟨[], rfl, by simp⟩

/-- All moves lead to positions that exist. -/
lemma moves_fit (h : s.Intact) (hfit : s.Fits pos) :
    ∃ ms, s.moves pos = .ok ms ∧ ∀ m ∈ ms, s.Fits m.1 := by
  obtain ⟨q, hq, hn⟩ := hfit.state
  obtain ⟨op, hop⟩ := EquationSystem.operator?_of_lt hfit.var_lt
  have hoperands := h.equations.operands_lt pos.var op hop
  cases op with
  | disj l r =>
      refine ⟨_, by simp only [moves, hop]; rfl, fun m hm => ?_⟩
      simp only [List.mem_cons, List.not_mem_nil, or_false] at hm
      rcases hm with rfl | rfl
      · exact ⟨hfit.state, hoperands l (by simp [Operator.operands, Operator.reads]), hfit.frames⟩
      · exact ⟨hfit.state, hoperands r (by simp [Operator.operands, Operator.reads]), hfit.frames⟩
  | dia action child =>
      have hchild := hoperands child (by simp [Operator.operands])
      have hmoves : s.moves pos = if pos.state = q.final then .ok (returnMove pos) else do
          let parts ← (q.graph.edgesFrom pos.state).mapM (s.movesAlong pos action child)
          return parts.flatten := by
        simp only [moves, hop, procedure_ok hq]
        rfl
      by_cases hfinal : pos.state = q.final
      · refine ⟨returnMove pos, by rw [hmoves, if_pos hfinal], fun m hm => ?_⟩
        simp only [returnMove] at hm
        split at hm
        · simp at hm
        · next frame rest hstack =>
            obtain rfl := List.mem_singleton.1 hm
            exact ⟨hfit.frames frame (by simp [hstack]), hfit.var_lt,
              fun frame' hframe' => hfit.frames frame' (by simp [hstack, hframe'])⟩
      · obtain ⟨parts, hparts, hall⟩ := except_mapM_exists (l := q.graph.edgesFrom pos.state)
          (f := s.movesAlong pos action child) (R := fun _ part => ∀ m ∈ part, s.Fits m.1)
          fun edge hedge => h.movesAlong_fit hfit hq hedge hchild action
        refine ⟨parts.flatten, by rw [hmoves, if_neg hfinal, hparts]; rfl, fun m hm => ?_⟩
        obtain ⟨part, hpart, hm⟩ := List.mem_flatten.1 hm
        obtain ⟨edge, -, hfits⟩ := exists_of_mem_right hall hpart
        exact hfits m hm
  | _ => exact ⟨[], by simp only [moves, hop]; rfl, by simp⟩

/-- **The moves that are followed can be found**, and lead to positions that exist. -/
lemma successors_fit (h : s.Intact) (hfit : s.Fits pos) :
    ∃ ms, s.successors pos = .ok ms ∧ ∀ m ∈ ms, s.Fits m.1 := by
  obtain ⟨ms, hms, hfits⟩ := h.moves_fit hfit
  have hholds : ∀ m ∈ ms, s.holdsAt m.1 = .ok ((s.holdsAt m.1).toOption.getD false) := by
    intro m hm
    obtain ⟨b, hb⟩ := h.holdsAt_fit (hfits m hm)
    simp [hb, Except.toOption]
  refine ⟨ms.filter fun m => (s.holdsAt m.1).toOption.getD false, ?_, fun m hm => ?_⟩
  · simp only [successors, hms]
    exact except_filterM_eq_filter hholds
  · exact hfits m (List.mem_filter.1 hm).1

/-- A search begins at a position that exists. -/
lemma rootPosition_fit (h : s.Intact) : ∃ root, s.rootPosition = .ok root ∧ s.Fits root := by
  obtain ⟨q, hq⟩ := h.program.main
  refine ⟨⟨[], s.program.main, q.initial, 0, s.deadlock⟩, ?_,
    ⟨q, hq, h.program.initial_lt _ q hq⟩, h.equations.size_pos, by simp⟩
  simp only [rootPosition, procedure_ok hq]
  rfl

end Intact

/-! ## Layers

The list of positions is sorted by layers, and at any time it ends in the layer after that of the position
which is followed up.  A new position goes to the end and into that layer, so the list stays sorted.  A
derivation moves on by one layer at most with each move.
-/

/-- **The layers of a search** that follows up position `id`: `d k` is the layer of position `k`. -/
structure Frontier.Layered (s : Session) (fr : Frontier) (id : Nat) (d : Nat → Nat) : Prop where
  size_eq : fr.positions.size = fr.tree.size
  limit : fr.tree.size ≤ max 1 s.options.witnessLimit
  mem_reached : ∀ pos, pos ∈ fr.reached ↔ pos ∈ fr.positions
  fits : ∀ pos ∈ fr.positions, s.Fits pos
  root : ∀ root, s.rootPosition = .ok root → fr.positions[0]? = some root ∧ d 0 = 0
  /-- A layer has the positions with paths of one length, and each path is a derivation. -/
  leads : ∀ (k : Nat) pos, fr.positions[k]? = some pos → ∃ visits ps, fr.tree.Leads k visits ∧
    visits.length = d k + 1 ∧ s.Derivation ps pos ∧ ps.length = d k + 1
  sorted : ∀ k l, k ≤ l → l < fr.tree.size → d k ≤ d l
  band : id < fr.tree.size → ∀ l < fr.tree.size, d l ≤ d id + 1
  /-- No position that was followed up ends a search. -/
  quiet : ∀ k < id, ∀ pos, fr.positions[k]? = some pos → s.isLeaf pos.var = false
  /-- Its moves lead at most one layer further. -/
  followed : ∀ k < id, ∀ pos ms, fr.positions[k]? = some pos → s.successors pos = .ok ms →
    ∀ m ∈ ms, ∃ l : Nat, fr.positions[l]? = some m.1 ∧ d l ≤ d k + 1

namespace Frontier.Layered

variable {fr : Frontier} {id : Nat} {d : Nat → Nat}

lemma lt_size (h : fr.Layered s id d) {k : Nat} (hpos : fr.positions[k]? = some pos) :
    k < fr.tree.size := by
  rw [← h.size_eq]
  exact (Array.getElem?_eq_some_iff.1 hpos).1

/-- **A new position** that a move from the one followed up leads to lies one layer further. -/
lemma push (h : fr.Layered s id d) {here : Position} (hhere : fr.positions[id]? = some here)
    {ms : List Move} (hms : s.successors here = .ok ms) {m : Move} (hm : m ∈ ms)
    (hfit : s.Fits m.1) (hroom : fr.tree.size < s.options.witnessLimit) {node : WitnessNode}
    (hparent : node.parent = some id) :
    Layered s ⟨fr.tree.push node, fr.positions.push m.1, fr.reached.insert m.1⟩ id
      (Function.update d fr.tree.size (d id + 1)) := by
  have hid := h.lt_size hhere
  have hsize : (fr.tree.push node).size = fr.tree.size + 1 := WitnessTree.size_push fr.tree node
  -- nothing changes for the positions that are there
  have hold : ∀ k, k < fr.tree.size → Function.update d fr.tree.size (d id + 1) k = d k :=
    fun k hk => Function.update_of_ne hk.ne _ _
  have hget : ∀ (k : Nat) pos, (fr.positions.push m.1)[k]? = some pos →
      k < fr.tree.size ∧ fr.positions[k]? = some pos ∨ k = fr.tree.size ∧ pos = m.1 := by
    intro k pos hpos
    rw [Array.getElem?_push, h.size_eq] at hpos
    split at hpos
    · next hk => exact Or.inr ⟨hk, (Option.some.inj hpos).symm⟩
    · exact Or.inl ⟨h.lt_size hpos, hpos⟩
  have hkeep : ∀ (k : Nat) pos, fr.positions[k]? = some pos →
      (fr.positions.push m.1)[k]? = some pos := by
    intro k pos hpos
    have hk := h.lt_size hpos
    rw [Array.getElem?_push, h.size_eq, if_neg hk.ne]
    exact hpos
  exact
    { size_eq := by rw [Array.size_push, h.size_eq, hsize]
      limit := by
        rw [hsize]
        omega
      mem_reached := fun pos => by
        rw [Std.HashSet.mem_insert, h.mem_reached, Array.mem_push, beq_iff_eq, or_comm, eq_comm]
      fits := fun pos hpos => by
        rcases Array.mem_push.1 hpos with hpos | rfl
        · exact h.fits pos hpos
        · exact hfit
      root := fun root hroot => by
        obtain ⟨hpos, hzero⟩ := h.root root hroot
        exact ⟨hkeep 0 root hpos, (hold 0 (h.lt_size hpos)).trans hzero⟩
      leads := fun k pos hpos => by
        rcases hget k pos hpos with ⟨hk, hpos⟩ | ⟨rfl, rfl⟩
        · obtain ⟨visits, ps, hleads, hrest⟩ := h.leads k pos hpos
          rw [hold k hk]
          exact ⟨visits, ps, hleads.push node, hrest⟩
        · obtain ⟨visits, ps, hleads, hvisits, hderivation, hps⟩ := h.leads id here hhere
          rw [Function.update_self]
          exact ⟨_, _, hleads.push_child hparent, by simp [hvisits], hderivation.move hms hm,
            by simp [hps]⟩
      sorted := fun k l hkl hl => by
        rw [hsize] at hl
        rcases Nat.lt_succ_iff_lt_or_eq.1 hl with hl | rfl
        · rw [hold k (by omega), hold l hl]
          exact h.sorted k l hkl hl
        · rw [Function.update_self]
          rcases Nat.lt_or_eq_of_le hkl with hk | rfl
          · rw [hold k hk]
            exact h.band hid k hk
          · rw [Function.update_self]
      band := fun _ l hl => by
        rw [hsize] at hl
        rw [hold id hid]
        rcases Nat.lt_succ_iff_lt_or_eq.1 hl with hl | rfl
        · rw [hold l hl]
          exact h.band hid l hl
        · rw [Function.update_self]
      quiet := fun k hk pos hpos => by
        rcases hget k pos hpos with ⟨-, hpos⟩ | ⟨rfl, -⟩
        · exact h.quiet k hk pos hpos
        · omega
      followed := fun k hk pos ms' hpos hms' m' hm' => by
        rcases hget k pos hpos with ⟨hlt, hpos⟩ | ⟨rfl, -⟩
        · obtain ⟨l, hl, hle⟩ := h.followed k hk pos ms' hpos hms' m' hm'
          refine ⟨l, hkeep l m'.1 hl, ?_⟩
          rw [hold k hlt, hold l (h.lt_size hl)]
          exact hle
        · omega }

/-- Once all moves are among the positions, the next position is followed up. -/
lemma succ (h : fr.Layered s id d) {here : Position} (hhere : fr.positions[id]? = some here)
    (hleaf : s.isLeaf here.var = false) {ms : List Move} (hms : s.successors here = .ok ms)
    (hall : ∀ m ∈ ms, m.1 ∈ fr.positions) : fr.Layered s (id + 1) d where
  size_eq := h.size_eq
  limit := h.limit
  mem_reached := h.mem_reached
  fits := h.fits
  root := h.root
  leads := h.leads
  sorted := h.sorted
  band hnext l hl := by
    have hup := h.sorted id (id + 1) (by omega) hnext
    have hband := h.band (by omega) l hl
    omega
  quiet k hk pos hpos := by
    rcases Nat.lt_succ_iff_lt_or_eq.1 hk with hk | rfl
    · exact h.quiet k hk pos hpos
    · obtain rfl := Option.some.inj (hhere.symm.trans hpos)
      exact hleaf
  followed k hk pos ms' hpos hms' m hm := by
    rcases Nat.lt_succ_iff_lt_or_eq.1 hk with hk | rfl
    · exact h.followed k hk pos ms' hpos hms' m hm
    · obtain rfl := Option.some.inj (hhere.symm.trans hpos)
      obtain rfl := Except.ok.inj (hms.symm.trans hms')
      obtain ⟨l, hl⟩ := Array.getElem?_of_mem (hall m hm)
      exact ⟨l, hl, h.band (h.lt_size hhere) l (h.lt_size hl)⟩

/-- **A derivation reaches no layer before the search does**: as long as it is shorter than the path to the
position that is followed up, its end is among the positions that were followed up before. -/
lemma exists_turn_of_derivation (h : fr.Layered s id d) {ps : List Position}
    (hderivation : s.Derivation ps pos) (hshort : ps.length ≤ d id) :
    ∃ k < id, fr.positions[k]? = some pos ∧ d k + 1 ≤ ps.length := by
  -- in an earlier layer, hence before the position that is followed up
  have hbefore : ∀ {k : Nat} {pos}, fr.positions[k]? = some pos → d k < d id → k < id := by
    intro k pos hpos hlt
    by_contra hle
    have := h.sorted id k (Nat.le_of_not_lt hle) (h.lt_size hpos)
    omega
  induction hderivation with
  | root hroot =>
      obtain ⟨hpos, hzero⟩ := h.root _ hroot
      rw [List.length_singleton] at hshort ⊢
      exact ⟨0, hbefore hpos (by omega), hpos, by omega⟩
  | move hrest hms hm ih =>
      rw [List.length_append, List.length_singleton] at hshort ⊢
      obtain ⟨k, hk, hpos, hle⟩ := ih (by omega)
      obtain ⟨l, hl, hstep⟩ := h.followed k hk _ _ hpos hms _ hm
      exact ⟨l, hbefore hl (by omega), hl, by omega⟩

/-- **No derivation is shorter than the path** to the first position that ends a search. -/
lemma le_length_of_derivation (h : fr.Layered s id d) {ps : List Position}
    (hderivation : s.Derivation ps pos) (hleaf : s.isLeaf pos.var = true) : d id + 1 ≤ ps.length := by
  by_contra hshort
  obtain ⟨k, hk, hpos, -⟩ := h.exists_turn_of_derivation hderivation (by omega)
  rw [h.quiet k hk pos hpos] at hleaf
  cases hleaf

end Frontier.Layered

/-! ## Searches

The moves of one position are added one by one, each under the same invariant; once all are there the next
position is followed up.  If that one ends the search, its layer is the length of the path.
-/

/-- **A shortest witness**: a tree of no more positions than there may be, whose path is as long as some
derivation that ends a search and not longer than any other. -/
structure ShortestWitness (s : Session) (tree : WitnessTree) : Prop where
  limit : tree.size ≤ max 1 s.options.witnessLimit
  attained : ∃ ps pos, s.Derivation ps pos ∧ s.isLeaf pos.var = true ∧ ps.length = tree.path.length
  shortest : ∀ ps pos, s.Derivation ps pos → s.isLeaf pos.var = true → tree.path.length ≤ ps.length

namespace Intact

variable {id : Nat} {d : Nat → Nat} {fr : Frontier} {here : Position}

/-- A search that ends. -/
lemma shortestWitness_of_leaf (hlayered : fr.Layered s id d) (hhere : fr.positions[id]? = some here)
    (hleaf : s.isLeaf here.var = true) : s.ShortestWitness (fr.tree.computePath id).2 := by
  have hid := hlayered.lt_size hhere
  obtain ⟨visits, ps, hleads, hvisits, hderivation, hps⟩ := hlayered.leads id here hhere
  have hpath : (fr.tree.computePath id).2.path.length = d id + 1 := by
    have hlengths := congrArg List.length (hleads.computePath rfl).1
    rw [List.length_map, List.length_map] at hlengths
    rw [hlengths, hvisits]
  refine ⟨?_, ⟨ps, here, hderivation, hleaf, by rw [hps, hpath]⟩, fun ps' pos hderivation' hleaf' => ?_⟩
  · rw [WitnessTree.computePath, if_pos hid]
    simpa [WitnessTree.size, WitnessTree.markOnly] using hlayered.limit
  · rw [hpath]
    exact hlayered.le_length_of_derivation hderivation' hleaf'

/-- **The moves from the position that is followed up** are added, unless there is no room for them. -/
lemma reach_layered {all : List Move} (hall : s.successors here = .ok all) :
    ∀ {ms : List Move} {fr : Frontier} {d : Nat → Nat} {j : Journal}, fr.Layered s id d →
      fr.positions[id]? = some here → (∀ m ∈ ms, m ∈ all ∧ s.Fits m.1) →
      (∃ fr' d' j', s.reach id ms fr j = .ok fr' j' ∧ fr'.Layered s id d' ∧
        fr'.positions[id]? = some here ∧ (∀ pos ∈ fr.positions, pos ∈ fr'.positions) ∧
        ∀ m ∈ ms, m.1 ∈ fr'.positions) ∨
      ∃ n j', s.reach id ms fr j = .error (.exhausted n) j' ∧ n ≤ max 1 s.options.witnessLimit
  | [], fr, d, j, hlayered, hhere, _ =>
      Or.inl ⟨fr, d, j, rfl, hlayered, hhere, fun _ h => h, by simp⟩
  | (pos, action) :: ms, fr, d, j, hlayered, hhere, hms => by
      obtain ⟨hm, hfit⟩ := hms _ List.mem_cons_self
      have hrest : ∀ m ∈ ms, m ∈ all ∧ s.Fits m.1 := fun m hm => hms m (List.mem_cons_of_mem _ hm)
      by_cases hold : fr.reached.contains pos = true
      · have hmem := (hlayered.mem_reached pos).1 (Std.HashSet.contains_iff_mem.1 hold)
        rw [reach, if_pos hold]
        refine (reach_layered hall hlayered hhere hrest).imp_left ?_
        rintro ⟨fr', d', j', hreach, hlayered', hhere', hkeep, hnew⟩
        refine ⟨fr', d', j', hreach, hlayered', hhere', hkeep, ?_⟩
        rintro m (_ | ⟨_, hm⟩)
        · exact hkeep pos hmem
        · exact hnew m hm
      · rw [reach, if_neg hold]
        by_cases hroom : s.options.witnessLimit ≤ fr.tree.size
        · rw [if_pos hroom]
          exact Or.inr ⟨fr.tree.size, j, rfl, hlayered.limit⟩
        · obtain ⟨node, hnode, hparent⟩ := hfit.exists_node (some id) action
          rw [if_neg hroom, hnode]
          have hlayered' := hlayered.push hhere hall hm hfit (Nat.lt_of_not_le hroom) hparent
          have hhere' : (fr.positions.push pos)[id]? = some here := by
            rw [Array.getElem?_push, hlayered.size_eq, if_neg (hlayered.lt_size hhere).ne]
            exact hhere
          refine (reach_layered hall (j := j.push (.positionReached fr.tree.size id pos.state pos.var))
            hlayered' hhere' hrest).imp_left ?_
          rintro ⟨fr', d', j', hreach, hlayered'', hhere'', hkeep, hnew⟩
          refine ⟨fr', d', j', hreach, hlayered'', hhere'',
            fun pos' hpos' => hkeep pos' (Array.mem_push_of_mem _ hpos'), ?_⟩
          rintro m (_ | ⟨_, hm⟩)
          · exact hkeep pos Array.mem_push_self
          · exact hnew m hm

/-- **A search** ends with a shortest witness, or it has no room or nothing left to follow up. -/
lemma explore_layered (h : s.Intact) : ∀ (count id : Nat) {fr : Frontier} {d : Nat → Nat} {j : Journal},
    fr.Layered s id d → id ≤ fr.tree.size → s.searchBound ≤ count + id →
    (∃ tree j', s.explore count id fr j = .ok tree j' ∧ s.ShortestWitness tree) ∨
    ∃ n j', s.explore count id fr j = .error (.exhausted n) j' ∧ n ≤ max 1 s.options.witnessLimit
  | 0, id, fr, d, j, hlayered, hid, hbound => by
      have := hlayered.limit
      simp only [searchBound] at hbound
      omega
  | count + 1, id, fr, d, j, hlayered, hid, hbound => by
      cases hpos : fr.positions[id]? with
      | none =>
          refine Or.inr ⟨fr.tree.size, j, ?_, hlayered.limit⟩
          rw [explore, hpos]
          rfl
      | some here =>
          cases hleaf : s.isLeaf here.var with
          | true =>
              obtain ⟨j', hexplore⟩ := Converged.explore_of_leaf count hpos hleaf j
              exact Or.inl ⟨_, j', hexplore, shortestWitness_of_leaf hlayered hpos hleaf⟩
          | false =>
              obtain ⟨ms, hms, hfits⟩ :=
                h.successors_fit (hlayered.fits here (Array.mem_of_getElem? hpos))
              rw [Converged.explore_of_moves hpos hleaf hms]
              rcases reach_layered hms (j := j) hlayered hpos fun m hm => ⟨hm, hfits m hm⟩ with
                ⟨fr', d', j', hreach, hlayered', hhere, -, hall⟩ | ⟨n, j', hreach, hn⟩
              · rw [bind_of_ok hreach]
                have hlt := hlayered'.lt_size hhere
                exact h.explore_layered count (id + 1) (hlayered'.succ hhere hleaf hms hall) hlt (by omega)
              · exact Or.inr ⟨n, j', bind_of_error hreach, hn⟩

/-- The first layer. -/
lemma layered_root {root : Position} (hroot : s.rootPosition = .ok root)
    (hfit : s.Fits root) {node : WitnessNode} (hparent : node.parent = none) :
    Frontier.Layered s ⟨({} : WitnessTree).push node, #[root],
      Std.HashSet.emptyWithCapacity.insert root⟩ 0 (fun _ => 0) := by
  have hget : ∀ (k : Nat) pos, (#[root] : Array Position)[k]? = some pos → k = 0 ∧ root = pos := by
    intro k pos hpos
    cases k with
    | zero => exact ⟨rfl, by simpa using hpos⟩
    | succ k => simp at hpos
  exact
    { size_eq := rfl
      limit := le_max_left _ _
      mem_reached := fun pos => by
        rw [Std.HashSet.mem_insert, beq_iff_eq, eq_comm]
        simp
      fits := fun pos hpos => by
        obtain rfl : pos = root := by simpa using hpos
        exact hfit
      root := fun root' hroot' => by
        obtain rfl := Except.ok.inj (hroot.symm.trans hroot')
        exact ⟨rfl, rfl⟩
      leads := fun k pos hpos => by
        obtain ⟨rfl, rfl⟩ := hget k pos hpos
        exact ⟨_, _, .root (n := { node with marked := false }) rfl hparent, rfl, .root hroot, rfl⟩
      sorted := fun _ _ _ _ => le_rfl
      band := fun _ _ _ => Nat.zero_le _
      quiet := fun k hk => absurd hk (Nat.not_lt_zero k)
      followed := fun k hk => absurd hk (Nat.not_lt_zero k) }

/-- **How a search in a session that has converged ends.** -/
lemma findWitness_cases (h : s.Intact) (hconverged : s.isConverged = true) (j : Journal) :
    (s.findWitness j = .ok none j ∧ s.isSat = .ok false) ∨
    (∃ tree j', s.findWitness j = .ok (some tree) j' ∧ s.ShortestWitness tree) ∨
    (∃ label, unsupported? s.equations = some label ∧
      s.findWitness j = .error (.unsupported label) j) ∨
    ∃ n j', s.findWitness j = .error (.exhausted n) j' ∧ n ≤ max 1 s.options.witnessLimit := by
  cases hsupported : unsupported? s.equations with
  | some label =>
      refine Or.inr (Or.inr (Or.inl ⟨label, rfl, ?_⟩))
      rw [findWitness, hsupported]
      rfl
  | none =>
      obtain ⟨sat, hsat⟩ := h.exists_isSat
      cases sat with
      | false =>
          refine Or.inl ⟨?_, hsat⟩
          rw [findWitness, hsupported]
          dsimp only
          rw [hconverged, hsat]
          rfl
      | true =>
          obtain ⟨root, hroot, hfit⟩ := h.rootPosition_fit
          obtain ⟨node, hnode, hparent⟩ := hfit.exists_node none none
          have hfind : s.findWitness = (s.explore s.searchBound 0 ⟨({} : WitnessTree).push node, #[root],
              Std.HashSet.emptyWithCapacity.insert root⟩ >>= fun tree => pure (some tree)) := by
            rw [findWitness, hsupported]
            dsimp only
            rw [hconverged, hsat, hroot]
            show (ask (s.witnessNode none root none) >>= _) = _
            rw [hnode]
            rfl
          rcases h.explore_layered s.searchBound 0 (j := j) (layered_root hroot hfit hparent)
            (Nat.zero_le _) le_rfl with ⟨tree, j', hexplore, htree⟩ | ⟨n, j', hexplore, hn⟩
          · refine Or.inr (Or.inl ⟨tree, j', ?_, htree⟩)
            rw [hfind, bind_of_ok hexplore]
            rfl
          · exact Or.inr (Or.inr (Or.inr ⟨n, j', by rw [hfind, bind_of_error hexplore], hn⟩))

end Intact

end Session

/-! ## Sessions at any time

What was asked of a session may have failed.  All that is needed is that the session is intact, and every
operation keeps this, whatever its answer is.
-/

namespace SessionM

open Session

variable {α β : Type}

/-- **An operation that keeps a session intact**, with its program, its equations and its options. -/
def Evolving (x : SessionM α) : Prop :=
  ∀ r : Run, r.session.Intact → r.session.Evolves (after x r).session

namespace Evolving

lemma of_same {x : SessionM α} (h : ∀ r, (after x r).session = r.session) : Evolving x := by
  intro r hr
  rw [h]
  exact .refl hr

lemma inspect (query : Session → Except Fault α) : Evolving (SessionM.inspect query) :=
  of_same fun r => by
    simp only [after, SessionM.inspect]
    cases query r.session <;> rfl

lemma bind {x : SessionM α} {f : α → SessionM β} (hx : Evolving x) (hf : ∀ a, Evolving (f a)) :
    Evolving (x >>= f) := by
  intro r hr
  have hfirst := hx r hr
  cases hxr : x r with
  | ok a r' =>
      simp only [after, hxr] at hfirst
      have hrest := hf a r' hfirst.intact
      simp only [after, bind_of_ok hxr] at hrest ⊢
      exact hfirst.trans hrest
  | error err r' =>
      simp only [after, hxr, bind_of_error hxr] at hfirst ⊢
      exact hfirst

lemma of_yields {x : SessionM α}
    (h : ∀ r : Run, r.session.Intact → Yields x r fun _ r' => r.session.Evolves r'.session) :
    Evolving x := by
  intro r hr
  obtain ⟨a, r', hx, hevolves⟩ := h r hr
  simp only [after, hx]
  exact hevolves

lemma step : Evolving step := fun _ h => (step_transition h).evolves h

lemma runWithin : ∀ steps, Evolving (runWithin steps)
  | 0 => of_same fun _ => rfl
  | steps + 1 => by
      refine step.bind fun more => ?_
      split
      · exact runWithin steps
      · exact .bind (.inspect _) fun _ => .of_same fun _ => rfl

lemma run : Evolving run :=
  .bind (.inspect _) fun bound => runWithin bound

lemma recompute (name : String) (n : Nat) : Evolving (recompute name n) := by
  intro r hr
  have hask : SessionM.inspect (fun s => .ok (s.program.indexOf? name)) r
      = .ok (r.session.program.indexOf? name) r := rfl
  cases hindex : r.session.program.indexOf? name with
  | none =>
      simp only [after, SessionM.recompute, bind_of_ok hask, hindex]
      exact .refl hr
  | some i =>
      obtain ⟨q, hq, rfl⟩ := Program.exists_of_indexOf? hindex
      by_cases hinner : n = q.final ∨ q.size ≤ n
      · have hprocedure : SessionM.inspect (·.procedure i) r = .ok q r := inspect_of_ok (procedure_ok hq)
        simp only [after, SessionM.recompute, bind_of_ok hask, hindex, bind_of_ok hprocedure,
          if_pos hinner]
        exact .refl hr
      · have hi : r.session.program.isInner i n = true :=
          (Program.isInner_iff hq).2 ⟨by omega, by omega⟩
        obtain ⟨block, hblock⟩ := hr.exists_block
        obtain ⟨u, r', hrecompute, hext, -⟩ := recompute_spec hr hq hi hblock
        simp only [after, hrecompute]
        exact .of_extends hext

lemma ofSerial (texts : List String) : Evolving (ofSerial texts) :=
  .of_yields fun _ hr => Yields.bind (inspect_ok rfl (onStore_ok
    ((Transformer.ofSerial_spec hr.store texts).mono fun _ _ h _ =>
      .of_extends (.setStore hr h.1))))

lemma startRecording : Evolving startRecording := by
  intro r hr
  by_cases hupdates : r.session.updates = 0
  · obtain ⟨ps, hrecording, -⟩ := startRecording_ok hr hupdates
    have hnoted : r.session.Noted (r.session.recorded (some { procedures := ps })) := .of_eq rfl
    simp only [after, hrecording r.journal]
    exact .of_shares hnoted.shares hr (hnoted.intact hr)
  · have hlate : SessionM.inspect (fun s => .ok (s.updates != 0)) r = .ok true r :=
      inspect_of_ok (congrArg Except.ok (by simpa using hupdates))
    simp only [after, SessionM.startRecording, bind_of_ok hlate]
    exact .refl hr

end Evolving

/-! ### What may be asked of a session

A session may be asked to step, to run, to compute a transformer again, to read one, and to record.  Any of
these may fail, and a session is reachable also through a failure.
-/

/-- What can be asked of a session that may change it. -/
inductive Use
  | step
  | run
  | recompute (procedure : String) (state : Nat)
  | read (texts : List String)
  | record

/-- What a use does. -/
def Use.operation : Use → SessionM Unit
  | .step => do let _ ← SessionM.step
  | .run => SessionM.run
  | .recompute procedure state => do let _ ← SessionM.recompute procedure state
  | .read texts => do let _ ← SessionM.ofSerial texts
  | .record => SessionM.startRecording

lemma Use.evolving (use : Use) : Evolving use.operation := by
  cases use with
  | step => exact .bind .step fun _ => .of_same fun _ => rfl
  | run => exact .run
  | recompute procedure state => exact .bind (.recompute procedure state) fun _ => .of_same fun _ => rfl
  | read texts => exact .bind (.ofSerial texts) fun _ => .of_same fun _ => rfl
  | record => exact .startRecording

end SessionM

namespace Session

open SessionM

variable {system : System} {p : Program} {o : Options} {f : Formula} {s : Session}

/-- **The sessions of a formula**: one that begins, and what any uses of it lead to, whether or not they
succeed. -/
inductive Reachable (p : Program) (o : Options) (f : Formula) : Session → Prop
  | begun {s : Session} {j j' : Journal} (hbegin : begin p o f j = .ok s j') : Reachable p o f s
  | used {s : Session} (h : Reachable p o f s) (use : Use) (j : Journal) :
      Reachable p o f (after use.operation ⟨s, j⟩).session

/-- **A session is intact at any time**, and its options stay. -/
theorem Reachable.intact (hp : p.WellFormed) (hbits : Store.validBits o.storageBits = true)
    (h : Reachable p o f s) : s.Intact ∧ s.options = o := by
  induction h with
  | begun hbegin =>
      obtain ⟨hontrack, -, hoptions, -⟩ := begin_spec hp hbits hbegin
      exact ⟨hontrack.toIntact, hoptions⟩
  | used _ use j ih =>
      have hevolves := use.evolving ⟨_, j⟩ ih.1
      exact ⟨hevolves.intact, hevolves.options.trans ih.2⟩

/-- **Witnesses are shortest, and searches are bounded.**  In a session that has converged, whatever was asked
of it before, a search ends in one of four ways.  The formula does not hold; or there is a witness, whose path
is as long as some derivation that ends a search and not longer than any other; or the formula is not
supported; or there is no room or nothing left to follow up.  It never reaches more positions than the limit
allows, except for the first one. -/
theorem findWitness_shortest (hsystem : Program.ofSystem system = .ok p)
    (hbits : Store.validBits o.storageBits = true) (hsession : Reachable p o f s)
    (hconverged : s.isConverged = true) (j : Journal) :
    (answer s.findWitness j = .ok none ∧ s.isSat = .ok false) ∨
    (∃ tree, answer s.findWitness j = .ok (some tree) ∧ tree.size ≤ max 1 o.witnessLimit ∧
      (∃ ps pos, s.Derivation ps pos ∧ s.isLeaf pos.var = true ∧ ps.length = tree.path.length) ∧
      ∀ ps pos, s.Derivation ps pos → s.isLeaf pos.var = true → tree.path.length ≤ ps.length) ∨
    (∃ label, unsupported? s.equations = some label ∧
      answer s.findWitness j = .error (.unsupported label)) ∨
    ∃ n, answer s.findWitness j = .error (.exhausted n) ∧ n ≤ max 1 o.witnessLimit := by
  obtain ⟨hintact, rfl⟩ := hsession.intact (Program.wellFormed_of_system hsystem) hbits
  rcases hintact.findWitness_cases hconverged j with
    ⟨hnone, hsat⟩ | ⟨tree, k, htree, hshortest⟩ | ⟨label, hunsupported, hlabel⟩ | ⟨n, k, hexhausted, hn⟩
  · exact Or.inl ⟨by simp only [answer, hnone], hsat⟩
  · exact Or.inr (Or.inl ⟨tree, by simp only [answer, htree], hshortest.limit, hshortest.attained,
      hshortest.shortest⟩)
  · exact Or.inr (Or.inr (Or.inl ⟨label, hunsupported, by simp only [answer, hlabel]⟩))
  · exact Or.inr (Or.inr (Or.inr ⟨n, by simp only [answer, hexhausted], hn⟩))

open Program in
theorem findWitness_shortest_nestingProgram : ∃ s tree,
    Reachable nestingProgram { storageBits := 6 } thereAndBack s ∧ s.isConverged = true ∧
    answer s.findWitness #[] = .ok (some tree) ∧ tree.size ≤ 100000 ∧
    ∀ ps pos, s.Derivation ps pos → s.isLeaf pos.var = true → tree.path.length ≤ ps.length := by
  have hends : afterRun nestingProgram { storageBits := 6 } thereAndBack (SessionM.inspect fun s =>
      .ok (s.endsAt 9 && (unsupported? s.equations).isNone && decide (s.isSat = .ok true)))
      = some true := by decide +kernel
  obtain ⟨s, k, r, r', hbegin, hrun, hends⟩ := exists_of_afterRun hends
  have hcheck := Except.ok.inj (SessionM.inspect_eq_ok hends).1
  simp only [Bool.and_eq_true, decide_eq_true_eq, Option.isNone_iff_eq_none] at hcheck
  obtain ⟨⟨hends, hsupported⟩, hsat⟩ := hcheck
  have hsystem : ofSystem { main := "main", procedures := [("main", nestingGraph)] }
      = .ok nestingProgram := rfl
  have h := converged_of_run (wellFormed_of_system hsystem) rfl hbegin hrun
  obtain ⟨root, hroot, -⟩ := h.rootPosition_spec
  simp only [Session.endsAt, hroot, Bool.and_eq_true, decide_eq_true_eq, Option.any_eq_true] at hends
  obtain ⟨⟨pos, hpos, hleaf⟩, hroom⟩ := hends
  have hreachable : Reachable nestingProgram { storageBits := 6 } thereAndBack r.session := by
    have hused := Reachable.used (.begun hbegin) .run k
    simpa only [after, Use.operation, hrun] using hused
  rcases h.findWitness_of_leaf hsupported hsat hroot hpos hleaf #[] with
    ⟨tree, j, hfind⟩ | ⟨size, j, -, hlimit, hsize⟩
  · have hanswer : answer r.session.findWitness #[] = .ok (some tree) := by simp only [answer, hfind]
    rcases findWitness_shortest hsystem rfl hreachable h.isConverged_eq #[] with
      ⟨hnone, -⟩ | ⟨tree', htree, hlimit, -, hshortest⟩ | ⟨label, -, hlabel⟩ | ⟨n, hexhausted, -⟩
    · rw [hanswer] at hnone
      cases hnone
    · exact ⟨r.session, tree', hreachable, h.isConverged_eq, htree, hlimit, hshortest⟩
    · rw [hanswer] at hlabel
      cases hlabel
    · rw [hanswer] at hexhausted
      cases hexhausted
  · omega

end Session

end ModalCalls
