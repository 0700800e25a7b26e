import Mathlib
import ModalCalls.Proofs.Witness.Moves
import ModalCalls.Proofs.Witness.Tree

/-!
# What a search does

A search follows up positions in the order in which it finds them.  Which positions these are does not depend
on how many it may reach: `Session.found` lists them, given how many were followed up.  The frontier of a
search records this list, and the tree has, for every position in it, a trail on which it was found
(`Frontier.Records`).

* `Session.Converged.reach_spec` — the moves from one position are added, or there is no room for them.
* `Session.Converged.explore_spec` — a search ends at a leaf, or there is no room, or nothing is left to
  follow up.

So a tree that is returned explains the formula (`Program.findWitness_sound`).
-/

namespace ModalCalls

variable {p : Program} {e : EquationSystem} {A : Assignment} {start c : Config p}

/-! ## The order of positions

Positions are found in one order, whatever the limit is.  This order is defined on its own, by the number of
positions that were followed up, and a search is shown to go along it until it ends.  A position that was
found stays in its place, so it is followed up as soon as all before it are.
-/

namespace Session

/-- Positions, with those that moves newly reach at the end. -/
def addNew (positions : List Position) (moves : List Move) : List Position :=
  moves.foldl (fun positions m => if m.1 ∈ positions then positions else positions ++ [m.1]) positions

/-- The moves that are followed. -/
def next (s : Session) (pos : Position) : List Move :=
  (s.successors pos).toOption.getD []

/-- **The positions that are found** once the first `n` of them are followed up. -/
def found (s : Session) (root : Position) : Nat → List Position
  | 0 => [root]
  | n + 1 => addNew (s.found root n) (((s.found root n)[n]?).elim [] s.next)

/-- None of the first `n` positions ends a search. -/
def Quiet (s : Session) (root : Position) (n : Nat) : Prop :=
  ∀ k < n, ∀ pos, (s.found root k)[k]? = some pos → s.isLeaf pos.var = false

/-- The position with number `n` ends a search, and up to it there is room. -/
def endsAt (s : Session) (n : Nat) : Bool :=
  match s.rootPosition with
  | .ok root =>
    ((s.found root n)[n]?).any (s.isLeaf ·.var) &&
      decide ((s.found root n).length ≤ s.options.witnessLimit)
  | .error _ => false

lemma Quiet.succ {s : Session} {root pos : Position} {n : Nat} (h : s.Quiet root n)
    (hpos : (s.found root n)[n]? = some pos) (hleaf : s.isLeaf pos.var = false) :
    s.Quiet root (n + 1) := by
  intro k hk pos' hpos'
  rcases Nat.lt_succ_iff_lt_or_eq.1 hk with hk | rfl
  · exact h k hk pos' hpos'
  · obtain rfl := Option.some.inj (hpos.symm.trans hpos')
    exact hleaf

lemma prefix_addNew (positions : List Position) (moves : List Move) :
    positions <+: addNew positions moves := by
  induction moves generalizing positions with
  | nil => exact List.prefix_rfl
  | cons m moves ih =>
      refine List.IsPrefix.trans ?_ (ih _)
      dsimp only
      split
      · exact List.prefix_rfl
      · exact List.prefix_append _ _

lemma mem_addNew {positions : List Position} {moves : List Move} {m : Move} (hm : m ∈ moves) :
    m.1 ∈ addNew positions moves := by
  obtain ⟨before, after, rfl⟩ := List.append_of_mem hm
  rw [addNew, List.foldl_append, List.foldl_cons]
  refine (prefix_addNew _ after).subset ?_
  split
  · assumption
  · simp

lemma found_prefix (s : Session) (root : Position) {k n : Nat} (h : k ≤ n) :
    s.found root k <+: s.found root n := by
  induction n, h using Nat.le_induction with
  | base => exact List.prefix_rfl
  | succ n _ ih => exact ih.trans (prefix_addNew _ _)

/-- Once nothing is left to follow up, nothing more is found. -/
lemma found_of_length_le {s : Session} {root : Position} {k n : Nat}
    (hdry : (s.found root k).length ≤ k) (h : k ≤ n) : s.found root n = s.found root k := by
  induction n, h using Nat.le_induction with
  | base => rfl
  | succ n hn ih =>
      have hnone : (s.found root k)[n]? = none := List.getElem?_eq_none (hdry.trans hn)
      rw [found, ih, hnone]
      rfl

/-- Every position that is found is followed up in the end. -/
lemma exists_turn {s : Session} {root pos : Position} {k : Nat} (h : pos ∈ s.found root k) :
    ∃ n, (s.found root n)[n]? = some pos := by
  obtain ⟨n, hn⟩ := List.getElem?_of_mem h
  refine ⟨n, ?_⟩
  rcases le_total k n with hle | hle
  · obtain ⟨rest, hrest⟩ := s.found_prefix root hle
    rw [← hrest, List.getElem?_append_left (List.getElem?_eq_some_iff.1 hn).1]
    exact hn
  · by_cases hdry : (s.found root n).length ≤ n
    · rw [← found_of_length_le hdry hle]
      exact hn
    · obtain ⟨rest, hrest⟩ := s.found_prefix root hle
      rw [← hrest, List.getElem?_append_left (Nat.lt_of_not_le hdry)] at hn
      exact hn

lemma found_succ {s : Session} {root pos : Position} {n : Nat} {ms : List Move}
    (hpos : (s.found root n)[n]? = some pos) (hms : s.successors pos = .ok ms) :
    s.found root (n + 1) = addNew (s.found root n) ms := by
  simp [found, hpos, next, hms, Except.toOption]

end Session

/-! ## What the frontier records

The frontier has the tree, the positions and a table of those that were reached.  All three say the same.
For every position there is a trail along the way to its node; it is made longer by one visit with each new
node.
-/

/-- **A position is explained**: there is a trail to it along the path to its node, and its variable is true
where the trail ends. -/
def WitnessTree.Explains (e : EquationSystem) (A : Assignment) (start : Config p) (t : WitnessTree)
    (id : Nat) (pos : Position) : Prop :=
  ∃ visits c, t.Leads id visits ∧ Trail e start 0 visits c pos.var ∧ pos.Tracks e A c ∧
    c ∈ truth e A pos.var

/-- **The frontier records the positions that are found**, all of them explained. -/
structure Session.Frontier.Records (e : EquationSystem) (A : Assignment) (start : Config p)
    (fr : Session.Frontier) (positions : List Position) : Prop where
  positions_eq : fr.positions.toList = positions
  mem_reached : ∀ pos, pos ∈ fr.reached ↔ pos ∈ positions
  size_eq : fr.tree.size = positions.length
  explained : ∀ (id : Nat) pos, positions[id]? = some pos →
    WitnessTree.Explains e A start fr.tree id pos

/-- A child of an explained position is recorded. -/
lemma Session.Frontier.Records.push {fr : Session.Frontier} {positions : List Position}
    (h : fr.Records e A start positions) {id v : Nat} {visits : List Visit} {pos : Position}
    {c' : Config p} {n : WitnessNode} (hleads : fr.tree.Leads id visits)
    (htrail : Trail e start 0 visits c v) (hfollows : Follows e c v n.action c' pos.var)
    (ht : pos.Tracks e A c') (htruth : c' ∈ truth e A pos.var) (hparent : n.parent = some id)
    (hvar : n.var = pos.var) (hat : n.visit.At c') :
    (⟨fr.tree.push n, fr.positions.push pos, fr.reached.insert pos⟩ : Session.Frontier).Records e A start
      (positions ++ [pos]) where
  positions_eq := by simp [h.positions_eq]
  mem_reached pos' := by
    rw [Std.HashSet.mem_insert, h.mem_reached, List.mem_append, List.mem_singleton, beq_iff_eq,
      or_comm, eq_comm]
  size_eq := by simp [WitnessTree.size_push, h.size_eq]
  explained k pos' hpos' := by
    rcases Nat.lt_trichotomy k positions.length with hk | rfl | hk
    · rw [List.getElem?_append_left hk] at hpos'
      obtain ⟨visits', c₁, hleads', hrest⟩ := h.explained k pos' hpos'
      exact ⟨visits', c₁, hleads'.push n, hrest⟩
    · obtain rfl : pos = pos' := by simpa using hpos'
      have hnew : Trail e start 0 (visits ++ [n.visit]) c' n.visit.var :=
        htrail.snoc (by rw [show n.visit.var = pos.var from hvar]; exact hfollows) hat
      rw [show n.visit.var = pos.var from hvar] at hnew
      refine ⟨_, c', ?_, hnew, ht, htruth⟩
      rw [← h.size_eq]
      exact hleads.push_child hparent
    · rw [List.getElem?_eq_none (by simpa using hk)] at hpos'
      cases hpos'

namespace Session.Converged

variable {f : Formula} {s : Session} {pos root : Position} {j : Journal}

/-! ## Single steps

A position that was reached before is passed over.  For any other a node is added, unless the tree has as
many as it may have.
-/

/-- The node of a position. -/
lemma witnessNode_spec (h : s.Converged p f) (ht : pos.Tracks s.equations s.value c)
    (parent : Option Nat) (action : Option String) :
    ∃ n, s.witnessNode parent pos action = .ok n ∧ n.parent = parent ∧ n.action = action ∧
      n.var = pos.var ∧ n.visit.At c := by
  obtain ⟨q, hq, -⟩ := c.control.exists_state
  obtain ⟨equation, hequation⟩ : ∃ equation, s.equations.equations[pos.var]? = some equation :=
    ⟨_, Array.getElem?_eq_getElem ht.var_lt⟩
  refine ⟨⟨parent, q.name, pos.state, pos.var, equation.label, action, false⟩, ?_, rfl, rfl, rfl,
    ht.state, q, hq, rfl⟩
  simp only [witnessNode, ht.procedure, procedure_ok (h.procedure_eq hq), Transformer.label,
    EquationSystem.label?, hequation]
  rfl

/-- **The moves from one position** are added, unless there is no room for them. -/
lemma reach_spec (h : s.Converged p f) {id v : Nat} {visits : List Visit}
    (htrail : Trail s.equations start 0 visits c v) :
    ∀ {ms : List ModalCalls.Move} {fr : Frontier} {positions : List Position} {j : Journal},
      (∀ m ∈ ms, ∃ c', m.1.Tracks s.equations s.value c' ∧
        Follows s.equations c v m.2 c' m.1.var ∧ c' ∈ truth s.equations s.value m.1.var) →
      fr.tree.Leads id visits → fr.Records s.equations s.value start positions →
      (∃ fr' j', s.reach id ms fr j = .ok fr' j' ∧
        fr'.Records s.equations s.value start (addNew positions ms) ∧
        (addNew positions ms).length ≤ max positions.length s.options.witnessLimit) ∨
      ∃ n j', s.reach id ms fr j = .error (.exhausted n) j' ∧ s.options.witnessLimit ≤ n ∧
        n < (addNew positions ms).length
  | [], fr, positions, j, _, _, hrecords =>
      Or.inl ⟨fr, j, rfl, hrecords, le_max_left _ _⟩
  | (pos, action) :: ms, fr, positions, j, hmoves, hleads, hrecords => by
      have hrest : ∀ m ∈ ms, ∃ c', m.1.Tracks s.equations s.value c' ∧
          Follows s.equations c v m.2 c' m.1.var ∧ c' ∈ truth s.equations s.value m.1.var :=
        fun m hm => hmoves m (List.mem_cons_of_mem _ hm)
      obtain ⟨c', ht, hfollows, htruth⟩ := hmoves _ List.mem_cons_self
      dsimp only at ht hfollows htruth
      by_cases hold : pos ∈ positions
      · have hreach : s.reach id ((pos, action) :: ms) fr = s.reach id ms fr := by
          rw [reach, if_pos (Std.HashSet.contains_iff_mem.2 ((hrecords.mem_reached pos).2 hold))]
        have hadd : addNew positions ((pos, action) :: ms) = addNew positions ms := by
          simp [addNew, hold]
        rw [hreach, hadd]
        exact h.reach_spec htrail hrest hleads hrecords
      · have hadd : addNew positions ((pos, action) :: ms) = addNew (positions ++ [pos]) ms := by
          simp [addNew, hold]
        have hlength := (prefix_addNew (positions ++ [pos]) ms).length_le
        rw [List.length_append, List.length_singleton] at hlength
        have hnew : ¬ fr.reached.contains pos = true := fun hcontains =>
          hold ((hrecords.mem_reached pos).1 (Std.HashSet.contains_iff_mem.1 hcontains))
        rw [reach, if_neg hnew, hadd]
        by_cases hroom : s.options.witnessLimit ≤ fr.tree.size
        · rw [if_pos hroom]
          refine Or.inr ⟨fr.tree.size, j, rfl, hroom, ?_⟩
          have := hrecords.size_eq
          omega
        · obtain ⟨n, hn, hparent, haction, hvar, hat⟩ := h.witnessNode_spec ht (some id) action
          rw [if_neg hroom, hn]
          have hrecords' := hrecords.push hleads htrail (by rw [haction]; exact hfollows) ht htruth
            hparent hvar hat
          have hsize := hrecords.size_eq
          rcases h.reach_spec htrail (j := j.push (.positionReached fr.tree.size id pos.state pos.var))
            hrest (hleads.push n) hrecords' with ⟨fr', j', hreach, hrecords'', hle⟩ | hfull
          · refine Or.inl ⟨fr', j', hreach, hrecords'', ?_⟩
            rw [List.length_append, List.length_singleton] at hle
            omega
          · exact Or.inr hfull

/-! ## Whole searches

By induction on the rounds that are left.  The bound of a search exceeds the number of positions that it may
reach, and each round follows up another one of these, so the rounds are never used up.
-/

/-- A search ends at leaves only. -/
lemma exists_leafValue (h : s.Converged p f) {v : Nat} (hleaf : s.isLeaf v = true)
    (holds : String → Bool) : ∃ k, s.equations.leafValue holds v = some k := by
  simp only [isLeaf] at hleaf
  split at hleaf
  · next hop => exact ⟨true, by simp [EquationSystem.leafValue, hop]⟩
  · next a hop => exact ⟨holds a, by simp [EquationSystem.leafValue, hop]⟩
  · next d hop =>
      obtain ⟨-, ⟨a, hatom⟩, -⟩ := h.equations.neg_atom v d hop
      exact ⟨!holds a, by simp [EquationSystem.leafValue, hop, hatom]⟩
  · cases hleaf

lemma explore_of_leaf (count : Nat) {id : Nat} {fr : Frontier} (hpos : fr.positions[id]? = some pos)
    (hleaf : s.isLeaf pos.var = true) (j : Journal) :
    ∃ j', s.explore (count + 1) id fr j = .ok (fr.tree.computePath id).2 j' := by
  simp only [explore, hpos, if_pos hleaf]
  exact ⟨_, rfl⟩

lemma explore_of_moves {count id : Nat} {fr : Frontier} {ms : List ModalCalls.Move}
    (hpos : fr.positions[id]? = some pos) (hleaf : s.isLeaf pos.var = false)
    (hms : s.successors pos = .ok ms) :
    s.explore (count + 1) id fr = s.reach id ms fr >>= s.explore count (id + 1) := by
  rw [explore, hpos]
  dsimp only
  rw [if_neg (by simp [hleaf]), hms]
  rfl

/-- **A search** that has followed up the first positions ends at a leaf, or there is no room for a position
that it finds, or nothing is left to follow up. -/
lemma explore_spec (h : s.Converged p f) :
    ∀ (count id : Nat) {fr : Frontier} {j : Journal},
      fr.Records s.equations s.value start (s.found root id) → s.Quiet root id →
      id ≤ (s.found root id).length →
      (s.found root id).length ≤ max 1 s.options.witnessLimit →
      s.searchBound ≤ count + id →
      (∃ tree j' visits c v, s.explore count id fr j = .ok tree j' ∧
        tree.path.map tree.visitAt = visits.map some ∧ tree.word = visits.filterMap (·.action) ∧
        Trail s.equations start 0 visits c v ∧
        s.equations.leafValue (p.configurations.holds c) v = some true) ∨
      ∃ n j' k, s.explore count id fr j = .error (.exhausted n) j' ∧ s.Quiet root k ∧
        (s.options.witnessLimit ≤ n ∧ n < (s.found root k).length ∨ (s.found root k).length ≤ k)
  | 0, id, fr, j, _, _, hid, hlength, hbound => by
      simp only [searchBound] at hbound
      omega
  | count + 1, id, fr, j, hrecords, hquiet, hid, hlength, hbound => by
      have hposition : fr.positions[id]? = (s.found root id)[id]? := by
        rw [← hrecords.positions_eq, Array.getElem?_toList]
      cases hpos : (s.found root id)[id]? with
      | none =>
          refine Or.inr ⟨fr.tree.size, j, id, ?_, hquiet, Or.inr (List.getElem?_eq_none_iff.1 hpos)⟩
          rw [explore, hposition, hpos]
          rfl
      | some pos =>
          rw [hpos] at hposition
          obtain ⟨visits, c, hleads, htrail, ht, htruth⟩ := hrecords.explained id pos hpos
          cases hleaf : s.isLeaf pos.var with
          | true =>
              obtain ⟨j', hexplore⟩ := explore_of_leaf count hposition hleaf j
              obtain ⟨k, hk⟩ := h.exists_leafValue hleaf (p.configurations.holds c)
              obtain rfl := (mem_truth_of_leaf h.equations h.reached h.finished hk).1 htruth
              obtain ⟨hpath, hword⟩ := hleads.computePath rfl
              exact Or.inl ⟨_, j', visits, c, pos.var, hexplore, hpath, hword, htrail, hk⟩
          | false =>
              obtain ⟨ms, hms, hmatch⟩ := h.successors_spec ht
              have hfound := found_succ hpos hms
              have hlt := (List.getElem?_eq_some_iff.1 hpos).1
              have hgrows := (prefix_addNew (s.found root id) ms).length_le
              rw [explore_of_moves hposition hleaf hms]
              rcases h.reach_spec htrail (j := j) hmatch.sound hleads hrecords with
                ⟨fr', j', hreach, hrecords', hle⟩ | ⟨n, j', hreach, hlimit, hn⟩
              · rw [← hfound] at hrecords' hle hgrows
                rw [bind_of_ok hreach]
                exact h.explore_spec count (id + 1) hrecords' (hquiet.succ hpos hleaf) (by omega) (by omega)
                  (by omega)
              · exact Or.inr ⟨n, j', id + 1, bind_of_error hreach, hquiet.succ hpos hleaf,
                  Or.inl ⟨hlimit, hfound ▸ hn⟩⟩

/-! ### In a session after a run

A session after a run has nothing left to update, which is the first thing that a search looks at.  The
other questions before a search are whether the formula is supported and whether it holds.
-/

/-- Nothing is left to update. -/
lemma isConverged_eq (h : s.Converged p f) : s.isConverged = true := by
  have hidle : s.isIdle = true := isIdle_iff.2 fun i n hpending =>
    h.finished.clean i n (h.program_eq ▸ h.inner i n hpending) hpending
  simp only [isConverged, hidle, Bool.and_true, beq_iff_eq]
  exact h.finished.block

/-- Where a search begins. -/
lemma rootPosition_spec (h : s.Converged p f) :
    ∃ root, s.rootPosition = .ok root ∧ root.var = 0 ∧
      root.Tracks s.equations s.value h.wellFormed.start := by
  obtain ⟨q, hq⟩ := h.wellFormed.main
  refine ⟨⟨[], p.main, q.initial, 0, s.deadlock⟩, ?_, rfl, rfl, ?_, h.equations.size_pos, ?_, .nil⟩
  · simp only [rootPosition, h.program_eq, procedure_ok (h.procedure_eq hq)]
    rfl
  · show q.initial = ((p.procedures[p.main]?).map (·.initial)).getD 0
    rw [hq]
    rfl
  · intro w
    rw [h.deadlock]
    exact (congrFun (exitValues_main s.equations s.value) w).symm

/-- There is no witness if the formula does not hold. -/
lemma findWitness_of_not_sat (h : s.Converged p f) (hsupported : unsupported? s.equations = none)
    (hsat : s.isSat = .ok false) (j : Journal) : s.findWitness j = .ok none j := by
  rw [findWitness, hsupported]
  dsimp only
  rw [h.isConverged_eq, hsat]
  rfl

/-- There is a witness only if the formula is supported and holds. -/
lemma isSat_of_findWitness (h : s.Converged p f) {tree : WitnessTree} {j' : Journal}
    (hfind : s.findWitness j = .ok (some tree) j') :
    unsupported? s.equations = none ∧ s.isSat = .ok true := by
  cases hsupported : unsupported? s.equations with
  | some label =>
      rw [findWitness, hsupported] at hfind
      cases hfind
  | none =>
      refine ⟨rfl, ?_⟩
      obtain ⟨b, hsat⟩ := h.exists_isSat
      cases b with
      | true => exact hsat
      | false =>
          rw [h.findWitness_of_not_sat hsupported hsat] at hfind
          cases hfind

/-- **Searching a session where the formula holds** is following up positions from the first one. -/
lemma findWitness_eq (h : s.Converged p f) (hsupported : unsupported? s.equations = none)
    (hsat : s.isSat = .ok true) (hroot : s.rootPosition = .ok root) :
    ∃ fr : Frontier, fr.Records s.equations s.value h.wellFormed.start [root] ∧
      s.findWitness = (s.explore s.searchBound 0 fr >>= fun tree => pure (some tree)) := by
  obtain ⟨root', hroot', hvar, ht⟩ := h.rootPosition_spec
  obtain rfl : root = root' := Except.ok.inj (hroot.symm.trans hroot')
  obtain ⟨n, hn, hparent, haction, hnvar, hat⟩ := h.witnessNode_spec ht none none
  refine ⟨⟨({} : WitnessTree).push n, #[root], Std.HashSet.emptyWithCapacity.insert root⟩, ?_, ?_⟩
  · refine ⟨rfl, fun pos => ?_, rfl, fun id pos hpos => ?_⟩
    · rw [Std.HashSet.mem_insert, List.mem_singleton, beq_iff_eq, eq_comm]
      simp
    obtain ⟨rfl, rfl⟩ : id = 0 ∧ root = pos := by
      cases id with
      | zero => exact ⟨rfl, by simpa using hpos⟩
      | succ id => simp at hpos
    refine ⟨[n.visit], _, .root (n := { n with marked := false }) rfl hparent, ?_, ht, ?_⟩
    · rw [hvar]
      exact .root hat (hnvar.trans hvar) haction
    · rw [hvar]
      exact (h.isSat_eq_truth hsat).1 rfl
  · rw [findWitness, hsupported]
    dsimp only
    rw [h.isConverged_eq, hsat, hroot]
    show (ask (s.witnessNode none root none) >>= _) = _
    rw [hn]
    rfl

/-- **Searching a session where the formula holds**, to its end. -/
lemma findWitness_spec (h : s.Converged p f) (hsupported : unsupported? s.equations = none)
    (hsat : s.isSat = .ok true) (hroot : s.rootPosition = .ok root) (j : Journal) :
    (∃ tree j' visits c v, s.findWitness j = .ok (some tree) j' ∧
      tree.path.map tree.visitAt = visits.map some ∧ tree.word = visits.filterMap (·.action) ∧
      Trail s.equations h.wellFormed.start 0 visits c v ∧
      s.equations.leafValue (p.configurations.holds c) v = some true) ∨
    ∃ n j' k, s.findWitness j = .error (.exhausted n) j' ∧ s.Quiet root k ∧
      (s.options.witnessLimit ≤ n ∧ n < (s.found root k).length ∨ (s.found root k).length ≤ k) := by
  obtain ⟨fr, hrecords, hfind⟩ := h.findWitness_eq hsupported hsat hroot
  rcases h.explore_spec s.searchBound 0 (j := j) hrecords
    (fun k hk => absurd hk (Nat.not_lt_zero k)) (Nat.zero_le _) (le_max_left _ _) le_rfl with
    ⟨tree, j', visits, c, v, hexplore, hrest⟩ | ⟨n, j', k, hexplore, hrest⟩
  · refine Or.inl ⟨tree, j', visits, c, v, ?_, hrest⟩
    rw [hfind, bind_of_ok hexplore]
    rfl
  · exact Or.inr ⟨n, j', k, by rw [hfind, bind_of_error hexplore], hrest⟩

/-- **If some position that is found ends a search**, then the search ends well, or there is no room for the
positions up to that one. -/
lemma findWitness_of_leaf (h : s.Converged p f) (hsupported : unsupported? s.equations = none)
    (hsat : s.isSat = .ok true) (hroot : s.rootPosition = .ok root) {n : Nat}
    (hpos : (s.found root n)[n]? = some pos) (hleaf : s.isLeaf pos.var = true) (j : Journal) :
    (∃ tree j', s.findWitness j = .ok (some tree) j') ∨
      ∃ size j', s.findWitness j = .error (.exhausted size) j' ∧ s.options.witnessLimit ≤ size ∧
        size < (s.found root n).length := by
  rcases h.findWitness_spec hsupported hsat hroot j with
    ⟨tree, j', _, _, _, hfind, -⟩ | ⟨size, j', k, hfind, hquiet, hend⟩
  · exact Or.inl ⟨tree, j', hfind⟩
  · refine Or.inr ⟨size, j', hfind, ?_⟩
    have hk : k ≤ n := by
      refine Nat.le_of_not_lt fun hlt => ?_
      rw [hquiet n hlt pos hpos] at hleaf
      cases hleaf
    rcases hend with ⟨hlimit, hsize⟩ | hdry
    · exact ⟨hlimit, hsize.trans_le (s.found_prefix root hk).length_le⟩
    · have hlt := (List.getElem?_eq_some_iff.1 hpos).1
      rw [found_of_length_le hdry hk] at hlt
      omega

end Session.Converged

/-! ## Soundness

A tree that is returned comes from a session after a run, where transformers mean what they should.  The
trail along its result path starts with the formula and ends at a leaf that is true.
-/

namespace Program

open Session

variable {system : System} {o : Options} {f : Formula} {s : Session} {r : Run} {j j' k : Journal}

/-- A search of a program is one of its session after a run. -/
lemma answer_findWitness (hbegin : Session.begin p o f j = .ok s k)
    (hrun : SessionM.run ⟨s, k⟩ = .ok () r) :
    answer (p.findWitness o f) j = answer r.session.findWitness r.journal := by
  have hfind : p.findWitness o f j = concludeSearch r.session r.journal := by
    have hs : liftSolve (Session.begin p o f) j = .ok s k := by simp only [liftSolve, hbegin]
    have hr : liftSolve (converge s) k = .ok r.session r.journal := by
      simp only [liftSolve, converge, hrun]
    rw [findWitness, bind_of_ok hs, bind_of_ok hr]
  simp only [answer, hfind, concludeSearch]
  cases r.session.findWitness r.journal <;> rfl

/-- A search that ends well comes after a run that does. -/
lemma exists_run_of_findWitness {found : Option WitnessTree}
    (hfind : p.findWitness o f j = .ok found j') :
    ∃ s k r, Session.begin p o f j = .ok s k ∧ SessionM.run ⟨s, k⟩ = .ok () r := by
  obtain ⟨s, k, hs, hfind⟩ := bind_eq_ok hfind
  obtain ⟨s', k', hr, -⟩ := bind_eq_ok hfind
  simp only [liftSolve] at hs
  split at hs
  · next hbegin =>
      cases hs
      simp only [liftSolve, converge] at hr
      split at hr
      · next hconverge =>
          split at hconverge
          · next r hrun => exact ⟨_, _, r, hbegin, hrun⟩
          · cases hconverge
      · cases hr
  · cases hs

/-- **Witnesses are sound.**  The path of a tree that is returned is a trail from the initial configuration
and the formula itself.  It ends with truth, an atom or a negated atom that is true there, with the atoms of
where control is in effect.  So the word is one of must steps from the initial configuration. -/
theorem findWitness_sound (hsystem : ofSystem system = .ok p)
    (hbits : Store.validBits o.storageBits = true) {tree : WitnessTree}
    (hfind : p.findWitness o f j = .ok (some tree) j') :
    ∃ e visits c v, EquationSystem.ofFormula f = .ok e ∧
      tree.path.map tree.visitAt = visits.map some ∧
      Trail e (wellFormed_of_system hsystem).start 0 visits c v ∧
      e.leafValue (p.configurations.holds c) v = some true ∧
      tree.word = visits.filterMap (·.action) ∧
      MustRun (wellFormed_of_system hsystem).start tree.word c := by
  obtain ⟨s, k, r, hbegin, hrun⟩ := exists_run_of_findWitness hfind
  have h := converged_of_run (wellFormed_of_system hsystem) hbits hbegin hrun
  have hanswer : answer r.session.findWitness r.journal = .ok (some tree) := by
    rw [← answer_findWitness hbegin hrun]
    simp only [answer, hfind]
  have hfound := answer_eq_ok_iff.1 hanswer
  obtain ⟨hsupported, hsat⟩ := h.isSat_of_findWitness hfound
  obtain ⟨root, hroot, -⟩ := h.rootPosition_spec
  rcases h.findWitness_spec hsupported hsat hroot r.journal with
    ⟨_, _, visits, c, v, hfound', hpath, hword, htrail, hleaf⟩ | ⟨_, _, _, hfull, -⟩
  · rw [hfound] at hfound'
    cases hfound'
    refine ⟨_, visits, c, v, h.formula, hpath, htrail, hleaf, hword, ?_⟩
    rw [hword]
    exact htrail.mustRun (EquationSystem.not_dia_of_leaf hleaf)
  · rw [hfound] at hfull
    cases hfull

/-- A procedure that calls itself between its first step and its last one. -/
def nestingGraph : ProcessGraph where
  states := #[[], [], ["q"], []]
  edges := #[⟨some 0, 1, "a", .must, .internal⟩, ⟨some 1, 2, "main", .must, .call⟩,
    ⟨some 1, 2, "b", .must, .internal⟩, ⟨some 2, 3, "c", .must, .internal⟩]
  initial := some 0
  final := some 3

def nestingProgram : Program :=
  ⟨0, #[⟨"main", nestingGraph, 0, 3⟩]⟩

/-- Two calls deep and one call back, to where a procedure has ended and `q` holds after its return. -/
def thereAndBack : Formula :=
  ["a", "a", "a", "b", "c", "c"].foldr (fun action f => .dia (some action) f) (.atom "q")

theorem findWitness_sound_nestingProgram :
    ∃ (hsystem : ofSystem { main := "main", procedures := [("main", nestingGraph)] }
        = .ok nestingProgram) (tree : WitnessTree) (j : Journal),
      nestingProgram.findWitness { storageBits := 6 } thereAndBack #[] = .ok (some tree) j ∧
      ∃ e visits c v, EquationSystem.ofFormula thereAndBack = .ok e ∧
        tree.path.map tree.visitAt = visits.map some ∧
        Trail e (wellFormed_of_system hsystem).start 0 visits c v ∧
        e.leafValue (nestingProgram.configurations.holds c) v = some true ∧
        tree.word = visits.filterMap (·.action) ∧
        MustRun (wellFormed_of_system hsystem).start tree.word c := by
  have hends : afterRun nestingProgram { storageBits := 6 } thereAndBack (SessionM.inspect fun s =>
      .ok (s.endsAt 9 && (unsupported? s.equations).isNone && decide (s.isSat = .ok true)))
      = some true := by decide +kernel
  obtain ⟨s, k, r, r', hbegin, hrun, hends⟩ := exists_of_afterRun hends
  have hcheck := Except.ok.inj (SessionM.inspect_eq_ok hends).1
  simp only [Bool.and_eq_true, decide_eq_true_eq, Option.isNone_iff_eq_none] at hcheck
  obtain ⟨⟨hends, hsupported⟩, hsat⟩ := hcheck
  have hsystem : ofSystem { main := "main", procedures := [("main", nestingGraph)] }
      = .ok nestingProgram := rfl
  have h := converged_of_run (wellFormed_of_system hsystem) rfl hbegin hrun
  obtain ⟨root, hroot, -⟩ := h.rootPosition_spec
  simp only [Session.endsAt, hroot, Bool.and_eq_true, decide_eq_true_eq, Option.any_eq_true] at hends
  obtain ⟨⟨pos, hpos, hleaf⟩, hroom⟩ := hends
  rcases h.findWitness_of_leaf hsupported hsat hroot hpos hleaf r.journal with
    ⟨tree, j, hfind⟩ | ⟨size, j, -, hlimit, hsize⟩
  · have hanswer : answer (nestingProgram.findWitness { storageBits := 6 } thereAndBack) #[]
        = .ok (some tree) := by
      rw [answer_findWitness hbegin hrun]
      simp only [answer, hfind]
    have hfound := answer_eq_ok_iff.1 hanswer
    exact ⟨hsystem, tree, _, hfound, findWitness_sound hsystem rfl hfound⟩
  · omega

end Program

end ModalCalls
