import Mathlib
import ModalCalls.Proofs.Semantics.Leaves
import ModalCalls.Proofs.Semantics.Trails
import ModalCalls.Proofs.Session.Verdict

/-!
# Positions and configurations

A position of a search stands for a configuration: its frames are the stack, and the truth values that it
carries along are what the summaries say about the return (`Position.Tracks`).  In a session after a run the
moves of a search that are followed are then exactly the ways in which a trail may go on through
configurations where its variable is true (`Session.Converged.successors_spec`), and looking for them never
fails.
-/

namespace ModalCalls

variable {p : Program} {e : EquationSystem} {A : Assignment}

/-- **The frames of a position are a stack** of locations, each with what holds after the return after it. -/
inductive Frames (e : EquationSystem) (A : Assignment) : List Frame → List (Location p) → Prop
  | nil : Frames e A [] []
  | cons {frame : Frame} {frames : List Frame} {l : Location p} {stack : List (Location p)}
      (hprocedure : frame.procedure = l.procedure) (hstate : frame.state = l.state)
      (hcontext : ∀ w, frame.context.getD w false = exitValues e A l.procedure stack w)
      (hrest : Frames e A frames stack) : Frames e A (frame :: frames) (l :: stack)

/-- **A position stands for a configuration.** -/
structure Position.Tracks (e : EquationSystem) (A : Assignment) (pos : Position) (c : Config p) :
    Prop where
  procedure : pos.procedure = c.control.procedure
  state : pos.state = c.control.state
  var_lt : pos.var < e.size
  context : ∀ w, pos.context.getD w false = exitValues e A c.control.procedure c.stack w
  frames : Frames e A pos.stack c.stack

/-- What is not a variable never holds. -/
lemma exitValues_of_size_le (he : e.WellFormed) {S : Snapshot} (h : Snapshot.Reached p e S) {w : Nat}
    (hw : e.size ≤ w) : ∀ (i : Nat) (stack : List (Location p)),
      exitValues e S.value i stack w = false
  | i, [] => by
      show (e.deadlockValues _).getD w false = false
      simp [EquationSystem.size_deadlockValues, hw]
  | i, l :: stack => by
      show S.value l.procedure l.state w _ = false
      rw [h.value_of_size_le he hw]
      exact exitValues_of_size_le he h hw l.procedure stack

namespace Session.Converged

variable {f : Formula} {s : Session} {pos : Position} {c : Config p} {l l' entry : Location p}
  {stack : List (Location p)} {edge : Edge}

/-! ## Single questions

A session knows nothing of configurations.  It evaluates the transformer of a state with the truth values
that a position carries.  These are the values that hold when the current procedure returns, so the answer
is what holds in the configuration.
-/

lemma procedure_eq (h : s.Converged p f) {i : Nat} {q : Procedure} (hq : p.procedures[i]? = some q) :
    s.program.procedures[i]? = some q := by
  rw [h.program_eq]
  exact hq

/-- What the transformer of a location says. -/
lemma exists_evaluate (h : s.Converged p f) (l : Location p) {context : Array Bool}
    {x : Nat → Bool} (hx : ∀ w, context.getD w false = x w) :
    ∃ t vars, s.transformer l.procedure l.state = .ok t ∧ t.evaluate s.store context = .ok vars ∧
      ∀ v, vars.contains v = (decide (v < s.equations.size) && s.value l.procedure l.state v x) := by
  obtain ⟨q, hq, hn⟩ := l.exists_state
  obtain ⟨t, ht⟩ := h.exists_transformer (h.procedure_eq hq) hn
  obtain ⟨vars, hvars, hcontains⟩ :=
    Transformer.evaluate_ok h.store.toShaped (h.lives _ _ t ht) context
  refine ⟨t, vars, transformer_ok ht, hvars, fun v => ?_⟩
  rw [hcontains, value_of_transformer? ht, funext hx]

/-- **Whether a position holds** is whether its variable is true in the configuration. -/
lemma holdsAt_spec (h : s.Converged p f) (ht : pos.Tracks s.equations s.value c) :
    ∃ b, s.holdsAt pos = .ok b ∧ (b = true ↔ c ∈ truth s.equations s.value pos.var) := by
  obtain ⟨t, vars, htransformer, hvars, hcontains⟩ := h.exists_evaluate c.control ht.context
  refine ⟨vars.contains pos.var, ?_, ?_⟩
  · simp only [holdsAt, ht.procedure, ht.state, htransformer]
    show (t.evaluate s.store pos.context >>= fun vars => .ok (vars.contains pos.var)) = _
    rw [hvars]
    rfl
  · rw [hcontains, decide_eq_true ht.var_lt, Bool.true_and]
    rfl

/-- Entering a procedure. -/
lemma enter_spec (h : s.Converged p f) (ht : pos.Tracks s.equations s.value (⟨l, stack⟩ : Config p))
    (hjoined : l.Joined edge l') (hentry : entry.IsEntry edge.label) :
    ∃ pos', s.enter pos edge = .ok pos' ∧ pos'.var = pos.var ∧
      pos'.Tracks s.equations s.value (⟨entry, l' :: stack⟩ : Config p) := by
  obtain ⟨hindex, q, hq, hinitial⟩ := Program.entryOf?_eq_some.1 hentry
  have hcontext : ∀ w, pos.context.getD w false = exitValues s.equations s.value l'.procedure stack w := by
    rw [hjoined.procedure_eq]
    exact ht.context
  obtain ⟨t, vars, htransformer, hvars, hcontains⟩ := h.exists_evaluate l' hcontext
  rw [hjoined.procedure_eq, hjoined.target_eq] at htransformer
  refine ⟨⟨⟨pos.procedure, edge.target, pos.context⟩ :: pos.stack, entry.procedure, q.initial, pos.var,
    vars.toBools s.equations.size⟩, ?_, rfl, ?_⟩
  · have hprocedure : pos.procedure = l.procedure := ht.procedure
    simp only [enter, h.program_eq, hindex, procedure_ok (h.procedure_eq hq), hprocedure, htransformer]
    show (t.evaluate s.store pos.context >>= _) = _
    rw [hvars]
    rfl
  · refine ⟨rfl, hinitial, ht.var_lt, fun w => ?_, .cons ?_ ?_ hcontext ht.frames⟩
    · by_cases hw : w < s.equations.size
      · rw [VarSet.getD_toBools _ _ hw, hcontains, decide_eq_true hw, Bool.true_and]
        rfl
      · refine Eq.trans ?_ (exitValues_of_size_le h.equations h.reached (Nat.le_of_not_lt hw) _ _).symm
        simp [VarSet.toBools, hw]
    · exact ht.procedure.trans hjoined.procedure_eq.symm
    · exact hjoined.target_eq.symm

/-! ## Moves

A list of moves is compared with a relation, in both directions: no move is made up and none is left out.
The relation for a diamond is that of its edges, one at a time.  Where a procedure has ended, the only way
on is the return.
-/

/-- **Moves agree with the ways in which a trail may go on**: each of them is one, and each of these is
among them. -/
structure Matches (s : Session) (moves : List ModalCalls.Move)
    (next : Option String → Config p → Nat → Prop) : Prop where
  sound : ∀ m ∈ moves, ∃ c', m.1.Tracks s.equations s.value c' ∧ next m.2 c' m.1.var
  complete : ∀ action c' w, next action c' w →
    ∃ m ∈ moves, m.2 = action ∧ m.1.var = w ∧ m.1.Tracks s.equations s.value c'

lemma Matches.congr {ms : List ModalCalls.Move} {next next' : Option String → Config p → Nat → Prop}
    (h : Matches s ms next) (hiff : ∀ action c' w, next action c' w ↔ next' action c' w) :
    Matches s ms next' where
  sound m hm := by
    obtain ⟨c', ht, hnext⟩ := h.sound m hm
    exact ⟨c', ht, (hiff _ _ _).1 hnext⟩
  complete action c' w hnext := h.complete action c' w ((hiff _ _ _).2 hnext)

lemma Matches.nil {next : Option String → Config p → Nat → Prop}
    (hnone : ∀ action c' w, ¬ next action c' w) : Matches s [] next where
  sound _ hm := absurd hm List.not_mem_nil
  complete action c' w hnext := absurd hnext (hnone action c' w)

lemma Matches.singleton {m : ModalCalls.Move} {next : Option String → Config p → Nat → Prop}
    (ht : m.1.Tracks s.equations s.value c) (hnext : next m.2 c m.1.var)
    (honly : ∀ action c' w, next action c' w → m.2 = action ∧ c = c' ∧ m.1.var = w) :
    Matches s [m] next where
  sound m' hm := by
    obtain rfl := List.mem_singleton.1 hm
    exact ⟨c, ht, hnext⟩
  complete action c' w hnext := by
    obtain ⟨haction, rfl, hvar⟩ := honly action c' w hnext
    exact ⟨m, List.mem_singleton_self m, haction, hvar, ht⟩

/-! ### Along an edge

An internal edge leads to its target with the operand of the diamond.  A call leads into the procedure with
the diamond itself, which is still to be satisfied there, and this move has no action.
-/

/-- How a diamond goes on along an edge to `l'`. -/
inductive Crosses (action : Option String) (v d : Nat) (edge : Edge) (l' : Location p)
    (stack : List (Location p)) : Option String → Config p → Nat → Prop
  | internal (hkind : edge.isCall = false) (hmust : edge.modality = .must)
      (hspeaks : Concerns action edge.label) :
      Crosses action v d edge l' stack (some edge.label) ⟨l', stack⟩ d
  | call {entry : Location p} (hkind : edge.isCall = true) (hentry : entry.IsEntry edge.label) :
      Crosses action v d edge l' stack none ⟨entry, l' :: stack⟩ v

lemma follows_iff_crosses {v d : Nat} {action : Option String} (stack : List (Location p))
    (hl : l.isExit = false) (hop : e.operator? v = some (.dia action d)) (a : Option String)
    (c' : Config p) (w : Nat) :
    Follows e ⟨l, stack⟩ v a c' w ↔
      ∃ edge l', l.Joined edge l' ∧ Crosses action v d edge l' stack a c' w := by
  constructor
  · intro h
    cases h with
    | operand hop' => simp [hop] at hop'
    | along hop' hjoined hkind hmust hspeaks =>
        rw [hop] at hop'
        cases hop'
        exact ⟨_, _, hjoined, .internal hkind hmust hspeaks⟩
    | enter _ hjoined hkind hentry => exact ⟨_, _, hjoined, .call hkind hentry⟩
    | leave _ hexit => simp [hl] at hexit
  · rintro ⟨edge, l', hjoined, hcrosses⟩
    cases hcrosses with
    | internal hkind hmust hspeaks => exact .along hop hjoined hkind hmust hspeaks
    | call hkind hentry => exact .enter hop hjoined hkind hentry

/-- The moves along one edge. -/
lemma movesAlong_spec (h : s.Converged p f)
    (ht : pos.Tracks s.equations s.value (⟨l, stack⟩ : Config p)) {action : Option String} {d : Nat}
    (hop : s.equations.operator? pos.var = some (.dia action d)) (hjoined : l.Joined edge l') :
    ∃ part, s.movesAlong pos action d edge = .ok part ∧
      Matches s part (Crosses action pos.var d edge l' stack) := by
  cases hcall : edge.isCall with
  | true =>
      obtain ⟨entry, hentry⟩ := Location.exists_isEntry h.wellFormed hjoined.leaving hcall
      obtain ⟨pos', henter, hvar, ht'⟩ := h.enter_spec ht hjoined hentry
      refine ⟨[(pos', none)], ?_, .singleton ht' ?_ fun a c' w hcrosses => ?_⟩
      · simp only [movesAlong, hcall, if_true, henter]
        rfl
      · rw [hvar]
        exact .call hcall hentry
      · cases hcrosses with
        | internal hkind => simp [hcall] at hkind
        | call _ hentry' => exact ⟨rfl, by rw [hentry.unique hentry'], hvar⟩
  | false =>
      cases hserves : edge.isMust && Transformer.speaksOf action edge.label with
      | false =>
          refine ⟨[], ?_, .nil fun a c' w hcrosses => ?_⟩
          · simp only [movesAlong, hcall, hserves, Bool.false_eq_true, if_false]
            rfl
          · cases hcrosses with
            | internal _ hmust hspeaks =>
                simp [Edge.isMust, hmust, Transformer.speaksOf_iff.2 hspeaks] at hserves
            | call hkind => simp [hcall] at hkind
      | true =>
          obtain ⟨hmust, hspeaks⟩ : edge.modality = .must ∧ Concerns action edge.label := by
            simpa [Edge.isMust, Transformer.speaksOf_iff] using hserves
          have hd := h.equations.operands_lt _ _ hop d (by simp [Operator.operands])
          have ht' : Position.Tracks s.equations s.value { pos with state := edge.target, var := d }
              (⟨l', stack⟩ : Config p) := by
            refine ⟨ht.procedure.trans hjoined.procedure_eq.symm, hjoined.target_eq.symm, hd, ?_, ht.frames⟩
            simp only [hjoined.procedure_eq]
            exact ht.context
          refine ⟨[({ pos with state := edge.target, var := d }, some edge.label)], ?_,
            .singleton ht' (.internal hcall hmust hspeaks) fun a c' w hcrosses => ?_⟩
          · simp only [movesAlong, hcall, hserves, Bool.false_eq_true, if_false, if_true]
            rfl
          · cases hcrosses with
            | internal => exact ⟨rfl, rfl, rfl⟩
            | call hkind => simp [hcall] at hkind

/-! ### From a position

At an exit the diamond is handed back to the frame on top of the stack.  Elsewhere the moves along all edges
are put together.  A leaf has no moves, and neither has an operator that cannot be explained by a path.
-/

/-- The move out of a finished procedure. -/
lemma returnMove_matches (ht : pos.Tracks s.equations s.value c) :
    Matches s (returnMove pos) fun a c' w =>
      ∃ l l' stack, c = ⟨l, l' :: stack⟩ ∧ a = none ∧ c' = ⟨l', stack⟩ ∧ w = pos.var := by
  obtain ⟨l, stack⟩ := c
  have hframes := ht.frames
  simp only [returnMove] at hframes ⊢
  cases hstack : pos.stack with
  | nil =>
      rw [hstack] at hframes
      cases hframes
      refine .nil ?_
      rintro a c' w ⟨l, l', stack, hc, -⟩
      cases hc
  | cons frame frames =>
      rw [hstack] at hframes
      cases hframes with
      | @cons _ _ l' stack hprocedure hstate hcontext hrest =>
          have ht' : Position.Tracks s.equations s.value
              ⟨frames, frame.procedure, frame.state, pos.var, frame.context⟩
              (⟨l', stack⟩ : Config p) := ⟨hprocedure, hstate, ht.var_lt, hcontext, hrest⟩
          refine .singleton ht' ⟨l, l', stack, rfl, rfl, rfl, rfl⟩ ?_
          rintro a c' w ⟨l, l', stack, hc, rfl, rfl, rfl⟩
          cases hc
          exact ⟨rfl, rfl, rfl⟩

/-- The moves of a diamond where a procedure has ended. -/
lemma moves_of_isExit (h : s.Converged p f)
    (ht : pos.Tracks s.equations s.value (⟨l, stack⟩ : Config p)) {action : Option String} {d : Nat}
    (hop : s.equations.operator? pos.var = some (.dia action d)) (hl : l.isExit = true) :
    ∃ ms, s.moves pos = .ok ms ∧ Matches s ms (Follows s.equations ⟨l, stack⟩ pos.var) := by
  obtain ⟨q, hq, -⟩ := l.exists_state
  have hfinal : pos.state = q.final := by
    simp only [Location.isExit, hq, Option.any_some, decide_eq_true_eq] at hl
    exact ht.state.trans hl.symm
  have hedges := Location.leaving_of_isExit h.wellFormed hl
  refine ⟨returnMove pos, ?_, (returnMove_matches ht).congr fun a c' w => ⟨?_, fun hfollows => ?_⟩⟩
  · have hprocedure : pos.procedure = l.procedure := ht.procedure
    simp only [moves, hop, hprocedure, procedure_ok (h.procedure_eq hq)]
    show (if pos.state = q.final then _ else _) = _
    rw [if_pos hfinal]
    rfl
  · rintro ⟨l₁, l', stack, hc, rfl, rfl, rfl⟩
    cases hc
    exact .leave hop hl
  · cases hfollows with
    | operand hop' => simp [hop] at hop'
    | along _ hjoined => simpa [hedges] using hjoined.leaving
    | enter _ hjoined => simpa [hedges] using hjoined.leaving
    | leave => exact ⟨_, _, _, rfl, rfl, rfl, rfl⟩

/-- The moves of a diamond where a procedure goes on. -/
lemma moves_of_not_isExit (h : s.Converged p f)
    (ht : pos.Tracks s.equations s.value (⟨l, stack⟩ : Config p)) {action : Option String} {d : Nat}
    (hop : s.equations.operator? pos.var = some (.dia action d)) (hl : l.isExit = false) :
    ∃ ms, s.moves pos = .ok ms ∧ Matches s ms (Follows s.equations ⟨l, stack⟩ pos.var) := by
  obtain ⟨q, hq, -⟩ := l.exists_state
  have hfinal : pos.state ≠ q.final := by
    simp only [Location.isExit, hq, Option.any_some, decide_eq_false_iff_not] at hl
    exact fun heq => hl (heq.symm.trans ht.state)
  have hleaving : q.graph.edgesFrom pos.state = p.leaving l.procedure l.state := by
    rw [Program.leaving_eq hq, ht.state]
  obtain ⟨parts, hparts, hmatch⟩ := except_mapM_exists
    (f := s.movesAlong pos action d) (l := p.leaving l.procedure l.state)
    (R := fun edge part => ∀ l', l.Joined edge l' →
      Matches s part (Crosses action pos.var d edge l' stack)) fun edge hedge => by
    obtain ⟨l', hjoined⟩ := Location.exists_joined hedge
    obtain ⟨part, hpart, hmatch⟩ := h.movesAlong_spec ht hop hjoined
    exact ⟨part, hpart, fun l₁ hjoined₁ => hjoined.unique hjoined₁ ▸ hmatch⟩
  have hfollows := follows_iff_crosses stack hl hop
  refine ⟨parts.flatten, ?_, fun m hm => ?_, fun a c' w hnext => ?_⟩
  · have hprocedure : pos.procedure = l.procedure := ht.procedure
    simp only [moves, hop, hprocedure, procedure_ok (h.procedure_eq hq)]
    show (if pos.state = q.final then _ else _) = _
    rw [if_neg hfinal, hleaving, hparts]
    rfl
  · obtain ⟨part, hpart, hm⟩ := List.mem_flatten.1 hm
    obtain ⟨edge, hedge, hpart⟩ := exists_of_mem_right hmatch hpart
    obtain ⟨l', hjoined⟩ := Location.exists_joined hedge
    obtain ⟨c', ht', hcrosses⟩ := (hpart l' hjoined).sound m hm
    exact ⟨c', ht', (hfollows _ _ _).2 ⟨edge, l', hjoined, hcrosses⟩⟩
  · obtain ⟨edge, l', hjoined, hcrosses⟩ := (hfollows a c' w).1 hnext
    obtain ⟨part, hpart, hmatch⟩ := exists_of_mem_left hmatch hjoined.leaving
    obtain ⟨m, hm, hmove⟩ := (hmatch l' hjoined).complete a c' w hcrosses
    exact ⟨m, List.mem_flatten.2 ⟨part, hpart, hm⟩, hmove⟩

/-- **The moves from a position** are the ways in which a trail may go on. -/
lemma moves_spec (h : s.Converged p f) (ht : pos.Tracks s.equations s.value c) :
    ∃ ms, s.moves pos = .ok ms ∧ Matches s ms (Follows s.equations c pos.var) := by
  obtain ⟨op, hop⟩ := EquationSystem.operator?_of_lt ht.var_lt
  cases op with
  | disj left right =>
      have ht' : ∀ w ∈ [left, right], Position.Tracks s.equations s.value { pos with var := w } c :=
        fun w hw => ⟨ht.procedure, ht.state, h.equations.operands_lt _ _ hop w hw, ht.context, ht.frames⟩
      refine ⟨[({ pos with var := left }, none), ({ pos with var := right }, none)], ?_, ?_, ?_⟩
      · simp only [moves, hop]
        rfl
      · intro m hm
        rcases List.mem_pair.1 hm with rfl | rfl
        · exact ⟨c, ht' left (by simp), .operand hop (Or.inl rfl)⟩
        · exact ⟨c, ht' right (by simp), .operand hop (Or.inr rfl)⟩
      · intro action c' w hfollows
        cases hfollows with
        | operand hop' hw =>
            rw [hop] at hop'
            cases hop'
            rcases hw with rfl | rfl
            · exact ⟨_, List.mem_cons_self, rfl, rfl, ht' w (by simp)⟩
            · exact ⟨_, List.mem_cons_of_mem _ (List.mem_singleton_self _), rfl, rfl, ht' w (by simp)⟩
        | along hop' | enter hop' | leave hop' => simp [hop] at hop'
  | dia action d =>
      obtain ⟨l, stack⟩ := c
      cases hl : l.isExit with
      | true => exact h.moves_of_isExit ht hop hl
      | false => exact h.moves_of_not_isExit ht hop hl
  | top | bot | atom | neg | conj | box =>
      refine ⟨[], by simp only [moves, hop]; rfl, .nil ?_⟩
      intro action c' w hfollows
      cases hfollows with
      | operand hop' | along hop' | enter hop' | leave hop' => simp [hop] at hop'

/-- **The moves that are followed** are the ways in which a trail may go on where its variable is true. -/
theorem successors_spec (h : s.Converged p f) (ht : pos.Tracks s.equations s.value c) :
    ∃ ms, s.successors pos = .ok ms ∧ Matches s ms fun action c' w =>
      Follows s.equations c pos.var action c' w ∧ c' ∈ truth s.equations s.value w := by
  obtain ⟨ms, hms, hmatch⟩ := h.moves_spec ht
  let kept : ModalCalls.Move → Bool := fun m => decide (s.holdsAt m.1 = .ok true)
  have hkept : ∀ {m} {c' : Config p}, m.1.Tracks s.equations s.value c' →
      s.holdsAt m.1 = .ok (kept m) ∧
      (kept m = true ↔ c' ∈ truth s.equations s.value m.1.var) := by
    intro m c' ht'
    obtain ⟨b, hholds, htruth⟩ := h.holdsAt_spec ht'
    have hb : kept m = b := by simp [kept, hholds]
    rw [hb]
    exact ⟨hholds, htruth⟩
  refine ⟨ms.filter kept, ?_, fun m hm => ?_, ?_⟩
  · simp only [successors, hms]
    refine except_filterM_eq_filter fun m hm => ?_
    obtain ⟨c', ht', -⟩ := hmatch.sound m hm
    exact (hkept ht').1
  · obtain ⟨hm, htrue⟩ := List.mem_filter.1 hm
    obtain ⟨c', ht', hfollows⟩ := hmatch.sound m hm
    exact ⟨c', ht', hfollows, (hkept ht').2.1 htrue⟩
  · rintro action c' w ⟨hfollows, htruth⟩
    obtain ⟨m, hm, haction, rfl, ht'⟩ := hmatch.complete action c' w hfollows
    exact ⟨m, List.mem_filter.2 ⟨hm, (hkept ht').2.2 htruth⟩, haction, rfl, ht'⟩

end Session.Converged

end ModalCalls
