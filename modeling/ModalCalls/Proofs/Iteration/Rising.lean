import Mathlib
import ModalCalls.Proofs.Iteration.Extremal

/-!
# Iterations come to an end

While a block is solved its entries move in one direction only, whether or not the equations have a
simple form: an update never takes back what an earlier one has done (`Snapshot.Reached.rising`).  An entry
depends on finitely many inputs (`Snapshot.Reached.value_congr`), so there are finitely many changes to make
in a block, and between two changes every state is updated at most once.

* `Snapshot.remaining` — how many steps are left at most.
* `Snapshot.Reached.remaining_update`, `Snapshot.remaining_advance` — every move brings it down.
-/

namespace ModalCalls

lemma Below.of_ne {k a b : Bool} : Below k a b → a ≠ b → a = k ∧ b = !k := by
  unfold Below
  revert k a b
  decide

namespace Snapshot

variable {p : Program} {e : EquationSystem} {S T : Snapshot} {i n v : Nat} {block : Block}

/-! ## One direction

An update computes from the present stage, and the present stage lies above all earlier ones; so what is
computed now lies above what was computed earlier.  The induction is on the iteration.  It has to speak of
the updates of all states, also of those that are not made, because any of them may be the next.
-/

/-- Nothing that is computed again from more is less. -/
lemma renewed_below {k : Bool} (hp : p.WellFormed) (he : e.WellFormed) {b : Nat}
    (hblock : e.blocks[b]? = some block)
    (hST : ∀ i n v x, Below k (S.value i n v x) (T.value i n v x))
    (hmono : ∀ i n v, Monotone (T.value i n v)) (x : Nat → Bool) :
    Below k (S.renewed p e i n block.vars v x) (T.renewed p e i n block.vars v x) := by
  refine he.pass_below hblock (fun w => hST i n w x) ?_ v
  intro v op c hop hc edge hedge
  refine Program.alongSummary_below hop hc (fun _ => hST i edge.target c x)
    (fun j m _ _ => ?_) (entryOf?_ne_none hp hedge)
  exact (hST j m v _).trans (Below.of_monotone (hmono j m v) fun w => hST i edge.target w x)

/-- At the beginning of a block every entry of it is where it starts from. -/
lemma below_renewed_of_start (he : e.WellFormed) (hblock : e.blocks[S.block]? = some block)
    (hstart : ∀ v, e.blockOf v = S.block → S.value i n v = fun _ => e.isMax v) (x : Nat → Bool) :
    Below block.isMax (S.value i n v x) (S.renewed p e i n block.vars v x) := by
  by_cases hv : v ∈ block.vars
  · rw [hstart v ((he.mem_vars_iff hblock).1 hv), he.isMax_eq hblock hv]
    exact Below.start _ _
  · rw [renewed_of_not_mem hv]
    exact Below.refl _ _

/-- **A block moves in one direction.**  An update of any state takes none of its entries back. -/
theorem Reached.rising (hp : p.WellFormed) (he : e.WellFormed) (h : Reached p e S) :
    ∀ {block : Block}, e.blocks[S.block]? = some block → ∀ i n, p.isInner i n = true → ∀ v x,
      Below block.isMax (S.value i n v x) (S.renewed p e i n block.vars v x) := by
  induction h with
  | @start D hall =>
      intro block hblock i n hi v x
      refine below_renewed_of_start (S := ⟨_, _, D⟩) he hblock (fun w hw => ?_) x
      have hw : w < e.size :=
        he.lt_size (Nat.lt_of_le_of_lt hw.le (Array.getElem?_eq_some_iff.1 hblock).1)
      funext x
      simp [startValue, hi, hw]
  | @move S T hS hmove ih =>
      intro block hblock i n hi v x
      have hT := hS.move hmove
      cases hmove with
      | advance hpos _ _ =>
          have hstart : ∀ w, e.blockOf w = S.block - 1 → S.value i n w = fun _ => e.isMax w :=
            fun w hw => hS.value_of_lt he hi (by omega)
          exact below_renewed_of_start (S := ⟨_, _, _⟩) he hblock hstart x
      | @update j m block' dirty hinner hblock' _ _ =>
          obtain rfl := Option.some.inj (hblock.symm.trans hblock')
          -- the new stage lies between the old one and what updates make of the old one
          have hold : ∀ i n v x, Below block.isMax (S.value i n v x)
              (S.value.set j m (S.renewed p e j m block.vars) i n v x) := by
            intro i n v x
            simp only [Assignment.set]
            split
            · next heq =>
                obtain ⟨rfl, rfl⟩ := heq
                exact ih hblock i n hinner v x
            · exact Below.refl _ _
          have hnew : Below block.isMax (S.value.set j m (S.renewed p e j m block.vars) i n v x)
              (S.renewed p e i n block.vars v x) := by
            simp only [Assignment.set]
            split
            · next heq =>
                rw [heq.1, heq.2]
                exact Below.refl _ _
            · exact ih hblock i n hi v x
          exact hnew.trans (renewed_below hp he hblock hold (hT.monotone hp he) x)

/-! ## Finitely many inputs

A condition is a function of the truth of infinitely many variables, and only those that its variable
reaches through operands count.  The set is a parameter here: all variables of the system for termination,
those of a block and further in elsewhere.
-/

/-- **What an entry depends on**: only inputs of a set that has all operands of its members. -/
theorem Reached.value_congr (hp : p.WellFormed) (he : e.WellFormed) (h : Reached p e S)
    {C : Nat → Prop}
    (hC : ∀ v op, C v → e.operator? v = some op → ∀ w ∈ op.operands, C w) :
    ∀ i n v, C v → ∀ x y : Nat → Bool, (∀ w, C w → x w = y w) →
      S.value i n v x = S.value i n v y := by
  refine h.entry_induction he
    (Q := fun v f => C v → ∀ x y : Nat → Bool, (∀ w, C w → x w = y w) → f x = f y)
    (fun _ _ _ _ _ _ => rfl) (fun v hv x y hxy => hxy v hv) ?_
  intro A i n v own op hop hA hown _ hv
  have hoperands := hC v op hv hop
  have hbelow : ∀ x y : Nat → Bool, (∀ w, C w → x w = y w) →
      Below false (p.nodeRhs e A i n own v x) (p.nodeRhs e A i n own v y) := by
    intro x y hxy
    refine Program.nodeRhs_below hop (fun w hw => ?_) (fun c hc => ?_) fun c hc edge hedge => ?_
    · exact Below.of_eq (hown w (hoperands w (Operator.mem_operands_of_reads hw)) x y hxy)
    · subst hc
      exact hown c (hoperands c (by simp [Operator.operands, Operator.reads])) x y hxy
    · refine Program.alongSummary_below hop hc (fun _ => ?_) (fun j m _ _ => ?_)
        (entryOf?_ne_none hp hedge)
      · exact Below.of_eq
          (hA i edge.target c (hoperands c (Operator.mem_operands_of_child? hc)) x y hxy)
      · exact Below.of_eq (hA j m v hv _ _ fun w hw => hA i edge.target w hw x y hxy)
  exact fun x y hxy => Below.antisymm (hbelow x y hxy) (hbelow y x fun w hw => (hxy w hw).symm)

end Snapshot

/-! ## Counting

The measure has three parts: the blocks to come, the changes that the current block can still make, and the
states that are marked now.  A change may mark all states again, so it has to weigh as much as a whole round
of updates.
-/

namespace Program

/-- All states of all procedures. -/
def states (p : Program) : List (Nat × Nat) :=
  p.procedures.toList.zipIdx.flatMap fun a => (List.range a.1.size).map fun n => (a.2, n)

variable {p : Program} {i n : Nat}

lemma mem_states_of_isInner (h : p.isInner i n = true) : (i, n) ∈ p.states := by
  obtain ⟨q, hq, hn, -⟩ := exists_of_isInner h
  refine List.mem_flatMap.2 ⟨(q, i), ?_, List.mem_map.2 ⟨n, List.mem_range.2 hn, rfl⟩⟩
  rw [List.mem_zipIdx_iff_getElem?, Array.getElem?_toList]
  exact hq

lemma length_states (p : Program) :
    p.states.length = p.procedures.toList.foldr (fun q k => q.size + k) 0 := by
  have hsizes : p.procedures.toList.zipIdx.map (fun a => a.1.size)
      = p.procedures.toList.map Procedure.size := by
    conv_rhs => rw [← List.zipIdx_map_fst 0 p.procedures.toList, List.map_map]
    rfl
  simp only [states, List.length_flatMap, List.length_map, List.length_range, hsizes,
    List.sum_eq_foldr, List.foldr_map]

end Program

namespace Snapshot

variable (p : Program) (e : EquationSystem)

/-- How often the entries of a block can change, at most. -/
def changes : Nat :=
  p.states.length * e.size * 2 ^ e.size

/-- What one block takes at most. -/
def blockSteps : Nat :=
  p.states.length * (changes p e + 1) + 1

open Classical in
/-- The entries of the current block, each with an input, that have left their start value. -/
noncomputable def moved (S : Snapshot) : Finset ((Nat × Nat) × Nat × Finset Nat) :=
  (p.states.toFinset ×ˢ Finset.range e.size ×ˢ (Finset.range e.size).powerset).filter fun a =>
    e.blockOf a.2.1 = S.block ∧
      S.value a.1.1 a.1.2 a.2.1 (fun w => decide (w ∈ a.2.2)) = !e.isMax a.2.1

open Classical in
/-- The states that are left to update. -/
noncomputable def waiting (S : Snapshot) : Finset (Nat × Nat) :=
  p.states.toFinset.filter fun a => S.dirty a.1 a.2

/-- **How many steps are left at most**: all steps of the blocks further out, a round of updates for each
change that may still be made, and the updates of the round that goes on. -/
noncomputable def remaining (S : Snapshot) : Nat :=
  S.block * blockSteps p e + (changes p e - (S.moved p e).card) * p.states.length
    + (S.waiting p).card + 1

variable {p e} {S T : Snapshot} {i n : Nat} {block : Block}

lemma card_moved_le (S : Snapshot) : (S.moved p e).card ≤ changes p e := by
  refine (Finset.card_filter_le _ _).trans ?_
  rw [Finset.card_product, Finset.card_product, Finset.card_powerset, Finset.card_range,
    ← Nat.mul_assoc]
  exact Nat.mul_le_mul_right _ (Nat.mul_le_mul_right _ (List.toFinset_card_le _))

open Classical in
lemma card_waiting_le (S : Snapshot) : (S.waiting p).card ≤ p.states.length :=
  (Finset.card_filter_le _ _).trans (List.toFinset_card_le _)

/-- The blocks that are left bound the steps that are left. -/
lemma remaining_le (S : Snapshot) : S.remaining p e ≤ (S.block + 1) * blockSteps p e := by
  have hchanges : (changes p e - (S.moved p e).card) * p.states.length
      ≤ p.states.length * changes p e := by
    rw [Nat.mul_comm]
    exact Nat.mul_le_mul_left _ (Nat.sub_le _ _)
  have hwaiting := card_waiting_le (p := p) S
  rw [remaining, Nat.add_mul, Nat.one_mul]
  have hblock : blockSteps p e = p.states.length * changes p e + p.states.length + 1 := by
    rw [blockSteps, Nat.mul_add, Nat.mul_one]
  omega

/-- Going on with the next block brings the end nearer. -/
theorem remaining_advance (hpos : 0 < S.block) (hT : T.block = S.block - 1) :
    T.remaining p e < S.remaining p e := by
  have hle := remaining_le (p := p) (e := e) T
  rw [hT, Nat.sub_add_cancel hpos] at hle
  refine Nat.lt_of_le_of_lt hle ?_
  rw [remaining]
  omega

/-- Between two changes every update brings the end nearer. -/
lemma remaining_of_waiting (hblock : T.block = S.block) (hvalue : T.value = S.value)
    (hwaiting : T.waiting p ⊂ S.waiting p) : T.remaining p e < S.remaining p e := by
  have hmoved : T.moved p e = S.moved p e := by
    simp only [moved, hblock, hvalue]
  have hcard := Finset.card_lt_card hwaiting
  rw [remaining, remaining, hmoved, hblock]
  omega

/-- A change brings the end nearer, whatever is left to update after it. -/
lemma remaining_of_moved (hblock : T.block = S.block) (hwaiting : (S.waiting p).Nonempty)
    (hmoved : S.moved p e ⊂ T.moved p e) : T.remaining p e < S.remaining p e := by
  have hcard := Finset.card_lt_card hmoved
  have hle := card_moved_le (p := p) (e := e) T
  have hround : (changes p e - (T.moved p e).card) * p.states.length + p.states.length
      ≤ (changes p e - (S.moved p e).card) * p.states.length := by
    rw [← Nat.succ_mul]
    exact Nat.mul_le_mul_right _ (by omega)
  have hT := card_waiting_le (p := p) T
  have hS := hwaiting.card_pos
  rw [remaining, remaining, hblock]
  omega

/-- **An update brings the end nearer**, if the state was left to update and an update without change
leaves the others only. -/
theorem Reached.remaining_update (hp : p.WellFormed) (he : e.WellFormed) (h : Reached p e S)
    (hi : p.isInner i n = true) (hblock : e.blocks[S.block]? = some block) (hdirty : S.dirty i n)
    {D : Nat → Nat → Prop} (hsame : S.renewed p e i n block.vars = S.value i n →
      ∀ j m, D j m → S.dirty j m ∧ ¬ (j = i ∧ m = n)) :
    remaining p e ⟨S.block, S.value.set i n (S.renewed p e i n block.vars), D⟩
      < S.remaining p e := by
  have hmem : (i, n) ∈ S.waiting p := by
    simp [waiting, hdirty, Program.mem_states_of_isInner hi]
  by_cases hchange : S.renewed p e i n block.vars = S.value i n
  · refine remaining_of_waiting rfl ?_ ?_
    · simp only [hchange, Assignment.set_eq_self]
    · refine (Finset.ssubset_iff_of_subset fun a ha => ?_).2 ⟨(i, n), hmem, fun hcon => ?_⟩
      · simp only [waiting, Finset.mem_filter] at ha ⊢
        exact ⟨ha.1, (hsame hchange _ _ ha.2).1⟩
      · simp only [waiting, Finset.mem_filter] at hcon
        exact (hsame hchange _ _ hcon.2).2 ⟨rfl, rfl⟩
  · -- some entry differs at some input, and so it does at one that is false outside the variables
    have hT : Reached p e ⟨S.block, S.value.set i n (S.renewed p e i n block.vars),
        fun _ _ => True⟩ :=
      h.move (.update hi hblock (fun _ _ _ _ => trivial) fun _ _ _ _ => trivial)
    obtain ⟨v, hv⟩ := Function.ne_iff.1 hchange
    obtain ⟨x, hx⟩ := Function.ne_iff.1 hv
    have hvars : v ∈ block.vars := by
      by_contra hnot
      exact hv (renewed_of_not_mem hnot)
    have hsize : v < e.size := he.vars_lt _ v ⟨block, hblock, hvars⟩
    let X : Finset Nat := (Finset.range e.size).filter fun w => x w = true
    have hagree : ∀ w, w < e.size → x w = decide (w ∈ X) := by
      intro w hw
      simp [X, hw]
    have hoperands : ∀ v op, v < e.size → e.operator? v = some op → ∀ w ∈ op.operands, w < e.size :=
      fun v op _ hop => he.operands_lt v op hop
    have hold := h.value_congr hp he hoperands i n v hsize x _ hagree
    have hnew := hT.value_congr hp he hoperands i n v hsize x _ hagree
    simp only [Assignment.set_self] at hnew
    have hrising := h.rising hp he hblock
    obtain ⟨hbefore, hafter⟩ := (hrising i n hi v x).of_ne (Ne.symm hx)
    rw [← he.isMax_eq hblock hvars] at hbefore hafter
    refine remaining_of_moved rfl ⟨_, hmem⟩ ?_
    refine (Finset.ssubset_iff_of_subset fun a ha => ?_).2 ⟨((i, n), v, X), ?_, fun hcon => ?_⟩
    · simp only [moved, Finset.mem_filter] at ha ⊢
      refine ⟨ha.1, ha.2.1, ?_⟩
      simp only [Assignment.set]
      split
      · next heq =>
          have hin := (he.mem_vars_iff hblock).2 ha.2.1
          have hstep := hrising i n hi a.2.1 fun w => decide (w ∈ a.2.2)
          rw [← he.isMax_eq hblock hin, ← heq.1, ← heq.2] at hstep
          rw [← heq.1, ← heq.2]
          exact hstep ha.2.2
      · exact ha.2.2
    · simp only [moved, Finset.mem_filter, Finset.mem_product, List.mem_toFinset, Finset.mem_range,
        Finset.mem_powerset, Assignment.set_self, ← hnew]
      exact ⟨⟨Program.mem_states_of_isInner hi, hsize, Finset.filter_subset _ _⟩,
        (he.mem_vars_iff hblock).1 hvars, hafter⟩
    · simp only [moved, Finset.mem_filter, ← hold, hbefore] at hcon
      exact absurd hcon.2.2 (by simp)

end Snapshot

end ModalCalls
