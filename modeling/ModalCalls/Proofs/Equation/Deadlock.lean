import Mathlib
import ModalCalls.Proofs.Equation.WellFormed

/-!
# The solution at a deadlock

Where no step is possible the equations read nothing but the state itself.  The values at a deadlock come
from one pass over all variables (`EquationSystem.getD_deadlockValues`).  What an equation reads has its
value if the pass has come to it sooner, and counts as false otherwise
(`EquationSystem.getD_deadlockValues_of_operator`).  If operands are visited before the operators that read
them one pass is enough: the values solve the equations (`EquationSystem.deadlockValues_solves`).
-/

namespace ModalCalls

namespace EquationSystem

variable {e : EquationSystem} {holds : String → Bool} {v w : Nat}

/-! ## One pass over everything

Setting values one after the other is the same computation that an update makes of its entries, with no edge
to look along.  It is identified with it here, so that the facts about passes can be used and need not be
proved again for arrays of truth values.
-/

lemma size_settle (values : Array Bool) : (e.settle holds values v).size = values.size := by
  simp only [settle]
  split <;> simp

/-- Setting the value of a variable is computing an entry again, with no edge to look along. -/
lemma getD_settle {values : Array Bool} {own : Summary} {x : Nat → Bool}
    (hsize : values.size = e.size) (hown : ∀ w, values.getD w false = own w x) (w : Nat) :
    (e.settle holds values v).getD w false = e.refresh holds [] own v w x := by
  cases hop : e.operator? v with
  | none =>
      have hself : e.refresh holds [] own v = own := by
        have hrhs : e.rhs holds [] own v = own v := by
          funext y
          simp only [rhs, hop]
        rw [refresh, hrhs, Function.update_eq_self]
      simp only [settle, hop, hself]
      exact hown w
  | some op =>
      have hv : v < values.size := hsize ▸ lt_size_of_operator? hop
      have hvalue : op.atDeadlock holds (values.getD · false) = e.rhs holds [] own v x := by
        rw [Operator.atDeadlock_eq_eval]
        simp only [rhs, hop, hown]
        rfl
      simp only [settle, hop]
      rw [hvalue, Array.getD_eq_getD_getElem?, Array.getElem?_setIfInBounds, refresh]
      by_cases hvw : v = w
      · subst hvw
        rw [if_pos rfl, if_pos hv, Function.update_self, Option.getD_some]
      · rw [if_neg hvw, Function.update_of_ne (Ne.symm hvw), ← Array.getD_eq_getD_getElem?]
        exact hown w

lemma getD_foldl_settle {x : Nat → Bool} : ∀ (vars : List Nat) (values : Array Bool) (own : Summary),
    values.size = e.size → (∀ w, values.getD w false = own w x) →
    ∀ w, (vars.foldl (e.settle holds) values).getD w false = e.pass holds [] vars own w x
  | [], _, _, _, hown => hown
  | v :: vars, values, own, hsize, hown =>
      getD_foldl_settle vars (e.settle holds values v) (e.refresh holds [] own v)
        ((size_settle values).trans hsize) (getD_settle hsize hown)

/-- **The values at a deadlock** are those of a pass over all variables. -/
lemma getD_deadlockValues (w : Nat) (x : Nat → Bool) :
    (e.deadlockValues holds).getD w false
      = e.pass holds [] e.innermostFirst (fun _ _ => false) w x := by
  refine getD_foldl_settle _ _ _ (by simp) (fun w => ?_) w
  simp only [Array.getD_eq_getD_getElem?, Array.getElem?_replicate]
  split <;> rfl

lemma size_deadlockValues : (e.deadlockValues holds).size = e.size := by
  suffices h : ∀ (vars : List Nat) (values : Array Bool),
      (vars.foldl (e.settle holds) values).size = values.size by
    rw [deadlockValues, h, Array.size_replicate]
  intro vars
  induction vars with
  | nil => exact fun _ => rfl
  | cons v vars ih => exact fun values => (ih _).trans (size_settle values)

/-! ## The order of the pass

The pass goes through blocks from the inside out and through each block from large numbers to small ones.
An operand that is no reference has a larger number and is not further out than its operator, so its value
is there when it is asked for.  A reference may point to something that comes later, and then it counts as
false; whether that is the right value is not a question of the order, and it is asked elsewhere.
-/

/-- The pass comes to `v` and then to `w`: blocks further in come first, and in a block later
numbers. -/
def Sooner (e : EquationSystem) (v w : Nat) : Prop :=
  e.blockOf w < e.blockOf v ∨ (e.blockOf w = e.blockOf v ∧ w < v)

instance (e : EquationSystem) (v w : Nat) : Decidable (e.Sooner v w) :=
  inferInstanceAs (Decidable (_ ∨ _))

lemma Sooner.asymm (h : e.Sooner v w) : ¬ e.Sooner w v := by
  unfold Sooner at *
  omega

lemma Sooner.irrefl (h : e.Sooner v v) : False :=
  h.asymm h

lemma innermostFirst_pairwise (he : e.WellFormed) : e.innermostFirst.Pairwise e.Sooner := by
  rw [innermostFirst, List.pairwise_flatMap, List.pairwise_reverse]
  constructor
  · intro block hblock
    obtain ⟨b, hb⟩ := List.getElem?_of_mem (List.mem_reverse.1 hblock)
    rw [Array.getElem?_toList] at hb
    refine (he.descending b block hb).imp_of_mem fun {v w} hv hw hlt => Or.inr ⟨?_, hlt⟩
    rw [(he.mem_vars_iff hb).1 hv, (he.mem_vars_iff hb).1 hw]
  · refine List.pairwise_iff_getElem.2 fun b c hb hc hbc v hv w hw => Or.inl ?_
    rw [Array.getElem_toList] at hv hw
    rw [he.blockOf_eq ⟨_, Array.getElem?_eq_getElem (by simpa using hb), hw⟩,
      he.blockOf_eq ⟨_, Array.getElem?_eq_getElem (by simpa using hc), hv⟩]
    exact hbc

lemma mem_innermostFirst (he : e.WellFormed) (hv : v < e.size) : v ∈ e.innermostFirst := by
  obtain ⟨block, hblock, hmem⟩ := he.inBlock_blockOf hv
  have hin := Array.mem_of_getElem? hblock
  exact List.mem_flatMap.2 ⟨block, List.mem_reverse.2 hin.val, hmem⟩

/-- **What the pass makes of an equation**: what it has not come to yet counts as false. -/
lemma getD_deadlockValues_of_operator (he : e.WellFormed) {op : Operator}
    (hop : e.operator? v = some op) :
    (e.deadlockValues holds).getD v false
      = op.eval holds (fun w => decide (e.Sooner w v) && (e.deadlockValues holds).getD w false)
          true false := by
  obtain ⟨before, after, horder⟩ :=
    List.append_of_mem (mem_innermostFirst he (lt_size_of_operator? hop))
  have hsooner := innermostFirst_pairwise he
  rw [horder, List.pairwise_append, List.pairwise_cons] at hsooner
  obtain ⟨-, ⟨hafter, -⟩, hbefore⟩ := hsooner
  have hself : v ∉ after := fun hmem => (hafter v hmem).irrefl
  simp only [getD_deadlockValues _ fun _ => false]
  rw [horder, pass_at hself]
  simp only [rhs, hop, List.all_nil, List.any_nil]
  refine Operator.eval_congr fun w _ => ?_
  by_cases hwv : e.Sooner w v
  · -- it has its value, and the rest of the pass does not come to it again
    have hnever : w ∉ v :: after := by
      intro hmem
      rcases List.mem_cons.1 hmem with rfl | hmem
      · exact hwv.irrefl
      · exact hwv.asymm (hafter w hmem)
    rw [decide_eq_true hwv, Bool.true_and, pass_append_of_not_mem hnever]
  · have hnever : w ∉ before := fun hmem => hwv (hbefore w hmem v (by simp))
    rw [decide_eq_false hwv, Bool.false_and, pass_of_not_mem _ _ hnever]

/-- An equation holds at a deadlock if the pass comes to what it reads sooner. -/
lemma deadlockValues_solves_of_sooner (he : e.WellFormed) {op : Operator}
    (hop : e.operator? v = some op) (hreads : ∀ w ∈ op.reads, e.Sooner w v) :
    (e.deadlockValues holds).getD v false
      = op.eval holds ((e.deadlockValues holds).getD · false) true false := by
  rw [getD_deadlockValues_of_operator he hop]
  refine Operator.eval_congr fun w hw => ?_
  rw [decide_eq_true (hreads w hw), Bool.true_and]

/-- **The values at a deadlock solve the equations there**: every box holds and no diamond does. -/
theorem deadlockValues_solves (he : e.WellFormed) (hforward : e.Forward) (hlayered : e.Layered)
    {op : Operator} (hop : e.operator? v = some op) :
    (e.deadlockValues holds).getD v false
      = op.eval holds ((e.deadlockValues holds).getD · false) true false := by
  refine deadlockValues_solves_of_sooner he hop fun w hw => ?_
  rcases (hlayered v op hop w (Operator.mem_operands_of_reads hw)).lt_or_eq with hlt | heq
  · exact Or.inl hlt
  · refine Or.inr ⟨heq, hforward v w ?_ heq.symm⟩
    simpa only [readsOf, hop, Option.map_some, Option.getD_some] using hw

end EquationSystem

end ModalCalls
