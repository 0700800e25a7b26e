import Mathlib
import ModalCalls.Proofs.Equation.Reaching
import ModalCalls.Proofs.Semantics.Leaves
import ModalCalls.Proofs.Semantics.Trails

/-!
# What is true can be explained

That a variable is true in a configuration says only that it is in a fixpoint.  A witness needs more: a trail
that leads on to a leaf, through configurations where its variables are true.  Where there is one the variable
is grounded there (`Grounded`).  For equations that ask for something to be reached, whatever is true is
grounded (`Snapshot.Reached.grounded`).

**Least variables.**  Nothing is true of them that was not computed.  A condition that an iteration ever has for
a state takes inputs that are grounded where the procedure returns to, to what is grounded at the state, whatever
is on the stack (`Snapshot.Reached.backs`).  The induction is on the iteration: an entry becomes true
from others that were true before it.  It may have become true from inputs that are not those of the final
summaries.  But conditions only grow from there, so what was true then is true in the end.

**Greatest variables.**  These are a tree of operators outside of all fixpoints, so their equations hold and the
induction is on the tree.  Only a call does not go down the tree, but no procedure begins with a call, or ends
where it begins.
-/

namespace ModalCalls

variable {p : Program} {e : EquationSystem} {A : Assignment} {v w : Nat} {c : Config p}
  {l l' : Location p} {stack : List (Location p)}

/-- **A variable is grounded** in a configuration: a trail leads on to a leaf, and its variables are true. -/
inductive Grounded (e : EquationSystem) (A : Assignment) : Config p → Nat → Prop
  | leaf {c : Config p} {v : Nat} (htrue : c ∈ truth e A v)
      (hleaf : e.leafValue (p.configurations.holds c) v = some true) : Grounded e A c v
  | step {c c' : Config p} {v w : Nat} {action : Option String} (htrue : c ∈ truth e A v)
      (hfollows : Follows e c v action c' w) (h : Grounded e A c' w) : Grounded e A c v

lemma Grounded.mem_truth (h : Grounded e A c v) : c ∈ truth e A v := by
  cases h <;> assumption

/-- **Returning keeps what is grounded.**  A leaf and a disjunction are explained where the procedure has
ended, and a diamond after the return. -/
lemma Grounded.of_return {S : Snapshot} (hS : Snapshot.Reached p e S) (hl : l.isExit = true)
    (h : Grounded e S.value ⟨l', stack⟩ v) :
    Grounded e S.value (⟨l, l' :: stack⟩ : Config p) v := by
  generalize hc : (⟨l', stack⟩ : Config p) = c at h
  induction h with
  | leaf htrue hleaf =>
      subst hc
      refine .leaf ((mem_truth_return_iff hS hl).2 htrue) ?_
      simpa only [Program.configurations, resume_of_isExit hl] using hleaf
  | step htrue hfollows h ih =>
      have htrue' := (mem_truth_return_iff hS hl).2 (hc ▸ htrue)
      cases hfollows with
      | operand hop hw => exact .step htrue' (.operand hop hw) (ih hc)
      | along hop hjoined hkind hmust hspeaks =>
          exact .step htrue' (.leave hop hl) (hc ▸ .step htrue (.along hop hjoined hkind hmust hspeaks) h)
      | enter hop hjoined hkind hentry =>
          exact .step htrue' (.leave hop hl) (hc ▸ .step htrue (.enter hop hjoined hkind hentry) h)
      | leave hop hexit =>
          exact .step htrue' (.leave hop hl) (hc ▸ .step htrue (.leave hop hexit) h)

/-! ## Right-hand sides

A true right-hand side has a reason: a leaf, an operand that is true, or an edge along which the operand is.
If each of these can be explained then so can the variable.  A pass makes several entries in order, and an
entry may have its reason in one that was made just before.
-/

section Rhs

variable {op : Operator} {holds : String → Bool} {along : List Summary} {own : Summary}
  {x : Nat → Bool}

/-- **A right-hand side that is true has a ground** if what it reads has one. -/
lemma grounded_of_rhs (he : e.WellFormed) (hr : e.Reaching) (hop : e.operator? v = some op)
    (hholds : p.configurations.holds c = holds) (htrue : c ∈ truth e A v)
    (hreads : ∀ w ∈ op.reads, own w x = true → Grounded e A c w)
    (hneg : ∀ d a, op = .neg d → e.operator? d = some (.atom a) → own d x = holds a)
    (hsteps : ∀ action d, op = .dia action d → along.any (fun t => t v x) = true →
      ∃ a c' w, Follows e c v a c' w ∧ Grounded e A c' w)
    (h : e.rhs holds along own v x = true) : Grounded e A c v := by
  have hsupported := hr.supported v op hop
  simp only [EquationSystem.rhs, hop] at h
  cases op with
  | top => exact .leaf htrue (by simp [EquationSystem.leafValue, hop])
  | bot => cases h
  | atom a =>
      exact .leaf htrue (by simpa [EquationSystem.leafValue, hop, hholds, Operator.eval] using h)
  | neg d =>
      obtain ⟨-, ⟨a, ha⟩, -⟩ := he.neg_atom v d hop
      refine .leaf htrue ?_
      simpa [EquationSystem.leafValue, hop, ha, hholds, Operator.eval, hneg d a rfl ha] using h
  | disj left right =>
      rcases Bool.or_eq_true_iff.1 h with hleft | hright
      · exact .step htrue (.operand hop (Or.inl rfl)) (hreads left (by simp [Operator.reads]) hleft)
      · exact .step htrue (.operand hop (Or.inr rfl)) (hreads right (by simp [Operator.reads]) hright)
  | dia action d =>
      obtain ⟨a, c', w, hfollows, hground⟩ := hsteps action d rfl h
      exact .step htrue hfollows hground
  | conj | box => cases hsupported

/-- **A pass over variables** at a configuration: what is true after it has a ground, if what was true before it
has one. -/
lemma grounded_of_pass (he : e.WellFormed) (hr : e.Reaching) {vars : List Nat} {C : Nat → Prop}
    (hC : ∀ v op, C v → e.operator? v = some op → ∀ w ∈ op.operands, C w)
    (hsize : ∀ v ∈ vars, v < e.size) (hnodup : vars.Nodup)
    (hbefore : ∀ before v after d, vars = before ++ v :: after → e.operator? v = some (.neg d) →
      d ∈ before)
    (hholds : p.configurations.holds c = holds)
    (hown : ∀ v, C v → own v x = true → Grounded e A c v)
    (htrue : ∀ v, C v → e.pass holds along vars own v x = true → c ∈ truth e A v)
    (hsteps : ∀ v action d, C v → e.operator? v = some (.dia action d) →
      along.any (fun t => t v x) = true → ∃ a c' w, Follows e c v a c' w ∧ Grounded e A c' w) :
    ∀ v, C v → e.pass holds along vars own v x = true → Grounded e A c v := by
  suffices h : ∀ before after, vars = before ++ after → ∀ v, C v →
      e.pass holds along before own v x = true → Grounded e A c v from h vars [] (by simp)
  intro before
  induction before using List.reverseRecOn with
  | nil => exact fun _ _ => hown
  | append_singleton before w ih =>
      intro after hvars v hv hvalue
      rw [List.append_assoc, List.singleton_append] at hvars
      have hgrounded := ih (w :: after) hvars
      rw [EquationSystem.pass, List.foldl_append, List.foldl_cons, List.foldl_nil] at hvalue
      by_cases hvw : v = w
      · subst hvw
        rw [EquationSystem.refresh, Function.update_self] at hvalue
        obtain ⟨op, hop⟩ := EquationSystem.operator?_of_lt (hsize v (by simp [hvars]))
        have hnodup' := hvars ▸ hnodup
        -- the entry is not computed again, so it is the one after the pass
        have hafter : v ∉ after := fun h =>
          (List.nodup_cons.1 (List.nodup_middle.1 hnodup')).1 (List.mem_append_right before h)
        have hmem : c ∈ truth e A v := by
          refine htrue v hv ?_
          rw [hvars, EquationSystem.pass_at hafter]
          exact hvalue
        refine grounded_of_rhs he hr hop hholds hmem (fun u hu => ?_) ?_ ?_ hvalue
        · exact hgrounded u (hC v op hv hop u (Operator.mem_operands_of_reads hu))
        · rintro d a rfl ha
          exact EquationSystem.pass_of_atom (List.nodup_append.1 hnodup').1
            (hbefore before v after d hvars hop) ha own x
        · rintro action d rfl
          exact hsteps v action d hv hop
      · rw [EquationSystem.refresh, Function.update_of_ne hvw] at hvalue
        exact hgrounded v hv hvalue

/-- **A diamond that is true along some edge** goes on along it, if what it reads there has a ground. -/
lemma exists_follows_of_along (hp : p.WellFormed) {B : Assignment} {action : Option String} {d : Nat}
    (hop : e.operator? v = some (.dia action d))
    (hinternal : ∀ edge l', l.Joined edge l' → B l'.procedure l'.state d x = true →
      Grounded e A ⟨l', stack⟩ d)
    (hcall : ∀ edge l' (entry : Location p), l.Joined edge l' → edge.isCall = true →
      entry.IsEntry edge.label →
      (B entry.procedure entry.state v fun w => B l'.procedure l'.state w x) = true →
      Grounded e A ⟨entry, l' :: stack⟩ v)
    (h : ((p.leaving l.procedure l.state).map (p.alongSummary e B l.procedure)).any (fun t => t v x)
      = true) :
    ∃ a c' w, Follows e (⟨l, stack⟩ : Config p) v a c' w ∧ Grounded e A c' w := by
  rw [List.any_map, List.any_eq_true] at h
  obtain ⟨edge, hedge, halong⟩ := h
  obtain ⟨l', hjoined⟩ := Location.exists_joined hedge
  simp only [Function.comp_apply] at halong
  cases hkind : edge.isCall with
  | true =>
      obtain ⟨entry, hentry⟩ := Location.exists_isEntry hp hedge hkind
      rw [alongSummary_of_call hjoined hkind hentry] at halong
      exact ⟨none, _, v, .enter hop hjoined hkind hentry, hcall edge l' entry hjoined hkind hentry halong⟩
  | false =>
      rw [alongSummary_of_internal hjoined hkind] at halong
      simp only [EquationSystem.edgeSummary, hop] at halong
      split at halong
      · next hserves =>
          exact ⟨_, _, d, .along hop hjoined hkind hserves.2 hserves.1, hinternal edge l' hjoined halong⟩
      · cases halong

end Rhs

/-! ## The end of the outermost procedure

No step is possible there, so what is true is a disjunction of leaves.  The values come from one pass in
which a reference counts as false; nothing was ever true because of a reference, and so nothing goes in a
circle.
-/

/-- **What is true at a deadlock has a ground there.** -/
lemma grounded_of_deadlock (he : e.WellFormed) (hr : e.Reaching) {S : Snapshot}
    (hS : Snapshot.Reached p e S) (hl : l.isExit = true)
    (h : exitValues e S.value l.procedure ([] : List (Location p)) v = true) :
    Grounded e S.value (⟨l, []⟩ : Config p) v := by
  let x : Nat → Bool := fun _ => false
  have hvalue : ∀ w, exitValues e S.value l.procedure ([] : List (Location p)) w
      = e.pass ((p.exitAtoms l.procedure).contains ·) [] e.innermostFirst (fun _ _ => false) w x :=
    fun w => EquationSystem.getD_deadlockValues w x
  have hsooner := EquationSystem.innermostFirst_pairwise he
  refine grounded_of_pass (C := fun _ => True) he hr (fun _ _ _ _ _ _ => trivial) (fun w hw => ?_) ?_ ?_
    (holds_of_isExit hl) (by simp) (fun w _ hw => ?_) (by simp) v trivial (hvalue v ▸ h)
  · obtain ⟨block, hblock, hw⟩ := List.mem_flatMap.1 hw
    obtain ⟨b, hb⟩ := List.getElem?_of_mem (List.mem_reverse.1 hblock)
    exact he.vars_lt b w ⟨block, by rwa [Array.getElem?_toList] at hb, hw⟩
  · refine hsooner.imp fun {w u} hwu => ?_
    rintro rfl
    rcases hwu with hlt | hlt <;> omega
  · intro before w after d hvars hop
    have hd := EquationSystem.mem_innermostFirst he
      (he.operands_lt w _ hop d (by simp [Operator.operands, Operator.reads]))
    obtain ⟨hblock, hlt⟩ := he.sooner_of_neg hop
    rw [hvars] at hd hsooner
    rcases List.mem_append.1 hd with hd | hd
    · exact hd
    · rcases List.mem_cons.1 hd with rfl | hd
      · omega
      · rcases (List.pairwise_cons.1 (List.pairwise_append.1 hsooner).2.1).1 d hd with h | h <;> omega
  · rw [mem_truth_of_isExit hS hl, hvalue]
    exact hw

/-! ## Least variables

That a least variable is true was computed at some stage from other things that had been true before, and
this order of time is what makes the explanation finite.  Two stages occur in the statement: the one at
which an entry has become true, and the final one in which truth is measured.  Inputs are handled by a
hypothesis about the place where the procedure returns to, so that the induction does not depend on the
stack.
-/

/-- A variable of a least block. -/
def EquationSystem.IsLeast (e : EquationSystem) (v : Nat) : Prop :=
  v < e.size ∧ e.isMax v = false

lemma EquationSystem.IsLeast.operands (he : e.WellFormed) (hr : e.Reaching) :
    ∀ v op, e.IsLeast v → e.operator? v = some op → ∀ w ∈ op.operands, e.IsLeast w :=
  fun v op hv hop w hw => ⟨he.operands_lt v op hop w hw, hr.least v op hop hv.2 w hw⟩

/-- **An input is backed** where a procedure ends: the least variables that are true in it have a ground
there. -/
def Backed (e : EquationSystem) (A : Assignment) (x : Nat → Bool) (i : Nat)
    (stack : List (Location p)) : Prop :=
  ∀ w, e.IsLeast w → x w = true → ∀ l : Location p, l.procedure = i → l.isExit = true →
    Grounded e A ⟨l, stack⟩ w

namespace Snapshot

variable {S T U : Snapshot}

/-- **The summaries of a stage are backed**: whatever is on the stack, they take inputs that are backed to
least variables that have a ground. -/
def Backs (p : Program) (e : EquationSystem) (A : Assignment) (S : Snapshot) : Prop :=
  ∀ (l : Location p) (stack : List (Location p)) (x : Nat → Bool) (v : Nat), e.IsLeast v →
    Backed e A x l.procedure stack → S.value l.procedure l.state v x = true →
    Grounded e A ⟨l, stack⟩ v

/-- What a summary says on an input that is backed is true. -/
lemma Reached.mem_truth_of_backed (hp : p.WellFormed) (he : e.WellFormed) (hr : e.Reaching)
    (hT : Reached p e T) (hv : e.IsLeast v) {x : Nat → Bool}
    (hx : Backed e T.value x l.procedure stack) (h : T.value l.procedure l.state v x = true) :
    (⟨l, stack⟩ : Config p) ∈ truth e T.value v := by
  classical
  obtain ⟨exit, hprocedure, hexit⟩ := Location.exists_isExit hp l
  -- only least inputs count, and these are true after the return
  let y : Nat → Bool := fun w =>
    if e.IsLeast w then x w else exitValues e T.value l.procedure stack w
  have hxy : T.value l.procedure l.state v x = T.value l.procedure l.state v y :=
    hT.value_congr hp he (EquationSystem.IsLeast.operands he hr) _ _ v hv x y
      fun w hw => (if_pos hw).symm
  rw [hxy] at h
  refine hT.monotone hp he _ _ v (fun w => ?_) h
  by_cases hw : e.IsLeast w
  · simp only [y, if_pos hw]
    refine Bool.le_iff_imp.2 fun hxw => ?_
    have htrue := (hx w hw hxw exit hprocedure hexit).mem_truth
    rwa [mem_truth_of_isExit hT hexit, hprocedure] at htrue
  · simp only [y, if_neg hw]
    exact le_rfl

/-- A move takes nothing back from least variables. -/
lemma Move.least_le (hp : p.WellFormed) (he : e.WellFormed) (hS : Reached p e S)
    (hmove : Move p e S U) {i n : Nat} (hv : e.IsLeast v) : S.value i n v ≤ U.value i n v := by
  cases hmove with
  | advance => exact le_rfl
  | @update j m block _ hinner hblock _ _ =>
      simp only [Assignment.set]
      split
      · next heq =>
          obtain ⟨rfl, rfl⟩ := heq
          by_cases hmem : v ∈ block.vars
          · intro x
            have hrising := hS.rising hp he hblock i n hinner v x
            rw [← he.isMax_eq hblock hmem, hv.2] at hrising
            exact Below.false_iff.1 hrising
          · rw [renewed_of_not_mem hmem]
      · exact le_rfl

/-- Where an edge leads to, what a summary says on an input that is backed has a ground.  After a call, so has
what the summary of the callee says on what holds after the call. -/
lemma Backs.exists_follows (hp : p.WellFormed) (he : e.WellFormed) (hr : e.Reaching)
    (hT : Reached p e T) (hS : S.Backs p e T.value) {x : Nat → Bool}
    (hx : Backed e T.value x l.procedure stack) {action : Option String} {d : Nat} (hv : e.IsLeast v)
    (hop : e.operator? v = some (.dia action d))
    (h : ((p.leaving l.procedure l.state).map (p.alongSummary e S.value l.procedure)).any
      (fun t => t v x) = true) :
    ∃ a c' w, Follows e (⟨l, stack⟩ : Config p) v a c' w ∧ Grounded e T.value c' w := by
  refine exists_follows_of_along hp hop (fun edge l' hjoined hvalue => ?_)
    (fun edge l' entry hjoined _ _ hvalue => ?_) h
  · have hd := EquationSystem.IsLeast.operands he hr v _ hv hop d (by simp [Operator.operands])
    exact hS l' stack x d hd (hjoined.procedure_eq ▸ hx) hvalue
  · refine hS entry (l' :: stack) _ v hv (fun w hw hvalue' exit _ hexit => ?_) hvalue
    exact (hS l' stack x w hw (hjoined.procedure_eq ▸ hx) hvalue').of_return hT hexit

/-- The entries of a state that is updated. -/
lemma Backs.renewed (hp : p.WellFormed) (he : e.WellFormed) (hr : e.Reaching) (hT : Reached p e T)
    (hS : S.Backs p e T.value) {block : Block} (hblock : e.blocks[S.block]? = some block)
    (hl : l.isExit = false) {x : Nat → Bool} (hx : Backed e T.value x l.procedure stack)
    (hle : ∀ v, e.IsLeast v →
      S.renewed p e l.procedure l.state block.vars v ≤ T.value l.procedure l.state v)
    (hv : e.IsLeast v) (h : S.renewed p e l.procedure l.state block.vars v x = true) :
    Grounded e T.value ⟨l, stack⟩ v := by
  refine grounded_of_pass he hr (EquationSystem.IsLeast.operands he hr)
    (fun w hw => he.vars_lt _ w ⟨block, hblock, hw⟩) (he.nodup hblock)
    (fun before w after d hvars hop => ?_) (holds_of_resume_eq (resume_of_not_isExit hl))
    (fun w hw => hS l stack x w hw hx) (fun w hw hvalue => ?_)
    (fun w action d hw hop => hS.exists_follows hp he hr hT hx hw hop) v hv h
  · obtain ⟨hlt, -, hsame⟩ := he.neg_atom w d hop
    obtain ⟨block', hblock', hmem⟩ := hsame S.block ⟨block, hblock, by simp [hvars]⟩
    obtain rfl := Option.some.inj (hblock.symm.trans hblock')
    exact he.mem_before hblock hvars hmem hlt
  · exact hT.mem_truth_of_backed hp he hr hw hx (Bool.le_iff_imp.1 (hle w hw x) hvalue)

/-- **One move** keeps summaries backed, while they stay below the final ones. -/
lemma Backs.move (hp : p.WellFormed) (he : e.WellFormed) (hr : e.Reaching) (hT : Reached p e T)
    (hS : S.Backs p e T.value) (hmove : Move p e S U)
    (hle : ∀ i n v, e.IsLeast v → U.value i n v ≤ T.value i n v) : U.Backs p e T.value := by
  intro l stack x v hv hx hvalue
  cases hmove with
  | advance => exact hS l stack x v hv hx hvalue
  | @update j m block _ hinner hblock _ _ =>
      simp only [Assignment.set] at hvalue hle
      split at hvalue
      · next heq =>
          obtain ⟨rfl, rfl⟩ := heq
          refine hS.renewed hp he hr hT hblock (Location.isInner_iff.1 hinner) hx (fun w hw => ?_) hv hvalue
          simpa using hle l.procedure l.state w hw
      · exact hS l stack x v hv hx hvalue

/-- **All stages of an iteration are backed**, by induction on the moves that lead to them. -/
theorem Reached.backs (hp : p.WellFormed) (he : e.WellFormed) (hr : e.Reaching) (hT : Reached p e T)
    (hS : Reached p e S) (hle : ∀ i n v, e.IsLeast v → S.value i n v ≤ T.value i n v) :
    S.Backs p e T.value := by
  induction hS with
  | start hall =>
      intro l stack x v hv hx hvalue
      replace hvalue : startValue p e l.procedure l.state v x = true := hvalue
      cases hl : l.isExit with
      | true =>
          rw [startValue, if_neg (fun h => Location.not_isInner_iff.2 hl h.1)] at hvalue
          exact hx v hv hvalue l rfl hl
      | false =>
          rw [startValue, if_pos ⟨Location.isInner_iff.2 hl, hv.1⟩, hv.2] at hvalue
          cases hvalue
  | move hS hmove ih =>
      refine (ih fun i n v hv => ?_).move hp he hr hT hmove hle
      exact (hmove.least_le hp he hS hv).trans (hle i n v hv)

/-- **What holds after the return is backed**, frame by frame. -/
lemma Reached.backed_exitValues (hp : p.WellFormed) (he : e.WellFormed) (hr : e.Reaching)
    (hT : Reached p e T) : ∀ (stack : List (Location p)) (i : Nat),
      Backed e T.value (exitValues e T.value i stack) i stack
  | [], _ => by
      rintro w - hvalue l rfl hl
      exact grounded_of_deadlock he hr hT hl hvalue
  | l' :: stack, _ => by
      rintro w hw hvalue l - hl
      refine Grounded.of_return hT hl ?_
      exact hT.backs hp he hr hT (fun _ _ _ _ => le_rfl) l' stack _ w hw
        (hT.backed_exitValues hp he hr stack l'.procedure) hvalue

/-- Least variables have a ground wherever they are true. -/
lemma Reached.grounded_of_least (hp : p.WellFormed) (he : e.WellFormed) (hr : e.Reaching)
    (hT : Reached p e T) (hv : e.IsLeast v) (h : c ∈ truth e T.value v) : Grounded e T.value c v :=
  hT.backs hp he hr hT (fun _ _ _ _ => le_rfl) c.control c.stack _ v hv
    (hT.backed_exitValues hp he hr c.stack c.control.procedure) h

/-! ## Greatest variables

There is no order of time for these, since they are true from the start.  They are not recursive either.
The induction is on numbers from the last one down, and for each variable it remains to follow calls, of
which there is at most one in a row.
-/

/-- Greatest variables where no procedure has ended, if their operands have a ground and calls do. -/
lemma Reached.grounded_of_inner (hp : p.WellFormed) (he : e.WellFormed) (hr : e.Reaching)
    (hT : Reached p e T) (hdone : T.Finished p) (hmax : e.isMax v = true) (hv : v < e.size)
    (hoperands : ∀ op, e.operator? v = some op → ∀ w ∈ op.operands, ∀ c : Config p,
      c ∈ truth e T.value w → Grounded e T.value c w)
    (l : Location p) (stack : List (Location p)) (hl : l.isExit = false)
    (hcall : ∀ edge l' (entry : Location p), l.Joined edge l' → edge.isCall = true →
      entry.IsEntry edge.label → (⟨entry, l' :: stack⟩ : Config p) ∈ truth e T.value v →
      Grounded e T.value ⟨entry, l' :: stack⟩ v)
    (h : (⟨l, stack⟩ : Config p) ∈ truth e T.value v) : Grounded e T.value ⟨l, stack⟩ v := by
  obtain ⟨op, hop⟩ := EquationSystem.operator?_of_lt hv
  have hahead : e.Ahead v := by
    intro w hw hblock
    simp only [EquationSystem.readsOf, hop, Option.map_some, Option.getD_some] at hw
    refine hr.later v op hop w (Operator.mem_operands_of_reads hw) ?_
    rw [he.isMax_congr (he.blockOf_lt hv) hblock, hmax]
  have hequation := hT.equation he hdone (he.blockOf_lt hv) (Location.isInner_iff.2 hl) rfl hahead
  have hframed := hT.framed_eq he
  rw [hdone.block] at hframed
  rw [hr.outermost v hmax, hframed] at hequation
  have hvalue : T.value l.procedure l.state v (exitValues e T.value l.procedure stack) = true := h
  rw [hequation] at hvalue
  refine grounded_of_rhs he hr hop (holds_of_resume_eq (resume_of_not_isExit hl)) h
    (fun w hw hvalue' => hoperands op hop w (Operator.mem_operands_of_reads hw) ⟨l, stack⟩ hvalue')
    ?_ ?_ hvalue
  · rintro d a rfl ha
    have hleaf : e.leafValue ((p.atomsAt l.procedure l.state).contains ·) d
        = some ((p.atomsAt l.procedure l.state).contains a) := by
      simp [EquationSystem.leafValue, ha]
    rw [hT.value_of_leaf he hdone (Location.isInner_iff.2 hl) hleaf]
  · rintro action d rfl hany
    refine exists_follows_of_along hp hop (fun edge l' hjoined hvalue' => ?_)
      (fun edge l' entry hjoined hkind hentry hvalue' => ?_) hany
    · refine hoperands _ hop d (by simp [Operator.operands]) ⟨l', stack⟩ ?_
      show T.value l'.procedure l'.state d (exitValues e T.value l'.procedure stack) = true
      rw [hjoined.procedure_eq] at hvalue' ⊢
      exact hvalue'
    · refine hcall edge l' entry hjoined hkind hentry ?_
      show T.value entry.procedure entry.state v (exitValues e T.value entry.procedure (l' :: stack))
        = true
      simpa only [exitValues, hjoined.procedure_eq] using hvalue'

/-- Greatest variables have a ground wherever they are true, if their operands do. -/
lemma Reached.grounded_of_greatest (hp : p.WellFormed)
    (hproper : ∀ (i : Nat) (q : Procedure), p.procedures[i]? = some q → q.initial ≠ q.final)
    (he : e.WellFormed) (hr : e.Reaching) (hT : Reached p e T) (hdone : T.Finished p)
    (hmax : e.isMax v = true) (hv : v < e.size)
    (hoperands : ∀ op, e.operator? v = some op → ∀ w ∈ op.operands, ∀ c : Config p,
      c ∈ truth e T.value w → Grounded e T.value c w)
    (h : c ∈ truth e T.value v) : Grounded e T.value c v := by
  have hinner := hT.grounded_of_inner hp he hr hdone hmax hv hoperands
  induction c using Config.resume_induction with
  | hinner l stack hl =>
      refine hinner l stack hl (fun edge l' entry _ _ hentry => ?_) h
      -- no call leaves the beginning of the callee
      refine hinner entry (l' :: stack) (hentry.isExit_eq hproper) fun edge l' _ hjoined hkind => ?_
      rw [hentry.isCall_eq hp hjoined] at hkind
      cases hkind
  | hend l hl =>
      rw [mem_truth_of_isExit hT hl] at h
      exact grounded_of_deadlock he hr hT hl h
  | hreturn l l' stack hl ih => exact (ih ((mem_truth_return_iff hT hl).1 h)).of_return hT hl

/-- **Whatever is true has a ground.** -/
theorem Reached.grounded (hp : p.WellFormed)
    (hproper : ∀ (i : Nat) (q : Procedure), p.procedures[i]? = some q → q.initial ≠ q.final)
    (he : e.WellFormed) (hr : e.Reaching) (hT : Reached p e T) (hdone : T.Finished p) (hv : v < e.size)
    (h : c ∈ truth e T.value v) : Grounded e T.value c v := by
  -- the induction is from the last variable, since greatest operands come later
  induction hd : e.size - v using Nat.strong_induction_on generalizing v c with
  | _ d ih =>
      cases hmax : e.isMax v with
      | false => exact hT.grounded_of_least hp he hr ⟨hv, hmax⟩ h
      | true =>
          refine hT.grounded_of_greatest hp hproper he hr hdone hmax hv (fun op hop w hw c' hc' => ?_) h
          have hw' := he.operands_lt v op hop w hw
          cases hwmax : e.isMax w with
          | false => exact hT.grounded_of_least hp he hr ⟨hw', hwmax⟩ hc'
          | true =>
              have hlater := hr.later v op hop w hw hwmax
              exact ih (e.size - w) (by omega) hw' hc' rfl

end Snapshot

end ModalCalls
