import Mathlib
import ModalCalls.Proofs.Equation.Deadlock
import ModalCalls.Proofs.Iteration.Rising
import ModalCalls.Proofs.Semantics.Edges

/-!
# What summaries say about configurations

A summary says what holds now from what holds after the return.  Applied frame by frame along the stack,
down to the end of the outermost procedure, the summaries of a finished iteration tell which variables
are true in a configuration (`truth`).

For equations that are forward and layered this is the extremal solution over the configurations
(`Snapshot.Conclusive.extremalOn`).

**Finitely many conditions for infinitely many configurations.**  That the equations hold at each
configuration follows from the equations of summaries, a call being the composition of two summaries.
Extremality is the other direction.  Let some sets follow the equations of a block.  Then every
condition that the iteration ever has for a state is bounded by these sets, whatever is on the stack:
if its input is bounded where the procedure returns to, its value is bounded at the state
(`Snapshot.Bounds`).  Right-hand sides keep this, so the induction principle of iterations applies.
-/

namespace ModalCalls

variable {p : Program} {e : EquationSystem} {A : Assignment} {k : Bool} {v w : Nat}

/-! ## What holds in a configuration

The stack is consumed from the top.  What holds after the return of the current procedure is computed from
the frame below in the same way, and at the bottom stands the solution at a deadlock.  Hence a
configuration, however deep its stack is, is decided by the summaries of the locations on it.
-/

/-- The atoms at the end of a procedure. -/
def Program.exitAtoms (p : Program) (i : Nat) : List String :=
  match p.procedures[i]? with
  | some q => q.graph.propsOf q.final
  | none => []

/-- **What holds after the return** of a procedure, if calls return to the stack.  With nothing to return
to, this is the solution at a deadlock. -/
def exitValues (e : EquationSystem) (A : Assignment) : Nat → List (Location p) → Nat → Bool
  | i, [] => ((e.deadlockValues ((p.exitAtoms i).contains ·)).getD · false)
  | _, l :: stack => fun w => A l.procedure l.state w (exitValues e A l.procedure stack)

/-- **The configurations in which a variable is true**, by what the summaries say. -/
def truth (e : EquationSystem) (A : Assignment) (v : Nat) : Set p.configurations.State :=
  {c : Config p |
    A c.control.procedure c.control.state v (exitValues e A c.control.procedure c.stack) = true}

section Truth

variable {l l' : Location p} {stack : List (Location p)} {c : Config p}

lemma moved_truth : Moved k (truth e A v) (⟨l, stack⟩ : Config p) ↔
    A l.procedure l.state v (exitValues e A l.procedure stack) = !k := by
  show (A l.procedure l.state v (exitValues e A l.procedure stack) = true ↔ k = false) ↔ _
  cases k <;> simp

lemma atomsAt_of_isExit (hl : l.isExit = true) :
    p.atomsAt l.procedure l.state = p.exitAtoms l.procedure := by
  obtain ⟨q, hq, -⟩ := l.exists_state
  simp only [Location.isExit, hq, Option.any_some, decide_eq_true_eq] at hl
  simp only [Program.atomsAt, Program.exitAtoms, hq, hl]

/-- **The end of the outermost procedure**: the value of a variable at a deadlock has left the start
value only if the equation has. -/
lemma deadlock_moved (hp : p.WellFormed) (he : e.WellFormed) (hforward : e.Forward)
    (hlayered : e.Layered) {N : Nat → Set p.configurations.State} {op : Operator}
    (hop : e.operator? v = some op) (hl : l.isExit = true) (hc : c.resume = ⟨l, []⟩)
    (hreads : ∀ w ∈ op.reads, exitValues e A l.procedure ([] : List (Location p)) w = !k →
      Moved k (N w) c)
    (hneg : ∀ d, op = .neg d →
      (c ∈ N d ↔ exitValues e A l.procedure ([] : List (Location p)) d = true))
    (h : exitValues e A l.procedure ([] : List (Location p)) v = !k) :
    Moved k (op.denote p.configurations N) c := by
  have hholds : p.configurations.holds c = ((p.exitAtoms l.procedure).contains ·) := by
    rw [holds_of_resume_eq hc, atomsAt_of_isExit hl]
  have harrows : ∀ arrow, ¬ Step c arrow := by
    intro arrow harrow
    rw [← step_resume_iff hp, hc] at harrow
    exact not_step_of_isExit hp hl harrow
  have heval : op.eval (p.configurations.holds c) (exitValues e A l.procedure ([] : List (Location p)))
      true false = !k := by
    rw [hholds, ← h]
    exact (EquationSystem.deadlockValues_solves he hforward hlayered hop).symm
  refine Operator.eval_moved (T := p.configurations) hreads hneg ?_ ?_ heval
  · rintro a d rfl hk
    exact iff_of_true (fun arrow harrow => absurd harrow (harrows arrow)) (by simpa using hk)
  · rintro a d rfl hk
    refine iff_of_false ?_ (by simpa using hk)
    rintro ⟨arrow, harrow, -⟩
    exact harrows arrow harrow

end Truth

namespace Snapshot

/-- **A finished iteration for a program and a formula that it is right about**: no procedure ends where it
begins, and the equations are forward and layered. -/
structure Conclusive (p : Program) (e : EquationSystem) (S : Snapshot) : Prop where
  program : p.WellFormed
  proper : ∀ (i : Nat) (q : Procedure), p.procedures[i]? = some q → q.initial ≠ q.final
  equations : e.WellFormed
  forward : e.Forward
  layered : e.Layered
  reached : Reached p e S
  finished : S.Finished p

namespace Conclusive

variable {S : Snapshot} {l l' : Location p} {stack : List (Location p)} {c : Config p}
  {op : Operator}

/-- Only blocks at least as far in as a block count for it. -/
lemma value_congr (h : Conclusive p e S) {b i n : Nat} (hv : b ≤ e.blockOf v) {x y : Nat → Bool}
    (hxy : ∀ w, b ≤ e.blockOf w → x w = y w) : S.value i n v x = S.value i n v y := by
  refine h.reached.value_congr h.program h.equations (C := fun w => b ≤ e.blockOf w) ?_ i n v hv x y hxy
  exact fun w op hw hop u hu => hw.trans (h.layered w op hop u hu)

/-- **All equations hold at once**, without regard to the blocks further out. -/
lemma value_eq (h : Conclusive p e S) {i n : Nat} (hi : p.isInner i n = true)
    (hop : e.operator? v = some op) :
    S.value i n v = p.nodeRhs e S.value i n (S.value i n) v := by
  have hb := h.equations.blockOf_lt (EquationSystem.lt_size_of_operator? hop)
  have hequation := (h.reached.isExtremal h.program h.equations h.forward h.finished hb).equation
    i n v hi rfl
  rw [framed_of_le le_rfl] at hequation
  -- The two right-hand sides differ further out only, where nothing is read.
  have hbelow : ∀ B C : Assignment, (∀ j m w, e.blockOf v ≤ e.blockOf w → B j m w = S.value j m w) →
      (∀ j m w, e.blockOf v ≤ e.blockOf w → C j m w = S.value j m w) → ∀ x,
        Below false (p.nodeRhs e B i n (B i n) v x) (p.nodeRhs e C i n (C i n) v x) := by
    intro B C hB hC x
    have hoperand : ∀ w ∈ op.operands, ∀ j m, B j m w = C j m w := fun w hw j m =>
      (hB j m w (h.layered v op hop w hw)).trans (hC j m w (h.layered v op hop w hw)).symm
    refine Program.nodeRhs_below hop (fun w hw => ?_) (fun d hd => ?_) fun d hd edge hedge => ?_
    · exact Below.of_eq (congrFun (hoperand w (Operator.mem_operands_of_reads hw) i n) x)
    · subst hd
      exact congrFun (hoperand d (by simp [Operator.operands, Operator.reads]) i n) x
    · refine Program.alongSummary_below hop hd (fun _ => ?_) (fun j m _ _ => ?_)
        (entryOf?_ne_none h.program hedge)
      · exact Below.of_eq
          (congrFun (hoperand d (Operator.mem_operands_of_child? hd) i edge.target) x)
      · rw [hB j m v le_rfl, hC j m v le_rfl]
        refine Below.of_eq (h.value_congr le_rfl fun w hw => ?_)
        rw [hB i edge.target w hw, hC i edge.target w hw]
  have hframed : ∀ j m w, e.blockOf v ≤ e.blockOf w →
      framed p e (e.blockOf v) S.value j m w = S.value j m w := fun j m w hw => framed_of_le hw
  rw [hequation]
  funext x
  exact Below.antisymm (hbelow _ _ hframed (fun _ _ _ _ => rfl) x)
    (hbelow _ _ (fun _ _ _ _ => rfl) hframed x)

/-- At the end of a procedure a summary is the identity. -/
lemma value_of_isExit (h : Conclusive p e S) (hl : l.isExit = true) (x : Nat → Bool) :
    S.value l.procedure l.state v x = x v := by
  rw [h.reached.value_of_not_inner (Location.not_isInner_iff.2 hl)]

/-- Returning does not change what is true. -/
lemma moved_resume_iff (h : Conclusive p e S) :
    Moved k (truth e S.value v) c.resume ↔ Moved k (truth e S.value v) c := by
  refine c.resume_invariant (motive := fun c => Moved k (truth e S.value v) c)
    fun l l' stack hl => ?_
  rw [moved_truth, moved_truth, h.value_of_isExit hl]
  rfl

/-! ### The equations hold

Where control is at an end the returns are made first.  Otherwise the equation of the summary applies, at
the input that the stack provides, and the comparison of right-hand sides carries it over.  A call asks for
the equation at the beginning of the callee; that is covered because no call leaves the beginning of a
procedure, so one step of unfolding is enough.
-/

/-- Where control is not at an end, the equations follow from those of the summary, if calls have
theirs. -/
lemma solves_of_inner (h : Conclusive p e S) (hop : e.operator? v = some op) (hl : l.isExit = false)
    (hc : c.resume = ⟨l, stack⟩)
    (hcall : ∀ edge l' (entry : Location p), l.Joined edge l' → edge.isCall = true →
      entry.IsEntry edge.label → Moved k (truth e S.value v) (⟨entry, l' :: stack⟩ : Config p) →
      Moved k (op.denote p.configurations (truth e S.value)) (⟨entry, l' :: stack⟩ : Config p))
    (hmoved : Moved k (truth e S.value v) c) :
    Moved k (op.denote p.configurations (truth e S.value)) c := by
  have hat : ∀ {k w}, Moved k (truth e S.value w) c ↔
      S.value l.procedure l.state w (exitValues e S.value l.procedure stack) = !k := by
    intro k w
    rw [← h.moved_resume_iff, hc, moved_truth]
  have hrhs := hat.1 hmoved
  rw [h.value_eq (Location.isInner_iff.2 hl) hop] at hrhs
  refine nodeRhs_moved h.program hop hl hc (fun w _ => hat.2) (fun d _ => ?_) ?_ ?_ hrhs
  · exact moved_false_iff.symm.trans hat
  · intro edge l' d _ hjoined _ hvalue
    rw [hjoined.procedure_eq] at hvalue
    rwa [moved_truth, hjoined.procedure_eq]
  · intro edge l' entry hjoined hiscall hentry hvalue
    refine hcall edge l' entry hjoined hiscall hentry ?_
    rw [moved_truth]
    simpa only [exitValues, hjoined.procedure_eq] using hvalue

/-- **The summaries solve the equations** at every configuration. -/
lemma solves (h : Conclusive p e S) (hop : e.operator? v = some op) :
    op.denote p.configurations (truth e S.value) = truth e S.value v := by
  have hmoved : ∀ k (c : Config p), Moved k (truth e S.value v) c →
      Moved k (op.denote p.configurations (truth e S.value)) c := by
    intro k c
    rcases c.resume_cases with ⟨l, stack, hc, hl⟩ | ⟨l, hc, hl⟩
    · refine h.solves_of_inner hop hl hc fun edge l' entry _ _ hentry => ?_
      -- No call leaves the beginning of the callee, so its steps are all internal.
      have hinner := hentry.isExit_eq h.proper
      refine h.solves_of_inner hop hinner (resume_of_not_isExit hinner) ?_
      intro edge l' _ hjoined hcall
      rw [hentry.isCall_eq h.program hjoined] at hcall
      cases hcall
    · have hat : ∀ {k w}, Moved k (truth e S.value w) c ↔
          exitValues e S.value l.procedure ([] : List (Location p)) w = !k := by
        intro k w
        rw [← h.moved_resume_iff, hc, moved_truth, h.value_of_isExit hl]
      refine fun hmoved => deadlock_moved h.program h.equations h.forward h.layered hop hl hc
        (fun w _ => hat.2) (fun d _ => ?_) (hat.1 hmoved)
      exact moved_false_iff.symm.trans hat
  exact Set.Subset.antisymm (leads_true.1 (hmoved true)) (leads_false.1 (hmoved false))

end Conclusive

/-! ## Candidates

Sets over configurations that follow the equations of a block bound every stage of the iteration.  The bound
is stated for a single condition and all stacks: if the input is bounded where the procedure ends, the value
is bounded at the state.  Nothing in it refers to a particular configuration, and so a finite computation
can be bounded by infinite sets.
-/

/-- **A candidate for a block**: sets that follow its equations, and have the solution further in and at
atoms. -/
structure Candidate (p : Program) (e : EquationSystem) (S : Snapshot) (b : Nat) (k : Bool)
    (M : Nat → Set p.configurations.State) : Prop where
  kind : ∀ v, e.blockOf v = b → e.isMax v = k
  block_lt : b < e.blocks.size
  inner : ∀ v, b < e.blockOf v → M v = truth e S.value v
  atoms : ∀ v a, e.operator? v = some (.atom a) → M v = truth e S.value v
  follows : ∀ v op, e.operator? v = some op → e.blockOf v = b →
    Leads k (op.denote p.configurations M) (M v)

/-- The equation of a variable has moved at a configuration, and wherever returns lead to the same. -/
def Arrives (e : EquationSystem) (k : Bool) (M : Nat → Set p.configurations.State) (w : Nat)
    (c : Config p) : Prop :=
  ∀ op, e.operator? w = some op → ∀ c' : Config p, c'.resume = c.resume →
    Moved k (op.denote p.configurations M) c'

/-- An input is bounded where a procedure ends. -/
def BoundedAt (e : EquationSystem) (b : Nat) (k : Bool) (M : Nat → Set p.configurations.State)
    (x : Nat → Bool) (i : Nat) (stack : List (Location p)) : Prop :=
  ∀ w, b ≤ e.blockOf w → x w = !k → ∀ l : Location p, l.procedure = i → l.isExit = true →
    Arrives e k M w ⟨l, stack⟩

/-- **A condition for a state is bounded**: whatever is on the stack, if its input is bounded where the
procedure ends then its value is bounded at the state. -/
def Bounds (e : EquationSystem) (b : Nat) (k : Bool) (M : Nat → Set p.configurations.State)
    (i n w : Nat) (F : Condition) : Prop :=
  ∀ (l : Location p) (stack : List (Location p)) (x : Nat → Bool), l.procedure = i → l.state = n →
    BoundedAt e b k M x i stack → F x = !k → Arrives e k M w ⟨l, stack⟩

namespace Candidate

variable {S : Snapshot} {b : Nat} {M : Nat → Set p.configurations.State} {l l' : Location p}
  {stack : List (Location p)} {c c' : Config p} {op : Operator}

/-- Further in a candidate solves the equations. -/
lemma denote_inner (hM : Candidate p e S b k M) (h : Conclusive p e S)
    (hop : e.operator? w = some op) (hw : b < e.blockOf w) :
    op.denote p.configurations M = truth e S.value w := by
  rw [← h.solves hop]
  exact Operator.denote_congr fun u hu =>
    hM.inner u (hw.trans_le (h.layered w op hop u hu))

lemma leads (hM : Candidate p e S b k M) (h : Conclusive p e S) (hop : e.operator? w = some op)
    (hw : b ≤ e.blockOf w) : Leads k (op.denote p.configurations M) (M w) := by
  rcases hw.eq_or_lt with heq | hlt
  · exact hM.follows w op hop heq.symm
  · rw [hM.denote_inner h hop hlt, hM.inner w hlt]
    exact Leads.refl _ _

/-- What has arrived has moved. -/
lemma moved_of_arrives (hM : Candidate p e S b k M) (h : Conclusive p e S)
    (hop : e.operator? w = some op) (hw : b ≤ e.blockOf w) (harrives : Arrives e k M w c)
    (hc : c'.resume = c.resume) : Moved k (M w) c' :=
  hM.leads h hop hw _ (harrives op hop c' hc)

/-- Further in, what is true has arrived. -/
lemma arrives_of_truth (hM : Candidate p e S b k M) (h : Conclusive p e S) (hw : b < e.blockOf w)
    (hmoved : Moved k (truth e S.value w) c) : Arrives e k M w c := by
  intro op hop c' hc
  rw [hM.denote_inner h hop hw, ← h.moved_resume_iff, hc, h.moved_resume_iff]
  exact hmoved

/-- Further in, a summary takes bounded inputs to what is true. -/
lemma value_of_boundedAt (hM : Candidate p e S b k M) (h : Conclusive p e S) {x : Nat → Bool}
    (hx : BoundedAt e b k M x l.procedure stack) (hop : e.operator? w = some op)
    (hw : b < e.blockOf w) (hvalue : S.value l.procedure l.state w x = !k) :
    Moved k (truth e S.value w) (⟨l, stack⟩ : Config p) := by
  obtain ⟨exit, hprocedure, hexit⟩ := Location.exists_isExit h.program l
  -- Only inputs further in count, and these are bounded by what holds after the return.
  have hinputs : ∀ u, u < e.size ∧ b < e.blockOf u →
      Below k (x u) (exitValues e S.value l.procedure stack u) := by
    rintro u ⟨husize, hu⟩ hxu
    obtain ⟨op', hop'⟩ := EquationSystem.operator?_of_lt husize
    have harrives := hx u hu.le hxu exit hprocedure hexit op' hop' _ rfl
    rw [hM.denote_inner h hop' hu, moved_truth, h.value_of_isExit hexit, hprocedure] at harrives
    exact harrives
  rw [moved_truth]
  classical
  let y : Nat → Bool := fun u =>
    if u < e.size ∧ b < e.blockOf u then x u else exitValues e S.value l.procedure stack u
  have hxy : S.value l.procedure l.state w x = S.value l.procedure l.state w y := by
    refine h.reached.value_congr h.program h.equations
      (C := fun u => u < e.size ∧ b < e.blockOf u) ?_ _ _ w
      ⟨EquationSystem.lt_size_of_operator? hop, hw⟩ x y fun u hu => (if_pos hu).symm
    exact fun u op' hu hop' u' hu' =>
      ⟨h.equations.operands_lt u op' hop' u' hu', hu.2.trans_le (h.layered u op' hop' u' hu')⟩
  refine Below.of_monotone (h.reached.monotone h.program h.equations _ _ w) (fun u => ?_)
    (hxy ▸ hvalue)
  by_cases hu : u < e.size ∧ b < e.blockOf u
  · simpa only [y, if_pos hu] using hinputs u hu
  · simpa only [y, if_neg hu] using Below.refl k _

/-- **The entries of a location are bounded**, in the block and further in. -/
lemma arrives (hM : Candidate p e S b k M) (h : Conclusive p e S) (own : Summary)
    (hhere : l.isExit = false → ∀ u, e.blockOf u = b →
      Bounds e b k M l.procedure l.state u (own u))
    (hinner : l.isExit = false → ∀ u, b < e.blockOf u → own u = S.value l.procedure l.state u)
    (hexit : l.isExit = true → ∀ u, own u = fun x => x u) {x : Nat → Bool}
    (hx : BoundedAt e b k M x l.procedure stack) (hw : b ≤ e.blockOf w) (hvalue : own w x = !k) :
    Arrives e k M w ⟨l, stack⟩ := by
  cases hl : l.isExit with
  | true =>
      rw [hexit hl] at hvalue
      exact hx w hw hvalue l rfl hl
  | false =>
      rcases hw.eq_or_lt with heq | hlt
      · exact hhere hl w heq.symm l stack x rfl rfl hx hvalue
      · rw [hinner hl w hlt] at hvalue
        intro op hop
        exact hM.arrives_of_truth h hlt (hM.value_of_boundedAt h hx hop hlt hvalue) op hop

/-- **Right-hand sides of bounded entries are bounded.** -/
lemma closed (hM : Candidate p e S b k M) (h : Conclusive p e S) :
    Closed p e b S.value (Bounds e b k M) := by
  refine ⟨fun i n v _ hv l stack x _ _ _ hstart => ?_, ?_⟩
  · rw [hM.kind v hv] at hstart
    cases k <;> cases hstart
  rintro A i n v own hi hv hA hfinal hown hneg l stack x rfl rfl hx hrhs op hop c hc
  have hl := Location.isInner_iff.1 hi
  rw [resume_of_not_isExit hl] at hc
  have hoperand : ∀ u ∈ op.operands, b ≤ e.blockOf u ∧ ∃ op', e.operator? u = some op' :=
    fun u hu => ⟨hv ▸ h.layered v op hop u hu,
      EquationSystem.operator?_of_lt (h.equations.operands_lt v op hop u hu)⟩
  -- The states that edges lead to are bounded as well.
  have hnext : ∀ edge l' u, l.Joined edge l' → b ≤ e.blockOf u →
      A l'.procedure l'.state u x = !k → Arrives e k M u ⟨l', stack⟩ := by
    intro edge l' u hjoined hu hvalue
    refine hM.arrives h (A l'.procedure l'.state) (fun hl' => ?_) (fun hl' => ?_)
      (fun hl' u => ?_) (hjoined.procedure_eq ▸ hx) hu hvalue
    · exact (hA _ _ (Location.isInner_iff.2 hl')).here
    · exact (hA _ _ (Location.isInner_iff.2 hl')).inner
    · exact hfinal _ _ u (Location.not_isInner_iff.2 hl')
  refine nodeRhs_moved h.program hop hl hc (fun u hu hvalue => ?_) (fun d hd => ?_) ?_ ?_ hrhs
  · obtain ⟨hle, op', hop'⟩ := hoperand u (Operator.mem_operands_of_reads hu)
    have harrives := hM.arrives h own (fun _ => hown.here) (fun _ => hown.inner)
      (fun hl' => absurd hl' (by simp [hl])) hx hle hvalue
    exact hM.moved_of_arrives h hop' hle harrives (hc.trans (resume_of_not_isExit hl).symm)
  · subst hd
    obtain ⟨-, ⟨a, ha⟩, -⟩ := h.equations.neg_atom v d hop
    rw [hM.atoms d a ha, ← h.solves ha, hneg d a hop ha]
    show p.configurations.holds c a = true ↔ _
    rw [holds_of_resume_eq hc]
  · intro edge l' d hd hjoined _ hvalue
    obtain ⟨hle, op', hop'⟩ := hoperand d (Operator.mem_operands_of_child? hd)
    exact hM.moved_of_arrives h hop' hle (hnext edge l' d hjoined hle hvalue) rfl
  · intro edge l' entry hjoined _ hentry hvalue
    have hinner := Location.isInner_iff.2 (hentry.isExit_eq h.proper)
    refine (hA _ _ hinner).here v hv entry (l' :: stack) _ rfl rfl ?_ hvalue op hop _ rfl
    intro u hu hvalue' exit _ hexit op' hop' c' hc'
    rw [resume_of_isExit hexit] at hc'
    exact hnext edge l' u hjoined hu hvalue' op' hop' c' hc'

/-! ### From stages to configurations

The bound on summaries is used at the inputs that a stack provides, by induction on the stack.  It begins
with the deadlock at the bottom, whose values come from one pass over the equations and are bounded from the
last variable to the first.
-/

/-- What is true at the end of the outermost procedure has arrived: operators read what comes later, so
this is an induction from the last variable. -/
lemma arrives_of_deadlock (hM : Candidate p e S b k M) (h : Conclusive p e S)
    (hl : l.isExit = true) : ∀ w, b ≤ e.blockOf w →
      exitValues e S.value l.procedure ([] : List (Location p)) w = !k →
      Arrives e k M w ⟨l, []⟩ := by
  suffices hall : ∀ d w, e.size ≤ w + d → b ≤ e.blockOf w →
      exitValues e S.value l.procedure ([] : List (Location p)) w = !k →
      Arrives e k M w ⟨l, []⟩ from fun w => hall e.size w (Nat.le_add_left _ _)
  intro d
  induction d with
  | zero =>
      intro w hw _ _ op hop
      exact absurd (EquationSystem.lt_size_of_operator? hop) (by omega)
  | succ d ih =>
      intro w hw hle hvalue
      have htrue : ∀ {k u} {c : Config p}, c.resume = ⟨l, []⟩ → (Moved k (truth e S.value u) c ↔
          exitValues e S.value l.procedure ([] : List (Location p)) u = !k) := by
        intro k u c hc
        rw [← h.moved_resume_iff, hc, moved_truth, h.value_of_isExit hl]
      rcases hle.eq_or_lt with heq | hlt
      · intro op hop c hc
        refine deadlock_moved h.program h.equations h.forward h.layered hop hl hc
          (fun u hu hvalue' => ?_) (fun u hu => ?_) hvalue
        · have hmem := Operator.mem_operands_of_reads hu
          have hule : b ≤ e.blockOf u := heq ▸ h.layered w op hop u hmem
          obtain ⟨op', hop'⟩ := EquationSystem.operator?_of_lt (h.equations.operands_lt w op hop u hmem)
          refine hM.moved_of_arrives h hop' hule ?_ hc
          rcases hule.eq_or_lt with hueq | hult
          · have hwu : w < u := by
              refine h.forward w u ?_ (hueq.symm.trans heq)
              simpa only [EquationSystem.readsOf, hop, Option.map_some, Option.getD_some] using hu
            exact ih u (by omega) hule hvalue'
          · exact hM.arrives_of_truth h hult ((htrue rfl).2 hvalue')
        · subst hu
          obtain ⟨-, ⟨a, ha⟩, -⟩ := h.equations.neg_atom w u hop
          rw [hM.atoms u a ha]
          exact moved_false_iff.symm.trans (htrue hc)
      · exact hM.arrives_of_truth h hlt ((htrue rfl).2 hvalue)

/-- All entries of the block are bounded. -/
lemma bounds (hM : Candidate p e S b k M) (h : Conclusive p e S) (hl : l.isExit = false) :
    ∀ u, e.blockOf u = b → Bounds e b k M l.procedure l.state u (S.value l.procedure l.state u) :=
  fun u hu => h.reached.induction h.equations (h.finished.block ▸ Nat.zero_le b) hM.block_lt
    (fun _ _ _ _ => rfl) (hM.closed h) _ _ u (Location.isInner_iff.2 hl) hu

/-- **What holds after the return is bounded**, frame by frame. -/
lemma boundedAt_exitValues (hM : Candidate p e S b k M) (h : Conclusive p e S) :
    ∀ (stack : List (Location p)) (i : Nat),
      BoundedAt e b k M (exitValues e S.value i stack) i stack := by
  intro stack
  induction stack with
  | nil =>
      rintro i w hw hvalue l rfl hl
      exact hM.arrives_of_deadlock h hl w hw hvalue
  | cons l' stack ih =>
      intro i w hw hvalue l _ hl op hop c hc
      rw [resume_of_isExit hl] at hc
      exact hM.arrives h (S.value l'.procedure l'.state) (hM.bounds h) (fun _ _ _ => rfl)
        (fun hl' u => h.reached.value_of_not_inner (Location.not_isInner_iff.2 hl'))
        (ih l'.procedure) hw hvalue op hop c hc

/-- **The solution has moved no further than a candidate.** -/
lemma truth_leads (hM : Candidate p e S b k M) (h : Conclusive p e S)
    (hop : e.operator? v = some op) (hv : e.blockOf v = b) : Leads k (truth e S.value v) (M v) := by
  rintro ⟨l, stack⟩ hmoved
  have harrives := hM.arrives h (S.value l.procedure l.state) (hM.bounds h) (fun _ _ _ => rfl)
    (fun hl u => h.reached.value_of_not_inner (Location.not_isInner_iff.2 hl))
    (hM.boundedAt_exitValues h stack l.procedure) hv.ge (moved_truth.1 hmoved)
  exact hM.moved_of_arrives h hop hv.ge harrives rfl

end Candidate

/-- **Summaries tell the truth**: what they say about configurations is the extremal solution of the
equations there. -/
theorem Conclusive.extremalOn {S : Snapshot} (h : Conclusive p e S) :
    e.ExtremalOn p.configurations (truth e S.value) where
  solves := fun _ _ hop => h.solves hop
  extremal := by
    intro b M hinner hatoms hfollows v op hop hv
    have hb := h.equations.blockOf_lt (EquationSystem.lt_size_of_operator? hop)
    have hkind : ∀ w, e.blockOf w = b → e.isMax w = e.isMax v := fun w hw =>
      h.equations.isMax_congr hb (hw.trans hv.symm)
    have hM : Candidate p e S b (e.isMax v) M :=
      ⟨hkind, hv ▸ hb, hinner, hatoms, fun w op' hop' hw => hkind w hw ▸ hfollows w op' hop' hw⟩
    exact hM.truth_leads h hop hv

end Snapshot

end ModalCalls
