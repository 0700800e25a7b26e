import Mathlib
import ModalCalls.Equation.Basic
import ModalCalls.Transformer.Basic

/-!
# Summaries and what an update makes of them

A transformer is a vector of diagrams; what matters of it is the vector of functions that the diagrams
mean.  A `Condition` says what has to hold after the return for something to hold now, and a `Summary`
has one for every variable.

The entries of a block are computed again one after the other (`EquationSystem.pass`), each from the
summary as it is by then and from the summaries along the outgoing edges (`EquationSystem.rhs`).

* `EquationSystem.pass_solves` — an entry satisfies its equation afterwards if all it reads was listed
  before it.
* `EquationSystem.pass_eq_self_iff` — a pass changes nothing exactly if all equations hold.
* `Below` — the order in which a block moves, for both kinds of block at once: least blocks rise from
  false and greatest ones fall from true.
-/

namespace ModalCalls

/-- What has to hold after the return, as a function of the truth of all variables there. -/
abbrev Condition := (Nat → Bool) → Bool

/-- A condition for each variable. -/
abbrev Summary := Nat → Condition

/-! ## Both directions at once

A least block rises and a greatest block falls, and every argument about the one has a mirror image about
the other.  `Below` takes the kind as a parameter and orders truth values by how far they are from the value
that a block starts with.  It is monotone in conjunctions and disjunctions for either kind, so the mirror
images do not have to be written.
-/

/-- The order in which a block moves away from its start: `a` has left the start value only if `b`
has. -/
def Below (isMax a b : Bool) : Prop :=
  a = !isMax → b = !isMax

namespace Below

variable {k a b c d : Bool}

lemma refl (k a : Bool) : Below k a a :=
  id

lemma of_eq (h : a = b) : Below k a b :=
  h ▸ refl k a

lemma trans (h : Below k a b) (h' : Below k b c) : Below k a c :=
  fun ha => h' (h ha)

/-- The start value is below everything. -/
lemma start (k b : Bool) : Below k k b := by
  intro h
  cases k <;> simp at h

lemma antisymm : Below k a b → Below k b a → a = b := by
  unfold Below
  revert k a b
  decide

lemma and : Below k a b → Below k c d → Below k (a && c) (b && d) := by
  unfold Below
  revert k a b c d
  decide

lemma or : Below k a b → Below k c d → Below k (a || c) (b || d) := by
  unfold Below
  revert k a b c d
  decide

lemma all {α : Type} {l : List α} {f g : α → Bool} (h : ∀ x ∈ l, Below k (f x) (g x)) :
    Below k (l.all f) (l.all g) := by
  induction l with
  | nil => exact refl k true
  | cons x l ih =>
      rw [List.all_cons, List.all_cons]
      exact (h x (by simp)).and (ih fun y hy => h y (by simp [hy]))

lemma any {α : Type} {l : List α} {f g : α → Bool} (h : ∀ x ∈ l, Below k (f x) (g x)) :
    Below k (l.any f) (l.any g) := by
  induction l with
  | nil => exact refl k false
  | cons x l ih =>
      rw [List.any_cons, List.any_cons]
      exact (h x (by simp)).or (ih fun y hy => h y (by simp [hy]))

end Below

lemma all_congr_of_mem {α : Type} {l : List α} {f g : α → Bool} (h : ∀ x ∈ l, f x = g x) :
    l.all f = l.all g :=
  Below.antisymm (k := false) (Below.all fun x hx => Below.of_eq (h x hx))
    (Below.all fun x hx => Below.of_eq (h x hx).symm)

lemma any_congr_of_mem {α : Type} {l : List α} {f g : α → Bool} (h : ∀ x ∈ l, f x = g x) :
    l.any f = l.any g :=
  Below.antisymm (k := false) (Below.any fun x hx => Below.of_eq (h x hx))
    (Below.any fun x hx => Below.of_eq (h x hx).symm)

/-! ## Operators

The value of an operator is computed in three places: from entries of a transformer, at a deadlock, and in
the meaning of a formula.  They differ in where the values of operands come from and in what a modality
looks at, so both are parameters of `eval`.
-/

namespace Operator

/-- The value of an operator from the atoms and the values of its operands.  For a box it is given
whether every step agrees, for a diamond whether some step does. -/
def eval (holds : String → Bool) (value : Nat → Bool) (every some : Bool) : Operator → Bool
  | top => true
  | bot => false
  | atom p => holds p
  | neg c => !value c
  | conj l r => value l && value r
  | disj l r => value l || value r
  | box .. => every
  | dia .. => some

/-- The operands whose values an operator reads at its own state. -/
def reads : Operator → List Nat
  | neg c => [c]
  | conj l r => [l, r]
  | disj l r => [l, r]
  | _ => []

/-- All operands of an operator. -/
def operands : Operator → List Nat
  | box _ c => [c]
  | dia _ c => [c]
  | op => op.reads

/-- The operand that a modality reads after a step. -/
def child? : Operator → Option Nat
  | box _ c => some c
  | dia _ c => some c
  | _ => none

variable {op : Operator} {holds : String → Bool} {value value' : Nat → Bool}
  {every every' some some' : Bool}

lemma atDeadlock_eq_eval : op.atDeadlock holds value = op.eval holds value true false := by
  cases op <;> rfl

/-- Only the operands that are read count. -/
lemma eval_congr (h : ∀ w ∈ op.reads, value w = value' w) :
    op.eval holds value every some = op.eval holds value' every some := by
  cases op <;> simp_all [eval, reads]

/-- Every operator but negation respects the order of a block. -/
lemma eval_below {k : Bool} (hreads : ∀ w ∈ op.reads, Below k (value w) (value' w))
    (hneg : ∀ c, op = .neg c → value c = value' c)
    (hsteps : ∀ c, op.child? = Option.some c → Below k every every' ∧ Below k some some') :
    Below k (op.eval holds value every some) (op.eval holds value' every' some') := by
  cases op with
  | top => exact Below.refl k _
  | bot => exact Below.refl k _
  | atom p => exact Below.refl k _
  | neg c => exact Below.of_eq (congrArg (! ·) (hneg c rfl))
  | conj l r => exact (hreads l (by simp [reads])).and (hreads r (by simp [reads]))
  | disj l r => exact (hreads l (by simp [reads])).or (hreads r (by simp [reads]))
  | box a c => exact (hsteps c rfl).1
  | dia a c => exact (hsteps c rfl).2

lemma mem_operands_of_reads {w : Nat} (h : w ∈ op.reads) : w ∈ op.operands := by
  cases op <;> first | exact h | cases h

lemma mem_operands_of_child? {c : Nat} (h : op.child? = Option.some c) : c ∈ op.operands := by
  cases op <;> simp_all [child?, operands]

end Operator

/-! ## The steps that a modality speaks about

A modality without an action speaks about every step, one with an action about the steps of that label.  The
meaning of formulas, of edges and of trails is told in these words; that the checker's own test decides them
is `Transformer.speaksOf_iff`.
-/

/-- **A modality speaks about the steps with a label**: it names no action, or this one. -/
def Concerns (action : Option String) (label : String) : Prop :=
  action = none ∨ action = some label

instance (action : Option String) (label : String) : Decidable (Concerns action label) :=
  inferInstanceAs (Decidable (_ ∨ _))

lemma concerns_none (label : String) : Concerns none label :=
  Or.inl rfl

lemma Transformer.speaksOf_iff {action : Option String} {label : String} :
    speaksOf action label = true ↔ Concerns action label := by
  cases action <;> simp [speaksOf, Concerns]

/-! ## One pass over the variables of a block

An update computes the entries of a block in order, and each sees the new values of those before it.  Such a
pass is not an application of the right-hand sides to one fixed summary.  It becomes one where what an entry
reads was computed before it; that is `pass_solves`, and its hypothesis is the reason for asking that
references stand under modalities.
-/

namespace EquationSystem

/-- The summary of an internal edge. -/
def edgeSummary (e : EquationSystem) (label : String) (modality : Modality) : Summary := fun v x =>
  match e.operator? v with
  | some (.box a c) => if Concerns a label then x c else true
  | some (.dia a c) => if Concerns a label ∧ modality = .must then x c else false
  | some _ => false
  | none => x v

/-- **The right-hand side of a variable** at a state with some atoms, from the summary of the state
itself and the summaries along the edges that leave it. -/
def rhs (e : EquationSystem) (holds : String → Bool) (along : List Summary) (own : Summary)
    (v : Nat) : Condition := fun x =>
  match e.operator? v with
  | some op => op.eval holds (fun w => own w x) (along.all fun t => t v x) (along.any fun t => t v x)
  | none => own v x

/-- Compute one entry again. -/
def refresh (e : EquationSystem) (holds : String → Bool) (along : List Summary) (own : Summary)
    (v : Nat) : Summary :=
  Function.update own v (e.rhs holds along own v)

/-- **A pass**: compute the entries of some variables again, one after the other. -/
def pass (e : EquationSystem) (holds : String → Bool) (along : List Summary) (vars : List Nat)
    (own : Summary) : Summary :=
  vars.foldl (e.refresh holds along) own

/-- What the equation of a variable reads at its own state. -/
def readsOf (e : EquationSystem) (v : Nat) : List Nat :=
  ((e.operator? v).map (·.reads)).getD []

variable {e : EquationSystem} {holds : String → Bool} {along : List Summary} {own own' : Summary}
  {v : Nat} {vars : List Nat}

lemma lt_size_of_operator? {op : Operator} (h : e.operator? v = some op) : v < e.size := by
  simp only [operator?, Option.map_eq_some_iff] at h
  obtain ⟨q, hq, -⟩ := h
  exact (Array.getElem?_eq_some_iff.1 hq).1

/-- A step leaves of a modality what its operand is after the step, or a constant. -/
lemma edgeSummary_below {k : Bool} {op : Operator} {c : Nat} (hop : e.operator? v = some op)
    (hc : op.child? = some c) {label : String} {modality : Modality} {x y : Nat → Bool}
    (h : Below k (x c) (y c)) :
    Below k (e.edgeSummary label modality v x) (e.edgeSummary label modality v y) := by
  simp only [edgeSummary, hop]
  cases op <;> simp only [Operator.child?, Option.some.injEq, reduceCtorEq] at hc
  all_goals
    subst hc
    dsimp only
    split
    · exact h
    · exact Below.refl k _

/-- **Right-hand sides respect the order of a block.** -/
lemma rhs_below {k : Bool} {op : Operator} (hop : e.operator? v = some op) {α : Type} {l : List α}
    {t t' : α → Summary} {x x' : Nat → Bool}
    (hreads : ∀ w ∈ op.reads, Below k (own w x) (own' w x'))
    (hneg : ∀ c, op = .neg c → own c x = own' c x')
    (halong : ∀ c, op.child? = some c → ∀ a ∈ l, Below k (t a v x) (t' a v x')) :
    Below k (e.rhs holds (l.map t) own v x) (e.rhs holds (l.map t') own' v x') := by
  simp only [rhs, hop, List.all_map, List.any_map]
  exact Operator.eval_below hreads hneg fun c hc =>
    ⟨Below.all fun a ha => halong c hc a ha, Below.any fun a ha => halong c hc a ha⟩

lemma rhs_congr (hv : (e.operator? v).isSome) (h : ∀ w ∈ e.readsOf v, own w = own' w) :
    e.rhs holds along own v = e.rhs holds along own' v := by
  obtain ⟨op, hop⟩ := Option.isSome_iff_exists.1 hv
  funext x
  simp only [rhs, readsOf, hop, Option.map_some, Option.getD_some] at h ⊢
  exact Operator.eval_congr fun w hw => congrFun (h w hw) x

lemma pass_of_not_mem : ∀ (vars : List Nat) (own : Summary), v ∉ vars →
    e.pass holds along vars own v = own v
  | [], _, _ => rfl
  | w :: vars, own, hv => by
      have hvw : v ≠ w := fun h => hv (by simp [h])
      have hvars : v ∉ vars := fun h => hv (by simp [h])
      rw [pass, List.foldl_cons]
      exact (pass_of_not_mem vars _ hvars).trans (Function.update_of_ne hvw _ _)

/-- An induction along two passes over the same variables.  The motive may speak about the variables that
were listed so far. -/
lemma pass_induction₂ {along' : List Summary} {motive : List Nat → Summary → Summary → Prop}
    (own own' : Summary) (hnil : motive [] own own')
    (hstep : ∀ before v after o o', vars = before ++ v :: after → motive before o o' →
      motive (before ++ [v]) (e.refresh holds along o v) (e.refresh holds along' o' v)) :
    motive vars (e.pass holds along vars own) (e.pass holds along' vars own') := by
  suffices h : ∀ (after before : List Nat) (o o' : Summary), vars = before ++ after →
      motive before o o' → motive vars (e.pass holds along after o) (e.pass holds along' after o') from
    h vars [] own own' rfl hnil
  intro after
  induction after with
  | nil =>
      intro before o o' hvars hm
      rw [hvars, List.append_nil]
      exact hm
  | cons v after ih =>
      intro before o o' hvars hm
      exact ih (before ++ [v]) _ _ (by simp [hvars]) (hstep before v after o o' hvars hm)

/-- An induction along a pass. -/
lemma pass_induction {motive : List Nat → Summary → Prop} (own : Summary) (hnil : motive [] own)
    (hstep : ∀ before v after own', vars = before ++ v :: after → motive before own' →
      motive (before ++ [v]) (e.refresh holds along own' v)) :
    motive vars (e.pass holds along vars own) :=
  @pass_induction₂ e holds along vars along (fun before o _ => motive before o) own own hnil
    fun before v after o _ => hstep before v after o

lemma pass_append_of_not_mem {before after : List Nat} (hv : v ∉ after) (own : Summary) :
    e.pass holds along (before ++ after) own v = e.pass holds along before own v := by
  rw [pass, List.foldl_append]
  exact pass_of_not_mem after _ hv

/-- An entry is what its equation gave at the variable's turn, if that was the last one. -/
lemma pass_at {before after : List Nat} (hafter : v ∉ after) (own : Summary) :
    e.pass holds along (before ++ v :: after) own v
      = e.rhs holds along (e.pass holds along before own) v := by
  rw [pass, List.foldl_append, List.foldl_cons]
  refine (pass_of_not_mem after _ hafter).trans ?_
  rw [refresh, Function.update_self]
  rfl

/-- The entry of an atom. -/
lemma pass_of_atom {a : String} (hvars : vars.Nodup) (hv : v ∈ vars)
    (hop : e.operator? v = some (.atom a)) (own : Summary) (x : Nat → Bool) :
    e.pass holds along vars own v x = holds a := by
  obtain ⟨before, after, rfl⟩ := List.append_of_mem hv
  have hafter : v ∉ after := fun h =>
    (List.nodup_cons.1 (List.nodup_middle.1 hvars)).1 (List.mem_append_right before h)
  rw [pass_at hafter]
  simp only [rhs, hop, Operator.eval]

/-- **A pass solves** the equation of a variable if nothing that the equation reads was computed again
at the variable's turn or later. -/
lemma pass_solves {before after : List Nat} (hv : (e.operator? v).isSome) (hafter : v ∉ after)
    (hreads : ∀ w ∈ e.readsOf v, w ∉ v :: after) (own : Summary) :
    e.pass holds along (before ++ v :: after) own v
      = e.rhs holds along (e.pass holds along (before ++ v :: after) own) v := by
  rw [pass_at hafter]
  exact rhs_congr hv fun w hw => (pass_append_of_not_mem (hreads w hw) own).symm

/-- **A pass changes nothing exactly if all equations hold.** -/
lemma pass_eq_self_iff : ∀ {vars : List Nat}, vars.Nodup → ∀ own : Summary,
    e.pass holds along vars own = own ↔ ∀ v ∈ vars, e.rhs holds along own v = own v
  | [], _, own => by simp [pass]
  | v :: vars, hnodup, own => by
      obtain ⟨hv, hvars⟩ := List.nodup_cons.1 hnodup
      have hcons : e.pass holds along (v :: vars) own
          = e.pass holds along vars (e.refresh holds along own v) := rfl
      constructor
      · intro h
        have hself : e.rhs holds along own v = own v := by
          have hat : e.pass holds along vars (e.refresh holds along own v) v
              = e.refresh holds along own v v := pass_of_not_mem vars _ hv
          rw [← hcons, h, refresh, Function.update_self] at hat
          exact hat.symm
        rw [hcons, refresh, hself, Function.update_eq_self] at h
        intro w hw
        rcases List.mem_cons.1 hw with rfl | hw
        · exact hself
        · exact (pass_eq_self_iff hvars own).1 h w hw
      · intro h
        rw [hcons, refresh, h v (by simp), Function.update_eq_self]
        exact (pass_eq_self_iff hvars own).2 fun w hw => h w (by simp [hw])

end EquationSystem

end ModalCalls
