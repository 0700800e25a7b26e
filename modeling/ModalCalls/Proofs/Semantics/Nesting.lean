import Mathlib
import ModalCalls.Proofs.Equation.Placed
import ModalCalls.Proofs.Semantics.Blocks

/-!
# Formulas and their equations mean the same

For an alternation-free formula the extremal solution of its equations is what the formula means: the root
stands for the set that the formula denotes (`Numbering.Numbered.denote_eq`), over any transition
system.

**Blocks against nesting.**  A block solves the variables of several fixpoints at once, while a formula
takes one fixpoint inside another.  The two are compared at a single fixpoint.  That the solution is
a fixpoint of the body is plain.  For the other direction let the body map some set into itself.  Reading
the body with that set in place of the name, each of its subformulas denotes a set
(`Formula.meanings`).  These sets follow the equations of the body (`Numbering.Follows.solves`), so
they bound the extremal solution.
-/

namespace ModalCalls

/-! ## The sets of all subformulas

A formula is read with its names fixed, and every subformula then denotes a set, where a name bound on the
way stands for its own fixpoint.  The sets are listed in the order of numbers, which makes the list
comparable with a solution of the equations.
-/

namespace Formula

variable {T : TransitionSystem} {N : Nat → Set T.State} {ρ : String → Set T.State} {k : Bool}
  {f g h : Formula} {v w : Nat} {x : String}

/-- **What the numbered subformulas denote**, in the order of their numbers.  A name that is bound on
the way stands for its fixpoint. -/
def meanings (T : TransitionSystem) : Formula → (String → Set T.State) → List (Set T.State)
  | ref _, _ => []
  | mu x f, ρ => f.meanings T (Function.update ρ x ((mu x f).denote T ρ))
  | nu x f, ρ => f.meanings T (Function.update ρ x ((nu x f).denote T ρ))
  | neg f, ρ => (neg f).denote T ρ :: f.meanings T ρ
  | box a f, ρ => (box a f).denote T ρ :: f.meanings T ρ
  | dia a f, ρ => (dia a f).denote T ρ :: f.meanings T ρ
  | conj f g, ρ => (conj f g).denote T ρ :: (f.meanings T ρ ++ g.meanings T ρ)
  | disj f g, ρ => (disj f g).denote T ρ :: (f.meanings T ρ ++ g.meanings T ρ)
  | f, ρ => [f.denote T ρ]

lemma meanings_fixpoint (isMax : Bool) (x : String) (f : Formula) (ρ : String → Set T.State) :
    (fixpoint isMax x f).meanings T ρ
      = f.meanings T (Function.update ρ x ((fixpoint isMax x f).denote T ρ)) := by
  cases isMax <;> rfl

lemma sizeOf_lt_fixpoint (isMax : Bool) (x : String) (f : Formula) :
    sizeOf f < sizeOf (fixpoint isMax x f) := by
  cases isMax <;> simp [fixpoint]

/-- A set that the body keeps, and that moves no further than others that the body lets move on, is the
fixpoint. -/
lemma denote_fixpoint_eq {isMax : Bool} {A : Set T.State}
    (hfix : f.denote T (Function.update ρ x A) = A)
    (hleads : ∀ P, Leads isMax (f.denote T (Function.update ρ x P)) P → Leads isMax A P) :
    (fixpoint isMax x f).denote T ρ = A := by
  cases isMax with
  | false =>
      refine Set.Subset.antisymm (denote_mu_subset hfix.subset) ?_
      exact Set.subset_sInter fun P hP => leads_false.1 (hleads P (leads_false.2 hP))
  | true =>
      refine Set.Subset.antisymm ?_ (subset_denote_nu hfix.superset)
      exact Set.sUnion_subset fun P hP => leads_true.1 (hleads P (leads_true.2 hP))

section Leaf

variable {op : Operator} (hf : IsLeaf f op)

include hf

lemma IsLeaf.denote_eq : op.denote T N = f.denote T ρ := by
  cases hf <;> rfl

lemma IsLeaf.meanings_eq : f.meanings T ρ = [f.denote T ρ] := by
  cases hf <;> rfl

end Leaf

section Unary

variable {op : Nat → Operator} (hf : IsUnary f op g)

include hf

lemma IsUnary.denote_eq (hv : N v = g.denote T ρ) : (op v).denote T N = f.denote T ρ := by
  cases hf <;> simp only [Operator.denote, denote, hv]

lemma IsUnary.denote_leads (hv : Leads k (N v) (g.denote T ρ))
    (hatom : ∀ a, g = .atom a → N v = g.denote T ρ) :
    Leads k ((op v).denote T N) (f.denote T ρ) := by
  rw [← hf.denote_eq (N := fun _ => g.denote T ρ) (v := v) rfl]
  refine Operator.denote_leads (fun w hw => ?_) fun c hc => ?_
  · simp only [hf.operands_eq, List.mem_singleton] at hw
    rwa [hw]
  · cases hf with
    | neg a =>
        cases hc
        exact hatom a rfl
    | box a f => cases hc
    | dia a f => cases hc

lemma IsUnary.meanings_eq : f.meanings T ρ = f.denote T ρ :: g.meanings T ρ := by
  cases hf <;> rfl

lemma IsUnary.sizeOf_lt : sizeOf g < sizeOf f := by
  cases hf <;> simp

end Unary

section Binary

variable {op : Nat → Nat → Operator} (hf : IsBinary f op g h)

include hf

lemma IsBinary.denote_eq (hv : N v = g.denote T ρ) (hw : N w = h.denote T ρ) :
    (op v w).denote T N = f.denote T ρ := by
  cases hf <;> simp only [Operator.denote, denote, hv, hw]

lemma IsBinary.denote_leads (hv : Leads k (N v) (g.denote T ρ)) (hw : Leads k (N w) (h.denote T ρ)) :
    Leads k ((op v w).denote T N) (f.denote T ρ) := by
  cases hf with
  | conj g h => exact hv.inter hw
  | disj g h => exact hv.union hw

lemma IsBinary.meanings_eq :
    f.meanings T ρ = f.denote T ρ :: (g.meanings T ρ ++ h.meanings T ρ) := by
  cases hf <;> rfl

lemma IsBinary.sizeOf_lt : sizeOf g < sizeOf f ∧ sizeOf h < sizeOf f := by
  cases hf <;> constructor <;> simp <;> omega

end Binary

end Formula

namespace Numbering

open Formula EquationSystem

variable {T : TransitionSystem} {E : List (Nat × Equation)} {K : List Bool}
  {scope : List (String × Bool)} {f g h : Formula} {p : Place} {part body operand l r : Part}

/-! ## The sets of all subformulas as a candidate

To use extremality some sets have to be offered that follow the equations of a block.  These are the sets of
the subformulas of a fixpoint, with a set `P` for its name that the body lets move on.  At a reference to
the name the candidate has the set of the whole body, which has moved no further than `P`; and in a block
further in it has to have the solution, which holds because the formulas there do not mention the name.
-/

/-- Variables stand for the sets of a list, from a number on. -/
def Lists (M : Nat → Set T.State) (v : Nat) (l : List (Set T.State)) : Prop :=
  ∀ k A, l[k]? = some A → M (v + k) = A

section Lists

variable {M : Nat → Set T.State} {v : Nat} {A : Set T.State} {l r : List (Set T.State)}

lemma Lists.head (h : Lists M v (A :: l)) : M v = A ∧ Lists M (v + 1) l := by
  refine ⟨h 0 A rfl, fun k B hB => ?_⟩
  rw [Nat.add_assoc, Nat.add_comm 1 k]
  exact h (k + 1) B hB

lemma Lists.append (h : Lists M v (l ++ r)) : Lists M v l ∧ Lists M (v + l.length) r := by
  refine ⟨fun k A hA => h k A ?_, fun k A hA => ?_⟩
  · rw [List.getElem?_append_left (List.getElem?_eq_some_iff.1 hA).1, hA]
  · rw [Nat.add_assoc]
    refine h (l.length + k) A ?_
    rw [List.getElem?_append_right (Nat.le_add_right _ _), Nat.add_sub_cancel_left, hA]

end Lists

lemma Numbered.length_meanings (hf : Numbered f p part) :
    ∀ ρ : String → Set T.State, (f.meanings T ρ).length = part.equations.length := by
  induction hf with
  | ref hx => exact fun ρ => rfl
  | fixpoint hf hbody ih =>
      intro ρ
      rw [meanings_fixpoint]
      exact ih _
  | leaf hleaf =>
      intro ρ
      rw [hleaf.meanings_eq]
      rfl
  | unary hun hoperand ih =>
      intro ρ
      simp only [hun.meanings_eq, List.length_cons, ih ρ, Part.ofOperator]
  | binary hbin hl hr ihl ihr =>
      intro ρ
      simp only [hbin.meanings_eq, List.length_cons, List.length_append, ihl ρ, ihr ρ,
        Part.ofOperator, Part.append]

/-- The first of the sets is that of the formula itself. -/
lemma Numbered.head_meanings (hf : Numbered f p part) (href : f.isRef = false) :
    ∀ ρ : String → Set T.State, (f.meanings T ρ)[0]? = some (f.denote T ρ) := by
  induction hf with
  | ref hx => cases href
  | fixpoint hf hbody ih =>
      intro ρ
      rw [meanings_fixpoint, ih hf, hbody.denote_fixpoint]
  | leaf hleaf =>
      intro ρ
      rw [hleaf.meanings_eq]
      rfl
  | unary hun hoperand ih =>
      intro ρ
      rw [hun.meanings_eq]
      rfl
  | binary hbin hl hr ihl ihr =>
      intro ρ
      rw [hbin.meanings_eq]
      rfl

/-- Numbered formulas follow the moves of their names. -/
lemma Numbered.denote_leads {k : Bool} (hf : Numbered f p part) {ρ ρ' : String → Set T.State}
    (h : ∀ x, Leads k (ρ x) (ρ' x)) : Leads k (f.denote T ρ) (f.denote T ρ') := by
  cases k with
  | false => exact leads_false.2 (hf.denote_mono fun x => leads_false.1 (h x))
  | true => exact leads_true.2 (hf.denote_mono fun x => leads_true.1 (h x))

lemma update_leads {k : Bool} {ρ : String → Set T.State} {x : String} {A B : Set T.State}
    (h : Leads k A B) (y : String) : Leads k (Function.update ρ x A y) (Function.update ρ x B y) := by
  by_cases hyx : y = x
  · subst hyx
    simpa using h
  · simpa [hyx] using Leads.refl k (ρ y)

variable {N M : Nat → Set T.State} {k : Bool} {b : Nat} {σ ρ : String → Set T.State}

/-- Going into a fixpoint, one name is added to those that matter. -/
lemma forall_names_enter {R : Set T.State → Nat → Prop} {isMax : Bool} {x : String} {A : Set T.State}
    (hx : R A p.next)
    (hnames : ∀ y u, (fixpoint isMax x f).isFree y = true → p.scope.lookup y = some u → R (ρ y) u) :
    ∀ y u, f.isFree y = true → (p.enter x isMax).scope.lookup y = some u →
      R (Function.update ρ x A y) u := by
  intro y u hy hu
  by_cases hyx : y = x
  · subst hyx
    rw [lookup_enter_self] at hu
    rw [Function.update_self, ← Option.some.inj hu]
    exact hx
  · rw [lookup_enter_of_ne hyx] at hu
    rw [Function.update_of_ne hyx]
    exact hnames y u (isFree_fixpoint_iff.2 ⟨hyx, hy⟩) hu

/-! ### Going down with the candidate

From a fixpoint the candidate is followed to all its subformulas.  At each of them the names that occur
stand for the right sets: exactly, if the block is further in, and otherwise up to a move.
-/

/-- A formula denotes what its root stands for, wherever it stands, if that is so of its names. -/
def Settled (E : List (Nat × Equation)) (K : List Bool) (N : Nat → Set T.State) (f : Formula) : Prop :=
  ∀ {scope : List (String × Bool)} {p : Place} {part : Part} {ρ : String → Set T.State},
    Placed E K scope f p part →
    (∀ x u, f.isFree x = true → p.scope.lookup x = some u → ρ x = N u) →
    f.denote T ρ = N part.root

/-- **A subformula and the candidate.**  The formula stands inside a fixpoint whose block is `b`.  Its
names stand for the sets `σ` and the numbers of its subformulas, in `M`, for what these denote then. -/
structure Follows (E : List (Nat × Equation)) (K : List Bool) (N M : Nat → Set T.State) (k : Bool)
    (b : Nat) (scope : List (String × Bool)) (σ : String → Set T.State) (f : Formula) (p : Place)
    (part : Part) : Prop where
  placed : Placed E K scope f p part
  lists : Lists M p.next (f.meanings T σ)
  leads : ∀ x u, f.isFree x = true → p.scope.lookup x = some u → Leads k (M u) (σ x)
  /-- Further in, the names that occur are those of fixpoints that are solved already. -/
  inner : b < p.block → ∀ x u, f.isFree x = true → p.scope.lookup x = some u → σ x = N u
  block_le : b ≤ p.block

namespace Follows

lemma root_eq (hf : Follows E K N M k b scope σ f p part) (href : f.isRef = false) :
    M p.next = f.denote T σ :=
  hf.lists 0 _ (hf.placed.numbered.head_meanings href σ)

lemma root_leads (hf : Follows E K N M k b scope σ f p part) :
    Leads k (M part.root) (f.denote T σ) := by
  cases href : f.isRef with
  | true =>
      obtain ⟨x, rfl, hx⟩ := hf.placed.numbered.of_isRef href
      exact hf.leads x _ (by simp [isFree]) hx
  | false =>
      rw [(hf.placed.numbered.root_eq href).1]
      exact Leads.of_eq (hf.root_eq href)

/-- The body of a fixpoint, whose name stands for the fixpoint. -/
lemma enter {isMax : Bool} {x : String}
    (hf : Follows E K N M k b scope σ (fixpoint isMax x f) p (body.bind p x isMax))
    (hbody : Numbered f (p.enter x isMax) body) (hsettled : Settled E K N (fixpoint isMax x f)) :
    Follows E K N M k b ((x, isMax) :: scope)
      (Function.update σ x ((fixpoint isMax x f).denote T σ)) f (p.enter x isMax) body := by
  have hlists := hf.lists
  rw [meanings_fixpoint] at hlists
  have href := isRef_fixpoint isMax x f
  refine ⟨hf.placed.enter hbody, hlists, ?_, fun hb => ?_, ?_⟩
  · exact forall_names_enter (R := fun A u => Leads k (M u) A) (Leads.of_eq (hf.root_eq href))
      hf.leads
  · -- Either the block was further in already, or the fixpoint has no names at all.
    have hnames : ∀ y u, (fixpoint isMax x f).isFree y = true → p.scope.lookup y = some u →
        σ y = N u := by
      by_cases hk : isMax = p.isMax
      · exact hf.inner (by simpa [Place.enter, hk] using hb)
      · intro y u hy hu
        rw [hf.placed.lookup_of_other_kind hk hy] at hu
        cases hu
    refine forall_names_enter (R := fun A u => A = N u) ?_ hnames
    rw [hsettled hf.placed hnames, (hf.placed.numbered.root_eq href).1]
  · have hle := hf.block_le
    have hlt := hf.placed.inScope.block_lt
    simp only [Place.enter]
    split <;> omega

lemma unary {op : Nat → Operator}
    (hf : Follows E K N M k b scope σ f p (.ofOperator p f (op operand.root) operand))
    (hun : IsUnary f op g) (hoperand : Numbered g p.inside operand) :
    Follows E K N M k b scope σ g p.inside operand := by
  have hlists := hf.lists
  rw [hun.meanings_eq] at hlists
  exact ⟨hf.placed.unary hun hoperand, hlists.head.2,
    fun x u hx => hf.leads x u (hun.isFree_eq x ▸ hx),
    fun hb x u hx => hf.inner hb x u (hun.isFree_eq x ▸ hx), hf.block_le⟩

section Binary

variable {op : Nat → Nat → Operator}
  (hf : Follows E K N M k b scope σ f p (.ofOperator p f (op l.root r.root) (l.append r)))
  (hbin : IsBinary f op g h) (hl : Numbered g p.inside l)

include hf hbin hl

lemma left : Follows E K N M k b scope σ g p.inside l := by
  have hlists := hf.lists
  rw [hbin.meanings_eq] at hlists
  exact ⟨hf.placed.left hbin hl, hlists.head.2.append.1,
    fun x u hx => hf.leads x u (hbin.isFree_left hx),
    fun hb x u hx => hf.inner hb x u (hbin.isFree_left hx), hf.block_le⟩

lemma right (hr : Numbered h (p.inside.after l) r) :
    Follows E K N M k b scope σ h (p.inside.after l) r := by
  have hlists := hf.lists
  rw [hbin.meanings_eq] at hlists
  have hlists' := hlists.head.2.append.2
  rw [hl.length_meanings] at hlists'
  exact ⟨hf.placed.right hbin hr, hlists', fun x u hx => hf.leads x u (hbin.isFree_right hx),
    fun hb x u hx => hf.inner hb x u (hbin.isFree_right hx), hf.block_le⟩

end Binary

/-- **The candidate follows the equations** of the block, has the solution further in, and has the right
atoms. -/
lemma solves {size : Nat} (hN : ∀ v c q, E[v]? = some (c, q) → q.operator.denote T N = N v)
    (hsettled : ∀ g, sizeOf g < size → Settled E K N g) (hsize : sizeOf f < size)
    (hf : Follows E K N M k b scope σ f p part) :
    ∀ v, p.next ≤ v → v < p.next + part.equations.length → ∀ c q, E[v]? = some (c, q) →
      (c = b → Leads k (q.operator.denote T M) (M v)) ∧ (b < c → M v = N v) ∧
        ∀ a, q.operator = .atom a → M v = N v := by
  refine hf.placed.numbered.forall_equations
    (C := fun f p part => sizeOf f < size ∧ ∃ scope σ, Follows E K N M k b scope σ f p part)
    (motive := fun v => ∀ c q, E[v]? = some (c, q) →
      (c = b → Leads k (q.operator.denote T M) (M v)) ∧ (b < c → M v = N v) ∧
        ∀ a, q.operator = .atom a → M v = N v)
    ?_ ?_ ?_ ?_ hf.placed.stands ⟨hsize, scope, σ, hf⟩
  · rintro isMax x f p body _ hbody _ ⟨hsize, scope, σ, hf⟩
    exact ⟨(sizeOf_lt_fixpoint isMax x f).trans hsize, _, _,
      hf.enter hbody (hsettled _ hsize)⟩
  · rintro f op p hleaf hget ⟨hsize, scope, σ, hf⟩ c q hq
    rw [hget] at hq
    cases hq
    have hroot := hf.root_eq (hleaf.isRef_eq)
    have hsolved : M p.next = N p.next := by
      rw [hroot, ← hN _ _ _ hget]
      exact hleaf.denote_eq.symm
    exact ⟨fun _ => Leads.of_eq (hleaf.denote_eq.trans hroot.symm), fun _ => hsolved,
      fun _ _ => hsolved⟩
  · rintro f g op p operand hun hoperand hget _ ⟨hsize, scope, σ, hf⟩
    have hf' := hf.unary hun hoperand
    refine ⟨fun c q hq => ?_, hun.sizeOf_lt.trans hsize, _, _, hf'⟩
    rw [hget] at hq
    cases hq
    have hroot := hf.root_eq hun.isRef_eq
    refine ⟨fun _ => ?_, fun hb => ?_, fun a ha => ?_⟩
    · rw [hroot]
      refine hun.denote_leads hf'.root_leads ?_
      rintro a rfl
      rw [(hoperand.root_eq rfl).1]
      exact hf'.root_eq rfl
    · rw [hroot]
      exact hsettled f hsize hf.placed (hf.inner hb)
    · cases hun <;> cases ha
  · rintro f g h op p l r hbin hl hr hget _ _ ⟨hsize, scope, σ, hf⟩
    have hfl := hf.left hbin hl
    have hfr := hf.right hbin hl hr
    refine ⟨fun c q hq => ?_, ⟨hbin.sizeOf_lt.1.trans hsize, _, _, hfl⟩,
      hbin.sizeOf_lt.2.trans hsize, _, _, hfr⟩
    rw [hget] at hq
    cases hq
    have hroot := hf.root_eq hbin.isRef_eq
    refine ⟨fun _ => ?_, fun hb => ?_, fun a ha => ?_⟩
    · rw [hroot]
      exact hbin.denote_leads hfl.root_leads hfr.root_leads
    · rw [hroot]
      exact hsettled f hsize hf.placed (hf.inner hb)
    · cases hbin <;> cases ha

end Follows

/-! ## Formulas denote what their roots stand for

The induction is on the size of formulas and not on their structure, since the candidate for a fixpoint
speaks about all formulas inside it at once.
-/

section Whole

variable {f₀ : Formula} {part₀ : Part} (h₀ : Numbered f₀ (.start f₀) part₀)
  (hN : (assemble f₀ part₀).ExtremalOn T N)

include hN

lemma solves_of_getElem? {v c : Nat} {q : Equation} (hv : part₀.equations[v]? = some (c, q)) :
    q.operator.denote T N = N v :=
  hN.solves v q.operator (operator?_assemble.2 ⟨c, q, hv, rfl⟩)

include h₀

/-- **A single fixpoint**, whose block takes the equation of its body: the solution has moved no further
than any set that the body lets move on. -/
lemma Placed.fixpoint_leads {isMax : Bool} {x : String} {q : Equation} {P : Set T.State}
    (hp : Placed part₀.equations (kinds f₀ part₀) scope (fixpoint isMax x f) p
      (body.bind p x isMax))
    (href : f.isRef = false) (hbody : Numbered f (p.enter x isMax) body)
    (hsettled : ∀ g, sizeOf g < sizeOf (fixpoint isMax x f) →
      Settled part₀.equations (kinds f₀ part₀) N g)
    (hnames : ∀ y u, (fixpoint isMax x f).isFree y = true → p.scope.lookup y = some u → ρ y = N u)
    (hget : part₀.equations[p.next]? = some ((p.enter x isMax).block, q))
    (hfix : f.denote T (Function.update ρ x (N p.next)) = N p.next)
    (hP : Leads isMax (f.denote T (Function.update ρ x P)) P) (hPN : Leads isMax P (N p.next)) :
    Leads isMax (N p.next) P := by
  obtain ⟨M, hin, hout⟩ : ∃ M : Nat → Set T.State,
      Lists M p.next (f.meanings T (Function.update ρ x P)) ∧
        ∀ v, ¬ (p.next ≤ v ∧ v < p.next + body.equations.length) → M v = N v := by
    refine ⟨fun v => if p.next ≤ v ∧ v < p.next + body.equations.length then
      ((f.meanings T (Function.update ρ x P))[v - p.next]?).getD ∅ else N v, fun k A hA => ?_,
      fun v hv => if_neg hv⟩
    have hk := (List.getElem?_eq_some_iff.1 hA).1
    rw [hbody.length_meanings] at hk
    simp [hk, hA]
  have hroot : M p.next = f.denote T (Function.update ρ x P) :=
    hin 0 _ (hbody.head_meanings href _)
  have hfollows : Follows part₀.equations (kinds f₀ part₀) N M isMax (p.enter x isMax).block
      ((x, isMax) :: scope) (Function.update ρ x P) f (p.enter x isMax) body := by
    refine ⟨hp.enter hbody, hin, ?_, fun hb => absurd hb (lt_irrefl _), le_rfl⟩
    refine forall_names_enter (R := fun A u => Leads isMax (M u) A) (hroot ▸ hP) fun y u hy hu => ?_
    rw [hnames y u hy hu]
    -- A name outside has an earlier number, or binds the same body.
    rcases (hp.names_le y u hu).lt_or_eq with hlt | rfl
    · exact Leads.of_eq (hout u (by omega))
    · rw [hroot]
      exact (hbody.denote_leads (update_leads hPN)).trans (Leads.of_eq hfix)
  have hsolves := hfollows.solves (fun v c q => solves_of_getElem? hN) hsettled
    (sizeOf_lt_fixpoint isMax x f)
  have hkind := (hp.enter hbody).kind
  have hleads := hN.leads_of_some (b := (assemble f₀ part₀).blockOf p.next) (M := M) h₀.wellFormed
    (R := fun v => p.next ≤ v ∧ v < p.next + body.equations.length) hout ?_ ?_ ?_ p.next
    q.operator (operator?_assemble.2 ⟨_, q, hget, rfl⟩) rfl
  · rw [h₀.isMax_eq hget hkind, hroot] at hleads
    exact hleads.trans hP
  · intro v hv hb
    obtain ⟨c, q', hq'⟩ : ∃ c q', part₀.equations[v]? = some (c, q') := by
      have hlt := hp.stands.lt_length (k := v - p.next) (by simp only [Part.bind]; omega)
      exact ⟨_, _, List.getElem?_eq_getElem (by omega)⟩
    have hle := h₀.blockOf_le hq' hget
    exact (hsolves v hv.1 hv.2 c q' hq').2.1 (by omega)
  · intro v a hv ha
    obtain ⟨c, q', hq', ha⟩ := operator?_assemble.1 ha
    exact (hsolves v hv.1 hv.2 c q' hq').2.2 a ha
  · intro v op hv hop hb
    obtain ⟨c, q', hq', rfl⟩ := operator?_assemble.1 hop
    obtain rfl : c = (p.enter x isMax).block := by
      have hle := h₀.blockOf_le hq' hget
      have hge := h₀.blockOf_le hget hq'
      omega
    rw [h₀.isMax_eq hq' hkind]
    exact (hsolves v hv.1 hv.2 _ q' hq').1 rfl

/-- **A fixpoint denotes what its root stands for**, if smaller formulas do. -/
lemma Placed.fixpoint_eq {isMax : Bool} {x : String}
    (hp : Placed part₀.equations (kinds f₀ part₀) scope (fixpoint isMax x f) p
      (body.bind p x isMax))
    (href : f.isRef = false) (hbody : Numbered f (p.enter x isMax) body)
    (hsettled : ∀ g, sizeOf g < sizeOf (fixpoint isMax x f) →
      Settled part₀.equations (kinds f₀ part₀) N g)
    (hnames : ∀ y u, (fixpoint isMax x f).isFree y = true → p.scope.lookup y = some u →
      ρ y = N u) :
    (fixpoint isMax x f).denote T ρ = N p.next := by
  obtain ⟨hroot, hlen⟩ := hbody.root_eq href
  have hfix : f.denote T (Function.update ρ x (N p.next)) = N p.next :=
    (hsettled f (sizeOf_lt_fixpoint isMax x f) (hp.enter hbody)
      (forall_names_enter (R := fun A u => A = N u) rfl hnames)).trans (congrArg N hroot)
  refine denote_fixpoint_eq hfix fun P hP => ?_
  obtain ⟨⟨c, q⟩, hget⟩ : ∃ q, part₀.equations[p.next]? = some q :=
    ⟨_, List.getElem?_eq_getElem (hp.stands.lt_length (k := 0) hlen)⟩
  by_cases hc : c = (p.enter x isMax).block
  · subst hc
    refine (Placed.fixpoint_leads h₀ hN (P := common isMax P (N p.next)) hp href hbody hsettled hnames
      hget hfix (Leads.common ?_ ?_) common_leads_right).trans common_leads_left
    · exact (hbody.denote_leads (update_leads common_leads_left)).trans hP
    · exact (hbody.denote_leads (update_leads common_leads_right)).trans (Leads.of_eq hfix)
  · -- The body is a fixpoint of the other kind, so the name does not occur in it.
    have hx : ∀ y, f.isFree y = true → y ≠ x := by
      rintro y hy rfl
      have hnone := (hp.enter hbody).lookup_of_other_block href hget hc hy
      rw [lookup_enter_self] at hnone
      cases hnone
    rw [← hfix]
    refine (Leads.of_eq (denote_congr fun y hy => ?_)).trans hP
    rw [Function.update_of_ne (hx y hy), Function.update_of_ne (hx y hy)]

/-- **Formulas are settled**, by induction on their size. -/
lemma settled (f : Formula) : Settled part₀.equations (kinds f₀ part₀) N f := by
  induction hsize : sizeOf f using Nat.strong_induction_on generalizing f with
  | _ size ih =>
      subst hsize
      intro scope p part ρ hp hnames
      have hnum := hp.numbered
      cases hnum with
      | ref hx => exact hnames _ _ (by simp [isFree]) hx
      | leaf hleaf => exact hleaf.denote_eq.symm.trans (solves_of_getElem? hN hp.stands.head.1)
      | unary hun hoperand =>
          have hg := ih _ hun.sizeOf_lt _ rfl (hp.unary hun hoperand) fun x u hx =>
            hnames x u (hun.isFree_eq x ▸ hx)
          exact (hun.denote_eq hg.symm).symm.trans (solves_of_getElem? hN hp.stands.head.1)
      | binary hbin hl hr =>
          have hg := ih _ hbin.sizeOf_lt.1 _ rfl (hp.left hbin hl) fun x u hx =>
            hnames x u (hbin.isFree_left hx)
          have hh := ih _ hbin.sizeOf_lt.2 _ rfl (hp.right hbin hr) fun x u hx =>
            hnames x u (hbin.isFree_right hx)
          exact (hbin.denote_eq hg.symm hh.symm).symm.trans
            (solves_of_getElem? hN hp.stands.head.1)
      | fixpoint href hbody =>
          rw [hp.fixpoint_eq h₀ hN href hbody (fun g hg => ih _ hg g rfl) hnames]
          exact congrArg N (hbody.root_eq href).1.symm

/-- **The extremal solution is what the formula means.** -/
theorem Numbered.denote_eq (hfree : f₀.isAlternationFree = true) (ρ : String → Set T.State) :
    f₀.denote T ρ = N 0 := by
  rw [settled h₀ hN f₀ (Placed.start h₀ hfree) (by simp [Place.start]),
    (h₀.root_eq h₀.isRef_eq_false).1]
  rfl

end Whole

end Numbering

end ModalCalls
