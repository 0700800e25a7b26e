import Mathlib
import ModalCalls.Proofs.Equation.WellFormed

/-!
# Places inside a formula that is numbered

`Numbering.Situated` says all there is to know about a subformula where it stands: its equations, the
blocks that it opens, and the kind of the block it is in.  A visit to all subformulas hands this down
(`Situated.enter`, `Situated.unary`, `Situated.left`, `Situated.right`).  In an alternation-free formula
there is more to say of the names in scope (`Numbering.Placed`).

What alternation-freeness is good for is that blocks are closed off from names outside.  A fixpoint of
another kind than the block it stands in refers to no name in scope (`Placed.lookup_of_other_kind`),
and neither does a formula whose root went into another block (`Placed.lookup_of_other_block`).
-/

namespace ModalCalls

/-! ## Free names

A step from an operator to its operand changes neither the free names that matter nor the conditions on
alternation.  Again this is said once for each shape.
-/

namespace Formula

variable {f g h : Formula} {x y : String}

lemma isFree_fixpoint_iff {isMax : Bool} :
    (fixpoint isMax x f).isFree y = true ↔ y ≠ x ∧ f.isFree y = true := by
  cases isMax <;> simp [fixpoint, isFree, ne_comm]

lemma IsLeaf.isRef_eq {op : Operator} (hf : IsLeaf f op) : f.isRef = false := by
  cases hf <;> rfl

section Unary

variable {op : Nat → Operator} (hf : IsUnary f op g)

include hf

lemma IsUnary.isRef_eq : f.isRef = false := by
  cases hf <;> rfl

lemma IsUnary.isFree_eq (x : String) : f.isFree x = g.isFree x := by
  cases hf <;> rfl

lemma IsUnary.isAlternationFreeIn_eq (scope : List (String × Bool)) :
    f.isAlternationFreeIn scope = g.isAlternationFreeIn scope := by
  cases hf <;> rfl

end Unary

section Binary

variable {op : Nat → Nat → Operator} (hf : IsBinary f op g h)

include hf

lemma IsBinary.isRef_eq : f.isRef = false := by
  cases hf <;> rfl

lemma IsBinary.isFree_left (hx : g.isFree x = true) : f.isFree x = true := by
  cases hf <;> simp [isFree, hx]

lemma IsBinary.isFree_right (hx : h.isFree x = true) : f.isFree x = true := by
  cases hf <;> simp [isFree, hx]

lemma IsBinary.isAlternationFreeIn_eq (scope : List (String × Bool)) :
    f.isAlternationFreeIn scope
      = (g.isAlternationFreeIn scope && h.isAlternationFreeIn scope) := by
  cases hf <;> rfl

end Binary

end Formula

/-! ## Subformulas where they stand

All equations of a formula form one list, and a subformula has a stretch of it.  `Situated` locates the
stretch and says of the names in scope that their numbers come before it.  There is one exception, and it
makes the statement longer than one would like: between a fixpoint and its body the name already stands for
a number whose equation is still to come.
-/

namespace Numbering

open Formula EquationSystem

variable {E : List (Nat × Equation)} {K : List Bool} {scope : List (String × Bool)}
  {f g h : Formula} {p : Place} {part body operand l r : Part} {isMax : Bool} {x y : String}

lemma lookup_enter_self : (p.enter x isMax).scope.lookup x = some p.next := by
  simp [Place.enter]

lemma lookup_enter_of_ne (hyx : y ≠ x) :
    (p.enter x isMax).scope.lookup y = p.scope.lookup y := by
  have hne : (y == x) = false := by simpa using hyx
  simp [Place.enter, List.lookup_cons, hne]

/-- A variable is of the kind that its block was opened with. -/
lemma Numbered.isMax_eq {v b : Nat} {q : Equation} {k : Bool} (hf : Numbered f (.start f) part)
    (hv : part.equations[v]? = some (b, q)) (hk : (kinds f part)[b]? = some k) :
    (assemble f part).isMax v = k := by
  have hlt : v < (assemble f part).size := by
    rw [size_assemble]
    exact (List.getElem?_eq_some_iff.1 hv).1
  obtain ⟨block, hblock, hmem⟩ := hf.wellFormed.inBlock_blockOf hlt
  rw [hf.wellFormed.isMax_eq hblock hmem]
  obtain ⟨b', -, rfl⟩ := blocks_getElem?.1 hblock
  obtain ⟨q', hq'⟩ := mem_blockVars.1 hmem
  rw [hv] at hq'
  cases hq'
  simp [List.getD_eq_getElem?_getD, hk]

/-- A free name of an alternation-free formula may be referred to. -/
lemma mayReach_of_isFree {x : String} : ∀ {f : Formula} {scope : List (String × Bool)},
    f.isAlternationFreeIn scope = true → f.isFree x = true → mayReach scope x = true := by
  intro f
  induction f with
  | top | bot | atom p => exact fun _ hx => absurd hx (by simp [isFree])
  | ref y =>
      intro scope hfree hx
      simp only [isFree, beq_iff_eq] at hx
      exact hx ▸ hfree
  | mu y f ih | nu y f ih =>
      intro scope hfree hx
      simp only [isFree, Bool.and_eq_true, bne_iff_ne] at hx
      exact mayReach_of_cons hx.1.symm (ih hfree hx.2)
  | neg f ih | box a f ih | dia a f ih | af f ih | ag f ih | ef f ih | eg f ih =>
      exact fun hfree hx => ih hfree hx
  | conj f g ihf ihg | disj f g ihf ihg | au f g ihf ihg | aw f g ihf ihg | eu f g ihf ihg
  | ew f g ihf ihg =>
      intro scope hfree hx
      simp only [isAlternationFreeIn, Bool.and_eq_true] at hfree
      simp only [isFree, Bool.or_eq_true] at hx
      exact hx.elim (ihf hfree.1) (ihg hfree.2)

/-- **A subformula where it stands** in a formula whose equations are `E` and whose blocks have the kinds
`K`. -/
structure Situated (E : List (Nat × Equation)) (K : List Bool) (f : Formula) (p : Place) (part : Part) :
    Prop where
  numbered : Numbered f p part
  stands : StandsAt E p.next part.equations
  opened : StandsAt K p.blocks part.opened
  kind : K[p.block]? = some p.isMax
  block_lt : p.block < p.blocks
  names_le : ∀ x u, p.scope.lookup x = some u → u ≤ p.next
  /-- A name may stand for the number that comes next, whose block is not known yet. -/
  names_out : ∀ x u, p.scope.lookup x = some u → u < p.next →
    ∃ b q, E[u]? = some (b, q) ∧ b ≤ p.block

namespace Situated

/-- The whole formula. -/
lemma start (hf : Numbered f (.start f) part) :
    Situated part.equations (kinds f part) f (.start f) part where
  numbered := hf
  stands := List.prefix_refl _
  opened := List.prefix_refl _
  kind := rfl
  block_lt := Nat.zero_lt_one
  names_le := by simp [Place.start]
  names_out := by simp [Place.start]

lemma enter (hp : Situated E K (fixpoint isMax x f) p (body.bind p x isMax))
    (hbody : Numbered f (p.enter x isMax) body) : Situated E K f (p.enter x isMax) body := by
  have hopened := hp.opened
  have hlt := hp.block_lt
  simp only [Part.bind] at hopened
  have hblock : p.block ≤ (p.enter x isMax).block := by
    simp only [Place.enter]
    split <;> omega
  refine ⟨hbody, hp.stands, ?_, ?_, ?_, fun y u hu => ?_, fun y u hu hlt => ?_⟩
  · simp only [Place.enter]
    by_cases hk : isMax = p.isMax
    · simpa only [if_pos hk] using hopened
    · simp only [if_neg hk] at hopened ⊢
      exact hopened.head.2
  · simp only [Place.enter]
    by_cases hk : isMax = p.isMax
    · rw [if_pos hk, hk]
      exact hp.kind
    · simp only [if_neg hk] at hopened ⊢
      exact hopened.head.1
  · simp only [Place.enter]
    split <;> omega
  · by_cases hyx : y = x
    · rw [hyx, lookup_enter_self] at hu
      exact (Option.some.inj hu).ge
    · rw [lookup_enter_of_ne hyx] at hu
      exact hp.names_le y u hu
  · by_cases hyx : y = x
    · rw [hyx, lookup_enter_self] at hu
      exact absurd (Option.some.inj hu) hlt.ne'
    · rw [lookup_enter_of_ne hyx] at hu
      obtain ⟨b, q, hq, hle⟩ := hp.names_out y u hu hlt
      exact ⟨b, q, hq, hle.trans hblock⟩

/-- Inside an operator all names stand for numbers that have an equation, not further in. -/
lemma names_of_operator {op : Operator} {operands : Part}
    (hp : Situated E K f p (.ofOperator p f op operands)) {u : Nat} (hu : p.scope.lookup x = some u) :
    u ≤ p.next ∧ ∃ b q, E[u]? = some (b, q) ∧ b ≤ p.block := by
  have hle := hp.names_le x u hu
  refine ⟨hle, ?_⟩
  rcases hle.lt_or_eq with hlt | rfl
  · exact hp.names_out x u hu hlt
  · exact ⟨_, _, hp.stands.head.1, le_rfl⟩

/-- The root of anything but a reference comes next, not further out than its place. -/
lemma root_of_not_isRef (hp : Situated E K f p part) (hf : f.isRef = false) :
    part.root = p.next ∧ ∃ b q, E[part.root]? = some (b, q) ∧ p.block ≤ b := by
  obtain ⟨hroot, hlen⟩ := hp.numbered.root_eq hf
  have hget := hp.stands.getElem? hlen
  rw [List.getElem?_eq_getElem hlen, Nat.add_zero, ← hroot] at hget
  refine ⟨hroot, part.equations[0].1, part.equations[0].2, hget, ?_⟩
  have hcases := hp.numbered.block_cases _ (List.getElem_mem hlen)
  have hlt := hp.block_lt
  omega

lemma unary {op : Nat → Operator}
    (hp : Situated E K f p (.ofOperator p f (op operand.root) operand))
    (hoperand : Numbered g p.inside operand) : Situated E K g p.inside operand where
  numbered := hoperand
  stands := hp.stands.head.2
  opened := hp.opened
  kind := hp.kind
  block_lt := hp.block_lt
  names_le := fun x u hu => (hp.names_le x u hu).trans (Nat.le_succ _)
  names_out := fun _ _ hu _ => (hp.names_of_operator hu).2

section Binary

variable {op : Nat → Nat → Operator}
  (hp : Situated E K f p (.ofOperator p f (op l.root r.root) (l.append r)))

include hp

lemma left (hl : Numbered g p.inside l) : Situated E K g p.inside l where
  numbered := hl
  stands := hp.stands.head.2.append.1
  opened := hp.opened.append.1
  kind := hp.kind
  block_lt := hp.block_lt
  names_le := fun x u hu => (hp.names_le x u hu).trans (Nat.le_succ _)
  names_out := fun _ _ hu _ => (hp.names_of_operator hu).2

lemma right (hr : Numbered h (p.inside.after l) r) : Situated E K h (p.inside.after l) r where
  numbered := hr
  stands := hp.stands.head.2.append.2
  opened := hp.opened.append.2
  kind := hp.kind
  block_lt := hp.block_lt.trans_le (Nat.le_add_right _ _)
  names_le := fun x u hu => by
    have hle := hp.names_le x u hu
    simp only [Place.after, Place.inside]
    omega
  names_out := fun _ _ hu _ => (hp.names_of_operator hu).2

end Binary

end Situated

/-! ### In alternation-free formulas

Two more facts are carried along: which names may be referred to from here, and that the formula is
alternation-free with these names in scope.  Together they close a block off.  A formula of another kind
than its block would have to pass the fixpoint in between to refer to a name outside, and that is not
allowed.
-/

/-- **A subformula where it stands** in an alternation-free formula, with the kinds of the fixpoints around
it. -/
structure Placed (E : List (Nat × Equation)) (K : List Bool) (scope : List (String × Bool))
    (f : Formula) (p : Place) (part : Part) : Prop extends Situated E K f p part where
  inScope : Scoped E scope p
  free : f.isAlternationFreeIn scope = true

namespace Placed

/-- The whole formula. -/
lemma start (hf : Numbered f (.start f) part) (hfree : f.isAlternationFree = true) :
    Placed part.equations (kinds f part) [] f (.start f) part where
  toSituated := .start hf
  inScope := ⟨Nat.zero_lt_one, rfl, by simp⟩
  free := hfree

lemma enter (hp : Placed E K scope (fixpoint isMax x f) p (body.bind p x isMax))
    (hbody : Numbered f (p.enter x isMax) body) :
    Placed E K ((x, isMax) :: scope) f (p.enter x isMax) body where
  toSituated := hp.toSituated.enter hbody
  inScope := hp.inScope.enter x isMax
  free := isAlternationFreeIn_fixpoint isMax x f ▸ hp.free

lemma unary {op : Nat → Operator}
    (hp : Placed E K scope f p (.ofOperator p f (op operand.root) operand)) (hf : IsUnary f op g)
    (hoperand : Numbered g p.inside operand) : Placed E K scope g p.inside operand where
  toSituated := hp.toSituated.unary hoperand
  inScope := hp.inScope.move hp.stands.head.1 rfl rfl rfl le_rfl
  free := hf.isAlternationFreeIn_eq scope ▸ hp.free

section Binary

variable {op : Nat → Nat → Operator}
  (hp : Placed E K scope f p (.ofOperator p f (op l.root r.root) (l.append r)))
  (hf : IsBinary f op g h)

include hp hf

lemma left (hl : Numbered g p.inside l) : Placed E K scope g p.inside l := by
  have hfree := hp.free
  rw [hf.isAlternationFreeIn_eq, Bool.and_eq_true] at hfree
  exact ⟨hp.toSituated.left hl, hp.inScope.move hp.stands.head.1 rfl rfl rfl le_rfl, hfree.1⟩

lemma right (hr : Numbered h (p.inside.after l) r) : Placed E K scope h (p.inside.after l) r := by
  have hfree := hp.free
  rw [hf.isAlternationFreeIn_eq, Bool.and_eq_true] at hfree
  exact ⟨hp.toSituated.right hr,
    hp.inScope.move hp.stands.head.1 rfl rfl rfl (Nat.le_add_right _ _), hfree.2⟩

end Binary

/-- A fixpoint of another kind than the block it stands in refers to no name in scope. -/
lemma lookup_of_other_kind (hp : Placed E K scope (fixpoint isMax x f) p part)
    (hk : isMax ≠ p.isMax) (hy : (fixpoint isMax x f).isFree y = true) :
    p.scope.lookup y = none := by
  have hfree := hp.free
  rw [isAlternationFreeIn_fixpoint] at hfree
  obtain ⟨hyx, hy⟩ := isFree_fixpoint_iff.1 hy
  by_contra hne
  obtain ⟨u, hu⟩ := Option.ne_none_iff_exists'.1 hne
  exact hk (hp.inScope.kind_eq hyx hu (mayReach_of_isFree hfree hy))

/-- Nor does a formula whose root went into another block than the one it stands in: it is a fixpoint of
another kind, up to fixpoints of the same kind around it. -/
lemma lookup_of_other_block {b : Nat} {q : Equation}
    (hp : Placed E K scope f p part) (hf : f.isRef = false) (hget : E[p.next]? = some (b, q))
    (hb : b ≠ p.block) (hy : f.isFree y = true) : p.scope.lookup y = none := by
  have hnum := hp.numbered
  induction hnum generalizing scope with
  | ref hx => cases hf
  | @fixpoint isMax x f p body href hbody ih =>
      by_cases hk : isMax = p.isMax
      · obtain ⟨hyx, hy⟩ := isFree_fixpoint_iff.1 hy
        rw [← lookup_enter_of_ne hyx]
        exact ih (hp.enter hbody) href hget (by simpa [Place.enter, hk] using hb) hy
      · exact hp.lookup_of_other_kind hk hy
  | leaf hleaf =>
      have := hp.stands.head.1
      simp_all
  | unary hun hoperand ih =>
      have := hp.stands.head.1
      simp_all
  | binary hbin hl hr ihl ihr =>
      have := hp.stands.head.1
      simp_all

end Placed

end Numbering

end ModalCalls
