import Mathlib
import ModalCalls.Equation.Numbering
import ModalCalls.Proofs.Computation
import ModalCalls.Proofs.Equation.Summary
import ModalCalls.Proofs.Formula.Shape

/-!
# Numbered formulas

`Numbering.number` reports what it does and may fail.  What it computes when it succeeds is described by
the relation `Numbered`, which has one rule for each way a subformula can look: a reference, a
fixpoint, and an operator with no, one or two operands.  Everything about the equations of a formula
is an induction on this relation.
-/

namespace ModalCalls

/-! ## Operators of formulas

Formulas have many constructors and few shapes.  What numbering does depends on the shape: the number of
operands, and whether a name is bound or referred to.  With a relation for each shape, the lemmas below have
five cases, however many constructors there are.
-/

namespace Formula

/-- A least or greatest fixpoint. -/
def fixpoint (isMax : Bool) (x : String) (f : Formula) : Formula :=
  if isMax then nu x f else mu x f

/-- Formulas without operands, and their operators. -/
inductive IsLeaf : Formula → Operator → Prop
  | top : IsLeaf top .top
  | bot : IsLeaf bot .bot
  | atom (a : String) : IsLeaf (atom a) (.atom a)

/-- Formulas with one operand, and their operators.  A negation stands on an atom. -/
inductive IsUnary : Formula → (Nat → Operator) → Formula → Prop
  | neg (a : String) : IsUnary (neg (atom a)) .neg (atom a)
  | box (a : Option String) (f : Formula) : IsUnary (box a f) (.box a) f
  | dia (a : Option String) (f : Formula) : IsUnary (dia a f) (.dia a) f

/-- Formulas with two operands, and their operators. -/
inductive IsBinary : Formula → (Nat → Nat → Operator) → Formula → Formula → Prop
  | conj (f g : Formula) : IsBinary (conj f g) .conj f g
  | disj (f g : Formula) : IsBinary (disj f g) .disj f g

variable {f g h : Formula}

lemma IsLeaf.operands_eq {op : Operator} (hf : IsLeaf f op) : op.operands = [] := by
  cases hf <;> rfl

lemma IsUnary.operands_eq {op : Nat → Operator} (hf : IsUnary f op g) (v : Nat) :
    (op v).operands = [v] := by
  cases hf <;> rfl

lemma IsBinary.operands_eq {op : Nat → Nat → Operator} (hf : IsBinary f op g h) (v w : Nat) :
    (op v w).operands = [v, w] := by
  cases hf <;> rfl

end Formula

namespace Numbering

open Formula

/-- **The numbering of a formula** at a place. -/
inductive Numbered : Formula → Place → Part → Prop
  | ref {x : String} {p : Place} {v : Nat} (hx : p.scope.lookup x = some v) :
      Numbered (.ref x) p (.reference v)
  | fixpoint {isMax : Bool} {x : String} {f : Formula} {p : Place} {body : Part}
      (hf : f.isRef = false) (hbody : Numbered f (p.enter x isMax) body) :
      Numbered (fixpoint isMax x f) p (body.bind p x isMax)
  | leaf {f : Formula} {op : Operator} {p : Place} (hf : IsLeaf f op) :
      Numbered f p (.ofOperator p f op .none)
  | unary {f g : Formula} {op : Nat → Operator} {p : Place} {operand : Part}
      (hf : IsUnary f op g) (hoperand : Numbered g p.inside operand) :
      Numbered f p (.ofOperator p f (op operand.root) operand)
  | binary {f g h : Formula} {op : Nat → Nat → Operator} {p : Place} {l r : Part}
      (hf : IsBinary f op g h) (hl : Numbered g p.inside l)
      (hr : Numbered h (p.inside.after l) r) :
      Numbered f p (.ofOperator p f (op l.root r.root) (l.append r))

lemma finish_eq_ok {p : Place} {f : Formula} {op : Operator} {operands part : Part} {j j' : Journal}
    (h : finish p f op operands j = .ok part j') : part = .ofOperator p f op operands := by
  obtain ⟨_, _, -, h⟩ := bind_eq_ok h
  cases h
  rfl

/-! ## Numbering, one kind of formula at a time

The equations of the numbering function, one for each shape, and then the two directions: what it returns is
a numbering, and a numbering is what it returns.  The second direction holds for every journal, which says
that reports have no influence.
-/

section Kinds

variable {f g h : Formula} {p : Place} {part : Part} {j j' : Journal}

lemma number_ref_of_some {x : String} {v : Nat} (hx : p.scope.lookup x = some v) :
    number (.ref x) p j = .ok (.reference v) j := by
  simp only [number, hx]
  rfl

lemma number_ref_of_none {x : String} (hx : p.scope.lookup x = none) :
    number (.ref x) p j = .error (.unboundVariable x) j := by
  simp only [number, hx]
  rfl

/-- Under a negation no reference is accepted. -/
lemma number_neg_ref {x : String} : number (.neg (.ref x)) p j
    = .error (if (p.scope.lookup x).isSome then .negativeVariable x else .unboundVariable x) j := by
  cases hx : p.scope.lookup x with
  | none =>
      have hinside : p.inside.scope.lookup x = none := hx
      simp only [number, scopedRef?, hx, hinside]
      rfl
  | some v =>
      simp only [number, scopedRef?, hx]
      rfl

lemma number_fixpoint (k : Bool) (x : String) (f : Formula) (p : Place) :
    number (fixpoint k x f) p = if f.isRef then throw (.bareFixpoint x)
      else number f (p.enter x k) >>= fun body => pure (body.bind p x k) := by
  cases k <;> rfl

lemma number_leaf {op : Operator} (hf : IsLeaf f op) (p : Place) : number f p = finish p f op .none := by
  cases hf <;> rfl

lemma number_unary {op : Nat → Operator} (hf : IsUnary f op g) (p : Place) :
    number f p = number g p.inside >>= fun operand => finish p f (op operand.root) operand := by
  cases hf <;> rfl

lemma number_binary {op : Nat → Nat → Operator} (hf : IsBinary f op g h) (p : Place) :
    number f p = number g p.inside >>= fun l => number h (p.inside.after l) >>= fun r =>
      finish p f (op l.root r.root) (l.append r) := by
  cases hf <;> rfl

lemma numbered_of_leaf {op : Operator} (hf : IsLeaf f op) (hnum : number f p j = .ok part j') :
    Numbered f p part := by
  rw [number_leaf hf] at hnum
  rw [finish_eq_ok hnum]
  exact .leaf hf

lemma numbered_of_unary {op : Nat → Operator} (hf : IsUnary f op g)
    (ih : ∀ {p part j j'}, number g p j = .ok part j' → Numbered g p part)
    (hnum : number f p j = .ok part j') : Numbered f p part := by
  rw [number_unary hf] at hnum
  obtain ⟨operand, _, hoperand, hnum⟩ := bind_eq_ok hnum
  rw [finish_eq_ok hnum]
  exact .unary hf (ih hoperand)

lemma numbered_of_binary {op : Nat → Nat → Operator} (hf : IsBinary f op g h)
    (ihg : ∀ {p part j j'}, number g p j = .ok part j' → Numbered g p part)
    (ihh : ∀ {p part j j'}, number h p j = .ok part j' → Numbered h p part)
    (hnum : number f p j = .ok part j') : Numbered f p part := by
  rw [number_binary hf] at hnum
  obtain ⟨l, _, hl, hnum⟩ := bind_eq_ok hnum
  obtain ⟨r, _, hr, hnum⟩ := bind_eq_ok hnum
  rw [finish_eq_ok hnum]
  exact .binary hf (ihg hl) (ihh hr)

lemma numbered_of_fixpoint {k : Bool} {x : String}
    (ih : ∀ {p part j j'}, number f p j = .ok part j' → Numbered f p part)
    (hnum : number (fixpoint k x f) p j = .ok part j') : Numbered (fixpoint k x f) p part := by
  rw [number_fixpoint] at hnum
  cases hf : f.isRef with
  | true =>
      rw [hf] at hnum
      cases hnum
  | false =>
      rw [hf, if_neg Bool.false_ne_true] at hnum
      obtain ⟨body, _, hbody, hnum⟩ := bind_eq_ok hnum
      cases hnum
      exact .fixpoint hf (ih hbody)

end Kinds

/-- **Numbering yields the numbering**, for formulas with negations on atoms and references only. -/
theorem numbered_of_number : ∀ (f : Formula), f.isNegationNormal = true → ∀ {p : Place} {part : Part}
    {j j' : Journal}, number f p j = .ok part j' → Numbered f p part := by
  intro f
  induction f with
  | ref x =>
      intro _ p part j j' h
      cases hx : p.scope.lookup x with
      | none =>
          rw [number_ref_of_none hx] at h
          cases h
      | some v =>
          rw [number_ref_of_some hx] at h
          cases h
          exact .ref hx
  | top => exact fun _ => numbered_of_leaf .top
  | bot => exact fun _ => numbered_of_leaf .bot
  | atom a => exact fun _ => numbered_of_leaf (.atom a)
  | neg f _ =>
      intro hnorm p part j j' h
      cases f with
      | atom a => exact numbered_of_unary (.neg a) (numbered_of_leaf (.atom a)) h
      | ref x =>
          rw [number_neg_ref] at h
          cases h
      | _ => cases hnorm
  | conj f g ihf ihg =>
      intro hnorm
      simp only [isNegationNormal, Bool.and_eq_true] at hnorm
      exact numbered_of_binary (.conj f g) (ihf hnorm.1) (ihg hnorm.2)
  | disj f g ihf ihg =>
      intro hnorm
      simp only [isNegationNormal, Bool.and_eq_true] at hnorm
      exact numbered_of_binary (.disj f g) (ihf hnorm.1) (ihg hnorm.2)
  | box a f ih => exact fun hnorm => numbered_of_unary (.box a f) (ih hnorm)
  | dia a f ih => exact fun hnorm => numbered_of_unary (.dia a f) (ih hnorm)
  | mu x f ih => exact fun hnorm _ _ _ _ h => numbered_of_fixpoint (k := false) (ih hnorm) h
  | nu x f ih => exact fun hnorm _ _ _ _ h => numbered_of_fixpoint (k := true) (ih hnorm) h
  | _ =>
      intro _ p part j j' h
      cases h

lemma finish_yields {p : Place} {f : Formula} {op : Operator} {operands : Part} {j : Journal} :
    Yields (finish p f op operands) j fun part _ => part = .ofOperator p f op operands :=
  Yields.of_eq_ok rfl rfl

/-- **What is numbered is found by numbering**, whatever was reported before. -/
theorem Numbered.yields {f : Formula} {p : Place} {part : Part} (h : Numbered f p part) :
    ∀ j : Journal, Yields (number f p) j fun part' _ => part' = part := by
  induction h with
  | ref hx =>
      intro j
      exact Yields.of_eq_ok (number_ref_of_some hx) rfl
  | @fixpoint isMax x f p body hf _ ih =>
      intro j
      rw [number_fixpoint, hf, if_neg Bool.false_ne_true]
      exact Yields.map_pure ((ih j).mono fun _ _ heq => by rw [heq])
  | leaf hf =>
      intro j
      rw [number_leaf hf]
      exact finish_yields
  | unary hf _ ih =>
      intro j
      rw [number_unary hf]
      refine Yields.bind ((ih j).mono ?_)
      rintro _ j₁ rfl
      exact finish_yields
  | binary hf _ _ ihl ihr =>
      intro j
      rw [number_binary hf]
      refine Yields.bind ((ihl j).mono ?_)
      rintro _ j₁ rfl
      refine Yields.bind ((ihr j₁).mono ?_)
      rintro _ j₂ rfl
      exact finish_yields

/-! ## Numbers

What the root of a part is, seen from outside: its own first equation, or for a reference the number that
the name stands for.
-/

variable {f : Formula} {p : Place} {part : Part}

lemma isRef_fixpoint (isMax : Bool) (x : String) (f : Formula) :
    (fixpoint isMax x f).isRef = false := by
  cases isMax <;> rfl

/-- Everything but a reference starts with the equation of its root. -/
lemma Numbered.root_eq (h : Numbered f p part) (hf : f.isRef = false) :
    part.root = p.next ∧ 0 < part.equations.length := by
  induction h with
  | ref hx => cases hf
  | fixpoint hf' _ ih => exact ih hf'
  | leaf _ => exact ⟨rfl, Nat.succ_pos _⟩
  | unary _ _ _ => exact ⟨rfl, Nat.succ_pos _⟩
  | binary _ _ _ _ _ => exact ⟨rfl, Nat.succ_pos _⟩

/-- A reference stands for a number in scope. -/
lemma Numbered.of_isRef (h : Numbered f p part) (hf : f.isRef = true) :
    ∃ x, f = .ref x ∧ p.scope.lookup x = some part.root := by
  cases h with
  | ref hx => exact ⟨_, rfl, hx⟩
  | fixpoint _ _ =>
      rw [isRef_fixpoint] at hf
      cases hf
  | leaf hleaf => cases hleaf <;> cases hf
  | unary hun _ => cases hun <;> cases hf
  | binary hbin _ _ => cases hbin <;> cases hf

lemma Numbered.of_atom {a : String} (h : Numbered f p part) (hf : f = .atom a) :
    part = .ofOperator p (.atom a) (.atom a) .none := by
  cases h with
  | ref hx => cases hf
  | @fixpoint isMax _ _ _ _ _ _ => cases isMax <;> cases hf
  | leaf hleaf =>
      cases hleaf with
      | atom a' =>
          cases hf
          rfl
      | top => cases hf
      | bot => cases hf
  | unary hun _ => cases hun <;> cases hf
  | binary hbin _ _ => cases hbin <;> cases hf

/-! ## Visiting all equations

Every equation belongs to an operator somewhere in the formula.  `Numbered.forall_equations` visits these
operators from the outside in.  What is known about a subformula where the visit arrives, `C`, is handed
down to its operands, and at each operator something is shown of the number of its equation.
-/

/-- A list that stands in another one, from a position on. -/
abbrev StandsAt {α : Type} (E : List α) (v : Nat) (l : List α) : Prop :=
  l <+: E.drop v

section StandsAt

variable {α : Type} {E l r : List α} {v k : Nat} {q : α}

lemma StandsAt.head (h : StandsAt E v (q :: l)) : E[v]? = some q ∧ StandsAt E (v + 1) l := by
  obtain ⟨rest, hrest⟩ := h
  have hlt : v < E.length := by
    by_contra hle
    rw [List.drop_eq_nil_of_le (by omega)] at hrest
    simp at hrest
  rw [List.drop_eq_getElem_cons hlt] at hrest
  injection hrest with hq hl
  exact ⟨by rw [List.getElem?_eq_getElem hlt, ← hq], rest, hl⟩

lemma StandsAt.append (h : StandsAt E v (l ++ r)) :
    StandsAt E v l ∧ StandsAt E (v + l.length) r := by
  obtain ⟨rest, hrest⟩ := h
  refine ⟨⟨r ++ rest, by rw [← hrest, List.append_assoc]⟩, rest, ?_⟩
  rw [← List.drop_drop, ← hrest, List.append_assoc, List.drop_left]

lemma StandsAt.getElem? (h : StandsAt E v l) (hk : k < l.length) : E[v + k]? = l[k]? := by
  obtain ⟨rest, hrest⟩ := h
  rw [← List.getElem?_drop, ← hrest, List.getElem?_append_left hk]

lemma StandsAt.lt_length (h : StandsAt E v l) (hk : k < l.length) : v + k < E.length := by
  have hget := h.getElem? hk
  rw [List.getElem?_eq_getElem hk] at hget
  exact (List.getElem?_eq_some_iff.1 hget).1

end StandsAt

variable {E : List (Nat × Equation)}

/-- **A visit to all equations.** -/
theorem Numbered.forall_equations {C : Formula → Place → Part → Prop} {motive : Nat → Prop}
    (hfixpoint : ∀ {isMax x f p body}, f.isRef = false → Numbered f (p.enter x isMax) body →
      StandsAt E p.next body.equations → C (.fixpoint isMax x f) p (body.bind p x isMax) →
      C f (p.enter x isMax) body)
    (hleaf : ∀ {f op p}, IsLeaf f op → E[p.next]? = some (p.block, ⟨p.next, op, f.display⟩) →
      C f p (.ofOperator p f op .none) → motive p.next)
    (hunary : ∀ {f g op p operand}, IsUnary f op g → Numbered g p.inside operand →
      E[p.next]? = some (p.block, ⟨p.next, op operand.root, f.display⟩) →
      StandsAt E (p.next + 1) operand.equations →
      C f p (.ofOperator p f (op operand.root) operand) → motive p.next ∧ C g p.inside operand)
    (hbinary : ∀ {f g h op p l r}, IsBinary f op g h → Numbered g p.inside l →
      Numbered h (p.inside.after l) r →
      E[p.next]? = some (p.block, ⟨p.next, op l.root r.root, f.display⟩) →
      StandsAt E (p.next + 1) l.equations →
      StandsAt E (p.next + 1 + l.equations.length) r.equations →
      C f p (.ofOperator p f (op l.root r.root) (l.append r)) →
      motive p.next ∧ C g p.inside l ∧ C h (p.inside.after l) r)
    (hnum : Numbered f p part) (hstands : StandsAt E p.next part.equations) (hC : C f p part) :
    ∀ v, p.next ≤ v → v < p.next + part.equations.length → motive v := by
  induction hnum with
  | ref hx =>
      intro v hle hlt
      simp only [Part.reference, List.length_nil] at hlt
      omega
  | fixpoint hf hbody ih => exact ih hstands (hfixpoint hf hbody hstands hC)
  | @leaf f op p hf =>
      intro v hle hlt
      simp only [Part.ofOperator, Part.none, List.length_cons, List.length_nil] at hlt
      obtain rfl : p.next = v := by omega
      exact hleaf hf hstands.head.1 hC
  | @unary f g op p operand hf hoperand ih =>
      obtain ⟨hhead, htail⟩ := hstands.head
      obtain ⟨hm, hCg⟩ := hunary hf hoperand hhead htail hC
      intro v hle hlt
      simp only [Part.ofOperator, List.length_cons] at hlt
      rcases Nat.eq_or_lt_of_le hle with rfl | hle
      · exact hm
      · exact ih htail hCg v hle (by simp only [Place.inside]; omega)
  | @binary f g h op p l r hf hl hr ihl ihr =>
      obtain ⟨hhead, htail⟩ := hstands.head
      obtain ⟨htl, htr⟩ := htail.append
      obtain ⟨hm, hCg, hCh⟩ := hbinary hf hl hr hhead htl htr hC
      intro v hle hlt
      simp only [Part.ofOperator, Part.append, List.length_cons, List.length_append] at hlt
      rcases Nat.eq_or_lt_of_le hle with rfl | hle
      · exact hm
      · by_cases hv : v < p.next + 1 + l.equations.length
        · exact ihl htl hCg v hle hv
        · exact ihr htr hCh v (by simp only [Place.after, Place.inside]; omega)
            (by simp only [Place.after, Place.inside]; omega)

/-- A root is a number of the list if the names in scope stand for such numbers. -/
lemma Numbered.root_lt_length (h : Numbered f p part) (hstands : StandsAt E p.next part.equations)
    (hscope : ∀ x w, p.scope.lookup x = some w → w < E.length) : part.root < E.length := by
  cases hf : f.isRef with
  | true =>
      obtain ⟨x, -, hx⟩ := h.of_isRef hf
      exact hscope x _ hx
  | false =>
      obtain ⟨hroot, hlen⟩ := h.root_eq hf
      rw [hroot]
      exact hstands.lt_length hlen

end Numbering

end ModalCalls
