import Mathlib
import ModalCalls.Proofs.Formula.Shape

/-!
# Places in a formula

A subformula may occur more than once, and what it means depends on where: a reference belongs to the
innermost fixpoint of its name around it.  So occurrences are named by **paths**, which say what operand to
take at each step down (`Formula.at?`).

* `Formula.above` — the formulas that a path goes through, innermost first.  What is around a place is read
  off this list: the fixpoint of a name (`Formula.binder?`), the kind of the innermost fixpoint
  (`Formula.kindAt`), and the negations inside the fixpoint of a name (`Formula.negationsOver`).
* `Formula.operatorPaths` — the operators of a formula, which is everything but fixpoints and references, in
  pre-order.  That these are all (`Formula.mem_operatorPaths`) and that a path comes before those below it
  and to its right (`Formula.operatorPaths_sorted`) is a fact about lists of numbers: pre-order is the
  lexicographic order of paths.
* `Formula.Resolves` — the operator that a subformula amounts to, once fixpoints count as their bodies and
  references as the bodies of their fixpoints.
-/

namespace ModalCalls

namespace Formula

/-! ## Paths

Proofs about places go down one step at a time, so a path is taken apart at its end: `at?_snoc` and
`above_snoc` say what one more step adds.  With these two a statement about all places is an induction on
paths from the end, and what is around a place is what was around it before, with one formula more.
-/

/-- **A way down** into a formula: which operand to take at each step. -/
abbrev Path := List Nat

/-- The subformula at the end of a path. -/
def at? : Formula → Path → Option Formula
  | f, [] => some f
  | f, i :: π => f.children[i]?.bind fun g => g.at? π

/-- The formulas that a path goes through before its end, each with its own path, innermost first. -/
def above (f : Formula) (π : Path) : List (Path × Formula) :=
  π.inits.dropLast.reverse.filterMap fun β => (f.at? β).map fun g => (β, g)

variable {f g h : Formula} {π ρ : Path} {x : String}

@[simp] lemma at?_nil (f : Formula) : f.at? [] = some f := rfl

lemma at?_cons (f : Formula) (i : Nat) (π : Path) :
    f.at? (i :: π) = f.children[i]?.bind fun g => g.at? π := rfl

/-- Going on from the end of a path. -/
lemma at?_append (f : Formula) (π ρ : Path) :
    f.at? (π ++ ρ) = (f.at? π).bind fun g => g.at? ρ := by
  induction π generalizing f with
  | nil => rfl
  | cons i π ih =>
      rw [List.cons_append, at?_cons, at?_cons]
      cases f.children[i]? with
      | none => rfl
      | some g => exact ih g

/-- One more step. -/
lemma at?_snoc (h : f.at? π = some g) (i : Nat) : f.at? (π ++ [i]) = g.children[i]? := by
  rw [at?_append, h, Option.bind_some, at?_cons]
  cases g.children[i]? <;> rfl

@[simp] lemma above_nil (f : Formula) : f.above [] = [] := rfl

/-- One more step goes through what the path led to before. -/
lemma above_snoc (h : f.at? π = some g) (i : Nat) : f.above (π ++ [i]) = (π, g) :: f.above π := by
  have hsnoc : ∀ (ρ : Path) (j : Nat), (ρ ++ [j]).inits = ρ.inits ++ [ρ ++ [j]] := by
    simp [List.inits_append]
  have hself : π.inits = π.inits.dropLast ++ [π] := by
    induction π using List.reverseRecOn with
    | nil => rfl
    | append_singleton ρ j => rw [hsnoc, List.dropLast_concat]
  rw [above, hsnoc, List.dropLast_concat, hself, List.reverse_append, List.filterMap_append]
  simp [h, above]

/-! ## What is around a place

Three questions are asked of the formulas above a place: which one binds a name, of what kind the innermost
fixpoint is, and how many negations lie inside the fixpoint of a name.  Each is a search from the inside
out, and each has two lemmas for one more step, according to whether the search stops there.
-/

/-- Whether a formula is a negation. -/
def isNeg : Formula → Bool
  | neg _ => true
  | _ => false

/-- Whether a formula is a fixpoint of a name. -/
def binds (x : String) : Formula → Bool
  | mu y _ | nu y _ => y == x
  | _ => false

/-- The kind of a fixpoint: whether it is a greatest one. -/
def kind? : Formula → Option Bool
  | mu .. => some false
  | nu .. => some true
  | _ => none

/-- The innermost fixpoint of a name around a place, with its path. -/
def binder? (f : Formula) (x : String) (π : Path) : Option (Path × Formula) :=
  (f.above π).find? fun b => b.2.binds x

/-- The kind of the innermost fixpoint around a place.  Outside of all fixpoints it is the greatest. -/
def kindAt (f : Formula) (π : Path) : Bool :=
  ((f.above π).findSome? fun b => b.2.kind?).getD true

/-- The number of negations between a place and the innermost fixpoint of a name around it. -/
def negationsOver (f : Formula) (x : String) (π : Path) : Nat :=
  ((f.above π).takeWhile fun b => !b.2.binds x).countP fun b => b.2.isNeg

section Snoc

variable (hg : f.at? π = some g) (i : Nat)

include hg

lemma binder?_snoc_of_binds (hx : g.binds x = true) : f.binder? x (π ++ [i]) = some (π, g) := by
  simp [binder?, above_snoc hg, hx]

lemma binder?_snoc (hx : g.binds x = false) : f.binder? x (π ++ [i]) = f.binder? x π := by
  simp [binder?, above_snoc hg, hx]

lemma kindAt_snoc_of_kind? {k : Bool} (hk : g.kind? = some k) : f.kindAt (π ++ [i]) = k := by
  simp [kindAt, above_snoc hg, hk]

lemma kindAt_snoc (hk : g.kind? = none) : f.kindAt (π ++ [i]) = f.kindAt π := by
  simp [kindAt, above_snoc hg, hk]

lemma negationsOver_snoc_of_binds (hx : g.binds x = true) : f.negationsOver x (π ++ [i]) = 0 := by
  simp [negationsOver, above_snoc hg, hx]

lemma negationsOver_snoc (hx : g.binds x = false) :
    f.negationsOver x (π ++ [i]) = f.negationsOver x π + if g.isNeg then 1 else 0 := by
  simp [negationsOver, above_snoc hg, hx, List.countP_cons]

end Snoc

/-! ## Operators

Equations are numbered by operators in pre-order.  Paths make this order explicit: it is the lexicographic
order of lists of numbers, in which a path stands before everything below it.
-/

/-- Everything but a fixpoint and a reference is an operator. -/
def isOperator : Formula → Bool
  | mu .. | nu .. | ref _ => false
  | _ => true

/-- **The paths of the operators**, in pre-order: a formula before its operands, and the left operand
before the right one. -/
def operatorPaths : Formula → List Path
  | ref _ => []
  | mu _ f | nu _ f => f.operatorPaths.map (0 :: ·)
  | top | bot | atom _ => [[]]
  | neg f | box _ f | dia _ f | af f | ag f | ef f | eg f => [] :: f.operatorPaths.map (0 :: ·)
  | conj f g | disj f g | au f g | aw f g | eu f g | ew f g =>
    [] :: (f.operatorPaths.map (0 :: ·) ++ g.operatorPaths.map (1 :: ·))

/-- The operator with a certain number in pre-order. -/
def operatorAt? (f : Formula) (v : Nat) : Option Formula :=
  f.operatorPaths[v]?.bind f.at?

/-- A path leads to an operator. -/
def IsOperatorPath (f : Formula) (π : Path) : Prop :=
  ∃ g, f.at? π = some g ∧ g.isOperator = true

lemma isOperatorPath_nil : f.IsOperatorPath [] ↔ f.isOperator = true := by
  simp [IsOperatorPath]

lemma isOperatorPath_cons {i : Nat} :
    f.IsOperatorPath (i :: π) ↔ ∃ g, f.children[i]? = some g ∧ g.IsOperatorPath π := by
  simp only [IsOperatorPath, at?_cons, Option.bind_eq_some_iff]
  constructor
  · rintro ⟨h, ⟨g, hg, hπ⟩, hop⟩
    exact ⟨g, hg, h, hπ, hop⟩
  · rintro ⟨g, hg, h, hπ, hop⟩
    exact ⟨h, ⟨g, hg, hπ⟩, hop⟩

/-- The operators of a formula with one operand are those of the operand, and its own. -/
lemma isOperatorPath_of_one (hf : f.children = [g]) : f.IsOperatorPath π ↔
    (π = [] ∧ f.isOperator = true) ∨ ∃ ρ, π = 0 :: ρ ∧ g.IsOperatorPath ρ := by
  rcases π with _ | ⟨_ | i, π⟩
  · simp [isOperatorPath_nil]
  · simp [isOperatorPath_cons, hf]
  · simp [isOperatorPath_cons, hf]

lemma isOperatorPath_of_two (hf : f.children = [g, h]) : f.IsOperatorPath π ↔
    (π = [] ∧ f.isOperator = true) ∨ (∃ ρ, π = 0 :: ρ ∧ g.IsOperatorPath ρ) ∨
      ∃ ρ, π = 1 :: ρ ∧ h.IsOperatorPath ρ := by
  rcases π with _ | ⟨_ | _ | i, π⟩
  · simp [isOperatorPath_nil]
  · simp [isOperatorPath_cons, hf]
  · simp [isOperatorPath_cons, hf]
  · simp [isOperatorPath_cons, hf]

/-- The operators of a formula all occur in the list. -/
lemma mem_operatorPaths : ∀ {f : Formula} {π : Path}, π ∈ f.operatorPaths ↔ f.IsOperatorPath π := by
  have hmap : ∀ {g : Formula} (i : Nat) {π : Path},
      (∀ {ρ : Path}, ρ ∈ g.operatorPaths ↔ g.IsOperatorPath ρ) →
        (π ∈ g.operatorPaths.map (i :: ·) ↔ ∃ ρ, π = i :: ρ ∧ g.IsOperatorPath ρ) := by
    intro g i π ih
    simp only [List.mem_map, ih]
    exact exists_congr fun ρ => by rw [and_comm, eq_comm]
  intro f
  induction f with
  | top | bot | atom p | ref x =>
      intro π
      cases π <;> simp [operatorPaths, IsOperatorPath, isOperator, at?_cons, children]
  | mu x f ih | nu x f ih =>
      intro π
      rw [isOperatorPath_of_one rfl, operatorPaths, hmap 0 ih]
      exact (or_iff_right fun h => Bool.false_ne_true h.2).symm
  | neg f ih | box a f ih | dia a f ih | af f ih | ag f ih | ef f ih | eg f ih =>
      intro π
      rw [isOperatorPath_of_one rfl, operatorPaths, List.mem_cons, hmap 0 ih]
      exact or_congr_left (and_iff_left rfl).symm
  | conj f g ihf ihg | disj f g ihf ihg | au f g ihf ihg | aw f g ihf ihg | eu f g ihf ihg
  | ew f g ihf ihg =>
      intro π
      rw [isOperatorPath_of_two rfl, operatorPaths, List.mem_cons, List.mem_append, hmap 0 ihf,
        hmap 1 ihg]
      exact or_congr_left (and_iff_left rfl).symm

lemma exists_operatorAt? {v : Nat} (hv : v < f.operatorPaths.length) :
    ∃ g, f.operatorAt? v = some g := by
  obtain ⟨g, hg, -⟩ := mem_operatorPaths.1 (List.getElem_mem hv)
  exact ⟨g, by rw [operatorAt?, List.getElem?_eq_getElem hv, Option.bind_some, hg]⟩

lemma isOperator_of_operatorAt? {v : Nat} (hg : f.operatorAt? v = some g) : g.isOperator = true := by
  obtain ⟨π, hπ, hg⟩ := Option.bind_eq_some_iff.1 hg
  obtain ⟨g', hg', hop⟩ := mem_operatorPaths.1 (List.mem_of_getElem? hπ)
  exact Option.some.inj (hg'.symm.trans hg) ▸ hop

/-- **Pre-order is the lexicographic order of paths.** -/
lemma operatorPaths_sorted (f : Formula) : f.operatorPaths.Pairwise (· < ·) := by
  have hmap : ∀ {l : List Path} (i : Nat), l.Pairwise (· < ·) →
      (l.map (i :: ·)).Pairwise (· < ·) := fun i hl =>
    List.Pairwise.map _ (fun a b hab => List.cons_lt_cons_self.2 hab) hl
  induction f with
  | top | bot | atom p | ref x => simp [operatorPaths]
  | mu x f ih | nu x f ih => exact hmap 0 ih
  | neg f ih | box a f ih | dia a f ih | af f ih | ag f ih | ef f ih | eg f ih =>
      refine List.pairwise_cons.2 ⟨fun π hπ => ?_, hmap 0 ih⟩
      obtain ⟨ρ, -, rfl⟩ := List.mem_map.1 hπ
      exact List.nil_lt_cons _ _
  | conj f g ihf ihg | disj f g ihf ihg | au f g ihf ihg | aw f g ihf ihg | eu f g ihf ihg
  | ew f g ihf ihg =>
      refine List.pairwise_cons.2 ⟨fun π hπ => ?_, ?_⟩
      · rcases List.mem_append.1 hπ with hπ | hπ <;> obtain ⟨ρ, -, rfl⟩ := List.mem_map.1 hπ <;>
          exact List.nil_lt_cons _ _
      · refine List.pairwise_append.2 ⟨hmap 0 ihf, hmap 1 ihg, fun π hπ ρ hρ => ?_⟩
        obtain ⟨π, -, rfl⟩ := List.mem_map.1 hπ
        obtain ⟨ρ, -, rfl⟩ := List.mem_map.1 hρ
        exact List.cons_lt_cons_iff.2 (Or.inl Nat.zero_lt_one)

/-! ## What a subformula amounts to

Fixpoints and references have no equation of their own.  To say which number they stand for they are
followed until an operator is met.  This may take several steps, through nested fixpoints and from a
reference back to a fixpoint around it, and a reference that is the whole body of its fixpoint would never
arrive; hence a relation.
-/

/-- **The operator that a subformula amounts to.**  A fixpoint counts as its body, and a reference as the
body of the innermost fixpoint of its name around it. -/
inductive Resolves (f : Formula) : Path → Path → Prop
  | operator {π : Path} {g : Formula} (hg : f.at? π = some g) (hop : g.isOperator = true) :
      Resolves f π π
  | body {π ρ : Path} {g : Formula} (hg : f.at? π = some g) (hfix : g.kind?.isSome = true)
      (hbody : Resolves f (π ++ [0]) ρ) : Resolves f π ρ
  | ref {π β ρ : Path} {x : String} {g : Formula} (hx : f.at? π = some (ref x))
      (hbinder : f.binder? x π = some (β, g)) (hbody : Resolves f (β ++ [0]) ρ) : Resolves f π ρ

/-- **The number of a subformula** is the position of the operator that it amounts to. -/
def Numbers (f : Formula) (π : Path) (v : Nat) : Prop :=
  ∃ ρ, f.Resolves π ρ ∧ f.operatorPaths[v]? = some ρ

end Formula

end ModalCalls
