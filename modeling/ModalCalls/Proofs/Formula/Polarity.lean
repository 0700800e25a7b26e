import Mathlib
import ModalCalls.Proofs.Formula.Occurrence
import ModalCalls.Proofs.Semantics.Expansion

/-!
# Where negations end up

The normal form leaves out the steps through negations and puts what is left of them on atoms and
references.  Nothing is asked of the formula: names may be free, binders may shadow each other, and a fixpoint
need not be monotone.

**References.**  A reference of the expansion stands in the normal form at the same place, less the steps
through negations (`Formula.skipNegs`), and it is negated there exactly if the number of negations between it
and the innermost fixpoint of its name is odd (`Formula.Settles`).  What a pass knows on its way down is the
parity of that number, for all names at once (`Formula.exists_arrives`).

**Two passes.**  The second pass meets other binders than the first, but no negation above them, so it turns
all of them or none.  Hence it amounts to turning what the first pass has noted (`Formula.pushNeg_pushNeg`).
Idempotence and involution are cases of this.
-/

namespace ModalCalls

namespace Formula

variable {f g h : Formula} {π : Path} {x : String} {n : Bool} {σ : Turned}

/-! ## Two passes

For idempotence the second pass has to be compared with nothing, and for involution with a negation.  Both
are cases of one statement about two passes with arbitrary polarities.  What makes it provable is that the
second pass turns all binders alike, so the turns of the two passes add up name by name.
-/

lemma lookup_map_snd (turn : Bool → Bool) (σ : Turned) (x : String) :
    (σ.map fun b => (b.1, turn b.2)).lookup x = (σ.lookup x).map turn := by
  induction σ with
  | nil => rfl
  | cons b σ ih =>
      rw [List.map_cons, List.lookup_cons, List.lookup_cons, ih]
      split <;> rfl

lemma pushNeg_negIf_ref (m b : Bool) (τ : Turned) (x : String) :
    pushNeg m τ (negIf b (ref x)) = negIf ((m != b) != (τ.lookup x).getD false) (ref x) := by
  cases m <;> cases b <;> rfl

/-- **A pass after a pass** is one pass, in which every fixpoint is turned once more if the second pass turns
anything. -/
lemma pushNeg_pushNeg (hf : f.isBranching = false) : ∀ (m n : Bool) (σ : Turned),
    pushNeg m (σ.map fun b => (b.1, m)) (pushNeg n σ f)
      = pushNeg (m != n) (σ.map fun b => (b.1, m != b.2)) f := by
  induction f with
  | top | bot | atom p =>
      intro m n σ
      cases m <;> cases n <;> rfl
  | ref x =>
      intro m n σ
      -- a name that is bound has a turn in both passes, and a free one in neither
      rw [pushNeg, pushNeg_negIf_ref, pushNeg, lookup_map_snd (fun _ => m), lookup_map_snd (m != ·)]
      cases σ.lookup x with
      | none => cases m <;> cases n <;> rfl
      | some b => cases m <;> cases n <;> cases b <;> rfl
  | neg f ih =>
      intro m n σ
      simp only [pushNeg, ih hf]
      cases m <;> cases n <;> rfl
  | conj f g ihf ihg | disj f g ihf ihg =>
      intro m n σ
      simp only [isBranching, Bool.or_eq_false_iff] at hf
      have hleft := ihf hf.1 m n σ
      have hright := ihg hf.2 m n σ
      cases m <;> cases n <;> simpa [pushNeg] using And.intro hleft hright
  | box a f ih | dia a f ih =>
      intro m n σ
      have hbelow := ih hf m n σ
      cases m <;> cases n <;> simpa [pushNeg] using hbelow
  | mu x f ih | nu x f ih =>
      intro m n σ
      have hinside := ih hf m n ((x, n) :: σ)
      cases m <;> cases n <;> simpa [pushNeg] using hinside
  | _ => cases hf

lemma pushNeg_isBranching (hf : f.isBranching = false) :
    ∀ (n : Bool) (σ : Turned), (pushNeg n σ f).isBranching = false := by
  induction f with
  | top | bot | atom p | ref x =>
      intro n σ
      simp only [pushNeg, negIf]
      split <;> rfl
  | neg f ih => exact fun n σ => ih hf (!n) σ
  | conj f g ihf ihg | disj f g ihf ihg =>
      intro n σ
      simp only [isBranching, Bool.or_eq_false_iff] at hf
      cases n <;> simp [pushNeg, isBranching, ihf hf.1, ihg hf.2]
  | box a f ih | dia a f ih | mu x f ih | nu x f ih =>
      intro n σ
      cases n <;> simp [pushNeg, isBranching, ih hf]
  | _ => cases hf

lemma expand_isBranching (f : Formula) : f.expand.isBranching = false :=
  (expands_expandFrom (List.Subset.refl _) 0).isBranching_eq

lemma expand_eq_self (hf : f.isBranching = false) : f.expand = f :=
  (expands_expandFrom (List.Subset.refl _) 0).eq_of_not_isBranching hf

/-! ## Places without negations

A pass removes the negations of a path and moves nothing else.  So the place of a reference in the normal
form is computed from its place in the formula.
-/

/-- A path without the steps through negations. -/
def skipNegs : Formula → Path → Path
  | _, [] => []
  | neg f, _ :: π => f.skipNegs π
  | f, i :: π => i :: (f.children[i]?).elim π fun g => g.skipNegs π

@[simp] lemma skipNegs_nil (f : Formula) : f.skipNegs [] = [] := by
  cases f <;> rfl

lemma skipNegs_cons (hneg : f.isNeg = false) {i : Nat} (hi : f.children[i]? = some g) (π : Path) :
    f.skipNegs (i :: π) = i :: g.skipNegs π := by
  cases f with
  | neg f => cases hneg
  | _ => simp [skipNegs, hi]

/-- The last step counts unless it is one through a negation. -/
lemma skipNegs_snoc {π : Path} (hg : f.at? π = some g) {i : Nat} (hi : g.children[i]? = some h) :
    f.skipNegs (π ++ [i]) = f.skipNegs π ++ if g.isNeg then [] else [i] := by
  induction π generalizing f with
  | nil =>
      cases hg
      cases hneg : g.isNeg with
      | true =>
          cases g <;> cases hneg
          simp [skipNegs]
      | false => simp [skipNegs_cons hneg hi]
  | cons k π ih =>
      obtain ⟨f', hk, hg⟩ := Option.bind_eq_some_iff.1 hg
      cases hneg : f.isNeg with
      | true =>
          cases f <;> cases hneg
          obtain rfl := List.mem_singleton.1 (List.mem_of_getElem? hk)
          exact ih ‹_›
      | false =>
          rw [List.cons_append, skipNegs_cons hneg hk, skipNegs_cons hneg hk, ih hg, List.cons_append]

/-! ## On the way down

The pass carries a polarity and a list of turned names.  Neither says anything by itself; for a single name,
the two together give the parity of the negations since the fixpoint of that name.  `Knows` states this for
all names at once, because which name will be referred to is not known on the way.
-/

lemma isBranching_of_child {i : Nat} (hf : f.isBranching = false) (hi : f.children[i]? = some g) :
    g.isBranching = false := by
  have hmem := List.mem_of_getElem? hi
  cases f with
  | top | bot | atom | ref => cases hmem
  | neg | box | dia | mu | nu =>
      obtain rfl := List.mem_singleton.1 hmem
      exact hf
  | conj | disj =>
      simp only [isBranching, Bool.or_eq_false_iff] at hf
      rcases List.mem_pair.1 hmem with rfl | rfl
      · exact hf.1
      · exact hf.2
  | _ => cases hf

lemma isBranching_of_at? : ∀ {f : Formula} {π : Path}, f.isBranching = false → f.at? π = some g →
    g.isBranching = false
  | f, [], hf, hg => by
      cases hg
      exact hf
  | f, i :: π, hf, hg => by
      obtain ⟨f', hi, hg⟩ := Option.bind_eq_some_iff.1 hg
      exact isBranching_of_at? (isBranching_of_child hf hi) hg

/-- Operands that are not inside a fixpoint of their own are treated like the formula they belong to. -/
lemma child_pushNeg {i : Nat} (hg : g.isBranching = false) (hneg : g.isNeg = false)
    (hkind : g.kind? = none) (hi : g.children[i]? = some h) (n : Bool) (σ : Turned) :
    (pushNeg n σ g).children[i]? = some (pushNeg n σ h) := by
  have hmap : (g.children.map (pushNeg n σ))[i]? = some (pushNeg n σ h) := by
    rw [List.getElem?_map, hi]
    rfl
  cases g with
  | top | bot | atom | ref => simp [children] at hi
  | conj | disj | box | dia => cases n <;> exact hmap
  | neg => cases hneg
  | mu | nu => cases hkind
  | _ => cases hg

lemma binds_pushNeg (hg : g.isBranching = false) (hneg : g.isNeg = false) (n : Bool) (σ : Turned)
    (x : String) : (pushNeg n σ g).binds x = g.binds x := by
  cases g with
  | neg => cases hneg
  | ref y =>
      simp only [pushNeg, negIf]
      split <;> rfl
  | top | bot | atom | conj | disj | box | dia | mu | nu => cases n <;> rfl
  | _ => cases hg

/-- **What a pass knows at a place**: the formula there is to be negated or not, and for every name it can tell
the parity of the negations inside the fixpoint of the name.  The fixpoints are where they were. -/
structure Knows (f : Formula) (π : Path) (n : Bool) (σ : Turned) : Prop where
  parity : ∀ x, (n != (σ.lookup x).getD false) = decide (Odd (f.negationsOver x π))
  binder : ∀ x, ((pushNeg false [] f).binder? x (f.skipNegs π)).map (·.1)
    = (f.binder? x π).map fun b => f.skipNegs b.1

/-- The formula at a place, as a pass with this knowledge leaves it. -/
def Arrives (f : Formula) (π : Path) (n : Bool) (σ : Turned) (g : Formula) : Prop :=
  (pushNeg false [] f).at? (f.skipNegs π) = some (pushNeg n σ g)

namespace Knows

lemma start (f : Formula) : f.Knows [] false [] :=
  ⟨fun x => by simp [negationsOver], fun x => by simp [binder?]⟩

lemma neg (hk : f.Knows π n σ) (hg : f.at? π = some (neg g)) : f.Knows (π ++ [0]) (!n) σ where
  parity x := by
    have hparity := hk.parity x
    rw [negationsOver_snoc hg 0 rfl]
    simp only [isNeg, if_true, Nat.odd_add_one, decide_not, ← hparity]
    cases n <;> cases (σ.lookup x).getD false <;> rfl
  binder x := by
    have hplace : f.skipNegs (π ++ [0]) = f.skipNegs π := by
      simp [skipNegs_snoc (i := 0) (h := g) hg rfl, isNeg]
    rw [binder?_snoc hg 0 rfl, hplace]
    exact hk.binder x

/-- An operand that is neither negated nor inside a fixpoint. -/
lemma operand {i : Nat} (hk : f.Knows π n σ) (hg : f.at? π = some g)
    (harrives : f.Arrives π n σ g) (hbranching : g.isBranching = false) (hneg : g.isNeg = false)
    (hbinds : ∀ x, g.binds x = false) (hi : g.children[i]? = some h) : f.Knows (π ++ [i]) n σ where
  parity x := by
    rw [negationsOver_snoc hg i (hbinds x), hneg]
    exact hk.parity x
  binder x := by
    have hplace : f.skipNegs (π ++ [i]) = f.skipNegs π ++ [i] := by simp [skipNegs_snoc hg hi, hneg]
    rw [binder?_snoc hg i (hbinds x), hplace, binder?_snoc harrives i
      ((binds_pushNeg hbranching hneg n σ x).trans (hbinds x))]
    exact hk.binder x

/-- The body of a fixpoint.  Its name starts again, with no negation so far. -/
lemma enter (hk : f.Knows π n σ) (hg : f.at? π = some g) (harrives : f.Arrives π n σ g)
    (hbranching : g.isBranching = false) (hneg : g.isNeg = false)
    (hbinds : ∀ y, g.binds y = (x == y)) (hchild : g.children[0]? = some h) :
    f.Knows (π ++ [0]) n ((x, n) :: σ) where
  parity y := by
    by_cases hy : x = y
    · subst hy
      rw [negationsOver_snoc_of_binds hg 0 (by simp [hbinds])]
      simp
    · have hother : g.binds y = false := by simp [hbinds, hy]
      rw [negationsOver_snoc hg 0 hother, hneg, List.lookup_cons, beq_false_of_ne (Ne.symm hy)]
      exact hk.parity y
  binder y := by
    have hplace : f.skipNegs (π ++ [0]) = f.skipNegs π ++ [0] := by
      simp [skipNegs_snoc hg hchild, hneg]
    have hbinds' := binds_pushNeg hbranching hneg n σ y
    rw [hplace]
    cases hy : g.binds y with
    | true =>
        rw [binder?_snoc_of_binds hg 0 hy, binder?_snoc_of_binds harrives 0 (hbinds'.trans hy)]
        rfl
    | false =>
        rw [binder?_snoc hg 0 hy, binder?_snoc harrives 0 (hbinds'.trans hy)]
        exact hk.binder y

end Knows

/-- **On the way down** every place is arrived at, less the steps through negations, and the parities of
negations are known there.  By induction on the path from its end. -/
lemma exists_arrives (hf : f.isBranching = false) : ∀ {π : Path} {g : Formula}, f.at? π = some g →
    ∃ n σ, f.Arrives π n σ g ∧ f.Knows π n σ := by
  intro π
  induction π using List.reverseRecOn with
  | nil =>
      intro g hg
      cases hg
      exact ⟨false, [], by simp [Arrives], .start f⟩
  | append_singleton π i ih =>
      intro h hh
      rw [at?_append] at hh
      obtain ⟨g, hg, hi⟩ := Option.bind_eq_some_iff.1 hh
      replace hi : g.children[i]? = some h := by
        rw [at?_cons] at hi
        simpa using hi
      obtain ⟨n, σ, harrives, hknows⟩ := ih hg
      have hbranching := isBranching_of_at? hf hg
      -- one more step in the normal form as well, unless it is one through a negation
      have hstep : ∀ {m : Bool} {τ : Turned}, g.isNeg = false →
          (pushNeg n σ g).children[i]? = some (pushNeg m τ h) → f.Arrives (π ++ [i]) m τ h := by
        intro m τ hneg hchild
        rw [Arrives, skipNegs_snoc hg hi, hneg]
        exact (at?_snoc harrives i).trans hchild
      have hfixpoint : ∀ {x : String}, g.isNeg = false → (∀ y, g.binds y = (x == y)) →
          g.children = [h] → (pushNeg n σ g).children = [pushNeg n ((x, n) :: σ) h] →
          ∃ m τ, f.Arrives (π ++ [i]) m τ h ∧ f.Knows (π ++ [i]) m τ := by
        intro x hneg hbinds hchildren hchildren'
        obtain rfl : i = 0 := by
          rw [hchildren] at hi
          simpa using (List.getElem?_eq_some_iff.1 hi).1
        exact ⟨n, (x, n) :: σ, hstep hneg (by rw [hchildren']; rfl),
          hknows.enter hg harrives hbranching hneg hbinds hi⟩
      cases g with
      | top | bot | atom | ref => simp [children] at hi
      | neg g =>
          obtain rfl : i = 0 := by simpa [children] using (List.getElem?_eq_some_iff.1 hi).1
          obtain rfl := Option.some.inj hi
          refine ⟨!n, σ, ?_, hknows.neg hg⟩
          rw [Arrives, skipNegs_snoc hg hi]
          simpa [isNeg, Arrives, pushNeg] using harrives
      | conj | disj | box | dia =>
          exact ⟨n, σ, hstep rfl (child_pushNeg hbranching rfl rfl hi n σ),
            hknows.operand hg harrives hbranching rfl (fun _ => rfl) hi⟩
      | mu x g | nu x g =>
          obtain rfl := List.mem_singleton.1 (List.mem_of_getElem? hi)
          exact hfixpoint rfl (fun _ => rfl) rfl (by cases n <;> rfl)
      | _ => cases hbranching

/-! ## On the way back

What was shown so far is that references are not lost.  The converse, that none is made up, starts from a
place in the normal form and finds the place that it came from.  A reference that was negated stands one
step further down than its place without negations.
-/

/-- What stands in a leaf that is negated or not. -/
lemma at?_negIf_leaf {b : Bool} {ρ : Path} (hg : g.children = []) (hh : (negIf b g).at? ρ = some h) :
    h = neg g ∨ h = g ∧ (ρ = [] ∨ ρ = [0]) := by
  have hleaf : ∀ {π : Path}, g.at? π = some h → h = g ∧ π = [] := by
    intro π hπ
    cases π with
    | nil => exact ⟨(Option.some.inj hπ).symm, rfl⟩
    | cons i π => simp [at?_cons, hg] at hπ
  cases b with
  | false => exact Or.inr ((hleaf hh).imp_right Or.inl)
  | true =>
      rcases ρ with _ | ⟨_ | i, ρ⟩
      · exact Or.inl (Option.some.inj hh).symm
      · obtain ⟨rfl, rfl⟩ := hleaf (π := ρ) hh
        exact Or.inr ⟨rfl, Or.inr rfl⟩
      · simp [negIf, at?_cons, children] at hh

/-- A reference of an operand, with one step more that is not through a negation. -/
lemma exists_ref_cons {i : Nat} {ρ : Path} (hneg : f.isNeg = false) (hi : f.children[i]? = some g)
    (hg : ∃ π, g.at? π = some (ref x) ∧ (ρ = g.skipNegs π ∨ ρ = g.skipNegs π ++ [0])) :
    ∃ π, f.at? π = some (ref x) ∧ (i :: ρ = f.skipNegs π ∨ i :: ρ = f.skipNegs π ++ [0]) := by
  obtain ⟨π, hπ, hρ⟩ := hg
  refine ⟨i :: π, by rw [at?_cons, hi]; exact hπ, ?_⟩
  rw [skipNegs_cons hneg hi]
  exact hρ.imp (congrArg _) (congrArg _)

/-- **Every reference that a pass leaves was there before**, less the steps through negations; it stands under
at most one negation. -/
lemma exists_ref_of_pushNeg (hf : f.isBranching = false) :
    ∀ (n : Bool) (σ : Turned) (ρ : Path), (pushNeg n σ f).at? ρ = some (ref x) →
      ∃ π, f.at? π = some (ref x) ∧ (ρ = f.skipNegs π ∨ ρ = f.skipNegs π ++ [0]) := by
  induction f with
  | top | bot =>
      intro n σ ρ hρ
      cases n <;> cases ρ <;> simp [pushNeg, at?_cons, children] at hρ
  | atom p =>
      intro n σ ρ hρ
      rcases at?_negIf_leaf (g := atom p) rfl hρ with h | ⟨h, -⟩ <;> cases h
  | ref y =>
      intro n σ ρ hρ
      rcases at?_negIf_leaf (g := ref y) rfl hρ with h | ⟨h, hplace⟩
      · cases h
      · exact ⟨[], h ▸ rfl, hplace⟩
  | neg f ih =>
      intro n σ ρ hρ
      obtain ⟨π, hπ, hplace⟩ := ih hf (!n) σ ρ hρ
      exact ⟨0 :: π, hπ, hplace⟩
  | conj f g ihf ihg | disj f g ihf ihg =>
      intro n σ ρ hρ
      simp only [isBranching, Bool.or_eq_false_iff] at hf
      rcases ρ with _ | ⟨_ | _ | i, ρ⟩
      · cases n <;> cases hρ
      · exact exists_ref_cons rfl rfl (ihf hf.1 n σ ρ (by cases n <;> exact hρ))
      · exact exists_ref_cons rfl rfl (ihg hf.2 n σ ρ (by cases n <;> exact hρ))
      · cases n <;> simp [pushNeg, at?_cons, children] at hρ
  | box a f ih | dia a f ih =>
      intro n σ ρ hρ
      rcases ρ with _ | ⟨_ | i, ρ⟩
      · cases n <;> cases hρ
      · exact exists_ref_cons rfl rfl (ih hf n σ ρ (by cases n <;> exact hρ))
      · cases n <;> simp [pushNeg, at?_cons, children] at hρ
  | mu y f ih | nu y f ih =>
      intro n σ ρ hρ
      rcases ρ with _ | ⟨_ | i, ρ⟩
      · cases n <;> cases hρ
      · exact exists_ref_cons rfl rfl (ih hf n ((y, n) :: σ) ρ (by cases n <;> exact hρ))
      · cases n <;> simp [pushNeg, at?_cons, children] at hρ
  | _ => cases hf

/-- **The references of `g` in `h`**: `h` has exactly the references of `g`, at the same places less the steps
through negations.  A reference is negated in `h` exactly if there is an odd number of negations between it
and its fixpoint in `g`, and it has the same fixpoint in both. -/
structure Settles (g h : Formula) : Prop where
  forth : ∀ π x, g.at? π = some (ref x) →
    h.at? (g.skipNegs π) = some (negIf (decide (Odd (g.negationsOver x π))) (ref x))
  back : ∀ ρ x, h.at? ρ = some (ref x) → ∃ π, g.at? π = some (ref x) ∧
    ρ = g.skipNegs π ++ if Odd (g.negationsOver x π) then [0] else []
  binder : ∀ π x, g.at? π = some (ref x) →
    (h.binder? x (g.skipNegs π)).map (·.1) = (g.binder? x π).map fun b => g.skipNegs b.1

lemma pushNeg_settles (hf : f.isBranching = false) : f.Settles (pushNeg false [] f) := by
  have hforth : ∀ π x, f.at? π = some (ref x) → (pushNeg false [] f).at? (f.skipNegs π)
      = some (negIf (decide (Odd (f.negationsOver x π))) (ref x)) := by
    intro π x hx
    obtain ⟨n, σ, harrives, hknows⟩ := exists_arrives hf hx
    rw [← hknows.parity x]
    exact harrives
  refine ⟨hforth, fun ρ x hρ => ?_, fun π x hx => ?_⟩
  · obtain ⟨π, hπ, hplace⟩ := exists_ref_of_pushNeg hf false [] ρ hρ
    refine ⟨π, hπ, ?_⟩
    have hthere := hforth π x hπ
    by_cases hodd : Odd (f.negationsOver x π)
    · rw [if_pos hodd]
      refine hplace.resolve_left fun heq => ?_
      rw [heq, hthere] at hρ
      simp [negIf, hodd] at hρ
    · rw [if_neg hodd, List.append_nil]
      refine hplace.resolve_right fun heq => ?_
      rw [heq, at?_snoc hthere] at hρ
      simp [negIf, hodd, children] at hρ
  · obtain ⟨n, σ, -, hknows⟩ := exists_arrives hf hx
    exact hknows.binder x

/-! ## The laws of the normal form

The expansion has no branching operators, so everything above applies to it.
-/

lemma normal_isBranching (f : Formula) : f.normal.isBranching = false :=
  pushNeg_isBranching f.expand_isBranching false []

/-- The normal form of a normal form, or of its negation, is one pass more. -/
lemma pushNeg_normal (m : Bool) (f : Formula) (n : Bool) :
    pushNeg m [] (pushNeg n [] f.expand) = pushNeg (m != n) [] f.expand :=
  pushNeg_pushNeg f.expand_isBranching m n []

/-- **The normal form.**  It has no branching operators, and negations stand on atoms and references only.  It
has the references of the expansion, a reference being negated exactly if an odd number of negations of the
expansion lies between it and its innermost fixpoint.  Taking it again changes nothing, and neither does a
double negation, in one go or with a normal form in between. -/
theorem normal_polarity (f : Formula) :
    f.normal.isBranching = false ∧ f.normal.isNegationNormal = true ∧ f.expand.Settles f.normal ∧
      f.normal.normal = f.normal ∧ (neg (neg f)).normal = f.normal ∧
      (neg (neg f).normal).normal = f.normal := by
  have hneg : (neg f).normal = pushNeg true [] f.expand := rfl
  have hbranching : (neg (neg f).normal).isBranching = false := (neg f).normal_isBranching
  refine ⟨f.normal_isBranching, f.normal_isNegationNormal, pushNeg_settles f.expand_isBranching, ?_, rfl, ?_⟩
  · rw [normal, expand_eq_self f.normal_isBranching]
    exact pushNeg_normal false f false
  · rw [normal, expand_eq_self hbranching, hneg]
    exact pushNeg_normal true f true

example : (neg (mu "X" (disj (neg (ref "X")) (mu "X" (ref "X"))))).normal
    = nu "X" (conj (neg (ref "X")) (nu "X" (ref "X"))) := by decide

end Formula

end ModalCalls
