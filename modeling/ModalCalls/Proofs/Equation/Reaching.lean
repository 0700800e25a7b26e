import Mathlib
import ModalCalls.Proofs.Equation.Placed
import ModalCalls.Witness.Search

/-!
# Equations that ask for something to be reached

A formula that a witness may explain has least fixpoints only.  What stands outside of all fixpoints is in
the outermost block, and that is a greatest one if the formula is not a fixpoint itself.  So the variables fall
into two parts (`EquationSystem.Reaching`).

* The least ones are closed: their operands are least.
* The greatest ones are a tree of operators on top of them: an operand that is greatest has a larger number.
-/

namespace ModalCalls

/-- **Equations that ask for something to be reached.** -/
structure EquationSystem.Reaching (e : EquationSystem) : Prop where
  supported : ∀ v op, e.operator? v = some op → Session.isSupported e op = true
  least : ∀ v op, e.operator? v = some op → e.isMax v = false → ∀ w ∈ op.operands, e.isMax w = false
  later : ∀ v op, e.operator? v = some op → ∀ w ∈ op.operands, e.isMax w = true → v < w
  outermost : ∀ v, e.isMax v = true → e.blockOf v = 0

namespace Numbering

open Formula EquationSystem

variable {f g h : Formula} {p : Place} {part operand l r : Part} {E : List (Nat × Equation)}
  {K : List Bool} {scope : List (String × Bool)}

/-! ## Parts with least fixpoints only

Fixpoints of one kind cannot alternate, so what was shown for alternation-free formulas applies.  Moreover
all blocks but the first one are least, since it is fixpoints that open them.
-/

/-- All fixpoints of a part are least. -/
def LeastOnly (part : Part) : Prop :=
  ∀ x ∈ part.fixpoints, x.isMax = false

lemma LeastOnly.of_bind {body : Part} {x : String} {isMax : Bool}
    (hleast : LeastOnly (body.bind p x isMax)) : isMax = false ∧ LeastOnly body :=
  ⟨hleast _ List.mem_cons_self, fun y hy => hleast y (List.mem_cons_of_mem _ hy)⟩

lemma LeastOnly.of_append (hleast : LeastOnly (l.append r)) : LeastOnly l ∧ LeastOnly r :=
  ⟨fun x hx => hleast x (List.mem_append_left _ hx), fun x hx => hleast x (List.mem_append_right _ hx)⟩

/-- A part with least fixpoints opens least blocks. -/
lemma Numbered.opened_eq_false (hnum : Numbered f p part) (hleast : LeastOnly part) :
    ∀ k ∈ part.opened, k = false := by
  induction hnum with
  | ref _ => simp [Part.reference]
  | @fixpoint isMax x f p body _ _ ih =>
      obtain ⟨rfl, hbody⟩ := hleast.of_bind
      intro k hk
      simp only [Part.bind] at hk
      split at hk
      · exact ih hbody k hk
      · rcases List.mem_cons.1 hk with rfl | hk
        · rfl
        · exact ih hbody k hk
  | leaf _ => simp [Part.ofOperator, Part.none]
  | unary _ _ ih => exact ih hleast
  | binary _ _ _ ihl ihr =>
      obtain ⟨hl, hr⟩ := LeastOnly.of_append hleast
      intro k hk
      rcases List.mem_append.1 hk with hk | hk
      · exact ihl hl k hk
      · exact ihr hr k hk

/-- With least fixpoints only there is no alternation. -/
lemma Numbered.isAlternationFreeIn_of_leastOnly (hnum : Numbered f p part) (hleast : LeastOnly part)
    {scope : List (String × Bool)} (hscope : ∀ a ∈ scope, a.2 = false) :
    f.isAlternationFreeIn scope = true := by
  induction hnum generalizing scope with
  | @ref x _ _ _ =>
      simp only [isAlternationFreeIn, mayReach]
      split
      · next k hk =>
          obtain ⟨before, after, rfl, -⟩ := List.lookup_eq_some_iff.1 hk
          obtain rfl : k = false := hscope (x, k) (by simp)
          refine List.all_eq_true.2 fun a ha => ?_
          simpa using hscope a ((List.takeWhile_prefix _).subset ha)
      · rfl
  | fixpoint _ _ ih =>
      obtain ⟨rfl, hbody⟩ := hleast.of_bind
      rw [isAlternationFreeIn_fixpoint]
      refine ih hbody fun a ha => ?_
      rcases List.mem_cons.1 ha with rfl | ha
      · rfl
      · exact hscope a ha
  | leaf hleaf => cases hleaf <;> rfl
  | unary hun _ ih =>
      rw [hun.isAlternationFreeIn_eq]
      exact ih hleast hscope
  | binary hbin _ _ ihl ihr =>
      obtain ⟨hl, hr⟩ := LeastOnly.of_append hleast
      rw [hbin.isAlternationFreeIn_eq, ihl hl hscope, ihr hr hscope]
      rfl

/-! ## The kinds of operands

An operand is either a reference or comes later in the list.  A reference leads to a fixpoint around it, and
that is a least one; so an operator that stands outside of all fixpoints, in a greatest block, has no
reference for an operand.  From this the two parts of the variables can be told apart, and the greatest ones
form a tree.
-/

/-- **The root of an operand** `g` of the operator at a place.  A reference is to the block of the operator,
and that is a least one.  Any other operand comes later, and if it opens a block then that is a least one. -/
lemma Placed.root_kind {p' : Place} (hp : Placed E K scope f p part)
    (hp' : Placed E K scope g p' operand) (hscope : ∀ a ∈ scope, a.2 = false)
    (hleast : LeastOnly operand) {q : Equation} (hget : E[p.next]? = some (p.block, q))
    (hsame : p'.scope = p.scope) (hblock : p'.block = p.block) (hnext : p.next < p'.next) :
    ∃ b q' k, E[operand.root]? = some (b, q') ∧ K[b]? = some k ∧ (p.isMax = false → k = false) ∧
      (k = true → p.next < operand.root) := by
  cases hg : g.isRef with
  | true =>
      obtain ⟨x, rfl, hx⟩ := hp'.numbered.of_isRef hg
      rw [hsame] at hx
      obtain ⟨isMax, hk⟩ := hp.inScope.exists_kind hx
      obtain ⟨before, after, rfl, -⟩ := List.lookup_eq_some_iff.1 hk
      obtain rfl : isMax = false := hscope (x, isMax) (by simp)
      have hkind := (hp.inScope.reachable x _ false hx hk hp'.free).1
      obtain ⟨q', hq'⟩ := hp.inScope.reach_block hget hx hp'.free
      exact ⟨p.block, q', p.isMax, hq', hp.kind, id, fun hmax => by simp [← hkind] at hmax⟩
  | false =>
      obtain ⟨hroot, hlen⟩ := hp'.numbered.root_eq hg
      have hat := hp'.stands.getElem? hlen
      rw [List.getElem?_eq_getElem hlen, Nat.add_zero, ← hroot] at hat
      have hlater : p.next < operand.root := hroot ▸ hnext
      rcases hp'.numbered.block_cases _ (List.getElem_mem hlen) with heq | ⟨hge, hlt⟩
      · have hkind : K[operand.equations[0].1]? = some p.isMax := by
          rw [heq, hblock]
          exact hp.kind
        exact ⟨_, _, p.isMax, hat, hkind, id, fun _ => hlater⟩
      · obtain ⟨d, hd⟩ := Nat.exists_eq_add_of_le hge
        have hdlt : d < operand.opened.length := by omega
        have hopened := hp'.opened.getElem? hdlt
        rw [List.getElem?_eq_getElem hdlt, ← hd] at hopened
        have hfalse := hp'.numbered.opened_eq_false hleast _ (List.getElem_mem hdlt)
        rw [hfalse] at hopened
        exact ⟨_, _, false, hat, hopened, fun _ => rfl, fun _ => hlater⟩

/-- **The kinds of operands** in a formula with least fixpoints only. -/
lemma Numbered.operands_kind (hnum : Numbered f (.start f) part) (hleast : LeastOnly part) :
    ∀ v, v < part.equations.length → ∀ b q, part.equations[v]? = some (b, q) →
      ∃ k, (kinds f part)[b]? = some k ∧ ∀ w ∈ q.operator.operands,
        ∃ b' q' k', part.equations[w]? = some (b', q') ∧ (kinds f part)[b']? = some k' ∧
          (k = false → k' = false) ∧ (k' = true → v < w) := by
  intro v hv
  have hstart := Placed.start hnum (hnum.isAlternationFreeIn_of_leastOnly hleast (by simp))
  refine hnum.forall_equations
    (C := fun g p operand => LeastOnly operand ∧ ∃ scope,
      Placed part.equations (kinds f part) scope g p operand ∧ ∀ a ∈ scope, a.2 = false)
    (motive := fun v => ∀ b q, part.equations[v]? = some (b, q) →
      ∃ k, (kinds f part)[b]? = some k ∧ ∀ w ∈ q.operator.operands,
        ∃ b' q' k', part.equations[w]? = some (b', q') ∧ (kinds f part)[b']? = some k' ∧
          (k = false → k' = false) ∧ (k' = true → v < w))
    ?_ ?_ ?_ ?_ (List.prefix_refl _) ⟨hleast, [], hstart, by simp⟩ v (Nat.zero_le v)
    (by simpa [Place.start])
  · rintro isMax x g p body - hbody - ⟨hleast, scope, hp, hscope⟩
    obtain ⟨rfl, hbodyLeast⟩ := hleast.of_bind
    refine ⟨hbodyLeast, _, hp.enter hbody, fun a ha => ?_⟩
    rcases List.mem_cons.1 ha with rfl | ha
    · rfl
    · exact hscope a ha
  · rintro g op p hleaf hget ⟨-, scope, hp, -⟩ b q hq
    rw [hget] at hq
    cases hq
    exact ⟨p.isMax, hp.kind, by simp [hleaf.operands_eq]⟩
  · rintro g g' op p operand hun hoperand hget - ⟨hleast, scope, hp, hscope⟩
    have hp' := hp.unary hun hoperand
    refine ⟨fun b q hq => ?_, hleast, scope, hp', hscope⟩
    rw [hget] at hq
    cases hq
    refine ⟨p.isMax, hp.kind, fun w hw => ?_⟩
    simp only [hun.operands_eq, List.mem_singleton] at hw
    subst hw
    exact hp.root_kind hp' hscope hleast hget rfl rfl (Nat.lt_succ_self _)
  · rintro g g' g'' op p l r hbin hl hr hget - - ⟨hleast, scope, hp, hscope⟩
    obtain ⟨hleastl, hleastr⟩ := LeastOnly.of_append hleast
    have hpl := hp.left hbin hl
    have hpr := hp.right hbin hr
    refine ⟨fun b q hq => ?_, ⟨hleastl, scope, hpl, hscope⟩, hleastr, scope, hpr, hscope⟩
    rw [hget] at hq
    cases hq
    refine ⟨p.isMax, hp.kind, fun w hw => ?_⟩
    simp only [hbin.operands_eq, List.mem_cons, List.not_mem_nil, or_false] at hw
    rcases hw with rfl | rfl
    · exact hp.root_kind hpl hscope hleastl hget rfl rfl (Nat.lt_succ_self _)
    · refine hp.root_kind hpr hscope hleastr hget rfl rfl ?_
      simp only [Place.after, Place.inside]
      omega

/-- A greatest variable stands in the first block. -/
lemma Numbered.blockOf_eq_zero (hnum : Numbered f (.start f) part) (hleast : LeastOnly part) {v : Nat}
    (hv : (assemble f part).isMax v = true) : (assemble f part).blockOf v = 0 := by
  obtain ⟨b, hb, hmax⟩ := Array.any_eq_true.1 hv
  simp only [Bool.and_eq_true, List.contains_iff_mem] at hmax
  have hblock := Array.getElem?_eq_getElem hb
  obtain ⟨r, hr, heq⟩ := blocks_getElem?.1 hblock
  have hkind : (kinds f part).getD r false = true := by
    rw [heq] at hmax
    exact hmax.1
  -- all other blocks are opened by fixpoints
  obtain rfl : r = 0 := by
    cases r with
    | zero => rfl
    | succ r =>
        simp only [kinds, List.getD_eq_getElem?_getD] at hkind
        cases hopened : part.opened[r]? with
        | none => simp [hopened] at hkind
        | some k =>
            rw [hnum.opened_eq_false hleast k (List.mem_of_getElem? hopened)] at hopened
            simp [hopened] at hkind
  have hfirst : b = 0 := by
    by_contra hne
    obtain ⟨hlt, hget⟩ := List.getElem?_eq_some_iff.1 hr
    have := List.pairwise_iff_getElem.1 (usedBlocks_sorted part) 0 b (by omega) hlt (by omega)
    omega
  exact hfirst ▸ hnum.wellFormed.blockOf_eq ⟨_, hblock, hmax.2⟩

end Numbering

namespace EquationSystem

open ModalCalls.Numbering

variable {f : Formula} {e : EquationSystem}

/-- **Formulas that a witness may explain** ask for something to be reached. -/
theorem reaching_of_supported (hf : ofFormula f = .ok e) (hsupported : Session.unsupported? e = none) :
    e.Reaching := by
  obtain ⟨part, hnum, rfl⟩ := exists_numbered hf
  simp only [Session.unsupported?] at hsupported
  split at hsupported
  · cases hsupported
  · next hfix =>
      have hleast : LeastOnly part := fun x hx => by
        simpa using List.find?_eq_none.1 hfix x hx
      -- the kind of an operand, given that of the operator
      have hoperand : ∀ v op, (assemble f.normal part).operator? v = some op → ∀ w ∈ op.operands,
          ((assemble f.normal part).isMax v = false → (assemble f.normal part).isMax w = false) ∧
          ((assemble f.normal part).isMax w = true → v < w) := by
        intro v op hop w hw
        obtain ⟨b, q, hq, rfl⟩ := operator?_assemble.1 hop
        obtain ⟨k, hk, hall⟩ :=
          hnum.operands_kind hleast v (List.getElem?_eq_some_iff.1 hq).1 b q hq
        obtain ⟨b', q', k', hq', hk', hsame, hlater⟩ := hall w hw
        rw [hnum.isMax_eq hq hk, hnum.isMax_eq hq' hk']
        exact ⟨hsame, hlater⟩
      refine ⟨fun v op hop => ?_, fun v op hop hv w hw => (hoperand v op hop w hw).1 hv,
        fun v op hop w hw => (hoperand v op hop w hw).2, fun v => hnum.blockOf_eq_zero hleast⟩
      rw [Option.map_eq_none_iff, List.find?_eq_none] at hsupported
      simp only [operator?, Option.map_eq_some_iff] at hop
      obtain ⟨q, hq, rfl⟩ := hop
      simpa using hsupported q (Array.mem_toList_iff.2 (Array.mem_of_getElem? hq))

end EquationSystem

end ModalCalls
