import Mathlib
import ModalCalls.Proofs.Semantics.Paths

/-!
# The expansion of branching operators

Where all steps are must steps, the expansion of a formula has the meaning of the formula
(`Formula.expand_denote`): the fixpoint that takes the place of a branching operator has the same set of
states under every environment.  The names it binds are not free in the operands, since a fresh name is
not among the names of the whole formula (`Formula.fresh_not_mem`), and the expansion of an operand has
the free names of the operand (`Formula.Expands.isFree_eq`).  Whether two fresh names are the same does not
matter for this.
-/

namespace ModalCalls

namespace Formula

variable {taken : List String} {x z : String} {p q : Formula} {k : Nat}

/-! ## Fresh names

Numbers are tried until one gives a name that is not taken.  There are as many tries as there are names, and
one more name than that; since different numbers give different names, not all of them can be taken.
-/

lemma freshName_injective : Function.Injective freshName := fun _ _ h =>
  Nat.repr_injective ((String.append_right_inj "#Z").1 h)

/-- If the name found in a number of tries is taken, so are all that were tried. -/
lemma mem_of_freshNumber_mem : ∀ (tries k : Nat),
    freshName (freshNumber taken tries k) ∈ taken → ∀ i ≤ tries, freshName (k + i) ∈ taken
  | 0, k, h, i, hi => by
      obtain rfl : i = 0 := by omega
      exact h
  | tries + 1, k, h, i, hi => by
      rw [freshNumber] at h
      split at h
      · next htaken =>
          cases i with
          | zero => simpa using htaken
          | succ i =>
              have := mem_of_freshNumber_mem tries (k + 1) h i (by omega)
              rwa [Nat.add_right_comm] at this
      · next htaken => exact absurd (by simpa using h) htaken

/-- **A fresh name is not taken**: one more name is tried than are taken. -/
theorem fresh_not_mem (taken : List String) (k : Nat) : (fresh taken k).1 ∉ taken := by
  intro hmem
  have hall := mem_of_freshNumber_mem taken.length k hmem
  have hnodup : ((List.range (taken.length + 1)).map fun i => freshName (k + i)).Nodup :=
    List.nodup_range.map fun i j hij => Nat.add_left_cancel (freshName_injective hij)
  have hsubset : ((List.range (taken.length + 1)).map fun i => freshName (k + i)) ⊆ taken := by
    intro y hy
    obtain ⟨i, hi, rfl⟩ := List.mem_map.1 hy
    exact hall i (by simpa [Nat.lt_succ_iff] using hi)
  have hle := (hnodup.subperm hsubset).length_le
  simp at hle

/-! ## Expansions

The function that expands hands numbers along, and none of that matters for what the result means.
`Expands` is a relation between formulas that forgets the numbers and keeps what is needed: at each
branching operator some name that does not occur free in the operands.
-/

lemma mem_names_of_isFree {f : Formula} (h : f.isFree x = true) : x ∈ f.names := by
  induction f with
  | top | bot | atom => cases h
  | ref y =>
      simp only [isFree, beq_iff_eq] at h
      simp [names, h]
  | neg f ih | box _ f ih | dia _ f ih | af f ih | ag f ih | ef f ih | eg f ih => exact ih h
  | mu y f ih | nu y f ih =>
      simp only [isFree, Bool.and_eq_true] at h
      exact List.mem_cons_of_mem _ (ih h.2)
  | conj f g ihf ihg | disj f g ihf ihg | au f g ihf ihg | aw f g ihf ihg | eu f g ihf ihg
  | ew f g ihf ihg =>
      simp only [isFree, Bool.or_eq_true] at h
      exact List.mem_append.2 (h.symm.imp ihg ihf)

/-- **An expansion of a formula** has, in the place of each branching operator, the fixpoint of that operator
over some name that is not free in its operands. -/
inductive Expands : Formula → Formula → Prop
  | top : Expands top top
  | bot : Expands bot bot
  | atom (a : String) : Expands (atom a) (atom a)
  | ref (x : String) : Expands (ref x) (ref x)
  | neg {p p' : Formula} (hp : Expands p p') : Expands (neg p) (neg p')
  | conj {p p' q q' : Formula} (hp : Expands p p') (hq : Expands q q') :
      Expands (conj p q) (conj p' q')
  | disj {p p' q q' : Formula} (hp : Expands p p') (hq : Expands q q') :
      Expands (disj p q) (disj p' q')
  | box {p p' : Formula} (a : Option String) (hp : Expands p p') : Expands (box a p) (box a p')
  | dia {p p' : Formula} (a : Option String) (hp : Expands p p') : Expands (dia a p) (dia a p')
  | mu {p p' : Formula} (x : String) (hp : Expands p p') : Expands (mu x p) (mu x p')
  | nu {p p' : Formula} (x : String) (hp : Expands p p') : Expands (nu x p) (nu x p')
  | af {p p' : Formula} {z : String} (hp : Expands p p') (hzp : p.isFree z = false) :
      Expands (af p) (afFix z p')
  | ag {p p' : Formula} {z : String} (hp : Expands p p') (hzp : p.isFree z = false) :
      Expands (ag p) (agFix z p')
  | ef {p p' : Formula} {z : String} (hp : Expands p p') (hzp : p.isFree z = false) :
      Expands (ef p) (efFix z p')
  | eg {p p' : Formula} {z : String} (hp : Expands p p') (hzp : p.isFree z = false) :
      Expands (eg p) (egFix z p')
  | au {p p' q q' : Formula} {z : String} (hp : Expands p p') (hq : Expands q q')
      (hzp : p.isFree z = false) (hzq : q.isFree z = false) : Expands (au p q) (auFix z p' q')
  | eu {p p' q q' : Formula} {z : String} (hp : Expands p p') (hq : Expands q q')
      (hzp : p.isFree z = false) (hzq : q.isFree z = false) : Expands (eu p q) (euFix z p' q')
  | aw {p q f : Formula} (hweak : Expands (neg (eu (neg q) (conj (neg p) (neg q)))) f) :
      Expands (aw p q) f
  | ew {p q f : Formula} (hweak : Expands (disj (eu p q) (eg p)) f) : Expands (ew p q) f

/-- **What the expansion computes is one**, with names that are not taken. -/
lemma expands_expandFrom {f : Formula} (htaken : f.names ⊆ taken) :
    ∀ k, Expands f (expandFrom taken f k).1 := by
  have hfresh : ∀ {f : Formula} k, f.names ⊆ taken → f.isFree (fresh taken k).1 = false := by
    intro f k hf
    rw [Bool.eq_false_iff]
    exact fun hfree => fresh_not_mem taken k (hf (mem_names_of_isFree hfree))
  induction f with
  | top => exact fun _ => .top
  | bot => exact fun _ => .bot
  | atom a => exact fun _ => .atom a
  | ref x => exact fun _ => .ref x
  | neg p ih => exact fun k => .neg (ih htaken k)
  | box a p ih => exact fun k => .box a (ih htaken k)
  | dia a p ih => exact fun k => .dia a (ih htaken k)
  | mu x p ih => exact fun k => .mu x (ih (List.cons_subset.1 htaken).2 k)
  | nu x p ih => exact fun k => .nu x (ih (List.cons_subset.1 htaken).2 k)
  | af p ih => exact fun k => .af (ih htaken k) (hfresh _ htaken)
  | ag p ih => exact fun k => .ag (ih htaken k) (hfresh _ htaken)
  | ef p ih => exact fun k => .ef (ih htaken k) (hfresh _ htaken)
  | eg p ih => exact fun k => .eg (ih htaken k) (hfresh _ htaken)
  | conj p q ihp ihq =>
      obtain ⟨hq, hp⟩ := List.append_subset.1 htaken
      exact fun k => .conj (ihp hp k) (ihq hq _)
  | disj p q ihp ihq =>
      obtain ⟨hq, hp⟩ := List.append_subset.1 htaken
      exact fun k => .disj (ihp hp k) (ihq hq _)
  | au p q ihp ihq =>
      obtain ⟨hq, hp⟩ := List.append_subset.1 htaken
      exact fun k => .au (ihp hp k) (ihq hq _) (hfresh _ hp) (hfresh _ hq)
  | eu p q ihp ihq =>
      obtain ⟨hq, hp⟩ := List.append_subset.1 htaken
      exact fun k => .eu (ihp hp k) (ihq hq _) (hfresh _ hp) (hfresh _ hq)
  | aw p q ihp ihq =>
      obtain ⟨hq, hp⟩ := List.append_subset.1 htaken
      exact fun k => .aw (.neg (.eu (.neg (ihq hq k)) (.conj (.neg (ihp hp _)) (.neg (ihq hq _)))
        (hfresh _ hq) (by simp only [isFree, hfresh _ hp, hfresh _ hq, Bool.or_false])))
  | ew p q ihp ihq =>
      obtain ⟨hq, hp⟩ := List.append_subset.1 htaken
      exact fun k => .ew (.disj (.eu (ihp hp k) (ihq hq _) (hfresh _ hp) (hfresh _ hq))
        (.eg (ihp hp _) (hfresh _ hp)))

variable {f f' : Formula}

/-- An expansion has no branching operators. -/
lemma Expands.isBranching_eq (h : Expands f f') : f'.isBranching = false := by
  induction h with
  | top | bot | atom | ref => rfl
  | neg _ ih | box _ _ ih | dia _ _ ih | mu _ _ ih | nu _ _ ih | aw _ ih | ew _ ih => exact ih
  | conj _ _ ihp ihq | disj _ _ ihp ihq => simp [isBranching, ihp, ihq]
  | af _ _ ih | ag _ _ ih | ef _ _ ih | eg _ _ ih =>
      simp [afFix, agFix, efFix, egFix, allNext, isBranching, ih]
  | au _ _ _ _ ihp ihq | eu _ _ _ _ ihp ihq =>
      simp [auFix, euFix, allNext, isBranching, ihp, ihq]

/-- A formula without branching operators is its only expansion. -/
lemma Expands.eq_of_not_isBranching (h : Expands f f') (hf : f.isBranching = false) : f' = f := by
  induction h with
  | top | bot | atom | ref => rfl
  | neg _ ih | box _ _ ih | dia _ _ ih | mu _ _ ih | nu _ _ ih => rw [ih hf]
  | conj _ _ ihp ihq | disj _ _ ihp ihq =>
      simp only [isBranching, Bool.or_eq_false_iff] at hf
      rw [ihp hf.1, ihq hf.2]
  | _ => cases hf

/-! ## Free names

An operand is put under a binder, so its free names must not be captured; and since expansions are nested,
it has to be known that an expanded operand has the same free names as the operand.
-/

/-- What is free in a fixpoint whose name is not free in the operands of its body. -/
lemma isFree_binder {body : Formula} {occurs : String → Bool} (hz : occurs z = false)
    (hbody : ∀ y, z ≠ y → body.isFree y = occurs y) (x : String) :
    (z != x && body.isFree x) = occurs x := by
  by_cases h : z = x
  · subst h
    simp [hz]
  · rw [hbody x h, bne_iff_ne.2 h, Bool.true_and]

/-- **An expansion has the free names of the formula.** -/
lemma Expands.isFree_eq (h : Expands f f') : ∀ x, f'.isFree x = f.isFree x := by
  induction h with
  | top | bot | atom | ref => exact fun _ => rfl
  | neg _ ih | box _ _ ih | dia _ _ ih => exact ih
  | mu y _ ih | nu y _ ih =>
      intro x
      simp only [isFree, ih]
  | conj _ _ ihp ihq | disj _ _ ihp ihq =>
      intro x
      simp only [isFree, ihp, ihq]
  | af _ hzp ih | ag _ hzp ih | ef _ hzp ih | eg _ hzp ih =>
      refine isFree_binder hzp fun y hy => ?_
      simp [isFree, allNext, ih, beq_eq_false_iff_ne.2 hy]
  | au _ _ hzp hzq ihp ihq | eu _ _ hzp hzq ihp ihq =>
      refine isFree_binder (by simp only [hzp, hzq, isFree, Bool.or_false]) fun y hy => ?_
      simp [isFree, allNext, ihp, ihq, beq_eq_false_iff_ne.2 hy, Bool.or_comm]
  | @aw p q _ _ ih =>
      intro x
      rw [ih]
      cases hp : p.isFree x <;> simp [isFree, hp]
  | @ew p q _ _ ih =>
      intro x
      rw [ih]
      cases hp : p.isFree x <;> simp [isFree, hp]

/-! ## Meaning

With the operands fixed, the body of each fixpoint is a function of one set, and the path operators are the
extremal sets of these functions.  Diamonds look at must steps only and paths go along all steps, so the two
agree where all steps are must steps.
-/

section Meaning

open TransitionSystem

variable {T : TransitionSystem} {ρ : String → Set T.State} {X : Set T.State}

lemma denote_update (hz : p.isFree z = false) (X : Set T.State) :
    p.denote T (Function.update ρ z X) = p.denote T ρ := by
  refine denote_congr fun y hy => Function.update_of_ne ?_ _ _
  rintro rfl
  simp [hz] at hy

lemma denote_box_none (ρ : String → Set T.State) :
    (box none p).denote T ρ = T.allNext (p.denote T ρ) := by
  simp [denote, TransitionSystem.allNext, concerns_none]

lemma denote_dia_none (hmust : T.AllMust) (ρ : String → Set T.State) :
    (dia none p).denote T ρ = T.someNext (p.denote T ρ) := by
  ext s
  constructor
  · rintro ⟨a, ha, -, -, htarget⟩
    exact ⟨a, ha, htarget⟩
  · rintro ⟨a, ha, htarget⟩
    exact ⟨a, ha, concerns_none _, hmust s a ha, htarget⟩

lemma denote_box_update (ρ : String → Set T.State) (z : String) (X : Set T.State) :
    (box none (ref z)).denote T (Function.update ρ z X) = T.allNext X := by
  rw [denote_box_none, denote, Function.update_self]

lemma denote_dia_update (hmust : T.AllMust) (ρ : String → Set T.State) (z : String)
    (X : Set T.State) :
    (dia none (ref z)).denote T (Function.update ρ z X) = T.someNext X := by
  rw [denote_dia_none hmust, denote, Function.update_self]

lemma denote_allNext_update (hmust : T.AllMust) (ρ : String → Set T.State) (z : String)
    (X : Set T.State) :
    (Formula.allNext z).denote T (Function.update ρ z X)
      = T.someNext Set.univ ∩ T.allNext X := by
  rw [Formula.allNext, denote, denote_dia_none hmust, denote, denote_box_update]

/-- A least fixpoint is the least set that its body maps into itself. -/
lemma denote_mu_eq {body : Formula} {A : Set T.State} {F : Set T.State → Set T.State}
    (hbody : ∀ X, body.denote T (Function.update ρ z X) = F X) (hA : IsLeast {X | F X ⊆ X} A) :
    (mu z body).denote T ρ = A := by
  simp only [denote, hbody]
  exact hA.isGLB.sInf_eq

/-- A greatest fixpoint is the greatest set that its body maps over itself. -/
lemma denote_nu_eq {body : Formula} {A : Set T.State} {F : Set T.State → Set T.State}
    (hbody : ∀ X, body.denote T (Function.update ρ z X) = F X) (hA : IsGreatest {X | X ⊆ F X} A) :
    (nu z body).denote T ρ = A := by
  simp only [denote, hbody]
  exact hA.isLUB.sSup_eq

/-- **An expansion means what the formula means**, where all steps are must steps. -/
lemma Expands.denote_eq (hmust : T.AllMust) (h : Expands f f') :
    ∀ ρ : String → Set T.State, f'.denote T ρ = f.denote T ρ := by
  induction h with
  | top | bot | atom | ref => exact fun _ => rfl
  | neg _ ih | box _ _ ih | dia _ _ ih | mu _ _ ih | nu _ _ ih =>
      intro ρ
      simp only [denote, ih]
  | conj _ _ ihp ihq | disj _ _ ihp ihq =>
      intro ρ
      simp only [denote, ihp, ihq]
  | @af p p' z hp hzp ih =>
      intro ρ
      have hz : p'.isFree z = false := (hp.isFree_eq z).trans hzp
      rw [denote]
      simp only [MaximalPath.eventually_iff_until]
      refine denote_mu_eq (fun X => ?_) (isLeast_allPaths_until Set.univ (p.denote T ρ))
      rw [denote, denote_update hz, ih, denote_allNext_update hmust, Set.univ_inter]
  | @ag p p' z hp hzp ih =>
      intro ρ
      have hz : p'.isFree z = false := (hp.isFree_eq z).trans hzp
      refine denote_nu_eq (fun X => ?_) (isGreatest_allPaths_always (p.denote T ρ))
      rw [denote, denote_update hz, ih, denote_box_update]
  | @ef p p' z hp hzp ih =>
      intro ρ
      have hz : p'.isFree z = false := (hp.isFree_eq z).trans hzp
      rw [denote]
      simp only [MaximalPath.eventually_iff_until]
      refine denote_mu_eq (fun X => ?_) (isLeast_somePath_until Set.univ (p.denote T ρ))
      rw [denote, denote_update hz, ih, denote_dia_update hmust, Set.univ_inter]
  | @eg p p' z hp hzp ih =>
      intro ρ
      have hz : p'.isFree z = false := (hp.isFree_eq z).trans hzp
      refine denote_nu_eq (fun X => ?_) (isGreatest_somePath_always (p.denote T ρ))
      rw [denote, denote_update hz, ih, denote, denote_dia_update hmust, denote_box_none, denote]
  | @au p p' q q' z hp hq hzp hzq ihp ihq =>
      intro ρ
      have hz : p'.isFree z = false := (hp.isFree_eq z).trans hzp
      have hz' : q'.isFree z = false := (hq.isFree_eq z).trans hzq
      refine denote_mu_eq (fun X => ?_) (isLeast_allPaths_until (p.denote T ρ) (q.denote T ρ))
      rw [denote, denote, denote_update hz, denote_update hz', ihp, ihq, denote_allNext_update hmust]
  | @eu p p' q q' z hp hq hzp hzq ihp ihq =>
      intro ρ
      have hz : p'.isFree z = false := (hp.isFree_eq z).trans hzp
      have hz' : q'.isFree z = false := (hq.isFree_eq z).trans hzq
      refine denote_mu_eq (fun X => ?_) (isLeast_somePath_until (p.denote T ρ) (q.denote T ρ))
      rw [denote, denote, denote_update hz, denote_update hz', ihp, ihq, denote_dia_update hmust]
  | aw _ ih =>
      intro ρ
      rw [ih]
      simp only [denote, MaximalPath.until_or_always_iff]
      ext s
      simp
  | ew _ ih =>
      intro ρ
      rw [ih]
      ext s
      simp only [denote, Set.mem_union, Set.mem_ofPred_eq, and_or_left, exists_or]

/-- **Branching operators are fixpoints.**  Where all steps are must steps, the expansion of a formula has
no branching operators, has the same free names, and denotes the same set of states under every
environment.  A formula without branching operators stays as it is. -/
theorem expand_denote (hmust : T.AllMust) (f : Formula) (ρ : String → Set T.State) :
    f.expand.isBranching = false ∧ (∀ x, f.expand.isFree x = f.isFree x) ∧
      f.expand.denote T ρ = f.denote T ρ ∧ (f.isBranching = false → f.expand = f) := by
  have hexpands : Expands f f.expand := expands_expandFrom (List.Subset.refl _) 0
  exact ⟨hexpands.isBranching_eq, hexpands.isFree_eq, hexpands.denote_eq hmust ρ,
    hexpands.eq_of_not_isBranching⟩

/-- One step to a deadlock. -/
def oneStep : TransitionSystem where
  State := Bool
  holds s _ := !s
  arrows s := {a | s = true ∧ a = ⟨"a", .must, false⟩}

/-- A formula that refers to the first fresh name, next to an operator that needs one. -/
def takenName : Formula :=
  .aw (.ref "#Z0") (.eg (.atom "p"))

theorem expand_denote_takenName : oneStep.AllMust ∧
    takenName.expand.isBranching = false ∧
    (∀ x, takenName.expand.isFree x = takenName.isFree x) ∧
    takenName.expand.denote oneStep (fun _ => {true})
      = takenName.denote oneStep (fun _ => {true}) ∧
    (takenName.isBranching = false → takenName.expand = takenName) := by
  have hmust : oneStep.AllMust := by
    rintro s a ⟨-, rfl⟩
    rfl
  exact ⟨hmust, expand_denote hmust takenName fun _ => {true}⟩

end Meaning

end Formula

end ModalCalls
