import Mathlib
import ModalCalls.Proofs.Iteration.Snapshot

/-!
# What an iteration computes

A block of equations has many solutions.  An iteration that has come to its end has the extremal one of
every block: the least one of a least block and the greatest one of a greatest block, among assignments of
monotone conditions.  Entries further in count with their final values, and entries further out with
their start values.

* `Snapshot.Reached.entry_induction` — a property of single conditions holds of all entries if
  right-hand sides keep it.  Monotonicity is the first instance.
* `Snapshot.Reached.isExtremal` — **a finished iteration is extremal**, block by block.
* `IsExtremal.unique` — a block has only one extremal solution, so two finished iterations of the same
  equations agree whatever their order of moves (`Snapshot.Reached.value_unique`).
-/

namespace ModalCalls

variable {p : Program} {e : EquationSystem} {A B : Assignment} {i n v b : Nat}

/-! ## Solutions of a block

A block is solved while the others are held fixed, so a solution is compared with assignments that agree
with it outside of the block.  Conditions are asked to be monotone.  Without that the composition along a
call would not respect the order, and there might be no extremal solution.
-/

/-- **A solution of a block** among assignments of monotone conditions.  Final states have the
identity. -/
structure Solves (p : Program) (e : EquationSystem) (b : Nat) (A : Assignment) : Prop where
  final : ∀ i n v, ¬ p.isInner i n = true → A i n v = fun x => x v
  monotone : ∀ i n v, p.isInner i n = true → e.blockOf v = b → Monotone (A i n v)
  equation : ∀ i n v, p.isInner i n = true → e.blockOf v = b →
    A i n v = p.nodeRhs e A i n (A i n) v

/-- **The extremal solution of a block**: it is least, or greatest, among the solutions that agree with
it on the other blocks. -/
structure IsExtremal (p : Program) (e : EquationSystem) (b : Nat) (A : Assignment) : Prop
    extends Solves p e b A where
  extremal : ∀ B, Solves p e b B → (∀ i n v, e.blockOf v ≠ b → B i n v = A i n v) →
    ∀ i n v, p.isInner i n = true → e.blockOf v = b →
      if e.isMax v then B i n v ≤ A i n v else A i n v ≤ B i n v

namespace Below

variable {k : Bool} {f g : Condition}

lemma false_iff : ∀ {a b : Bool}, Below false a b ↔ a ≤ b := by
  unfold Below
  decide

lemma true_iff : ∀ {a b : Bool}, Below true a b ↔ b ≤ a := by
  unfold Below
  decide

/-- The order of a block is the one in which its solution is extremal. -/
lemma ite_le (h : ∀ x, Below k (f x) (g x)) : if k then g ≤ f else f ≤ g := by
  cases k with
  | false => exact fun x => false_iff.1 (h x)
  | true => exact fun x => true_iff.1 (h x)

/-- Monotone conditions respect the orders of both kinds of block. -/
lemma of_monotone (hf : Monotone f) {x y : Nat → Bool} (h : ∀ w, Below k (x w) (y w)) :
    Below k (f x) (f y) := by
  cases k with
  | false => exact false_iff.2 (hf fun w => false_iff.1 (h w))
  | true => exact true_iff.2 (hf fun w => true_iff.1 (h w))

end Below

/-- A block has only one extremal solution. -/
theorem IsExtremal.unique (hA : IsExtremal p e b A) (hB : IsExtremal p e b B)
    (h : ∀ i n v, e.blockOf v ≠ b → B i n v = A i n v) : A = B := by
  funext i n v
  by_cases hi : p.isInner i n = true
  · by_cases hv : e.blockOf v = b
    · have hle := hA.extremal B hB.toSolves h i n v hi hv
      have hge := hB.extremal A hA.toSolves (fun i n v hv => (h i n v hv).symm) i n v hi hv
      cases hk : e.isMax v with
      | false =>
          simp only [hk, Bool.false_eq_true, if_false] at hle hge
          exact le_antisymm hle hge
      | true =>
          simp only [hk, if_true] at hle hge
          exact le_antisymm hge hle
    · exact (h i n v hv).symm
  · rw [hA.final i n v hi, hB.final i n v hi]

namespace Snapshot

variable {S T : Snapshot}

/-! ## Properties of all entries

What holds of constants and of the identity, and is kept by right-hand sides, holds of all entries of all
blocks.  The induction is on the block, from the inside out, and for each block it is the induction
principle of iterations.  Monotonicity needs to be known before extremality, and it comes from here.
-/

/-- A property of all entries: constants and the identity have it, and right-hand sides keep it. -/
theorem Reached.entry_induction (he : e.WellFormed) (h : Reached p e S) {Q : Nat → Condition → Prop}
    (hconst : ∀ v k, Q v fun _ => k) (hid : ∀ v, Q v fun x => x v)
    (hrhs : ∀ (A : Assignment) (i n v : Nat) (own : Summary) (op : Operator),
      e.operator? v = some op → (∀ j m w, Q w (A j m w)) → (∀ w, Q w (own w)) →
      (∀ c, op = .neg c → ∃ k, own c = fun _ => k) → Q v (p.nodeRhs e A i n own v)) :
    ∀ i n v, Q v (S.value i n v) := by
  -- blocks further in come first
  suffices hall : ∀ d i n v, e.blocks.size ≤ e.blockOf v + d → Q v (S.value i n v) from
    fun i n v => hall e.blocks.size i n v (by omega)
  intro d
  induction d with
  | zero =>
      intro i n v hv
      rw [h.value_of_size_le he (he.size_le_of_blockOf_ge hv)]
      exact hid v
  | succ d ih =>
      intro i n v hv
      by_cases hi : p.isInner i n = true
      swap
      · rw [h.value_of_not_inner hi]
        exact hid v
      by_cases hd : e.blocks.size ≤ e.blockOf v + d
      · exact ih i n v hd
      by_cases hb : e.blockOf v < S.block
      · rw [h.value_of_lt he hi hb]
        exact hconst v _
      have hclosed : Closed p e (e.blockOf v) S.value fun _ _ w f => Q w f := by
        refine ⟨fun _ _ w _ _ => hconst w _, fun A j m w own hj hw hA hfinal hown hneg => ?_⟩
        have hframed : ∀ j m S', Framed e (e.blockOf v) (S.value j m) (fun w f => Q w f) S' →
            ∀ u, Q u (S' u) := by
          intro j m S' hS' u
          rcases Nat.lt_trichotomy (e.blockOf u) (e.blockOf v) with hlt | heq | hgt
          · rw [hS'.outer u hlt]
            exact hconst u _
          · exact hS'.here u heq
          · rw [hS'.inner u hgt]
            exact ih j m u (by omega)
        obtain ⟨op, hop⟩ := EquationSystem.operator?_of_lt (he.lt_size (v := w) (by omega))
        refine hrhs A j m w own op hop (fun j' m' u => ?_) (hframed j m own hown) ?_
        · by_cases hj' : p.isInner j' m' = true
          · exact hframed j' m' _ (hA j' m' hj') u
          · rw [hfinal j' m' u hj']
            exact hid u
        · rintro c rfl
          obtain ⟨-, ⟨a, ha⟩, -⟩ := he.neg_atom w c hop
          exact ⟨_, hneg c a hop ha⟩
      exact h.induction he (by omega) (by omega) (fun _ _ _ _ => rfl) hclosed i n v hi rfl

/-- A call has somewhere to begin. -/
lemma entryOf?_ne_none (hp : p.WellFormed) {edge : Edge} (hedge : edge ∈ p.leaving i n)
    (hcall : edge.isCall = true) : p.entryOf? edge.label ≠ none := by
  obtain ⟨j, q, hentry, -⟩ := hp.entryOf? hedge hcall
  simp [hentry]

/-- **Every entry is monotone.** -/
theorem Reached.monotone (hp : p.WellFormed) (he : e.WellFormed) (h : Reached p e S) :
    ∀ i n v, Monotone (S.value i n v) := by
  refine h.entry_induction (Q := fun _ f => Monotone f) he (fun _ _ => monotone_const)
    (fun v x y hxy => hxy v) ?_
  intro A i n v own op hop hA hown hneg x y hxy
  refine Below.false_iff.1 (Program.nodeRhs_below hop (fun w _ => ?_) ?_ ?_)
  · exact Below.false_iff.2 (hown w hxy)
  · intro c hc
    obtain ⟨k, hk⟩ := hneg c hc
    rw [hk]
  · intro c hc edge hedge
    refine Program.alongSummary_below hop hc (fun _ => ?_) (fun j m _ _ => ?_)
      (entryOf?_ne_none hp hedge)
    · exact Below.false_iff.2 (hA i edge.target c hxy)
    · exact Below.false_iff.2 (hA j m v fun w => hA i edge.target w hxy)

/-! ## Extremality

A finished iteration satisfies the equations, because no state is marked any more.  That it is extremal is
again the induction principle: being below a given solution holds of the start values and is kept by
right-hand sides.  Extremal solutions are unique, so the order of moves has left no trace.
-/

/-- Right-hand sides keep whatever is below a solution. -/
lemma closed_below (hp : p.WellFormed) (he : e.WellFormed) (hb : b < e.blocks.size) {Z : Assignment}
    (hB : Solves p e b B) (hframe : ∀ i n v, e.blockOf v ≠ b → B i n v = framed p e b Z i n v) :
    Closed p e b Z fun i n v f => ∀ x, Below (e.isMax v) (f x) (B i n v x) := by
  refine ⟨fun i n v _ _ x => Below.start _ _, ?_⟩
  intro A i n v own hi hv hA hfinal hown hneg x
  obtain ⟨op, hop⟩ := EquationSystem.operator?_of_lt (he.lt_size (hv ▸ hb))
  -- inside a state everything is below the solution, entry by entry
  have hentries : ∀ j m, p.isInner j m = true → ∀ S' : Summary,
      Framed e b (Z j m) (fun w f => ∀ x, Below (e.isMax w) (f x) (B j m w x)) S' →
      ∀ w x, Below (e.isMax v) (S' w x) (B j m w x) := by
    intro j m hj S' hS' w x
    rcases Nat.lt_trichotomy (e.blockOf w) b with hlt | heq | hgt
    · rw [hS'.outer w hlt, hframe j m w (by omega), framed, if_pos ⟨hj, hlt⟩]
      exact Below.refl _ _
    · rw [← he.isMax_congr (hv ▸ hb) (heq.trans hv.symm)]
      exact hS'.here w heq x
    · rw [hS'.inner w hgt, hframe j m w (by omega), framed_of_le hgt.le]
      exact Below.refl _ _
  have hstates : ∀ j m w x, Below (e.isMax v) (A j m w x) (B j m w x) := by
    intro j m w x
    by_cases hj : p.isInner j m = true
    · exact hentries j m hj _ (hA j m hj) w x
    · rw [hfinal j m w hj, hB.final j m w hj]
      exact Below.refl _ _
  have hmono : ∀ j m {y z : Nat → Bool}, (∀ w, Below (e.isMax v) (y w) (z w)) →
      Below (e.isMax v) (B j m v y) (B j m v z) := by
    intro j m y z hyz
    by_cases hj : p.isInner j m = true
    · exact Below.of_monotone (hB.monotone j m v hj hv) hyz
    · rw [hB.final j m v hj]
      exact hyz v
  rw [hB.equation i n v hi hv]
  refine Program.nodeRhs_below hop (fun w _ => hentries i n hi own hown w x) ?_ ?_
  · rintro c rfl
    obtain ⟨-, ⟨a, ha⟩, hsame⟩ := he.neg_atom v c hop
    have hc : e.blockOf c = b :=
      he.blockOf_eq (hsame b (hv ▸ EquationSystem.inBlock_of_blockOf_lt (hv ▸ hb)))
    rw [hneg c a hop ha, hB.equation i n c hi hc]
    simp only [Program.nodeRhs, EquationSystem.rhs, ha, Operator.eval]
  · intro c hc edge hedge
    refine Program.alongSummary_below hop hc (fun _ => hstates i edge.target c x)
      (fun j m _ _ => ?_) (entryOf?_ne_none hp hedge)
    exact (hstates j m v _).trans (hmono j m fun w => hstates i edge.target w x)

/-- All states of an iteration are done with, also those of the outermost block. -/
structure Finished (p : Program) (S : Snapshot) : Prop where
  block : S.block = 0
  clean : ∀ i n, p.isInner i n = true → ¬ S.dirty i n

/-- In a finished iteration a variable satisfies its equation, unless it reads its own state too early. -/
lemma Reached.equation (he : e.WellFormed) (h : Reached p e S) (hdone : S.Finished p)
    (hb : b < e.blocks.size) (hi : p.isInner i n = true) (hv : e.blockOf v = b) (hahead : e.Ahead v) :
    S.value i n v = p.nodeRhs e (framed p e b S.value) i n (framed p e b S.value i n) v := by
  rcases Nat.eq_zero_or_pos b with rfl | hpos
  · have hframed := h.framed_eq he
    rw [hdone.block] at hframed
    rw [hframed]
    exact h.clean_solves he i n v hi (hdone.clean i n hi) (hv.trans hdone.block.symm) hahead
  · exact h.solved he b (hdone.block ▸ hpos) hb i n v hi hv hahead

/-- **A finished iteration is extremal**, block by block. -/
theorem Reached.isExtremal (hp : p.WellFormed) (he : e.WellFormed) (hforward : e.Forward)
    (h : Reached p e S) (hdone : S.Finished p) (hb : b < e.blocks.size) :
    IsExtremal p e b (framed p e b S.value) where
  final i n v hi := by
    rw [framed, if_neg (fun hcon => hi hcon.1)]
    exact h.value_of_not_inner hi
  monotone i n v _ hv := by
    rw [framed_of_le hv.ge]
    exact h.monotone hp he i n v
  equation i n v hi hv := by
    rw [framed_of_le hv.ge]
    exact h.equation he hdone hb hi hv (hforward v)
  extremal B hB hframe i n v hi hv := by
    rw [framed_of_le hv.ge]
    have hclosed := closed_below hp he hb hB hframe
    exact Below.ite_le (h.induction he (hdone.block ▸ Nat.zero_le b) hb (fun _ _ _ _ => rfl)
      hclosed i n v hi hv)

/-- **Finished iterations of the same equations agree**, whatever their order of moves. -/
theorem Reached.value_unique (hp : p.WellFormed) (he : e.WellFormed) (hforward : e.Forward)
    (hS : Reached p e S) (hT : Reached p e T) (hS' : S.Finished p) (hT' : T.Finished p) :
    S.value = T.value := by
  -- blocks further in come first, and each is extremal over the ones before
  suffices h : ∀ d i n v, e.blocks.size ≤ e.blockOf v + d → S.value i n v = T.value i n v by
    funext i n v
    exact h e.blocks.size i n v (by omega)
  intro d
  induction d with
  | zero =>
      intro i n v hv
      have hsize := he.size_le_of_blockOf_ge hv
      rw [hS.value_of_size_le he hsize, hT.value_of_size_le he hsize]
  | succ d ih =>
      intro i n v hv
      by_cases hd : e.blocks.size ≤ e.blockOf v + d
      · exact ih i n v hd
      have hb : e.blockOf v < e.blocks.size := by omega
      have hunique := (hS.isExtremal hp he hforward hS' hb).unique (hT.isExtremal hp he hforward hT' hb)
        fun i n w hw => by
          simp only [framed]
          split
          · rfl
          · next hout =>
              by_cases hi : p.isInner i n = true
              · have hge : ¬ e.blockOf w < e.blockOf v := fun hlt => hout ⟨hi, hlt⟩
                exact (ih i n w (by omega)).symm
              · rw [hS.value_of_not_inner hi, hT.value_of_not_inner hi]
      have hvalue := congrFun (congrFun (congrFun hunique i) n) v
      rwa [framed_of_le le_rfl, framed_of_le le_rfl] at hvalue

end Snapshot

end ModalCalls
