import Mathlib
import ModalCalls.Proofs.Iteration.Assignment

/-!
# Iteration, one block after the other

What a run does, seen from far enough: there is a block that is being solved, an assignment, and a set of
states that are still to be updated.  A *move* either updates a state, marking whatever reads it if its
summary changes, or goes on to the next outer block when no state is left.  Which state is updated next is
left open, and so is how often.

Two things are true of everything that moves can reach.

* `Reached.induction` — **an induction principle.**  The entries of a block satisfy whatever holds of the
  start value and is kept by right-hand sides.
* `Reached.clean_solves`, `Reached.solved` — a state that is not marked satisfies its equations, and a
  block that was left stays solved.
-/

namespace ModalCalls

/-- A stage of an iteration. -/
structure Snapshot where
  /-- The block that is being solved. -/
  block : Nat
  value : Assignment
  /-- The states that are still to be updated. -/
  dirty : Nat → Nat → Prop

/-- Replace the summary of one state. -/
def Assignment.set (A : Assignment) (i n : Nat) (S : Summary) : Assignment := fun j m =>
  if j = i ∧ m = n then S else A j m

lemma Assignment.set_self (A : Assignment) (i n : Nat) (S : Summary) : A.set i n S i n = S := by
  simp [set]

lemma Assignment.set_of_ne {A : Assignment} {i n j m : Nat} {S : Summary} (h : ¬ (j = i ∧ m = n)) :
    A.set i n S j m = A j m := by
  simp [set, h]

lemma Assignment.set_eq_self (A : Assignment) (i n : Nat) : A.set i n (A i n) = A := by
  funext j m
  simp only [set]
  split
  · next h => rw [h.1, h.2]
  · rfl

namespace Snapshot

variable (p : Program) (e : EquationSystem)

/-- What a run begins with: the start values of the blocks, and the identity at final states. -/
def startValue : Assignment := fun i n v x =>
  if p.isInner i n = true ∧ v < e.size then e.isMax v else x v

/-- The new summary of a state: its entries in a block computed again. -/
def renewed (S : Snapshot) (i n : Nat) (vars : List Nat) : Summary :=
  e.pass ((p.atomsAt i n).contains ·) ((p.leaving i n).map (p.alongSummary e S.value i)) vars
    (S.value i n)

/-- **One move** of an iteration. -/
inductive Move : Snapshot → Snapshot → Prop
  | update {S : Snapshot} {i n : Nat} {block : Block} {dirty : Nat → Nat → Prop}
      (hinner : p.isInner i n = true) (hblock : e.blocks[S.block]? = some block)
      (hkeep : ∀ j m, S.dirty j m → ¬ (j = i ∧ m = n) → dirty j m)
      (hmark : S.renewed p e i n block.vars ≠ S.value i n → ∀ j m, p.Reads j m i n → dirty j m) :
      Move S ⟨S.block, S.value.set i n (S.renewed p e i n block.vars), dirty⟩
  | advance {S : Snapshot} {dirty : Nat → Nat → Prop} (hpos : 0 < S.block)
      (hidle : ∀ i n, p.isInner i n = true → ¬ S.dirty i n)
      (hall : ∀ i n, p.isInner i n = true → dirty i n) :
      Move S ⟨S.block - 1, S.value, dirty⟩

/-- **What moves can reach** from the beginning of a run. -/
inductive Reached : Snapshot → Prop
  | start {dirty : Nat → Nat → Prop} (hall : ∀ i n, p.isInner i n = true → dirty i n) :
      Reached ⟨e.blocks.size - 1, startValue p e, dirty⟩
  | move {S T : Snapshot} (h : Reached S) (hmove : Move p e S T) : Reached T

variable {p e} {S : Snapshot} {i n v b : Nat}

lemma renewed_of_not_mem {vars : List Nat} (hv : v ∉ vars) :
    S.renewed p e i n vars v = S.value i n v :=
  EquationSystem.pass_of_not_mem vars _ hv

/-! ## What moves leave alone

A move touches the current block at one state.  What this leaves alone is recorded once: blocks further in,
which are done, blocks further out, which have their start values, final states, and numbers that are no
variables.
-/

namespace Move

variable {T : Snapshot}

lemma block_le (h : Move p e S T) : T.block ≤ S.block := by
  cases h with
  | update _ _ _ _ => exact le_rfl
  | advance _ _ _ => exact Nat.sub_le _ _

/-- A move changes entries of the current block only. -/
lemma value_eq (he : e.WellFormed) (h : Move p e S T) (hv : e.blockOf v ≠ S.block) :
    T.value i n v = S.value i n v := by
  cases h with
  | @update j m block _ _ hblock _ _ =>
      have hnot : v ∉ block.vars := fun hmem => hv (he.blockOf_eq ⟨block, hblock, hmem⟩)
      simp only [Assignment.set]
      split
      · next heq => rw [renewed_of_not_mem hnot, heq.1, heq.2]
      · rfl
  | advance _ _ _ => rfl

lemma value_of_not_inner (h : Move p e S T) (hi : ¬ p.isInner i n = true) :
    T.value i n = S.value i n := by
  cases h with
  | @update j m _ _ hinner _ _ _ =>
      refine Assignment.set_of_ne ?_
      rintro ⟨rfl, rfl⟩
      exact hi hinner
  | advance _ _ _ => rfl

end Move

namespace Reached

lemma block_lt (he : e.WellFormed) (h : Reached p e S) : S.block < e.blocks.size := by
  induction h with
  | start hall =>
      obtain ⟨b, block, hblock, -⟩ := he.covered 0 he.size_pos
      have := (Array.getElem?_eq_some_iff.1 hblock).1
      show e.blocks.size - 1 < e.blocks.size
      omega
  | move _ hmove ih => exact Nat.lt_of_le_of_lt hmove.block_le ih

/-- Final states keep the identity. -/
lemma value_of_not_inner (h : Reached p e S) (hi : ¬ p.isInner i n = true) :
    S.value i n v = fun x => x v := by
  induction h with
  | start hall =>
      funext x
      simp [startValue, hi]
  | move _ hmove ih => rw [hmove.value_of_not_inner hi, ih]

/-- What is not a variable keeps the identity. -/
lemma value_of_size_le (he : e.WellFormed) (h : Reached p e S) (hv : e.size ≤ v) :
    S.value i n v = fun x => x v := by
  induction h with
  | start hall =>
      funext x
      simp [startValue, Nat.not_lt.2 hv]
  | move hS hmove ih =>
      rw [hmove.value_eq he fun heq => ?_, ih]
      have := he.lt_size (heq ▸ hS.block_lt he)
      omega

/-- Entries of blocks that are not reached yet have their start value. -/
lemma value_of_lt (he : e.WellFormed) (h : Reached p e S) (hi : p.isInner i n = true)
    (hv : e.blockOf v < S.block) : S.value i n v = fun _ => e.isMax v := by
  induction h with
  | start hall =>
      have hlt : v < e.size := he.lt_size (Nat.lt_of_lt_of_le hv (Nat.sub_le _ _))
      funext x
      simp [startValue, hi, hlt]
  | move _ hmove ih =>
      have := hmove.block_le
      rw [hmove.value_eq he (by omega), ih (by omega)]

end Reached

/-! ## The induction principle

While a block is solved its surroundings do not change, and this is what a predicate on its entries may rely
on (`Framed`).  There is one more thing to rely on.  Negations are not monotone, and what saves the
predicates of interest is that the atom under a negation already has its value when the negation is
computed.
-/

/-- Inside a block: entries further in are those of `Z`, entries further out have their start value,
and the entries of the block satisfy `Q`. -/
structure Framed (e : EquationSystem) (b : Nat) (Z : Summary) (Q : Nat → Condition → Prop)
    (S : Summary) : Prop where
  here : ∀ v, e.blockOf v = b → Q v (S v)
  inner : ∀ v, b < e.blockOf v → S v = Z v
  outer : ∀ v, e.blockOf v < b → S v = fun _ => e.isMax v

/-- **A predicate on the entries of a block that right-hand sides keep.**  While the block is solved,
entries further in are those of `Z` and final states have the identity. -/
structure Closed (p : Program) (e : EquationSystem) (b : Nat) (Z : Assignment)
    (Q : Nat → Nat → Nat → Condition → Prop) : Prop where
  start : ∀ i n v, p.isInner i n = true → e.blockOf v = b → Q i n v fun _ => e.isMax v
  rhs : ∀ (A : Assignment) (i n v : Nat) (own : Summary), p.isInner i n = true → e.blockOf v = b →
    (∀ j m, p.isInner j m = true → Framed e b (Z j m) (Q j m) (A j m)) →
    (∀ j m w, ¬ p.isInner j m = true → A j m w = fun x => x w) →
    Framed e b (Z i n) (Q i n) own →
    -- the atom under a negation is listed before it, so it has its value already
    (∀ c a, e.operator? v = some (.neg c) → e.operator? c = some (.atom a) →
      own c = fun _ => (p.atomsAt i n).contains a) →
    Q i n v (p.nodeRhs e A i n own v)

/-- A pass over the variables of a block keeps what right-hand sides keep. -/
lemma Closed.renewed {Z : Assignment} {Q : Nat → Nat → Nat → Condition → Prop}
    (he : e.WellFormed) (hQ : Closed p e S.block Z Q) {block : Block}
    (hblock : e.blocks[S.block]? = some block) (hi : p.isInner i n = true)
    (hframe : ∀ j m, p.isInner j m = true → Framed e S.block (Z j m) (Q j m) (S.value j m))
    (hfinal : ∀ j m w, ¬ p.isInner j m = true → S.value j m w = fun x => x w) :
    Framed e S.block (Z i n) (Q i n) (S.renewed p e i n block.vars) := by
  suffices h : Framed e S.block (Z i n) (Q i n) (S.renewed p e i n block.vars) ∧
      ∀ c a, c ∈ block.vars → e.operator? c = some (.atom a) →
        S.renewed p e i n block.vars c = fun _ => (p.atomsAt i n).contains a from h.1
  refine EquationSystem.pass_induction
    (motive := fun before own => Framed e S.block (Z i n) (Q i n) own ∧
      ∀ c a, c ∈ before → e.operator? c = some (.atom a) →
        own c = fun _ => (p.atomsAt i n).contains a)
    (S.value i n) ⟨hframe i n hi, by simp⟩ ?_
  rintro before v after own hvars ⟨hown, hatoms⟩
  have hin : e.InBlock S.block v := ⟨block, hblock, by simp [hvars]⟩
  have hv : e.blockOf v = S.block := he.blockOf_eq hin
  have hnew : Q i n v (p.nodeRhs e S.value i n own v) := by
    refine hQ.rhs S.value i n v own hi hv hframe hfinal hown fun c a hc ha => ?_
    obtain ⟨hlt, -, hsame⟩ := he.neg_atom v c hc
    obtain ⟨block', hblock', hmem⟩ := hsame _ hin
    obtain rfl := Option.some.inj (hblock.symm.trans hblock')
    exact hatoms c a (he.mem_before hblock hvars hmem hlt) ha
  refine ⟨⟨fun w hw => ?_, fun w hw => ?_, fun w hw => ?_⟩, fun c a hc ha => ?_⟩
  · by_cases hwv : w = v
    · subst hwv
      rw [EquationSystem.refresh, Function.update_self]
      exact hnew
    · rw [EquationSystem.refresh, Function.update_of_ne hwv]
      exact hown.here w hw
  · rw [EquationSystem.refresh, Function.update_of_ne (by rintro rfl; omega)]
    exact hown.inner w hw
  · rw [EquationSystem.refresh, Function.update_of_ne (by rintro rfl; omega)]
    exact hown.outer w hw
  · by_cases hcv : c = v
    · subst hcv
      rw [EquationSystem.refresh, Function.update_self]
      funext x
      simp only [EquationSystem.rhs, ha, Operator.eval]
    · rw [EquationSystem.refresh, Function.update_of_ne hcv]
      refine hatoms c a ?_ ha
      simpa [hcv] using hc

/-- **The induction principle.**  The entries of a block that is being solved, or was solved, satisfy
whatever holds of the start value and is kept by right-hand sides. -/
theorem Reached.induction (he : e.WellFormed) (h : Reached p e S) {Z : Assignment}
    {Q : Nat → Nat → Nat → Condition → Prop} (hb : S.block ≤ b) (hlt : b < e.blocks.size)
    (hZ : ∀ i n v, b < e.blockOf v → S.value i n v = Z i n v) (hQ : Closed p e b Z Q) :
    ∀ i n v, p.isInner i n = true → e.blockOf v = b → Q i n v (S.value i n v) := by
  induction h with
  | start hall =>
      intro i n v hi hv
      have hsize : v < e.size := he.lt_size (hv ▸ hlt)
      have hvalue : startValue p e i n v = fun _ => e.isMax v := by
        funext x
        simp [startValue, hi, hsize]
      simp only [hvalue]
      exact hQ.start i n v hi hv
  | @move S T hS hmove ih =>
      intro i n v hi hv
      have hle := hmove.block_le
      have hZS : ∀ i n v, b < e.blockOf v → S.block ≤ b → S.value i n v = Z i n v := by
        intro i n v hv hSb
        rw [← hmove.value_eq he (by omega), hZ i n v hv]
      by_cases hSb : S.block ≤ b
      · have hS' := ih hSb fun i n v hv => hZS i n v hv hSb
        by_cases heq : S.block = b
        · subst heq
          cases hmove with
          | advance _ _ _ => exact hS' i n v hi hv
          | @update j m block _ hinner hblock _ _ =>
              have hframe : ∀ j m, p.isInner j m = true →
                  Framed e S.block (Z j m) (Q j m) (S.value j m) := fun j m hjm =>
                ⟨fun v hv => hS' j m v hjm hv, fun v hv => hZS j m v hv le_rfl,
                  fun v hv => hS.value_of_lt he hjm hv⟩
              have hnew := hQ.renewed he hblock hinner hframe fun j m w hjm =>
                hS.value_of_not_inner hjm
              simp only [Assignment.set]
              split
              · next hij =>
                  obtain ⟨rfl, rfl⟩ := hij
                  exact hnew.here v hv
              · exact hS' i n v hi hv
        · rw [hmove.value_eq he (by omega)]
          exact hS' i n v hi hv
      · -- the block is the next one, and nothing was done in it yet
        have hvS : e.blockOf v < S.block := by omega
        rw [hmove.value_eq he (by omega), hS.value_of_lt he hi hvS]
        exact hQ.start i n v hi hv

/-! ## Equations

A state satisfies its equations right after its update, unless an entry reads another one that was computed
later in the same pass.  It goes on satisfying them until something it reads is changed, and then it is
marked.  Once a block is left, the moves that follow do not show in its frame.
-/

/-- An assignment as it is while block `b` is solved: entries further out have their start value. -/
def framed (p : Program) (e : EquationSystem) (b : Nat) (A : Assignment) : Assignment :=
  fun i n v => if p.isInner i n = true ∧ e.blockOf v < b then fun _ => e.isMax v else A i n v

lemma framed_of_le {A : Assignment} (hv : b ≤ e.blockOf v) : framed p e b A i n v = A i n v := by
  simp only [framed]
  rw [if_neg]
  omega

/-- While a block is solved nothing is done further out. -/
lemma Reached.framed_eq (he : e.WellFormed) (h : Reached p e S) :
    framed p e S.block S.value = S.value := by
  funext i n v
  simp only [framed]
  split
  · next hv => rw [h.value_of_lt he hv.1 hv.2]
  · rfl

/-- A move does not show in the frame of a block further in. -/
lemma Move.framed_eq (he : e.WellFormed) {T : Snapshot} (h : Move p e S T) (hb : S.block < b) :
    framed p e b T.value = framed p e b S.value := by
  funext i n v
  simp only [framed]
  split
  · rfl
  · next hv =>
      by_cases hi : p.isInner i n = true
      · rw [h.value_eq he]
        intro heq
        exact hv ⟨hi, by omega⟩
      · rw [h.value_of_not_inner hi]

/-- A state satisfies the equation of a variable after its update, unless it reads itself. -/
lemma renewed_solves (he : e.WellFormed) {block : Block} (hblock : e.blocks[S.block]? = some block)
    (hv : e.blockOf v = S.block) (hahead : e.Ahead v) :
    S.renewed p e i n block.vars v
      = p.nodeRhs e S.value i n (S.renewed p e i n block.vars) v := by
  have hlt := (Array.getElem?_eq_some_iff.1 hblock).1
  obtain ⟨before, after, hvars⟩ := List.append_of_mem ((he.mem_vars_iff hblock).2 hv)
  obtain ⟨op, hop⟩ := EquationSystem.operator?_of_lt (he.lt_size (hv ▸ hlt))
  have hnodup := he.nodup hblock
  have hafter : v ∉ after := by
    rw [hvars] at hnodup
    exact (List.nodup_cons.1 (List.nodup_append.1 hnodup).2.1).1
  rw [renewed, hvars]
  refine EquationSystem.pass_solves (by simp [hop]) hafter (fun w hw hmem' => ?_) _
  have hle := he.le_of_mem_after hblock hvars hmem'
  have hwb : e.blockOf w = e.blockOf v := by
    rw [hv]
    exact he.blockOf_eq ⟨block, hblock, by rw [hvars]; simp [List.mem_cons.1 hmem']⟩
  have := hahead w hw hwb
  omega

/-- **A state that is not marked satisfies its equations.** -/
theorem Reached.clean_solves (he : e.WellFormed) (h : Reached p e S) :
    ∀ i n v, p.isInner i n = true → ¬ S.dirty i n → e.blockOf v = S.block → e.Ahead v →
      S.value i n v = p.nodeRhs e S.value i n (S.value i n) v := by
  induction h with
  | start hall => exact fun i n v hi hclean => absurd (hall i n hi) hclean
  | @move S T hS hmove ih =>
      cases hmove with
      | advance _ _ hall => exact fun i n v hi hclean => absurd (hall i n hi) hclean
      | @update j m block dirty hinner hblock hkeep hmark =>
          intro i n v hi hclean hv hahead
          simp only at hclean hv ⊢
          by_cases hsame : S.renewed p e j m block.vars = S.value j m
          · -- nothing has changed, so the pass found all its equations satisfied
            rw [hsame, Assignment.set_eq_self]
            by_cases hij : i = j ∧ n = m
            · obtain ⟨rfl, rfl⟩ := hij
              have hsolves := renewed_solves (p := p) (i := i) (n := n) he hblock hv hahead
              rw [hsame] at hsolves
              exact hsolves
            · exact ih i n v hi (fun hd => hclean (hkeep i n hd hij)) hv hahead
          · -- everything that reads the state is marked
            have hunread : ¬ p.Reads i n j m := fun hr => hclean (hmark hsame i n hr)
            have hcongr : ∀ own, p.nodeRhs e (S.value.set j m (S.renewed p e j m block.vars)) i n own
                = p.nodeRhs e S.value i n own := fun own =>
              Program.nodeRhs_congr fun j' m' hr => Assignment.set_of_ne (by
                rintro ⟨rfl, rfl⟩
                exact hunread hr)
            rw [hcongr]
            by_cases hij : i = j ∧ n = m
            · obtain ⟨rfl, rfl⟩ := hij
              rw [Assignment.set_self]
              exact renewed_solves he hblock hv hahead
            · rw [Assignment.set_of_ne hij]
              exact ih i n v hi (fun hd => hclean (hkeep i n hd hij)) hv hahead

/-- **A block that was left stays solved.** -/
theorem Reached.solved (he : e.WellFormed) (h : Reached p e S) :
    ∀ b, S.block < b → b < e.blocks.size → ∀ i n v, p.isInner i n = true → e.blockOf v = b →
      e.Ahead v →
      S.value i n v = p.nodeRhs e (framed p e b S.value) i n (framed p e b S.value i n) v := by
  induction h with
  | start hall =>
      intro b hb hlt
      simp only at hb
      omega
  | @move S T hS hmove ih =>
      intro b hb hlt i n v hi hv hahead
      have hle := hmove.block_le
      by_cases hSb : S.block < b
      · rw [hmove.framed_eq he hSb, hmove.value_eq he (by omega)]
        exact ih b hSb hlt i n v hi hv hahead
      · cases hmove with
        | update _ _ _ _ => exact absurd hb hSb
        | advance hpos hidle _ =>
            simp only at hb ⊢
            obtain rfl : S.block = b := by omega
            rw [hS.framed_eq he]
            exact hS.clean_solves he i n v hi (hidle i n hi) hv hahead

end Snapshot

end ModalCalls
