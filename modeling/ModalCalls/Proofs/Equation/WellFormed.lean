import Mathlib
import ModalCalls.Proofs.Equation.Numbered

/-!
# Well-formed equation systems

What the solver relies on in a system of equations, and that the equations of every accepted formula
have it (`EquationSystem.wellFormed_of_formula`).

Two conditions go further and do not hold of every formula.

* `EquationSystem.Forward` — no operator reads, at its own state, an entry of its own block that is
  computed again after it.  Formulas in which every reference stands under a modality have it
  (`EquationSystem.forward_of_guarded`).
* `EquationSystem.Layered` — no operand lies in a block further out.  Alternation-free formulas have it
  (`EquationSystem.layered_of_alternationFree`).
-/

namespace ModalCalls

namespace EquationSystem

/-- A variable stands in a block. -/
def InBlock (e : EquationSystem) (b v : Nat) : Prop :=
  ∃ block : Block, e.blocks[b]? = some block ∧ v ∈ block.vars

/-- **A well-formed system.** -/
structure WellFormed (e : EquationSystem) : Prop where
  size_pos : 0 < e.size
  /-- Every variable has a block. -/
  covered : ∀ v, v < e.size → ∃ b, e.InBlock b v
  /-- Every variable has only one block. -/
  disjoint : ∀ b b' v, e.InBlock b v → e.InBlock b' v → b = b'
  vars_lt : ∀ b v, e.InBlock b v → v < e.size
  /-- Blocks list their variables children first. -/
  descending : ∀ (b : Nat) (block : Block), e.blocks[b]? = some block → block.vars.Pairwise (· > ·)
  operands_lt : ∀ v op, e.operator? v = some op → ∀ w ∈ op.operands, w < e.size
  /-- A negation stands on an atom of its block that is listed before it. -/
  neg_atom : ∀ v c, e.operator? v = some (.neg c) →
    v < c ∧ (∃ a, e.operator? c = some (.atom a)) ∧ ∀ b, e.InBlock b v → e.InBlock b c

/-- What the equation of a variable reads, at its own state and in its own block, is computed before
it. -/
def Ahead (e : EquationSystem) (v : Nat) : Prop :=
  ∀ w ∈ e.readsOf v, e.blockOf w = e.blockOf v → v < w

/-- No operator reads, at its own state, an entry of its own block that is not computed before it. -/
def Forward (e : EquationSystem) : Prop :=
  ∀ v, e.Ahead v

/-- No operand lies in a block further out. -/
def Layered (e : EquationSystem) : Prop :=
  ∀ v op, e.operator? v = some op → ∀ w ∈ op.operands, e.blockOf v ≤ e.blockOf w

variable {e : EquationSystem} {b v : Nat}

/-! ## Using well-formedness

Blocks are given as lists of variables, and the question that is asked again and again is in which block a
variable stands.  In a well-formed system `blockOf` answers it, and the lemmas here translate between the
two.  The last one is what the order of a block is for: a pass respects it, although a negation does not,
because under a negation there is an atom whose value is the same on both sides.
-/

lemma operator?_of_lt (hv : v < e.size) : ∃ op, e.operator? v = some op := by
  refine ⟨e.equations[v].operator, ?_⟩
  simp only [operator?, Array.getElem?_eq_getElem hv, Option.map_some]

lemma inBlock_of_blockOf_lt (h : e.blockOf v < e.blocks.size) : e.InBlock (e.blockOf v) v :=
  ⟨e.blocks[e.blockOf v], Array.getElem?_eq_getElem h,
    List.contains_iff_mem.1 (Array.findIdx_getElem (w := h))⟩

namespace WellFormed

lemma lt_size (h : e.WellFormed) (hv : e.blockOf v < e.blocks.size) : v < e.size :=
  h.vars_lt _ v (inBlock_of_blockOf_lt hv)

lemma blockOf_eq (h : e.WellFormed) (hb : e.InBlock b v) : e.blockOf v = b := by
  obtain ⟨block, hblock, hv⟩ := id hb
  obtain ⟨hlt, hget⟩ := Array.getElem?_eq_some_iff.1 hblock
  rw [blockOf, Array.findIdx_eq hlt]
  refine ⟨by simpa [hget] using hv, fun j hj => ?_⟩
  by_contra hne
  have hin : e.InBlock j v :=
    ⟨e.blocks[j], Array.getElem?_eq_getElem (by omega), by simpa using hne⟩
  have := h.disjoint _ _ _ hin hb
  omega

lemma inBlock_blockOf (h : e.WellFormed) (hv : v < e.size) : e.InBlock (e.blockOf v) v := by
  obtain ⟨b, hb⟩ := h.covered v hv
  rwa [h.blockOf_eq hb]

lemma mem_vars_iff (h : e.WellFormed) {block : Block} (hblock : e.blocks[b]? = some block) :
    v ∈ block.vars ↔ e.blockOf v = b := by
  constructor
  · exact fun hv => h.blockOf_eq ⟨block, hblock, hv⟩
  · rintro rfl
    have hlt := (Array.getElem?_eq_some_iff.1 hblock).1
    obtain ⟨block', hblock', hv⟩ := inBlock_of_blockOf_lt hlt
    obtain rfl := Option.some.inj (hblock.symm.trans hblock')
    exact hv

/-- A variable is of the kind of its block. -/
lemma isMax_eq (h : e.WellFormed) {block : Block} (hblock : e.blocks[b]? = some block)
    (hv : v ∈ block.vars) : e.isMax v = block.isMax := by
  obtain ⟨hlt, hget⟩ := Array.getElem?_eq_some_iff.1 hblock
  rw [isMax, Bool.eq_iff_iff, Array.any_eq_true]
  constructor
  · rintro ⟨j, hj, hmax⟩
    simp only [Bool.and_eq_true, List.contains_iff_mem] at hmax
    have hin : e.InBlock j v := ⟨e.blocks[j], Array.getElem?_eq_getElem hj, hmax.2⟩
    obtain rfl := h.disjoint _ _ _ hin ⟨block, hblock, hv⟩
    rw [← hget]
    exact hmax.1
  · intro hmax
    exact ⟨b, hlt, by simp [hget, hmax, hv]⟩

/-- The variables of a block are of one kind. -/
lemma isMax_congr (h : e.WellFormed) {w : Nat} (hb : e.blockOf v < e.blocks.size)
    (hw : e.blockOf w = e.blockOf v) : e.isMax w = e.isMax v := by
  obtain ⟨block, hblock, hv⟩ := inBlock_of_blockOf_lt hb
  rw [h.isMax_eq hblock hv, h.isMax_eq hblock ((h.mem_vars_iff hblock).2 hw)]

lemma blockOf_lt (h : e.WellFormed) (hv : v < e.size) : e.blockOf v < e.blocks.size := by
  obtain ⟨block, hblock, -⟩ := h.inBlock_blockOf hv
  exact (Array.getElem?_eq_some_iff.1 hblock).1

/-- What stands in no block is not a variable. -/
lemma size_le_of_blockOf_ge (h : e.WellFormed) (hv : e.blocks.size ≤ e.blockOf v) : e.size ≤ v := by
  by_contra hlt
  have := h.blockOf_lt (v := v) (by omega)
  omega

lemma nodup (h : e.WellFormed) {block : Block} (hblock : e.blocks[b]? = some block) :
    block.vars.Nodup :=
  (h.descending b block hblock).imp fun hlt => Nat.ne_of_gt hlt

/-- Later numbers are listed earlier. -/
lemma mem_before (h : e.WellFormed) {block : Block} (hblock : e.blocks[b]? = some block)
    {before after : List Nat} (hvars : block.vars = before ++ v :: after) {w : Nat}
    (hw : w ∈ block.vars) (hlt : v < w) : w ∈ before := by
  have hdesc := h.descending b block hblock
  rw [hvars] at hw hdesc
  rcases List.mem_append.1 hw with hw | hw
  · exact hw
  · rcases List.mem_cons.1 hw with rfl | hw
    · exact absurd hlt (lt_irrefl _)
    · have := (List.pairwise_cons.1 (List.pairwise_append.1 hdesc).2.1).1 w hw
      omega

/-- What is listed at a variable's turn or later has a smaller number or the same. -/
lemma le_of_mem_after (h : e.WellFormed) {block : Block} (hblock : e.blocks[b]? = some block)
    {before after : List Nat} (hvars : block.vars = before ++ v :: after) {w : Nat}
    (hw : w ∈ v :: after) : w ≤ v := by
  have hdesc := h.descending b block hblock
  rw [hvars] at hdesc
  rcases List.mem_cons.1 hw with rfl | hw
  · exact le_rfl
  · have := (List.pairwise_cons.1 (List.pairwise_append.1 hdesc).2.1).1 w hw
    omega

/-- **A pass over a block respects its order**, from two summaries and at two inputs. -/
lemma pass_below (h : e.WellFormed) {block : Block} (hblock : e.blocks[b]? = some block) {k : Bool}
    {holds : String → Bool} {α : Type} {l : List α} {t t' : α → Summary} {own own' : Summary}
    {x x' : Nat → Bool} (hown : ∀ w, Below k (own w x) (own' w x'))
    (halong : ∀ v op c, e.operator? v = some op → op.child? = some c →
      ∀ a ∈ l, Below k (t a v x) (t' a v x')) (v : Nat) :
    Below k (e.pass holds (l.map t) block.vars own v x) (e.pass holds (l.map t') block.vars own' v x') := by
  -- a negation respects no order, but the atom under it has the same value in both passes
  suffices hall : (∀ v, Below k (e.pass holds (l.map t) block.vars own v x)
      (e.pass holds (l.map t') block.vars own' v x')) ∧
      ∀ c a, c ∈ block.vars → e.operator? c = some (.atom a) →
        e.pass holds (l.map t) block.vars own c x = e.pass holds (l.map t') block.vars own' c x' from
    hall.1 v
  refine pass_induction₂
    (motive := fun before o o' => (∀ v, Below k (o v x) (o' v x')) ∧
      ∀ c a, c ∈ before → e.operator? c = some (.atom a) → o c x = o' c x')
    own own' ⟨hown, by simp⟩ ?_
  rintro before v after o o' hvars ⟨hbelow, hatoms⟩
  have hin : e.InBlock b v := ⟨block, hblock, by simp [hvars]⟩
  obtain ⟨op, hop⟩ := operator?_of_lt (h.vars_lt b v hin)
  have hnew : Below k (e.rhs holds (l.map t) o v x) (e.rhs holds (l.map t') o' v x') := by
    refine rhs_below hop (fun w _ => hbelow w) ?_ fun c hc => halong v op c hop hc
    rintro c rfl
    obtain ⟨hlt, ⟨a, ha⟩, hsame⟩ := h.neg_atom v c hop
    obtain ⟨block', hblock', hmem⟩ := hsame b hin
    obtain rfl := Option.some.inj (hblock.symm.trans hblock')
    exact hatoms c a (h.mem_before hblock hvars hmem hlt) ha
  refine ⟨fun w => ?_, fun c a hc ha => ?_⟩
  · rcases eq_or_ne w v with rfl | hwv
    · simpa only [refresh, Function.update_self] using hnew
    · simpa only [refresh, Function.update_of_ne hwv] using hbelow w
  · rcases eq_or_ne c v with rfl | hcv
    · simp only [refresh, Function.update_self, rhs, ha, Operator.eval]
    · simp only [refresh, Function.update_of_ne hcv]
      exact hatoms c a (by simpa [hcv] using hc) ha

end WellFormed

end EquationSystem

/-! ## The blocks of a numbered formula

Numbering labels each equation with the block that was open at its place.  Assembling sorts the equations by
this label and drops blocks without any.  So well-formedness is shown of labels first: where the equations
of a part may go, that operands exist, and that an atom follows its negation directly.
-/

namespace Numbering

open Formula EquationSystem

variable {f : Formula} {p : Place} {part : Part} {b v : Nat}

/-- The equations of a part go to the current block or to blocks that the part opens. -/
lemma Numbered.block_cases (h : Numbered f p part) :
    ∀ q ∈ part.equations, q.1 = p.block ∨ (p.blocks ≤ q.1 ∧ q.1 < p.blocks + part.opened.length) := by
  induction h with
  | ref hx => simp [Part.reference]
  | @fixpoint isMax x f p body hf hbody ih =>
      intro q hq
      have hq' := ih q hq
      simp only [Place.enter, Part.bind] at hq' ⊢
      by_cases hk : isMax = p.isMax
      · simpa only [if_pos hk] using hq'
      · simp only [if_neg hk, List.length_cons] at hq' ⊢
        exact Or.inr (by omega)
  | leaf hleaf =>
      intro q hq
      obtain rfl := List.mem_singleton.1 hq
      exact Or.inl rfl
  | @unary f g op p operand hun hoperand ih =>
      intro q hq
      rcases List.mem_cons.1 hq with rfl | hq
      · exact Or.inl rfl
      · exact ih q hq
  | @binary f g h op p l r hbin hl hr ihl ihr =>
      intro q hq
      simp only [Part.ofOperator, Part.append, List.length_append]
      rcases List.mem_cons.1 hq with rfl | hq
      · exact Or.inl rfl
      · rcases List.mem_append.1 hq with hq | hq
        · rcases ihl q hq with h | ⟨h1, h2⟩
          · exact Or.inl h
          · exact Or.inr ⟨h1, by simp only [Place.inside] at h2; omega⟩
        · have hq' := ihr q hq
          simp only [Place.after, Place.inside] at hq'
          rcases hq' with h | ⟨h1, h2⟩
          · exact Or.inl h
          · exact Or.inr ⟨by omega, by omega⟩

lemma mem_blockVars : v ∈ blockVars part b ↔ ∃ q, part.equations[v]? = some (b, q) := by
  simp only [blockVars, List.mem_reverse, List.mem_map, List.mem_filter, List.mem_mapIdx]
  constructor
  · rintro ⟨⟨w, c⟩, ⟨⟨i, hi, heq⟩, hc⟩, rfl⟩
    simp only [Prod.mk.injEq] at heq
    obtain ⟨rfl, rfl⟩ := heq
    simp only [decide_eq_true_eq] at hc
    exact ⟨part.equations[i].2, by rw [List.getElem?_eq_getElem hi, ← hc]⟩
  · rintro ⟨q, hq⟩
    obtain ⟨hi, hget⟩ := List.getElem?_eq_some_iff.1 hq
    exact ⟨(v, b), ⟨⟨v, hi, by rw [hget]⟩, by simp⟩, rfl⟩

lemma blockVars_descending (part : Part) (b : Nat) : (blockVars part b).Pairwise (· > ·) := by
  rw [blockVars, List.pairwise_reverse]
  refine List.Pairwise.map _ (fun a c h => h) (List.Pairwise.filter _ ?_)
  rw [List.pairwise_iff_getElem]
  intro i j hi hj hij
  simpa using hij

/-- The blocks that have variables. -/
def usedBlocks (part : Part) : List Nat :=
  (List.range (part.opened.length + 1)).filter fun b => !(blockVars part b).isEmpty

/-- The kind of each block before empty ones are dropped. -/
def kinds (f : Formula) (part : Part) : List Bool :=
  rootIsMax f :: part.opened

lemma blocksOf_eq (f : Formula) (part : Part) :
    blocksOf f part
      = (usedBlocks part).map fun b => ⟨(kinds f part).getD b false, blockVars part b⟩ := by
  have hidx : (rootIsMax f :: part.opened).mapIdx (fun b isMax => Block.mk isMax (blockVars part b))
      = (List.range (part.opened.length + 1)).map fun b =>
          ⟨(kinds f part).getD b false, blockVars part b⟩ := by
    refine List.ext_getElem (by simp) fun i hi hi' => ?_
    have hlt : i < (rootIsMax f :: part.opened).length := by simpa using hi
    simp only [List.getElem_mapIdx, List.getElem_map, List.getElem_range, kinds,
      List.getD_eq_getElem?_getD, List.getElem?_eq_getElem hlt, Option.getD_some]
  rw [blocksOf, hidx, List.filter_map]
  rfl

lemma usedBlocks_sorted (part : Part) : (usedBlocks part).Pairwise (· < ·) :=
  List.Pairwise.filter _ List.pairwise_lt_range

lemma blocks_getElem? {b : Nat} {block : Block} :
    (assemble f part).blocks[b]? = some block ↔ ∃ r, (usedBlocks part)[b]? = some r ∧
      block = ⟨(kinds f part).getD r false, blockVars part r⟩ := by
  simp only [assemble, blocksOf_eq, List.getElem?_toArray, List.getElem?_map,
    Option.map_eq_some_iff]
  constructor
  · rintro ⟨r, hr, rfl⟩
    exact ⟨r, hr, rfl⟩
  · rintro ⟨r, hr, rfl⟩
    exact ⟨r, hr, rfl⟩

lemma inBlock_iff {b : Nat} : (assemble f part).InBlock b v ↔
    ∃ r, (usedBlocks part)[b]? = some r ∧ ∃ q, part.equations[v]? = some (r, q) := by
  constructor
  · rintro ⟨block, hblock, hv⟩
    obtain ⟨r, hr, rfl⟩ := blocks_getElem?.1 hblock
    exact ⟨r, hr, mem_blockVars.1 hv⟩
  · rintro ⟨r, hr, hv⟩
    exact ⟨_, blocks_getElem?.2 ⟨r, hr, rfl⟩, mem_blockVars.2 hv⟩

lemma operator?_assemble {op : Operator} : (assemble f part).operator? v = some op ↔
    ∃ r q, part.equations[v]? = some (r, q) ∧ q.operator = op := by
  simp only [operator?, assemble, List.getElem?_toArray, List.getElem?_map]
  cases part.equations[v]? with
  | none => simp
  | some q =>
      obtain ⟨r, q⟩ := q
      simp

lemma size_assemble : (assemble f part).size = part.equations.length := by
  simp [assemble, EquationSystem.size]

/-! ### Operands

The root of an operand is the next number, or the number of a fixpoint further out, which is smaller.  In
both cases it has an equation.
-/

/-- Where the numbering of a whole formula starts no name is in scope, so a formula is not a bare
reference. -/
lemma Numbered.isRef_eq_false (h : Numbered f (.start f) part) : f.isRef = false := by
  cases hf : f.isRef with
  | false => rfl
  | true =>
      obtain ⟨x, -, hx⟩ := h.of_isRef hf
      simp [Place.start] at hx

/-- Operands exist. -/
lemma Numbered.operands_lt (h : Numbered f (.start f) part) :
    ∀ v, v < part.equations.length → ∀ b q, part.equations[v]? = some (b, q) →
      ∀ w ∈ q.operator.operands, w < part.equations.length := by
  intro v hv
  refine h.forall_equations
    (C := fun _ p _ => ∀ x w, p.scope.lookup x = some w → w < part.equations.length)
    (motive := fun v => ∀ b q, part.equations[v]? = some (b, q) →
      ∀ w ∈ q.operator.operands, w < part.equations.length)
    ?_ ?_ ?_ ?_ (List.prefix_refl _) (by simp [Place.start]) v (Nat.zero_le v) (by simpa [Place.start])
  · intro isMax x f p body hf hbody hstands hscope y w hy
    simp only [Place.enter, List.lookup_cons] at hy
    split at hy
    · obtain rfl := Option.some.inj hy
      exact hstands.lt_length (hbody.root_eq hf).2
    · exact hscope y w hy
  · intro f op p hleaf hget hscope b q hq w hw
    rw [hget] at hq
    cases hq
    simp [hleaf.operands_eq] at hw
  · intro f g op p operand hun hnum hget hstands hscope
    refine ⟨fun b q hq w hw => ?_, hscope⟩
    rw [hget] at hq
    cases hq
    simp only [hun.operands_eq, List.mem_singleton] at hw
    subst hw
    exact hnum.root_lt_length hstands hscope
  · intro f g h op p l r hbin hl hr hget hstandsl hstandsr hscope
    refine ⟨fun b q hq w hw => ?_, hscope, hscope⟩
    rw [hget] at hq
    cases hq
    simp only [hbin.operands_eq, List.mem_cons, List.not_mem_nil, or_false] at hw
    rcases hw with rfl | rfl
    · exact hl.root_lt_length hstandsl hscope
    · exact hr.root_lt_length hstandsr hscope

/-- A negation is followed by the atom it stands on, in the same block. -/
lemma Numbered.neg_next (h : Numbered f (.start f) part) :
    ∀ v, v < part.equations.length → ∀ b q c, part.equations[v]? = some (b, q) →
      q.operator = .neg c → c = v + 1 ∧
        ∃ q' a, part.equations[v + 1]? = some (b, q') ∧ q'.operator = .atom a := by
  intro v hv
  refine h.forall_equations (C := fun _ _ _ => True)
    (motive := fun v => ∀ b q c, part.equations[v]? = some (b, q) →
      q.operator = .neg c → c = v + 1 ∧
        ∃ q' a, part.equations[v + 1]? = some (b, q') ∧ q'.operator = .atom a)
    (fun _ _ _ _ => trivial) ?_ ?_ ?_ (List.prefix_refl _) trivial v (Nat.zero_le v)
    (by simpa [Place.start])
  · intro f op p hleaf hget _ b q c hq hneg
    rw [hget] at hq
    cases hq
    cases hleaf <;> cases hneg
  · intro f g op p operand hun hnum hget hstands _
    refine ⟨fun b q c hq hneg => ?_, trivial⟩
    rw [hget] at hq
    cases hq
    cases hun with
    | neg a =>
        cases hneg
        obtain rfl := hnum.of_atom rfl
        exact ⟨rfl, _, a, hstands.head.1, rfl⟩
    | box a f => cases hneg
    | dia a f => cases hneg
  · intro f g h op p l r hbin hl hr hget _ _ _
    refine ⟨fun b q c hq hneg => ?_, trivial, trivial⟩
    rw [hget] at hq
    cases hq
    cases hbin <;> cases hneg

/-- **The equations of an accepted formula are well formed.** -/
theorem Numbered.wellFormed (h : Numbered f (.start f) part) : (assemble f part).WellFormed where
  size_pos := by
    rw [size_assemble]
    exact (h.root_eq h.isRef_eq_false).2
  covered := by
    intro v hv
    rw [size_assemble] at hv
    have hmem := List.getElem_mem hv
    have hget : part.equations[v]? = some (part.equations[v].1, part.equations[v].2) :=
      List.getElem?_eq_getElem hv
    have hlt : part.equations[v].1 < part.opened.length + 1 := by
      have := h.block_cases _ hmem
      simp only [Place.start] at this
      omega
    have hused : part.equations[v].1 ∈ usedBlocks part := by
      simp only [usedBlocks, List.mem_filter, List.mem_range]
      refine ⟨hlt, ?_⟩
      have hv' := mem_blockVars.2 ⟨_, hget⟩
      simpa using List.ne_nil_of_mem hv'
    obtain ⟨b, hb⟩ := List.getElem?_of_mem hused
    exact ⟨b, inBlock_iff.2 ⟨_, hb, _, hget⟩⟩
  disjoint := by
    intro b b' v hb hb'
    obtain ⟨r, hr, q, hq⟩ := inBlock_iff.1 hb
    obtain ⟨r', hr', q', hq'⟩ := inBlock_iff.1 hb'
    rw [hq] at hq'
    simp only [Option.some.injEq, Prod.mk.injEq] at hq'
    obtain ⟨rfl, -⟩ := hq'
    have hnodup : (usedBlocks part).Nodup := (usedBlocks_sorted part).imp Nat.ne_of_lt
    obtain ⟨hlt, hget⟩ := List.getElem?_eq_some_iff.1 hr
    obtain ⟨hlt', hget'⟩ := List.getElem?_eq_some_iff.1 hr'
    exact (hnodup.getElem_inj_iff).1 (hget.trans hget'.symm)
  vars_lt := by
    intro b v hb
    obtain ⟨r, -, q, hq⟩ := inBlock_iff.1 hb
    rw [size_assemble]
    exact (List.getElem?_eq_some_iff.1 hq).1
  descending := by
    intro b block hblock
    obtain ⟨r, -, rfl⟩ := blocks_getElem?.1 hblock
    exact blockVars_descending part r
  operands_lt := by
    intro v op hop
    obtain ⟨r, q, hq, rfl⟩ := operator?_assemble.1 hop
    rw [size_assemble]
    exact h.operands_lt v (List.getElem?_eq_some_iff.1 hq).1 r q hq
  neg_atom := by
    intro v c hop
    obtain ⟨r, q, hq, hneg⟩ := operator?_assemble.1 hop
    obtain ⟨rfl, q', a, hq', ha⟩ := h.neg_next v (List.getElem?_eq_some_iff.1 hq).1 r q c hq hneg
    refine ⟨Nat.lt_succ_self v, ⟨a, operator?_assemble.2 ⟨r, q', hq', ha⟩⟩, fun b hb => ?_⟩
    obtain ⟨r', hr', q'', hq''⟩ := inBlock_iff.1 hb
    rw [hq] at hq''
    cases hq''
    exact inBlock_iff.2 ⟨r, hr', q', hq'⟩

/-! ## Formulas whose references stand under modalities

An operator that is no modality reads its operands at its own state.  If none of them is a reference, all of
them have been entered after it and have larger numbers.
-/

lemma isRef_eq_false_of_isGuarded (hf : f.isGuarded = true) : f.isRef = false := by
  cases f <;> first | rfl | cases hf

/-- Where every reference stands under a modality, operators read later numbers only. -/
lemma Numbered.reads_gt (h : Numbered f (.start f) part) (hguarded : f.isGuarded = true) :
    ∀ v, v < part.equations.length → ∀ b q, part.equations[v]? = some (b, q) →
      ∀ w ∈ q.operator.reads, v < w := by
  intro v hv
  refine h.forall_equations (C := fun f _ _ => f.isRef = true ∨ f.isGuarded = true)
    (motive := fun v => ∀ b q, part.equations[v]? = some (b, q) →
      ∀ w ∈ q.operator.reads, v < w)
    ?_ ?_ ?_ ?_ (List.prefix_refl _) (Or.inr hguarded) v (Nat.zero_le v) (by simpa [Place.start])
  · intro isMax x f p body hf hbody _ hC
    rcases hC with hC | hC
    · rw [isRef_fixpoint] at hC
      cases hC
    · right
      cases isMax <;> exact hC
  · intro f op p hleaf hget _ b q hq w hw
    rw [hget] at hq
    cases hq
    cases hleaf <;> cases hw
  · intro f g op p operand hun hnum hget _ hC
    refine ⟨fun b q hq w hw => ?_, ?_⟩
    · rw [hget] at hq
      cases hq
      cases hun with
      | neg a =>
          obtain rfl := hnum.of_atom rfl
          obtain rfl := List.mem_singleton.1 hw
          exact Nat.lt_succ_self _
      | box a f => cases hw
      | dia a f => cases hw
    · cases hun with
      | neg a => exact Or.inr rfl
      | box a f => simpa [isRef, isGuarded] using hC
      | dia a f => simpa [isRef, isGuarded] using hC
  · intro f g h op p l r hbin hl hr hget _ _ hC
    have hboth : g.isGuarded = true ∧ h.isGuarded = true := by
      cases hbin <;> simpa [isRef, isGuarded] using hC
    refine ⟨fun b q hq w hw => ?_, Or.inr hboth.1, Or.inr hboth.2⟩
    have hlroot := (hl.root_eq (isRef_eq_false_of_isGuarded hboth.1)).1
    have hrroot := (hr.root_eq (isRef_eq_false_of_isGuarded hboth.2)).1
    simp only [Place.after, Place.inside] at hlroot hrroot
    rw [hget] at hq
    cases hq
    have hw' : w = l.root ∨ w = r.root := by
      cases hbin <;> simpa [Operator.reads] using hw
    omega

/-! ## Alternation-free formulas

What has to be excluded is a reference from an inner block to a variable of an outer one.  `Scoped` follows
the names in scope on the way down and says of those that may still be referred to that they belong to the
current block.  A fixpoint of the other kind opens a new block and at the same time puts all names around it
out of reach; a fixpoint of the same kind does neither.
-/

/-- What is known of the names in scope at a place inside an alternation-free formula: a name that may
be referred to belongs to the current block, or to the equation that comes next. -/
structure Scoped (E : List (Nat × Equation)) (scope : List (String × Bool)) (p : Place) : Prop where
  block_lt : p.block < p.blocks
  names : p.scope.map Prod.fst = scope.map Prod.fst
  reachable : ∀ x u isMax, p.scope.lookup x = some u → scope.lookup x = some isMax →
    mayReach scope x = true →
    isMax = p.isMax ∧ (u = p.next ∨ ∃ q, E[u]? = some (p.block, q))

variable {E : List (Nat × Equation)} {scope : List (String × Bool)}

lemma lookup_isSome {α : Type} {x : String} :
    ∀ {l : List (String × α)}, (l.lookup x).isSome = true ↔ x ∈ l.map Prod.fst
  | [] => by simp
  | (y, a) :: l => by
      rw [List.lookup_cons]
      by_cases h : x == y
      · simp [beq_iff_eq.1 h]
      · have hne : x ≠ y := fun hxy => h (beq_iff_eq.2 hxy)
        simp [h, lookup_isSome, hne]

/-- A name that may be referred to inside one more fixpoint is of the same kind, and may be referred to
outside of it. -/
lemma mayReach_cons {x y : String} {isMax k : Bool} (hyx : y ≠ x)
    (hreach : mayReach ((x, isMax) :: scope) y = true) (hk : scope.lookup y = some k) :
    isMax = k ∧ mayReach scope y = true := by
  have hne : (y == x) = false := by simpa using hyx
  simp only [mayReach, List.lookup_cons, hne, hk, List.takeWhile_cons, ne_eq, Ne.symm hyx,
    not_false_eq_true, decide_true, if_true, List.all_cons, Bool.and_eq_true, beq_iff_eq] at hreach
  obtain ⟨rfl, hrest⟩ := hreach
  exact ⟨rfl, by simpa only [mayReach, hk] using hrest⟩

lemma mayReach_of_cons {x y : String} {isMax : Bool} (hyx : y ≠ x)
    (hreach : mayReach ((x, isMax) :: scope) y = true) : mayReach scope y = true := by
  cases hk : scope.lookup y with
  | none => simp only [mayReach, hk]
  | some k => exact (mayReach_cons hyx hreach hk).2

/-! ### On the way down

What `Scoped` says is kept by entering a fixpoint and by moving on to an operand.  Between a fixpoint and
the first operator below it the equation of the name is still to come; that is the second case in
`reachable`, and it is settled once the operator has its equation.
-/

lemma Scoped.exists_kind (hscoped : Scoped E scope p) {x : String} {u : Nat}
    (hu : p.scope.lookup x = some u) : ∃ isMax, scope.lookup x = some isMax := by
  refine Option.isSome_iff_exists.1 ?_
  rw [lookup_isSome, ← hscoped.names, ← lookup_isSome, hu]
  rfl

/-- Only a fixpoint of the current kind lets other names through. -/
lemma Scoped.kind_eq (hscoped : Scoped E scope p) {x y : String} {u : Nat} {isMax : Bool}
    (hyx : y ≠ x) (hu : p.scope.lookup y = some u)
    (hreach : mayReach ((x, isMax) :: scope) y = true) : isMax = p.isMax := by
  obtain ⟨k, hk⟩ := hscoped.exists_kind hu
  obtain ⟨rfl, hold⟩ := mayReach_cons hyx hreach hk
  exact (hscoped.reachable y u isMax hu hk hold).1

/-- Entering a fixpoint. -/
lemma Scoped.enter (hscoped : Scoped E scope p) (x : String) (isMax : Bool) :
    Scoped E ((x, isMax) :: scope) (p.enter x isMax) where
  block_lt := by
    have := hscoped.block_lt
    simp only [Place.enter]
    split <;> omega
  names := by simp [Place.enter, hscoped.names]
  reachable := by
    intro y u k hu hk hreach
    by_cases hyx : y = x
    · subst hyx
      simp only [Place.enter, List.lookup_cons, beq_self_eq_true, Option.some.injEq] at hu hk
      exact ⟨hk.symm, Or.inl hu.symm⟩
    · have hne : (y == x) = false := by simpa using hyx
      simp only [Place.enter, List.lookup_cons, hne] at hu hk
      obtain ⟨rfl, hplace⟩ := hscoped.reachable y u k hu hk (mayReach_of_cons hyx hreach)
      obtain rfl := hscoped.kind_eq hyx hu hreach
      simpa [Place.enter] using hplace

/-- Behind the equation of an operator all names that may be referred to belong to its block. -/
lemma Scoped.reach_block (hscoped : Scoped E scope p) {q : Equation}
    (hget : E[p.next]? = some (p.block, q)) {x : String} {u : Nat}
    (hu : p.scope.lookup x = some u) (hreach : mayReach scope x = true) :
    ∃ q, E[u]? = some (p.block, q) := by
  obtain ⟨isMax, hk⟩ := hscoped.exists_kind hu
  rcases (hscoped.reachable x u isMax hu hk hreach).2 with rfl | h
  · exact ⟨q, hget⟩
  · exact h

/-- Moving on to another place in the same block, behind the equation of an operator. -/
lemma Scoped.move (hscoped : Scoped E scope p) {q : Equation}
    (hget : E[p.next]? = some (p.block, q)) {p' : Place} (hscope : p'.scope = p.scope)
    (hblock : p'.block = p.block) (hmax : p'.isMax = p.isMax) (hblocks : p.blocks ≤ p'.blocks) :
    Scoped E scope p' where
  block_lt := by
    have := hscoped.block_lt
    omega
  names := by rw [hscope, hscoped.names]
  reachable := by
    intro x u isMax hu hk hreach
    rw [hscope] at hu
    rw [hmax, hblock]
    exact ⟨(hscoped.reachable x u isMax hu hk hreach).1,
      Or.inr (hscoped.reach_block hget hu hreach)⟩

/-! ### Operands lie further in

An operand is a formula with an equation of its own or a reference.  The former goes to the current block or
opens a new one.  The latter is to a name that may be referred to, hence of the current block.
-/

/-- The root of an operand lies in the block of its operator or further in. -/
lemma Numbered.root_block_ge {g : Formula} {p' : Place} {operand : Part}
    (hnum : Numbered g p' operand) (hscoped : Scoped E scope p) {q : Equation}
    (hget : E[p.next]? = some (p.block, q)) (hscope : p'.scope = p.scope)
    (hblock : p'.block = p.block) (hblocks : p.blocks ≤ p'.blocks)
    (hstands : StandsAt E p'.next operand.equations) (hfree : g.isAlternationFreeIn scope = true) :
    ∃ b q, E[operand.root]? = some (b, q) ∧ p.block ≤ b := by
  cases hg : g.isRef with
  | true =>
      obtain ⟨x, rfl, hx⟩ := hnum.of_isRef hg
      rw [hscope] at hx
      obtain ⟨q', hq'⟩ := hscoped.reach_block hget hx hfree
      exact ⟨p.block, q', hq', le_rfl⟩
  | false =>
      obtain ⟨hroot, hlen⟩ := hnum.root_eq hg
      have hat := hstands.getElem? hlen
      rw [List.getElem?_eq_getElem hlen, Nat.add_zero, ← hroot] at hat
      refine ⟨operand.equations[0].1, operand.equations[0].2, hat, ?_⟩
      have hcases := hnum.block_cases _ (List.getElem_mem hlen)
      have := hscoped.block_lt
      omega

lemma isAlternationFreeIn_fixpoint (isMax : Bool) (x : String) (f : Formula) :
    (fixpoint isMax x f).isAlternationFreeIn scope
      = f.isAlternationFreeIn ((x, isMax) :: scope) := by
  cases isMax <;> rfl

/-- In an alternation-free formula operands lie in the block of their operator or further in. -/
lemma Numbered.operands_block_ge (h : Numbered f (.start f) part)
    (hfree : f.isAlternationFree = true) :
    ∀ v, v < part.equations.length → ∀ b q, part.equations[v]? = some (b, q) →
      ∀ w ∈ q.operator.operands, ∃ b' q', part.equations[w]? = some (b', q') ∧ b ≤ b' := by
  intro v hv
  refine h.forall_equations
    (C := fun f p _ => ∃ scope, Scoped part.equations scope p ∧ f.isAlternationFreeIn scope = true)
    (motive := fun v => ∀ b q, part.equations[v]? = some (b, q) →
      ∀ w ∈ q.operator.operands, ∃ b' q', part.equations[w]? = some (b', q') ∧ b ≤ b')
    ?_ ?_ ?_ ?_ (List.prefix_refl _) ⟨[], ⟨Nat.zero_lt_one, rfl, by simp⟩, hfree⟩ v (Nat.zero_le v)
    (by simpa [Place.start])
  · rintro isMax x f p body hf hbody _ ⟨scope, hscoped, hfree⟩
    rw [isAlternationFreeIn_fixpoint] at hfree
    exact ⟨_, hscoped.enter x isMax, hfree⟩
  · intro f op p hleaf hget _ b q hq w hw
    rw [hget] at hq
    cases hq
    simp [hleaf.operands_eq] at hw
  · rintro f g op p operand hun hnum hget hstands ⟨scope, hscoped, hfree⟩
    have hg : g.isAlternationFreeIn scope = true := by
      cases hun <;> exact hfree
    refine ⟨fun b q hq w hw => ?_, scope, hscoped.move hget rfl rfl rfl le_rfl, hg⟩
    rw [hget] at hq
    cases hq
    simp only [hun.operands_eq, List.mem_singleton] at hw
    subst hw
    exact hnum.root_block_ge hscoped hget rfl rfl le_rfl hstands hg
  · rintro f g h op p l r hbin hl hr hget hstandsl hstandsr ⟨scope, hscoped, hfree⟩
    have hboth : g.isAlternationFreeIn scope = true ∧ h.isAlternationFreeIn scope = true := by
      cases hbin <;> simpa [isAlternationFreeIn] using hfree
    refine ⟨fun b q hq w hw => ?_, ⟨scope, hscoped.move hget rfl rfl rfl le_rfl, hboth.1⟩,
      scope, hscoped.move hget rfl rfl rfl (Nat.le_add_right _ _), hboth.2⟩
    rw [hget] at hq
    cases hq
    simp only [hbin.operands_eq, List.mem_cons, List.not_mem_nil, or_false] at hw
    rcases hw with rfl | rfl
    · exact hl.root_block_ge hscoped hget rfl rfl le_rfl hstandsl hboth.1
    · exact hr.root_block_ge hscoped hget rfl rfl (Nat.le_add_right _ _) hstandsr hboth.2

/-- The order of blocks is the order in which they were opened. -/
lemma Numbered.blockOf_le (h : Numbered f (.start f) part) {w r r' : Nat} {q q' : Equation}
    (hv : part.equations[v]? = some (r, q)) (hw : part.equations[w]? = some (r', q')) :
    (assemble f part).blockOf v ≤ (assemble f part).blockOf w ↔ r ≤ r' := by
  have hbv := h.wellFormed.inBlock_blockOf
    (by rw [size_assemble]; exact (List.getElem?_eq_some_iff.1 hv).1 : v < (assemble f part).size)
  have hbw := h.wellFormed.inBlock_blockOf
    (by rw [size_assemble]; exact (List.getElem?_eq_some_iff.1 hw).1 : w < (assemble f part).size)
  obtain ⟨s, hs, q₁, hq₁⟩ := inBlock_iff.1 hbv
  obtain ⟨s', hs', q₂, hq₂⟩ := inBlock_iff.1 hbw
  rw [hv] at hq₁
  rw [hw] at hq₂
  cases hq₁
  cases hq₂
  obtain ⟨hlt, hget⟩ := List.getElem?_eq_some_iff.1 hs
  obtain ⟨hlt', hget'⟩ := List.getElem?_eq_some_iff.1 hs'
  have hsorted := List.pairwise_iff_getElem.1 (usedBlocks_sorted part)
  constructor
  · intro hle
    rcases Nat.eq_or_lt_of_le hle with heq | hlt''
    · have : (usedBlocks part)[(assemble f part).blockOf v]
          = (usedBlocks part)[(assemble f part).blockOf w] := by
        congr 1
      omega
    · have := hsorted _ _ hlt hlt' hlt''
      omega
  · intro hle
    by_contra hgt
    have := hsorted _ _ hlt' hlt (by omega)
    omega

end Numbering

/-! ## The equations of a formula

Normalising, numbering and assembling are put together.  The journal is quantified over, since equations are
made in the middle of a session that has reported other things before.
-/

namespace EquationSystem

open ModalCalls.Numbering

variable {f : Formula} {e : EquationSystem}

/-- The equations of a formula are those of its numbering, whatever was reported before. -/
lemma exists_numbered_of_ofNormal {j j' : Journal} (h : ofNormal f.normal j = .ok e j') :
    ∃ part, Numbered f.normal (.start f.normal) part ∧ e = assemble f.normal part := by
  obtain ⟨part, j₁, hpart, h⟩ := bind_eq_ok h
  obtain ⟨_, _, -, h⟩ := bind_eq_ok h
  cases h
  exact ⟨part, numbered_of_number f.normal f.normal_isNegationNormal hpart, rfl⟩

lemma exists_numbered (h : ofFormula f = .ok e) :
    ∃ part, Numbered f.normal (.start f.normal) part ∧ e = assemble f.normal part := by
  simp only [ofFormula] at h
  split at h
  · next e' j hok =>
      cases h
      exact exists_numbered_of_ofNormal hok
  · cases h

/-- What is numbered is assembled, whatever was reported before. -/
lemma ofNormal_yields {part : Part} (hpart : Numbered f.normal (.start f.normal) part) (j : Journal) :
    Yields (ofNormal f.normal) j fun e' _ => e' = assemble f.normal part := by
  obtain ⟨_, j₁, hnumber, rfl⟩ := hpart.yields j
  exact Yields.bind (Yields.of_eq_ok hnumber (Yields.bind (Yields.of_eq_ok rfl (Yields.pure rfl))))

lemma ofFormula_of_ofNormal {j j' : Journal} (h : ofNormal f.normal j = .ok e j') :
    ofFormula f = .ok e := by
  obtain ⟨part, hpart, rfl⟩ := exists_numbered_of_ofNormal h
  obtain ⟨_, j₁, hsystem, rfl⟩ := ofNormal_yields hpart #[]
  simp only [ofFormula, hsystem]

lemma ofNormal_of_ofFormula (h : ofFormula f = .ok e) (j : Journal) :
    ∃ j', ofNormal f.normal j = .ok e j' := by
  obtain ⟨part, hpart, rfl⟩ := exists_numbered h
  obtain ⟨_, j', hsystem, rfl⟩ := ofNormal_yields hpart j
  exact ⟨j', hsystem⟩

theorem wellFormed_of_formula (h : ofFormula f = .ok e) : e.WellFormed := by
  obtain ⟨part, hpart, rfl⟩ := exists_numbered h
  exact hpart.wellFormed

/-- **References under modalities** make operators read later numbers only. -/
theorem forward_of_guarded (h : ofFormula f = .ok e) (hf : f.normal.isGuarded = true) :
    e.Forward := by
  obtain ⟨part, hpart, rfl⟩ := exists_numbered h
  intro v w hw _
  cases hop : (assemble f.normal part).operator? v with
  | none => simp [readsOf, hop] at hw
  | some op =>
      simp only [readsOf, hop, Option.map_some, Option.getD_some] at hw
      obtain ⟨r, q, hq, rfl⟩ := operator?_assemble.1 hop
      exact hpart.reads_gt hf v (List.getElem?_eq_some_iff.1 hq).1 r q hq w hw

/-- **Alternation-freeness** keeps operands from lying further out. -/
theorem layered_of_alternationFree (h : ofFormula f = .ok e)
    (hf : f.normal.isAlternationFree = true) : e.Layered := by
  obtain ⟨part, hpart, rfl⟩ := exists_numbered h
  intro v op hop w hw
  obtain ⟨r, q, hq, rfl⟩ := operator?_assemble.1 hop
  obtain ⟨r', q', hq', hle⟩ :=
    hpart.operands_block_ge hf v (List.getElem?_eq_some_iff.1 hq).1 r q hq w hw
  exact (hpart.blockOf_le hq hq').2 hle

end EquationSystem

end ModalCalls
