import Mathlib
import ModalCalls.Proofs.Equation.Deadlock
import ModalCalls.Proofs.Equation.Placed
import ModalCalls.Proofs.Formula.Occurrence

/-!
# The equations of a formula, operator by operator

`EquationSystem.Transcribes` says what the equations of a formula look like without speaking of how they
are made.  There is one for each operator of the formula, in pre-order.  It has the operator that stands
there, on the numbers of its operands.  Blocks share the variables out among themselves by the kind of the
innermost fixpoint, and a visit to the blocks from the last to the first comes to operands before their
operators, references apart.

Numbers are given out on the way down, so what is proved of a subformula is where it stands
(`Numbering.Stationed`): at a path, where the operators below it begin in the list of all, and where each
name in scope stands for the number of the body of its innermost fixpoint.  The visit to all equations
hands this down, and the equations of accepted formulas transcribe them
(`EquationSystem.ofFormula_transcribes`).
-/

namespace ModalCalls

/-! ## What is transcribed

The structure lists what a reader expects of equations that were made from a formula, in terms of paths.  It
does not mention numbering, places or parts.
-/

namespace Formula

/-- The operator of a formula on operands with certain numbers. -/
def operatorOn : Formula → List Nat → Option Operator
  | top, [] => some .top
  | bot, [] => some .bot
  | atom p, [] => some (.atom p)
  | neg _, [c] => some (.neg c)
  | conj .., [l, r] => some (.conj l r)
  | disj .., [l, r] => some (.disj l r)
  | box a _, [c] => some (.box a c)
  | dia a _, [c] => some (.dia a c)
  | _, _ => none

end Formula

/-- **The equations of a formula.** -/
structure EquationSystem.Transcribes (e : EquationSystem) (f : Formula) : Prop where
  /-- The list of paths has all operators, in pre-order. -/
  operators : ∀ π, π ∈ f.operatorPaths ↔ ∃ g, f.at? π = some g ∧ g.isOperator = true
  preorder : f.operatorPaths.Pairwise (· < ·)
  /-- There is one variable for each, and the first one stands for the formula. -/
  size_eq : e.size = f.operatorPaths.length
  root : f.Numbers [] 0
  /-- An equation has the operator of its subformula, on the numbers of its operands. -/
  equation : ∀ (v : Nat) (π : Formula.Path), f.operatorPaths[v]? = some π →
    ∃ (g : Formula) (op : Operator), f.at? π = some g ∧ e.equations[v]? = some ⟨v, op, g.display⟩ ∧
      g.operatorOn op.operands = some op ∧
      ∀ (i c : Nat), op.operands[i]? = some c → f.Numbers (π ++ [i]) c
  neg_atom : ∀ v c, e.operator? v = some (.neg c) → ∃ a, e.operator? c = some (.atom a)
  /-- Each variable stands in one block and only once. -/
  partition : (e.blocks.toList.flatMap (·.vars)).Perm (List.range e.size)
  block : ∀ (b : Nat) (block : Block), e.blocks[b]? = some block →
    block.vars ≠ [] ∧ ∀ v ∈ block.vars, e.blockOf v = b ∧ e.isMax v = block.isMax
  kind : ∀ (v : Nat) (π : Formula.Path), f.operatorPaths[v]? = some π → e.isMax v = f.kindAt π
  /-- Operands come before their operators, references apart. -/
  operands_first : ∀ (v : Nat) (π : Formula.Path) (op : Operator) (i c : Nat) (g : Formula),
    f.operatorPaths[v]? = some π → e.operator? v = some op → op.operands[i]? = some c →
    f.at? (π ++ [i]) = some g → g.isRef = false →
    e.innermostFirst.idxOf c < e.innermostFirst.idxOf v

namespace Formula

variable {f g h : Formula} {x : String} {k : Bool}

/-! ## Operators of formulas and their operands

How each shape looks from the side of paths: where its operators are, in which order, and what its children
are.
-/

@[simp] lemma binds_fixpoint (k : Bool) (x y : String) (f : Formula) :
    (fixpoint k x f).binds y = (x == y) := by
  cases k <;> rfl

@[simp] lemma kind?_fixpoint (k : Bool) (x : String) (f : Formula) :
    (fixpoint k x f).kind? = some k := by
  cases k <;> rfl

@[simp] lemma children_fixpoint (k : Bool) (x : String) (f : Formula) :
    (fixpoint k x f).children = [f] := by
  cases k <;> rfl

@[simp] lemma operatorPaths_fixpoint (k : Bool) (x : String) (f : Formula) :
    (fixpoint k x f).operatorPaths = f.operatorPaths.map (0 :: ·) := by
  cases k <;> rfl

lemma binds_of_isOperator (hf : f.isOperator = true) : f.binds x = false := by
  cases f with
  | mu y f | nu y f => cases hf
  | _ => rfl

lemma isRef_eq_false_of_isOperator (hf : f.isOperator = true) : f.isRef = false := by
  cases f with
  | ref y => cases hf
  | _ => rfl

lemma kind?_of_isOperator (hf : f.isOperator = true) : f.kind? = none := by
  cases f with
  | mu y f | nu y f => cases hf
  | _ => rfl

lemma operatorPaths_of_isOperator (hf : f.isOperator = true) :
    ∃ rest, f.operatorPaths = [] :: rest := by
  cases f with
  | mu y f | nu y f | ref y => cases hf
  | _ => exact ⟨_, rfl⟩

section Leaf

variable {op : Operator} (hf : IsLeaf f op)

include hf

lemma IsLeaf.isOperator_eq : f.isOperator = true := by
  cases hf <;> rfl

lemma IsLeaf.operatorPaths_eq : f.operatorPaths = [[]] := by
  cases hf <;> rfl

lemma IsLeaf.operatorOn_eq : f.operatorOn op.operands = some op := by
  cases hf <;> rfl

end Leaf

section Unary

variable {op : Nat → Operator} (hf : IsUnary f op g)

include hf

lemma IsUnary.isOperator_eq : f.isOperator = true := by
  cases hf <;> rfl

lemma IsUnary.children_eq : f.children = [g] := by
  cases hf <;> rfl

lemma IsUnary.operatorPaths_eq : f.operatorPaths = [] :: g.operatorPaths.map (0 :: ·) := by
  cases hf <;> rfl

lemma IsUnary.operatorOn_eq (v : Nat) : f.operatorOn (op v).operands = some (op v) := by
  cases hf <;> rfl

end Unary

section Binary

variable {op : Nat → Nat → Operator} (hf : IsBinary f op g h)

include hf

lemma IsBinary.isOperator_eq : f.isOperator = true := by
  cases hf <;> rfl

lemma IsBinary.children_eq : f.children = [g, h] := by
  cases hf <;> rfl

lemma IsBinary.operatorPaths_eq :
    f.operatorPaths = [] :: (g.operatorPaths.map (0 :: ·) ++ h.operatorPaths.map (1 :: ·)) := by
  cases hf <;> rfl

lemma IsBinary.operatorOn_eq (v w : Nat) : f.operatorOn (op v w).operands = some (op v w) := by
  cases hf <;> rfl

end Binary

end Formula

/-! ## Subformulas at their paths

A visit to the formula keeps a path and a place in step.  The path says where in the formula it is and the
place says how far numbering has come, and the operators below the path form the stretch of the list that
begins at the next number.  The names in scope are related through binders: a name stands for the number of
the body of its innermost fixpoint.
-/

namespace Numbering

open Formula EquationSystem

variable {f g h : Formula} {p p' : Place} {part body : Part} {F : Formula} {π : Path}
  {E : List (Nat × Equation)} {K : List Bool} {k : Bool} {x : String}

lemma Numbered.length_operatorPaths (hf : Numbered f p part) :
    f.operatorPaths.length = part.equations.length := by
  induction hf with
  | ref hx => rfl
  | fixpoint _ _ ih => rw [operatorPaths_fixpoint, List.length_map, ih, Part.bind]
  | leaf hleaf => simp [hleaf.operatorPaths_eq, Part.ofOperator, Part.none]
  | unary hun _ ih => simp [hun.operatorPaths_eq, Part.ofOperator, ih]
  | binary hbin _ _ ihl ihr =>
      simp [hbin.operatorPaths_eq, Part.ofOperator, Part.append, ihl, ihr]

/-- Everything but a reference amounts to the first of its own operators. -/
lemma Numbered.resolves (hf : Numbered f p part) (href : f.isRef = false) :
    ∃ ρ, f.operatorPaths[0]? = some ρ ∧
      ∀ (F : Formula) (π : Path), F.at? π = some f → F.Resolves π (π ++ ρ) := by
  induction hf with
  | ref hx => cases href
  | @fixpoint isMax x f p body hf _ ih =>
      obtain ⟨ρ, hρ, hresolves⟩ := ih hf
      refine ⟨0 :: ρ, by simp [hρ], fun F π hπ => ?_⟩
      have hbody : F.at? (π ++ [0]) = some f := by simp [at?_snoc hπ]
      exact .body hπ (by simp) (by simpa using hresolves F _ hbody)
  | leaf hleaf =>
      refine ⟨[], by simp [hleaf.operatorPaths_eq], fun F π hπ => ?_⟩
      simpa using Resolves.operator hπ hleaf.isOperator_eq
  | unary hun _ _ =>
      refine ⟨[], by simp [hun.operatorPaths_eq], fun F π hπ => ?_⟩
      simpa using Resolves.operator hπ hun.isOperator_eq
  | binary hbin _ _ _ _ =>
      refine ⟨[], by simp [hbin.operatorPaths_eq], fun F π hπ => ?_⟩
      simpa using Resolves.operator hπ hbin.isOperator_eq

/-- **A subformula at its path** in the formula `F`: where its operators stand among all, what the names in
scope stand for, and the kind of block it is in. -/
structure Stationed (F : Formula) (π : Path) (f : Formula) (p : Place) : Prop where
  at_path : F.at? π = some f
  paths : StandsAt F.operatorPaths p.next (f.operatorPaths.map (π ++ ·))
  names : ∀ x u, p.scope.lookup x = some u →
    ∃ β b, F.binder? x π = some (β, b) ∧ F.Numbers (β ++ [0]) u
  /-- Above all operators the block may already have the kind of the fixpoint that comes next. -/
  kind : f.isOperator = true → p.isMax = F.kindAt π

namespace Stationed

/-- The whole formula. -/
lemma start (F : Formula) : Stationed F [] F (.start F) where
  at_path := rfl
  paths := by
    simp only [List.nil_append, List.map_id']
    exact List.prefix_refl _
  names := by simp [Place.start]
  kind := by
    intro hF
    cases F with
    | mu x f => cases hF
    | _ => rfl

/-- A subformula has the number that its numbering yields. -/
lemma numbers (hs : Stationed F π f p) (hf : Numbered f p part) : F.Numbers π part.root := by
  cases href : f.isRef with
  | true =>
      obtain ⟨x, rfl, hx⟩ := hf.of_isRef href
      obtain ⟨β, b, hbinder, ρ, hρ, hroot⟩ := hs.names x _ hx
      exact ⟨ρ, .ref hs.at_path hbinder hρ, hroot⟩
  | false =>
      obtain ⟨ρ, hρ, hresolves⟩ := hf.resolves href
      refine ⟨π ++ ρ, hresolves F π hs.at_path, ?_⟩
      have hlen : 0 < (f.operatorPaths.map (π ++ ·)).length := by
        simpa using List.length_pos_of_mem (List.mem_of_getElem? hρ)
      rw [(hf.root_eq href).1]
      simpa [hρ] using hs.paths.getElem? hlen

/-- The body of a fixpoint. -/
lemma enter (hs : Stationed F π (fixpoint k x f) p) (href : f.isRef = false)
    (hbody : Numbered f (p.enter x k) body) : Stationed F (π ++ [0]) f (p.enter x k) := by
  have hat : F.at? (π ++ [0]) = some f := by simp [at?_snoc hs.at_path]
  have hpaths : StandsAt F.operatorPaths p.next (f.operatorPaths.map ((π ++ [0]) ++ ·)) := by
    simpa [Function.comp_def] using hs.paths
  have hkind : k = F.kindAt (π ++ [0]) :=
    (kindAt_snoc_of_kind? hs.at_path 0 (kind?_fixpoint k x f)).symm
  refine ⟨hat, hpaths, fun y u hu => ?_, fun _ => hkind⟩
  by_cases hyx : y = x
  · subst hyx
    rw [lookup_enter_self] at hu
    obtain rfl := Option.some.inj hu
    refine ⟨π, _, binder?_snoc_of_binds hs.at_path 0 (by simp), ?_⟩
    -- the number of the body is the number that comes next, before anything is known of its names
    obtain ⟨ρ, hρ, hresolves⟩ := hbody.resolves href
    refine ⟨_, hresolves F _ hat, ?_⟩
    have hlen : 0 < (f.operatorPaths.map ((π ++ [0]) ++ ·)).length := by
      simpa using List.length_pos_of_mem (List.mem_of_getElem? hρ)
    simpa [hρ] using hpaths.getElem? hlen
  · rw [lookup_enter_of_ne hyx] at hu
    rw [binder?_snoc hs.at_path 0 (by simpa using Ne.symm hyx)]
    exact hs.names y u hu

/-- An operand of an operator. -/
lemma operand (hs : Stationed F π f p) (hf : f.isOperator = true) {i : Nat}
    (hg : f.children[i]? = some g) (hscope : p'.scope = p.scope) (hmax : p'.isMax = p.isMax)
    (hpaths : StandsAt F.operatorPaths p'.next ((g.operatorPaths.map (i :: ·)).map (π ++ ·))) :
    Stationed F (π ++ [i]) g p' where
  at_path := (at?_snoc hs.at_path i).trans hg
  paths := by simpa [Function.comp_def] using hpaths
  names := by
    intro x u hu
    rw [hscope] at hu
    rw [binder?_snoc hs.at_path i (binds_of_isOperator hf)]
    exact hs.names x u hu
  kind := by
    intro _
    rw [hmax, hs.kind hf, kindAt_snoc hs.at_path i (kind?_of_isOperator hf)]

lemma unary {op : Nat → Operator} (hs : Stationed F π f p) (hf : IsUnary f op g) :
    Stationed F (π ++ [0]) g p.inside := by
  have hpaths := hs.paths
  rw [hf.operatorPaths_eq, List.map_cons] at hpaths
  exact hs.operand hf.isOperator_eq (by simp [hf.children_eq]) rfl rfl hpaths.head.2

section Binary

variable {op : Nat → Nat → Operator} (hs : Stationed F π f p) (hf : IsBinary f op g h)

include hs hf

lemma left : Stationed F (π ++ [0]) g p.inside := by
  have hpaths := hs.paths
  rw [hf.operatorPaths_eq, List.map_cons, List.map_append] at hpaths
  exact hs.operand hf.isOperator_eq (by simp [hf.children_eq]) rfl rfl hpaths.head.2.append.1

lemma right {l : Part} (hl : Numbered g p.inside l) :
    Stationed F (π ++ [1]) h (p.inside.after l) := by
  have hpaths := hs.paths
  rw [hf.operatorPaths_eq, List.map_cons, List.map_append] at hpaths
  have hright := hpaths.head.2.append.2
  rw [List.length_map, List.length_map, hl.length_operatorPaths] at hright
  exact hs.operand hf.isOperator_eq (by simp [hf.children_eq]) rfl rfl hright

end Binary

end Stationed

/-! ## The equation of an operator

What was handed down arrives at an operator and gives its equation.  That each number belongs to some
operator and each path to some number are then two readings of the same visit.
-/

/-- What the operator `v` of block `b` knows of an operand at a path, with the number `c`. -/
structure OperandAt (F : Formula) (E : List (Nat × Equation)) (v b : Nat) (π : Path) (c : Nat) :
    Prop where
  numbers : F.Numbers π c
  /-- Unless it is a reference, it comes later and not further out. -/
  later : ∀ g, F.at? π = some g → g.isRef = false →
    v < c ∧ ∃ b' q, E[c]? = some (b', q) ∧ b ≤ b'

/-- **The equation of an operator** that stands at a path. -/
structure EquationAt (F : Formula) (E : List (Nat × Equation)) (K : List Bool) (v : Nat) (π : Path)
    (f : Formula) (b : Nat) (op : Operator) : Prop where
  path : F.operatorPaths[v]? = some π
  at_path : F.at? π = some f
  equation : E[v]? = some (b, ⟨v, op, f.display⟩)
  operator : f.operatorOn op.operands = some op
  kind : K[b]? = some (F.kindAt π)
  operands : ∀ i c : Nat, op.operands[i]? = some c → OperandAt F E v b (π ++ [i]) c

lemma Stationed.operandAt (hs : Stationed F π g p') (hp : Situated E K g p' part) {v : Nat}
    (hv : v < p'.next) : OperandAt F E v p'.block π part.root where
  numbers := hs.numbers hp.numbered
  later := by
    intro g' hg' href
    rw [hs.at_path] at hg'
    obtain rfl := Option.some.inj hg'
    obtain ⟨hroot, hblock⟩ := hp.root_of_not_isRef href
    exact ⟨hroot ▸ hv, hblock⟩

/-- An operator has its equation. -/
lemma Stationed.equationAt (hs : Stationed F π f p) (hp : Situated E K f p part)
    (hf : f.isOperator = true) : ∃ op, EquationAt F E K p.next π f p.block op := by
  have hpath : F.operatorPaths[p.next]? = some π := by
    obtain ⟨rest, hrest⟩ := operatorPaths_of_isOperator hf
    have hpaths := hs.paths
    rw [hrest, List.map_cons, List.append_nil] at hpaths
    exact hpaths.head.1
  have hkind := hs.kind hf ▸ hp.kind
  have hnum := hp.numbered
  cases hnum with
  | ref hx => cases hf
  | @fixpoint k _ _ _ _ _ _ => cases k <;> cases hf
  | leaf hleaf =>
      refine ⟨_, hpath, hs.at_path, hp.stands.head.1, hleaf.operatorOn_eq, hkind, fun i c hc => ?_⟩
      simp [hleaf.operands_eq] at hc
  | unary hun hoperand =>
      refine ⟨_, hpath, hs.at_path, hp.stands.head.1, hun.operatorOn_eq _, hkind, fun i c hc => ?_⟩
      rw [hun.operands_eq] at hc
      match i, hc with
      | 0, rfl => exact (hs.unary hun).operandAt (hp.unary hoperand) (Nat.lt_succ_self _)
  | binary hbin hl hr =>
      refine ⟨_, hpath, hs.at_path, hp.stands.head.1, hbin.operatorOn_eq _ _, hkind,
        fun i c hc => ?_⟩
      rw [hbin.operands_eq] at hc
      match i, hc with
      | 0, rfl => exact (hs.left hbin).operandAt (hp.left hl) (Nat.lt_succ_self _)
      | 1, rfl =>
          exact (hs.right hbin hl).operandAt (hp.right hr)
            (by simp only [Place.after, Place.inside]; omega)

/-- **Every number belongs to an operator** that stands somewhere in the formula. -/
lemma Numbered.exists_stationed (hF : Numbered F (.start F) part) :
    ∀ v, v < part.equations.length → ∃ π f p q, p.next = v ∧ f.isOperator = true ∧
      Stationed F π f p ∧ Situated part.equations (kinds F part) f p q := by
  intro v hv
  refine hF.forall_equations
    (C := fun f p q => Situated part.equations (kinds F part) f p q ∧ ∃ π, Stationed F π f p)
    (motive := fun v => ∃ π f p q, p.next = v ∧ f.isOperator = true ∧
      Stationed F π f p ∧ Situated part.equations (kinds F part) f p q)
    ?_ ?_ ?_ ?_ (List.prefix_refl _) ⟨.start hF, [], .start F⟩ v (Nat.zero_le v)
    (by simpa [Place.start])
  · rintro k x f p body href hbody - ⟨hp, π, hs⟩
    exact ⟨hp.enter hbody, _, hs.enter href hbody⟩
  · rintro f op p hleaf - ⟨hp, π, hs⟩
    exact ⟨π, f, p, _, rfl, hleaf.isOperator_eq, hs, hp⟩
  · rintro f g op p operand hun hnum - - ⟨hp, π, hs⟩
    exact ⟨⟨π, f, p, _, rfl, hun.isOperator_eq, hs, hp⟩, hp.unary hnum, _, hs.unary hun⟩
  · rintro f g h op p l r hbin hl hr - - - ⟨hp, π, hs⟩
    exact ⟨⟨π, f, p, _, rfl, hbin.isOperator_eq, hs, hp⟩, ⟨hp.left hl, _, hs.left hbin⟩,
      hp.right hr, _, hs.right hbin hl⟩

/-- The operator at a path and its equation. -/
lemma Numbered.exists_equationAt (hF : Numbered F (.start F) part) {v : Nat}
    (hπ : F.operatorPaths[v]? = some π) :
    ∃ g b op, EquationAt F part.equations (kinds F part) v π g b op := by
  have hv : v < part.equations.length :=
    hF.length_operatorPaths ▸ (List.getElem?_eq_some_iff.1 hπ).1
  obtain ⟨π', g, p, q, rfl, hg, hs, hp⟩ := hF.exists_stationed v hv
  obtain ⟨op, hop⟩ := hs.equationAt hp hg
  obtain rfl := Option.some.inj (hop.path.symm.trans hπ)
  exact ⟨g, _, op, hop⟩

end Numbering

/-! ## The blocks

Blocks list each variable once, and a block that would be empty is left out, so positions in the list of
blocks are not the numbers under which blocks were opened.  They keep their order, and nothing else is
needed.
-/

namespace EquationSystem

open ModalCalls.Numbering

variable {e : EquationSystem} {f : Formula} {v w : Nat}

/-- The pass comes to every variable, and only once. -/
lemma innermostFirst_perm (he : e.WellFormed) : e.innermostFirst.Perm (List.range e.size) := by
  have hnodup : e.innermostFirst.Nodup :=
    (innermostFirst_pairwise he).imp fun {v w} h heq => (heq ▸ h).irrefl
  refine (List.perm_ext_iff_of_nodup hnodup List.nodup_range).2 fun v => ?_
  rw [List.mem_range]
  refine ⟨fun hv => ?_, mem_innermostFirst he⟩
  obtain ⟨block, hblock, hmem⟩ := List.mem_flatMap.1 hv
  obtain ⟨b, hb⟩ := List.getElem?_of_mem (List.mem_reverse.1 hblock)
  rw [Array.getElem?_toList] at hb
  exact he.vars_lt b v ⟨block, hb, hmem⟩

lemma idxOf_lt_of_sooner (he : e.WellFormed) (hv : v < e.size) (hw : w < e.size)
    (h : e.Sooner v w) : e.innermostFirst.idxOf v < e.innermostFirst.idxOf w := by
  have hvlt := List.idxOf_lt_length_of_mem (mem_innermostFirst he hv)
  have hwlt := List.idxOf_lt_length_of_mem (mem_innermostFirst he hw)
  have hsorted := List.pairwise_iff_getElem.1 (innermostFirst_pairwise he)
  rcases Nat.lt_trichotomy (e.innermostFirst.idxOf v) (e.innermostFirst.idxOf w) with hlt | heq | hgt
  · exact hlt
  · have hvw : v = w := (List.idxOf_inj (mem_innermostFirst he hv)).1 heq
    exact (hvw ▸ h).irrefl.elim
  · have hback := hsorted _ _ hwlt hvlt hgt
    rw [List.getElem_idxOf, List.getElem_idxOf] at hback
    exact absurd hback h.asymm

/-- **The equations of an accepted formula transcribe it.** -/
theorem ofFormula_transcribes (h : ofFormula f = .ok e) : e.Transcribes f.normal := by
  obtain ⟨part, hnum, rfl⟩ := exists_numbered h
  have he := hnum.wellFormed
  exact {
    operators := fun π => Formula.mem_operatorPaths
    preorder := Formula.operatorPaths_sorted _
    size_eq := size_assemble.trans hnum.length_operatorPaths.symm
    root := by
      have hroot := (Stationed.start f.normal).numbers hnum
      rwa [(hnum.root_eq hnum.isRef_eq_false).1] at hroot
    equation := by
      intro v π hπ
      obtain ⟨g, b, op, hv⟩ := hnum.exists_equationAt hπ
      refine ⟨g, op, hv.at_path, ?_, hv.operator, fun i c hc => (hv.operands i c hc).numbers⟩
      simp [assemble, hv.equation]
    neg_atom := fun v c hop => (he.neg_atom v c hop).2.1
    partition := ((List.reverse_perm _).symm.flatMap_right _).trans (innermostFirst_perm he)
    block := by
      intro b block hblock
      refine ⟨?_, fun v hv => ⟨(he.mem_vars_iff hblock).1 hv, he.isMax_eq hblock hv⟩⟩
      obtain ⟨r, hr, rfl⟩ := blocks_getElem?.1 hblock
      simpa using (List.mem_filter.1 (List.mem_of_getElem? hr)).2
    kind := by
      intro v π hπ
      obtain ⟨g, b, op, hv⟩ := hnum.exists_equationAt hπ
      exact hnum.isMax_eq hv.equation hv.kind
    operands_first := by
      intro v π op i c g hπ hop hc hg href
      obtain ⟨g', b, op', hv⟩ := hnum.exists_equationAt hπ
      obtain ⟨b', q, hq, rfl⟩ := operator?_assemble.1 hop
      rw [hv.equation] at hq
      cases hq
      obtain ⟨hlt, b', q, hq, hle⟩ := (hv.operands i c hc).later g hg href
      have hblocks := (hnum.blockOf_le hv.equation hq).2 hle
      refine idxOf_lt_of_sooner he ?_ ?_ ?_
      · exact size_assemble ▸ (List.getElem?_eq_some_iff.1 hq).1
      · exact size_assemble ▸ (List.getElem?_eq_some_iff.1 hv.equation).1
      · rcases Nat.lt_or_eq_of_le hblocks with hlt' | heq
        · exact Or.inl hlt'
        · exact Or.inr ⟨heq, hlt⟩ }

/-- Two fixpoints of one name on top of each other: the outer one is never meant, and its block has no
variable. -/
def shadowed : Formula :=
  .mu "X" (.nu "X" (.disj (.neg (.atom "p"))
    (.dia none (.mu "Y" (.box none (.conj (.ref "X") (.ref "Y")))))))

def shadowedEquations : EquationSystem where
  equations := #[⟨0, .disj 1 3, "(!\"p\" || <>mu Y.[](X && Y))"⟩, ⟨1, .neg 2, "!\"p\""⟩,
    ⟨2, .atom "p", "\"p\""⟩, ⟨3, .dia none 4, "<>mu Y.[](X && Y)"⟩, ⟨4, .box none 5, "[](X && Y)"⟩,
    ⟨5, .conj 0 4, "(X && Y)"⟩]
  blocks := #[⟨true, [3, 2, 1, 0]⟩, ⟨false, [5, 4]⟩]
  fixpoints := [⟨"X", 0, false⟩, ⟨"X", 0, true⟩, ⟨"Y", 4, false⟩]

theorem shadowedEquations_transcribe : ofFormula shadowed = .ok shadowedEquations ∧
    shadowedEquations.Transcribes shadowed.normal := by
  have hsystem : ofFormula shadowed = .ok shadowedEquations := by decide +kernel
  exact ⟨hsystem, ofFormula_transcribes hsystem⟩

end EquationSystem

end ModalCalls
