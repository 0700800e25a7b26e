import Mathlib
import ModalCalls.Proofs.Iteration.Extremal
import ModalCalls.Proofs.Transformer.Extensional

/-!
# Transformers are monotone

More that holds after the return never makes less hold before it.  This cannot be seen from the diagrams,
since a negation complements one.  It holds because negations stand on atoms, and an update computes an atom
before its negation, even where the atom has been an input so far: by then both are constants
(`EquationSystem.WellFormed.pass_below`).

* `Transformer.isMonotone_iff` — monotone evaluation is monotonicity of the summary.
* `Transformer.inherited_monotone` — the step lemma: whatever is made from monotone summaries is monotone.
* `Transformer.history_monotone` — **everything that is made is monotone**, and updates are monotone in what
  they are made from.
-/

namespace ModalCalls

namespace EquationSystem

variable {e : EquationSystem}

/-- What a step leaves of a variable is monotone in what holds after it. -/
lemma monotone_edgeSummary (label : String) (modality : Modality) (v : Nat) :
    Monotone (e.edgeSummary label modality v) := by
  intro x y hxy
  cases hop : e.operator? v with
  | none =>
      simp only [edgeSummary, hop]
      exact hxy v
  | some op =>
      cases hc : op.child? with
      | some c => exact Below.false_iff.1 (edgeSummary_below hop hc (Below.false_iff.2 (hxy c)))
      | none =>
          simp only [edgeSummary, hop]
          cases op with
          | box a c => cases hc
          | dia a c => cases hc
          | _ => exact le_rfl

end EquationSystem

namespace Transformer

open Store

variable {e : EquationSystem} {s : Store} {t u : Transformer} {n : Nat} {a b : Array Bool}

/-! ## Inclusion

Evaluation may fail on a transformer that does not live in the store.  So inclusion says that both sides
have a value, and a statement about inclusion is one about success as well.
-/

/-- Both evaluations end, and what the first one yields is included in what the second one does. -/
def Included (x y : Except Fault VarSet) : Prop :=
  ∃ held held', x = .ok held ∧ y = .ok held' ∧ ∀ v, held.contains v = true → held'.contains v = true

/-- **A monotone transformer**: if more holds after the return, then more holds before it. -/
def IsMonotone (s : Store) (t : Transformer) : Prop :=
  ∀ a b : Array Bool, (∀ w, a.getD w false = true → b.getD w false = true) →
    Included (t.evaluate s a) (t.evaluate s b)

lemma included_iff (hs : s.Shaped) (ht : t.Lives s n) (hu : u.Lives s n) :
    Included (t.evaluate s a) (u.evaluate s b)
      ↔ ∀ v, v < n → t.summary s v (a.getD · false) ≤ u.summary s v (b.getD · false) := by
  obtain ⟨held, hheld, hcontains⟩ := evaluate_ok hs ht a
  obtain ⟨held', hheld', hcontains'⟩ := evaluate_ok hs hu b
  constructor
  · rintro ⟨vars, vars', hvars, hvars', hincl⟩ v hv htrue
    obtain rfl : held = vars := Except.ok.inj (hheld.symm.trans hvars)
    obtain rfl : held' = vars' := Except.ok.inj (hheld'.symm.trans hvars')
    have hv' := hincl v (by rw [hcontains, htrue, decide_eq_true hv]; rfl)
    rw [hcontains', decide_eq_true hv, Bool.true_and] at hv'
    exact hv'
  · refine fun h => ⟨held, held', hheld, hheld', fun v hv => ?_⟩
    rw [hcontains, Bool.and_eq_true, decide_eq_true_eq] at hv
    rw [hcontains', Bool.and_eq_true, decide_eq_true_eq]
    exact ⟨hv.1, h v hv.1 hv.2⟩

/-- **Monotone evaluation is monotonicity of the summary.** -/
lemma isMonotone_iff (hs : s.Shaped) (ht : t.Lives s n) :
    IsMonotone s t ↔ ∀ v, Monotone (t.summary s v) := by
  constructor
  · intro h v x y hxy
    by_cases hv : v < n
    · obtain ⟨m, -, hlike⟩ := exists_length_like hs n
      rw [← hlike x t ht v hv, ← hlike y t ht v hv]
      refine (included_iff hs ht ht).1 (h _ _ fun w hw => ?_) v hv
      rw [getD_inputsUpTo, Bool.and_eq_true] at hw ⊢
      exact ⟨hw.1, hxy w hw.2⟩
    · rw [ht.summary_of_le (Nat.le_of_not_lt hv), ht.summary_of_le (Nat.le_of_not_lt hv)]
      exact hxy v
  · intro h a b hab
    exact (included_iff hs ht ht).2 fun v _ => h v hab

/-! ## Updates

For a pass over the equations, two passes are compared that start from different transformers and read
different edges.  Every operator but the negation is monotone.  The operand of a negation is an atom of the
same block, which is computed earlier and is the same constant in both.
-/

/-- **What is made from monotone summaries is monotone.** -/
lemma inherited_monotone (he : e.WellFormed) : Inherited e fun m => ∀ v, Monotone (m v) := by
  intro s c hblock hargs v x y hxy
  cases c with
  | start =>
      simp only [Call.summary]
      split
      · exact le_rfl
      · exact hxy v
  | identity => exact hxy v
  | edge label modality => exact EquationSystem.monotone_edgeSummary label modality v hxy
  | compose t u =>
      exact hargs t (by simp [Call.arguments]) v fun w => hargs u (by simp [Call.arguments]) w hxy
  | update t props along block =>
      obtain ⟨b, hb⟩ := Array.getElem?_of_mem hblock
      refine Below.false_iff.1 (he.pass_below hb (fun w => ?_) (fun v _ _ _ _ u hu => ?_) v)
      · exact Below.false_iff.2 (hargs t (by simp [Call.arguments]) w hxy)
      · exact Below.false_iff.2 (hargs u (by simp [Call.arguments, hu]) v hxy)

/-- **An update is monotone** in the transformer that it starts from and in those along the edges, on any
vector of inputs. -/
lemma update_included (he : e.WellFormed) (hs : s.Shaped) (ho : s.overflowed = false) {props : List String}
    {along along' : List Transformer} {block : Block} {r r' : Transformer}
    (hr : Done e s (.update t props along block) r) (hr' : Done e s (.update u props along' block) r')
    {inputs : Array Bool} (hown : Included (t.evaluate s inputs) (u.evaluate s inputs))
    (halong : List.Forall₂ (fun a a' => Included (a.evaluate s inputs) (a'.evaluate s inputs)) along along') :
    Included (r.evaluate s inputs) (r'.evaluate s inputs) := by
  have ht : t.Lives s e.size := hr.arguments t (by simp [Call.arguments])
  have hu : u.Lives s e.size := hr'.arguments u (by simp [Call.arguments])
  obtain ⟨hlength, hzip⟩ := List.forall₂_iff_zip.1 halong
  obtain ⟨b, hb⟩ := Array.getElem?_of_mem hr.block
  -- one list of pairs stands for both lists of edges
  have hmap := congrArg (List.map fun a => a.summary s) (List.map_fst_zip hlength.le)
  have hmap' := congrArg (List.map fun a => a.summary s) (List.map_snd_zip hlength.ge)
  rw [List.map_map] at hmap hmap'
  refine (included_iff hs hr.lives hr'.lives).2 fun v hv => ?_
  rw [hr.summary ho, hr'.summary ho]
  simp only [Call.summary, ← hmap, ← hmap']
  refine Below.false_iff.1 (he.pass_below hb (fun w => ?_) (fun v op _ hop _ p hp => ?_) v)
  · by_cases hw : w < e.size
    · exact Below.false_iff.2 ((included_iff hs ht hu).1 hown w hw)
    · rw [ht.summary_of_le (Nat.le_of_not_lt hw), hu.summary_of_le (Nat.le_of_not_lt hw)]
      exact Below.refl _ _
  · have hlives := hr.arguments p.1 (by simp [Call.arguments, (List.of_mem_zip hp).1])
    have hlives' := hr'.arguments p.2 (by simp [Call.arguments, (List.of_mem_zip hp).2])
    exact Below.false_iff.2 ((included_iff hs hlives hlives').1 (hzip hp) v
      (EquationSystem.lt_size_of_operator? hop))

variable {log : List (Call × Transformer)} {rs : List Transformer}

/-- **Transformers are monotone.**  Take any history over the equations of a formula whose store has not
overflowed.  Every operation on what it has made ends.  If everything that was read is monotone, so is
everything that was made.  Of two updates with the same atoms and the same block, the one that was made from
less, on some vector of inputs, yields less there.  An update leaves entries outside its block alone. -/
theorem history_monotone {f : Formula} (hf : EquationSystem.ofFormula f = .ok e)
    (h : History e s log rs) (ho : s.overflowed = false) :
    (∀ c : Call, (∀ u ∈ c.arguments, u ∈ given log rs) → c.OnBlock e → ∃ r s', c.run e s = .ok r s') ∧
    ((∀ r ∈ rs, IsMonotone s r) → ∀ t ∈ given log rs, IsMonotone s t) ∧
    (∀ t t' props along along' block r r', (.update t props along block, r) ∈ log →
      (.update t' props along' block, r') ∈ log →
      ∀ inputs, Included (t.evaluate s inputs) (t'.evaluate s inputs) →
        List.Forall₂ (fun a a' => Included (a.evaluate s inputs) (a'.evaluate s inputs)) along along' →
        Included (r.evaluate s inputs) (r'.evaluate s inputs)) ∧
    ∀ t props along block r, (.update t props along block, r) ∈ log →
      ∀ w, w ∉ block.vars → r.entries[w]? = t.entries[w]? := by
  have he := EquationSystem.wellFormed_of_formula hf
  have hkept := h.kept he
  have hs := hkept.sound.toShaped
  refine ⟨fun c => hkept.runs he, fun hrs t ht => ?_, fun t t' props along along' block r r' hr hr' inputs =>
    update_included he hs ho (hkept.done _ _ hr) (hkept.done _ _ hr'),
    fun t props along block r hr => (hkept.done _ _ hr).spares⟩
  refine (isMonotone_iff hs (hkept.lives t ht)).2 (hkept.inherits _ (inherited_monotone he) ho ?_ t ht)
  intro r hr
  exact (isMonotone_iff hs (hkept.lives r (List.mem_append_right _ hr))).1 (hrs r hr)

/-- The equations of the greatest `X` with "`p` does not hold, or some step by `a` leads to `X`". -/
def escapeEquations : EquationSystem where
  equations := #[⟨0, .disj 1 3, "(!\"p\" || <a>X)"⟩, ⟨1, .neg 2, "!\"p\""⟩,
    ⟨2, .atom "p", "\"p\""⟩, ⟨3, .dia (some "a") 0, "<a>X"⟩]
  blocks := #[⟨true, [3, 2, 1, 0]⟩]
  fixpoints := [⟨"X", 0, true⟩]

/-- At a final state the negation and its atom are inputs.  An update at a state with `p` makes constants of
both, and starting from more it yields more. -/
theorem history_monotone_escape :
    EquationSystem.ofFormula (.nu "X" (.disj (.neg (.atom "p")) (.dia (some "a") (.ref "X"))))
      = .ok escapeEquations ∧
    ∃ s log identity edge r r', History escapeEquations s log [] ∧ s.overflowed = false ∧
      (.update identity ["p"] [edge] ⟨true, [3, 2, 1, 0]⟩, r) ∈ log ∧
      (.update (.start escapeEquations) ["p"] [.start escapeEquations] ⟨true, [3, 2, 1, 0]⟩, r') ∈ log ∧
      r ≠ r' ∧ IsMonotone s r ∧ ∀ inputs, Included (r.evaluate s inputs) (r'.evaluate s inputs) := by
  let identity : Transformer := ⟨#[.positive 2, .positive 3, .positive 4, .positive 5]⟩
  let edge : Transformer := ⟨#[.zero, .zero, .zero, .positive 2]⟩
  let r : Transformer := ⟨#[.positive 2, .zero, .one, .positive 2]⟩
  let r' : Transformer := ⟨#[.one, .zero, .one, .one]⟩
  have hf : EquationSystem.ofFormula (.nu "X" (.disj (.neg (.atom "p")) (.dia (some "a") (.ref "X"))))
      = .ok escapeEquations := rfl
  have hblock : (⟨true, [3, 2, 1, 0]⟩ : Block) ∈ escapeEquations.blocks := by decide +kernel
  have h₁ : History escapeEquations _ [(.start, .start escapeEquations)] [] :=
    .call .start (@History.create _ 4 _ rfl) (by simp [Call.arguments]) trivial rfl
  have h₂ := History.call .identity (t := identity) h₁ (by simp [Call.arguments]) trivial
    (answer_eq_ok_iff.1 (by decide +kernel))
  have h₃ := History.call (.edge "a" .must) (t := edge) h₂ (by simp [Call.arguments]) trivial
    (answer_eq_ok_iff.1 (by decide +kernel))
  have h₄ := History.call (.update identity ["p"] [edge] ⟨true, [3, 2, 1, 0]⟩)
    (t := r) h₃ (by simp [Call.arguments, given]) hblock
    (answer_eq_ok_iff.1 (by decide +kernel))
  have h₅ := History.call
    (.update (.start escapeEquations) ["p"] [.start escapeEquations] ⟨true, [3, 2, 1, 0]⟩)
    (t := r') h₄ (by simp [Call.arguments, given]) hblock
    (answer_eq_ok_iff.1 (by decide +kernel))
  obtain ⟨-, hmono, hupdate, -⟩ := history_monotone hf h₅ (by decide +kernel)
  have hkept := h₅.kept (EquationSystem.wellFormed_of_formula hf)
  -- a block that falls from true starts above everything
  have htop : ∀ {s : Store} {t : Transformer}, s.Shaped → t.Lives s escapeEquations.size → ∀ inputs,
      Included (t.evaluate s inputs) ((start escapeEquations).evaluate s inputs) := by
    intro s t hs ht inputs
    refine (included_iff hs ht (start_lives hs).1).2 fun v hv => ?_
    have hmax : ∀ v, v < escapeEquations.size → escapeEquations.isMax v = true := by
      decide +kernel
    rw [(start_lives hs).2 v _ hv, hmax v hv]
    exact Bool.le_true _
  have hidentity := htop hkept.sound.toShaped (hkept.lives identity (by simp [given]))
  have hedge := htop hkept.sound.toShaped (hkept.lives edge (by simp [given]))
  refine ⟨hf, _, _, identity, edge, r, r', h₅, by decide +kernel, by simp, by simp, by decide,
    hmono (by simp) r (by simp [given]), fun inputs => ?_⟩
  exact hupdate identity (start escapeEquations) ["p"] [edge] [start escapeEquations]
    ⟨true, [3, 2, 1, 0]⟩ r r' (by simp) (by simp) inputs (hidentity inputs)
    (.cons (hedge inputs) .nil)

end Transformer

end ModalCalls
