import Mathlib
import ModalCalls.Proofs.Semantics.Blocks
import ModalCalls.Proofs.Semantics.Configuration

/-!
# Edges and modalities

A modality at a configuration asks something of all steps, or of one.  Steps come from edges, a call edge
standing for the steps of the callee, so the modality asks something of all edges, or of one
(`Carries`, `mem_box_iff`, `mem_dia_iff`).

A right-hand side asks the same of the summaries along the edges.  `nodeRhs_moved` compares the two: a
right-hand side has left the start value only if the equation has at the configuration.  It is the
one comparison between conditions and sets of configurations, and both that the equations hold and that
their solution is extremal are read off it.
-/

namespace ModalCalls

variable {p : Program} {e : EquationSystem} {A : Assignment} {k : Bool} {v : Nat}

variable {N : Nat → Set p.configurations.State} {l l' entry : Location p}
  {stack : List (Location p)} {edge : Edge} {op : Operator} {c : Config p}

/-! ## All edges or one

The steps of a configuration are given by rules, and an edge may stand for no step, for one or for many.  A
box or a diamond is first rewritten as a statement about edges.  For a call edge it is the modality itself
at the beginning of the callee, so a chain of calls is not followed any further here.
-/

lemma Location.Joined.unique {l₁ l₂ : Location p} (h₁ : l.Joined edge l₁) (h₂ : l.Joined edge l₂) :
    l₁ = l₂ :=
  Location.ext (h₁.procedure_eq.trans h₂.procedure_eq.symm) (h₁.target_eq.trans h₂.target_eq.symm)

lemma Location.IsEntry.unique {name : String} {l₁ l₂ : Location p} (h₁ : l₁.IsEntry name)
    (h₂ : l₂.IsEntry name) : l₁ = l₂ := by
  have heq := Option.some.inj (h₁.symm.trans h₂)
  exact Location.ext (congrArg Prod.fst heq) (congrArg Prod.snd heq)

/-- What a modality asks of the steps that an edge to `l'` takes. -/
def Carries (N : Nat → Set p.configurations.State) (op : Operator) (edge : Edge) (l' : Location p)
    (stack : List (Location p)) : Prop :=
  if edge.isCall then
    ∃ entry : Location p, entry.IsEntry edge.label ∧
      (⟨entry, l' :: stack⟩ : Config p) ∈ op.denote p.configurations N
  else
    match op with
    | .box a d => Concerns a edge.label → (⟨l', stack⟩ : Config p) ∈ N d
    | .dia a d => Concerns a edge.label ∧ edge.modality = .must ∧ (⟨l', stack⟩ : Config p) ∈ N d
    | _ => False

/-- A box looks at all edges. -/
lemma mem_box_iff (hp : p.WellFormed) (hl : l.isExit = false) {a : Option String} {d : Nat} :
    (⟨l, stack⟩ : Config p) ∈ (Operator.box a d).denote p.configurations N ↔
      ∀ edge ∈ p.leaving l.procedure l.state,
        ∃ l', l.Joined edge l' ∧ Carries N (.box a d) edge l' stack := by
  constructor
  · intro hbox edge hedge
    obtain ⟨l', hjoined⟩ := Location.exists_joined hedge
    refine ⟨l', hjoined, ?_⟩
    cases hcall : edge.isCall with
    | false =>
        simp only [Carries, hcall]
        exact fun hspeaks => hbox _ (Step.internal hjoined hcall) hspeaks
    | true =>
        simp only [Carries, hcall]
        obtain ⟨entry, hentry⟩ := Location.exists_isEntry hp hedge hcall
        exact ⟨entry, hentry, fun arrow harrow => hbox arrow (Step.call hjoined hcall hentry harrow)⟩
  · intro hall arrow harrow hspeaks
    cases harrow with
    | @internal _ l' _ edge hjoined hcall =>
        obtain ⟨l₁, hjoined₁, hcarries⟩ := hall edge hjoined.leaving
        obtain rfl := hjoined₁.unique hjoined
        simp only [Carries, hcall] at hcarries
        exact hcarries hspeaks
    | @call _ l' entry _ edge _ hjoined hcall hentry harrow =>
        obtain ⟨l₁, hjoined₁, hcarries⟩ := hall edge hjoined.leaving
        obtain rfl := hjoined₁.unique hjoined
        simp only [Carries, hcall] at hcarries
        obtain ⟨entry₁, hentry₁, hbox⟩ := hcarries
        obtain rfl := hentry₁.unique hentry
        exact hbox arrow harrow hspeaks
    | pop hexit _ => exact absurd hexit (by simp [hl])

/-- A diamond looks for one edge. -/
lemma mem_dia_iff (hl : l.isExit = false) {a : Option String} {d : Nat} :
    (⟨l, stack⟩ : Config p) ∈ (Operator.dia a d).denote p.configurations N ↔
      ∃ edge ∈ p.leaving l.procedure l.state,
        ∃ l', l.Joined edge l' ∧ Carries N (.dia a d) edge l' stack := by
  constructor
  · rintro ⟨arrow, harrow, hspeaks, hmust, htarget⟩
    cases harrow with
    | @internal _ l' _ edge hjoined hcall =>
        refine ⟨edge, hjoined.leaving, l', hjoined, ?_⟩
        simp only [Carries, hcall]
        exact ⟨hspeaks, hmust, htarget⟩
    | @call _ l' entry _ edge _ hjoined hcall hentry harrow =>
        refine ⟨edge, hjoined.leaving, l', hjoined, ?_⟩
        simp only [Carries, hcall]
        exact ⟨entry, hentry, arrow, harrow, hspeaks, hmust, htarget⟩
    | pop hexit _ => exact absurd hexit (by simp [hl])
  · rintro ⟨edge, -, l', hjoined, hcarries⟩
    cases hcall : edge.isCall with
    | false =>
        simp only [Carries, hcall] at hcarries
        exact ⟨_, Step.internal hjoined hcall, hcarries⟩
    | true =>
        simp only [Carries, hcall] at hcarries
        obtain ⟨entry, hentry, arrow, harrow, hdia⟩ := hcarries
        exact ⟨arrow, Step.call hjoined hcall hentry harrow, hdia⟩

/-! ## Right-hand sides

The summary along an edge and what the modality asks of the edge are compared one edge at a time, and then
for all or for some of them.  The direction of the comparison is a parameter, and so are the sets; the two
uses of it differ in both.
-/

lemma alongSummary_of_call (hjoined : l.Joined edge l') (hcall : edge.isCall = true)
    (hentry : entry.IsEntry edge.label) (x : Nat → Bool) :
    p.alongSummary e A l.procedure edge v x
      = A entry.procedure entry.state v fun w => A l'.procedure l'.state w x := by
  have hentry' : p.entryOf? edge.label = some (entry.procedure, entry.state) := hentry
  simp only [Program.alongSummary, Program.stepSummary, hcall, hentry', hjoined.procedure_eq,
    hjoined.target_eq, if_true]

lemma alongSummary_of_internal (hjoined : l.Joined edge l') (hcall : edge.isCall = false)
    (x : Nat → Bool) :
    p.alongSummary e A l.procedure edge v x
      = e.edgeSummary edge.label edge.modality v fun w => A l'.procedure l'.state w x := by
  simp only [Program.alongSummary, Program.stepSummary, hcall, hjoined.procedure_eq,
    hjoined.target_eq, Bool.false_eq_true, if_false]

/-- **One edge**: its summary has left the start value only if the steps of the edge have. -/
lemma carries_iff (hp : p.WellFormed) {d : Nat} (hop : e.operator? v = some op)
    (hd : op.child? = some d) (hjoined : l.Joined edge l') {x : Nat → Bool}
    (hinternal : edge.isCall = false → A l'.procedure l'.state d x = !k →
      Moved k (N d) (⟨l', stack⟩ : Config p))
    (hcall : ∀ entry : Location p, edge.isCall = true → entry.IsEntry edge.label →
      (A entry.procedure entry.state v fun w => A l'.procedure l'.state w x) = !k →
      Moved k (op.denote p.configurations N) (⟨entry, l' :: stack⟩ : Config p))
    (halong : p.alongSummary e A l.procedure edge v x = !k) :
    Carries N op edge l' stack ↔ k = false := by
  cases hcase : edge.isCall with
  | true =>
      obtain ⟨entry, hentry⟩ := Location.exists_isEntry hp hjoined.leaving hcase
      rw [alongSummary_of_call hjoined hcase hentry] at halong
      have hmoved := hcall entry hcase hentry halong
      simp only [Carries, hcase, if_true]
      refine Iff.trans ?_ hmoved
      constructor
      · rintro ⟨entry₁, hentry₁, hmem⟩
        rwa [hentry.unique hentry₁]
      · exact fun hmem => ⟨entry, hentry, hmem⟩
  | false =>
      have hmoved := hinternal hcase
      rw [alongSummary_of_internal hjoined hcase] at halong
      simp only [Carries, hcase, Bool.false_eq_true, if_false]
      cases op with
      | box a d' =>
          cases hd
          simp only [EquationSystem.edgeSummary, hop] at halong
          by_cases hspeaks : Concerns a edge.label
          · rw [if_pos hspeaks] at halong
            exact Iff.trans ⟨fun h => h hspeaks, fun h _ => h⟩ (hmoved halong)
          · have hk : k = false := by simpa [hspeaks] using halong
            exact ⟨fun _ => hk, fun _ h => absurd h hspeaks⟩
      | dia a d' =>
          cases hd
          simp only [EquationSystem.edgeSummary, hop] at halong
          by_cases hserves : Concerns a edge.label ∧ edge.modality = .must
          · rw [if_pos hserves] at halong
            exact Iff.trans ⟨fun h => h.2.2, fun h => ⟨hserves.1, hserves.2, h⟩⟩ (hmoved halong)
          · have hk : k = true := by simpa [hserves] using halong
            exact ⟨fun h => absurd ⟨h.1, h.2.1⟩ hserves, fun h => by simp [h] at hk⟩
      | _ => cases hd

lemma all_moved {α : Type} {as : List α} {f : α → Bool} {P : α → Prop}
    (h : ∀ a ∈ as, f a = !k → (P a ↔ k = false)) (hall : as.all f = !k) :
    (∀ a ∈ as, P a) ↔ k = false := by
  cases k with
  | false =>
      rw [Bool.not_false, List.all_eq_true] at hall
      exact iff_of_true (fun a ha => (h a ha (hall a ha)).2 rfl) rfl
  | true =>
      rw [Bool.not_true, List.all_eq_false] at hall
      obtain ⟨a, ha, hf⟩ := hall
      refine iff_of_false (fun hP => ?_) (by simp)
      simpa using (h a ha (by simpa using hf)).1 (hP a ha)

lemma any_moved {α : Type} {as : List α} {f : α → Bool} {P : α → Prop}
    (h : ∀ a ∈ as, f a = !k → (P a ↔ k = false)) (hany : as.any f = !k) :
    (∃ a ∈ as, P a) ↔ k = false := by
  cases k with
  | false =>
      rw [Bool.not_false, List.any_eq_true] at hany
      obtain ⟨a, ha, hf⟩ := hany
      exact iff_of_true ⟨a, ha, (h a ha hf).2 rfl⟩ rfl
  | true =>
      rw [Bool.not_true, List.any_eq_false] at hany
      refine iff_of_false ?_ (by simp)
      rintro ⟨a, ha, hP⟩
      simpa using (h a ha (by simpa using hany a ha)).1 hP

/-- Returning does not matter to a modality. -/
lemma resume_mem_modality_iff (hp : p.WellFormed) {d : Nat} (hd : op.child? = some d) :
    c.resume ∈ op.denote p.configurations N ↔ c ∈ op.denote p.configurations N :=
  Operator.mem_modality_congr (T := p.configurations) (Set.ext fun _ => step_resume_iff hp) hd

/-- **A right-hand side at a configuration**, whose control is in effect at `l`: it has left the start value
only if the equation has, whatever the sets stand for that its operands are bounded by. -/
lemma nodeRhs_moved (hp : p.WellFormed) (hop : e.operator? v = some op) (hl : l.isExit = false)
    (hc : c.resume = ⟨l, stack⟩) {own : Summary} {x : Nat → Bool}
    (hreads : ∀ w ∈ op.reads, own w x = !k → Moved k (N w) c)
    (hneg : ∀ d, op = .neg d → (c ∈ N d ↔ own d x = true))
    (hinternal : ∀ edge l' d, op.child? = some d → l.Joined edge l' → edge.isCall = false →
      A l'.procedure l'.state d x = !k → Moved k (N d) (⟨l', stack⟩ : Config p))
    (hcall : ∀ edge l' (entry : Location p), l.Joined edge l' → edge.isCall = true →
      entry.IsEntry edge.label →
      (A entry.procedure entry.state v fun w => A l'.procedure l'.state w x) = !k →
      Moved k (op.denote p.configurations N) (⟨entry, l' :: stack⟩ : Config p))
    (h : p.nodeRhs e A l.procedure l.state own v x = !k) :
    Moved k (op.denote p.configurations N) c := by
  have hedges : ∀ d, op.child? = some d → ∀ edge ∈ p.leaving l.procedure l.state,
      p.alongSummary e A l.procedure edge v x = !k →
      ((∃ l', l.Joined edge l' ∧ Carries N op edge l' stack) ↔ k = false) := by
    intro d hd edge hedge halong
    obtain ⟨l', hjoined⟩ := Location.exists_joined hedge
    rw [← carries_iff hp hop hd hjoined (hinternal edge l' d hd hjoined)
      (fun entry => hcall edge l' entry hjoined) halong]
    constructor
    · rintro ⟨l₁, hjoined₁, hcarries⟩
      rwa [hjoined.unique hjoined₁]
    · exact fun hcarries => ⟨l', hjoined, hcarries⟩
  simp only [Program.nodeRhs, EquationSystem.rhs, hop, List.all_map, List.any_map] at h
  rw [← holds_of_resume_eq hc] at h
  refine Operator.eval_moved (T := p.configurations) hreads hneg ?_ ?_ h
  · rintro a d rfl hall
    refine (resume_mem_modality_iff hp rfl).symm.trans ?_
    rw [hc, mem_box_iff hp hl]
    exact all_moved (hedges d rfl) hall
  · rintro a d rfl hany
    refine (resume_mem_modality_iff hp rfl).symm.trans ?_
    rw [hc, mem_dia_iff hl]
    exact any_moved (hedges d rfl) hany

end ModalCalls
