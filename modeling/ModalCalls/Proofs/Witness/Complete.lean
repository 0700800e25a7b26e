import Mathlib
import ModalCalls.Proofs.Semantics.Grounded
import ModalCalls.Proofs.Session.Resized
import ModalCalls.Proofs.Witness.Search

/-!
# Searches find what there is

If a formula that a witness may explain holds, then it is grounded where the main procedure begins
(`Snapshot.Reached.grounded`), and a search goes along all trails.  So it comes to a leaf, if only it may reach
enough positions (`Session.Converged.exists_leaf`).  How many that is does not depend on the limit: a session
with another limit has the same transformers, and so it finds the same positions in the same order
(`Session.Alike.found_eq`).

Hence there is a limit from which on there is a witness, and a search never ends for want of positions to follow
up (`Program.findWitness_complete`).
-/

namespace ModalCalls

/-! ## Sessions with different limits

The limit is an option, and no operation of a run looks at it.  So a run with another limit leads to an
alike session.  What a search asks for is the same in alike sessions, and so are the positions it finds.
-/

namespace Session

variable {s t : Session}

namespace Alike

lemma evaluate_eq (h : s.Alike t) (u : Transformer) (context : Array Bool) :
    u.evaluate t.store context = u.evaluate s.store context := by
  simp only [Transformer.evaluate, Transformer.values, h.store.eval_eq]

lemma holdsAt_eq (h : s.Alike t) : t.holdsAt = s.holdsAt := by
  funext pos
  have htransformer : t.transformer pos.procedure pos.state = s.transformer pos.procedure pos.state :=
    h.query_eq (·.transformer pos.procedure pos.state) fun _ _ _ => rfl
  simp only [holdsAt, htransformer, h.evaluate_eq]

lemma movesAlong_eq (h : s.Alike t) : t.movesAlong = s.movesAlong := by
  funext pos action d edge
  have hprogram : t.program = s.program := h.query_eq (·.program) fun _ _ _ => rfl
  have hequations : t.equations = s.equations := h.query_eq (·.equations) fun _ _ _ => rfl
  have htransformer : ∀ i n, t.transformer i n = s.transformer i n := fun i n =>
    h.query_eq (·.transformer i n) fun _ _ _ => rfl
  simp only [movesAlong, enter, procedure, hprogram, hequations, htransformer, h.evaluate_eq]

lemma successors_eq (h : s.Alike t) : t.successors = s.successors := by
  funext pos
  have hprocedure : ∀ i, t.procedure i = s.procedure i := fun i =>
    h.query_eq (·.procedure i) fun _ _ _ => rfl
  have hequations : t.equations = s.equations := h.query_eq (·.equations) fun _ _ _ => rfl
  simp only [successors, moves, hprocedure, hequations, h.movesAlong_eq, h.holdsAt_eq]

/-- **The same positions are found** in the same order, whatever the limit. -/
lemma found_eq (h : s.Alike t) (root : Position) : ∀ n, t.found root n = s.found root n
  | 0 => rfl
  | n + 1 => by
      have hnext : t.next = s.next := by
        funext pos
        simp only [next, h.successors_eq]
      simp only [found, h.found_eq root n, hnext]

end Alike

/-! ## Leaves are found

That a formula is grounded is an inductive statement: a trail leads from the configuration to a leaf,
through configurations where its variables are true.  By induction on it the search comes to a position for
every configuration on the trail.  Each of these has its turn, since it stands in a list that is followed up
from the front.
-/

variable {p : Program} {f : Formula} {c : Config p} {pos root : Position} {v : Nat}

lemma isLeaf_of_leafValue {holds : String → Bool} {k : Bool}
    (h : s.equations.leafValue holds v = some k) : s.isLeaf v = true := by
  rcases EquationSystem.leafValue_cases h with ⟨hop, -⟩ | ⟨a, hop, -⟩ | ⟨d, a, hop, -⟩ <;>
    simp [isLeaf, hop]

/-- **A search goes along a trail to a leaf.** -/
lemma Converged.exists_leaf (h : s.Converged p f) (hground : Grounded s.equations s.value c v) :
    ∀ {pos : Position} {k : Nat}, pos ∈ s.found root k → pos.var = v →
      pos.Tracks s.equations s.value c →
      ∃ n pos', (s.found root n)[n]? = some pos' ∧ s.isLeaf pos'.var = true := by
  induction hground with
  | leaf _ hleaf =>
      rintro pos k hpos rfl -
      obtain ⟨n, hn⟩ := exists_turn hpos
      exact ⟨n, pos, hn, isLeaf_of_leafValue hleaf⟩
  | @step c c' v w action _ hfollows hrest ih =>
      rintro pos k hpos rfl ht
      obtain ⟨n, hn⟩ := exists_turn hpos
      obtain ⟨ms, hms, hmatch⟩ := h.successors_spec ht
      obtain ⟨m, hm, -, hvar, ht'⟩ := hmatch.complete action c' w ⟨hfollows, hrest.mem_truth⟩
      have hnext : m.1 ∈ s.found root (n + 1) := by
        rw [found_succ hn hms]
        exact mem_addNew hm
      exact ih hnext hvar ht'

end Session

/-! ## Completeness

A search can end badly in two ways.  It has no room for a position, which depends on the limit; or nothing
is left to follow up.  The second cannot be, as a leaf is among the positions.  The number of positions up
to that leaf is the bound.
-/

namespace Program

open Session

variable {system : System} {p : Program} {o : Options} {f : Formula} {e : EquationSystem}
  {s : Session} {r : Run} {j j' k : Journal}

/-- A run with another limit ends alike, and the search with that limit is in the session after it. -/
lemma exists_alike_of_run (hp : p.WellFormed) (hbits : Store.validBits o.storageBits = true)
    (hbegin : Session.begin p o f j = .ok s k) (hrun : SessionM.run ⟨s, k⟩ = .ok () r) (limit : Nat) :
    ∃ r' : Run, r.session.Alike r'.session ∧ r'.session.Converged p f ∧
      r'.session.options.witnessLimit = limit ∧
      answer (p.findWitness { o with witnessLimit := limit } f) j
        = answer r'.session.findWitness r'.journal := by
  obtain ⟨t, k', hbegin', halike⟩ := begin_alike hbits hbits le_rfl limit hbegin
  have hintact := (begin_spec hp hbits hbegin).1.toIntact
  have hlock : SessionM.InStep SessionM.run ⟨s, k⟩ ⟨t, k'⟩ := SessionM.run_inStep hintact
  have hroom := (converged_of_run hp hbits hbegin hrun).room
  obtain ⟨r', hrun', halike'⟩ := (hlock () r hrun hroom).2 halike
  have hbits' : Store.validBits ({ o with witnessLimit := limit } : Options).storageBits = true := hbits
  obtain ⟨hontrack, -, hoptions, -⟩ := begin_spec hp hbits' hbegin'
  have hevolves := (SessionM.run_spec hontrack hrun').1
  refine ⟨r', halike', converged_of_run hp hbits' hbegin' hrun', ?_, answer_findWitness hbegin' hrun'⟩
  rw [hevolves.options]
  exact congrArg Options.witnessLimit hoptions

/-- If the formula does not hold there is no witness, whatever the limit. -/
lemma answer_findWitness_of_not_sat (hp : p.WellFormed) (hbits : Store.validBits o.storageBits = true)
    (hformula : EquationSystem.ofFormula f = .ok e) (hsupported : unsupported? e = none)
    (hsolve : p.solve o f j = .ok false j') (limit : Nat) :
    answer (p.findWitness { o with witnessLimit := limit } f) j = .ok none := by
  obtain ⟨s, k, r, hbegin, hrun, hsat⟩ := exists_run_of_solve hsolve
  obtain ⟨r', halike, h, -, hanswer⟩ := exists_alike_of_run hp hbits hbegin hrun limit
  obtain rfl : e = r'.session.equations := Except.ok.inj (hformula.symm.trans h.formula)
  rw [hanswer, answer, h.findWitness_of_not_sat hsupported (halike.isSat_eq.trans hsat)]

/-- **If the formula holds** there is a witness, unless there is no room for some number of positions. -/
lemma exists_bound_of_sat (hp : p.WellFormed)
    (hproper : ∀ (i : Nat) (q : Procedure), p.procedures[i]? = some q → q.initial ≠ q.final)
    (hbits : Store.validBits o.storageBits = true) (hformula : EquationSystem.ofFormula f = .ok e)
    (hsupported : unsupported? e = none) (hsolve : p.solve o f j = .ok true j') :
    ∃ bound, ∀ limit,
      (∃ tree, answer (p.findWitness { o with witnessLimit := limit } f) j = .ok (some tree)) ∨
      ∃ size, answer (p.findWitness { o with witnessLimit := limit } f) j = .error (.exhausted size) ∧
        limit ≤ size ∧ size < bound := by
  obtain ⟨s, k, r, hbegin, hrun, hsat⟩ := exists_run_of_solve hsolve
  have h := converged_of_run hp hbits hbegin hrun
  obtain rfl : e = r.session.equations := Except.ok.inj (hformula.symm.trans h.formula)
  obtain ⟨root, hroot, hvar, ht⟩ := h.rootPosition_spec
  have hground := h.reached.grounded hp hproper h.equations
    (EquationSystem.reaching_of_supported hformula hsupported) h.finished h.equations.size_pos
    ((h.isSat_eq_truth hsat).1 rfl)
  have hfirst : root ∈ r.session.found root 0 := List.mem_singleton_self root
  obtain ⟨n, pos, hpos, hleaf⟩ := h.exists_leaf hground hfirst hvar ht
  refine ⟨(r.session.found root n).length, fun limit => ?_⟩
  -- the search with the limit finds the same positions
  obtain ⟨r', halike, h', hlimit, hanswer⟩ := exists_alike_of_run hp hbits hbegin hrun limit
  have hequations : r'.session.equations = r.session.equations :=
    halike.query_eq (·.equations) fun _ _ _ => rfl
  have hroot' : r'.session.rootPosition = .ok root :=
    (halike.query_eq (·.rootPosition) fun _ _ _ => rfl).trans hroot
  have hleaf' : r'.session.isLeaf pos.var = true :=
    (halike.query_eq (·.isLeaf pos.var) fun _ _ _ => rfl).trans hleaf
  rw [← halike.found_eq root n] at hpos ⊢
  rw [hanswer, ← hlimit]
  rcases h'.findWitness_of_leaf (hequations ▸ hsupported) (halike.isSat_eq.trans hsat) hroot' hpos hleaf'
    r'.journal with ⟨tree, k', hfind⟩ | ⟨size, k', hfind, hbounds⟩
  · exact Or.inl ⟨tree, by simp only [answer, hfind]⟩
  · exact Or.inr ⟨size, by simp only [answer, hfind], hbounds⟩

/-- **Witnesses are complete.**  Take a program in which no procedure ends where it begins and a formula that
a witness may explain, and let model checking end with a verdict.  There is no witness exactly if the verdict
is negative, whatever the limit.  If it is positive, there is a witness for all limits from some bound on.  A
search that fails for want of positions has reached as many as it may. -/
theorem findWitness_complete (hsystem : ofSystem system = .ok p)
    (hproper : ∀ (i : Nat) (q : Procedure), p.procedures[i]? = some q → q.initial ≠ q.final)
    (hbits : Store.validBits o.storageBits = true) (hformula : EquationSystem.ofFormula f = .ok e)
    (hsupported : unsupported? e = none) {b : Bool} (hsolve : p.solve o f j = .ok b j') :
    (∀ limit, answer (p.findWitness { o with witnessLimit := limit } f) j = .ok none ↔ b = false) ∧
    (b = true → ∃ bound, ∀ limit, bound < limit →
      ∃ tree, answer (p.findWitness { o with witnessLimit := limit } f) j = .ok (some tree)) ∧
    ∀ limit size, answer (p.findWitness { o with witnessLimit := limit } f) j
      = .error (.exhausted size) → limit ≤ size := by
  have hp := wellFormed_of_system hsystem
  cases b with
  | false =>
      have hnone := answer_findWitness_of_not_sat hp hbits hformula hsupported hsolve
      refine ⟨fun limit => iff_of_true (hnone limit) rfl, nofun, fun limit size h => ?_⟩
      rw [hnone limit] at h
      cases h
  | true =>
      obtain ⟨bound, hbound⟩ := exists_bound_of_sat hp hproper hbits hformula hsupported hsolve
      refine ⟨fun limit => iff_of_false (fun hnone => ?_) (by simp), fun _ => ⟨bound, fun limit hlt => ?_⟩,
        fun limit size h => ?_⟩
      · rcases hbound limit with ⟨tree, htree⟩ | ⟨size, hsize, -⟩
        · rw [hnone] at htree
          cases htree
        · rw [hnone] at hsize
          cases hsize
      · rcases hbound limit with htree | ⟨size, -, hle, hsize⟩
        · exact htree
        · omega
      · rcases hbound limit with ⟨tree, htree⟩ | ⟨size', hsize, hle, -⟩
        · rw [h] at htree
          cases htree
        · rw [h] at hsize
          cases hsize
          exact hle

/-- Some way leads to the last step of a call inside a call, and `q` holds where the outer one returns to. -/
def returnsTwice : Formula :=
  .mu "x" (.disj (.dia (some "c") (.dia (some "c") (.atom "q"))) (.dia none (.ref "x")))

theorem findWitness_complete_nestingProgram :
    answer (nestingProgram.solve { storageBits := 6 } returnsTwice) #[] = .ok true ∧
    (∀ limit, answer (nestingProgram.findWitness { storageBits := 6, witnessLimit := limit }
      returnsTwice) #[] ≠ .ok none) ∧
    (∃ bound, ∀ limit, bound < limit → ∃ tree, answer (nestingProgram.findWitness
      { storageBits := 6, witnessLimit := limit } returnsTwice) #[] = .ok (some tree)) ∧
    ∀ limit size, answer (nestingProgram.findWitness { storageBits := 6, witnessLimit := limit }
      returnsTwice) #[] = .error (.exhausted size) → limit ≤ size := by
  have hanswer : answer (nestingProgram.solve { storageBits := 6 } returnsTwice) #[] = .ok true := by
    decide +kernel
  have hsystem : ofSystem { main := "main", procedures := [("main", nestingGraph)] }
      = .ok nestingProgram := rfl
  have hproper : ∀ (i : Nat) (q : Procedure), nestingProgram.procedures[i]? = some q →
      q.initial ≠ q.final := by
    intro i q hq
    match i with
    | 0 =>
        cases hq
        decide
    | i + 1 => simp [nestingProgram] at hq
  obtain ⟨hnone, hsome, hfull⟩ :=
    findWitness_complete hsystem hproper rfl rfl rfl (answer_eq_ok_iff.1 hanswer)
  exact ⟨hanswer, fun limit h => Bool.noConfusion ((hnone limit).1 h), hsome rfl, hfull⟩

end Program

end ModalCalls
