import Mathlib
import ModalCalls.Process.Program
import ModalCalls.Proofs.Computation

/-!
# Programs are well formed

What validation guarantees (`Program.wellFormed_of_system`).  Initial and final states exist, nothing
leaves a final state, no call leaves an initial state, every callee is found under its name, and every
procedure is found under its own.
-/

namespace ModalCalls

namespace Program

/-- **A well-formed program.** -/
structure WellFormed (p : Program) : Prop where
  main : ∃ q, p.procedures[p.main]? = some q
  initial_lt : ∀ (i : Nat) (q : Procedure), p.procedures[i]? = some q → q.initial < q.size
  final_lt : ∀ (i : Nat) (q : Procedure), p.procedures[i]? = some q → q.final < q.size
  final_edges : ∀ (i : Nat) (q : Procedure), p.procedures[i]? = some q →
    q.graph.edgesFrom q.final = []
  /-- Calls are guarded: none leaves an initial state. -/
  initial_edges : ∀ (i : Nat) (q : Procedure), p.procedures[i]? = some q →
    ∀ edge ∈ q.graph.edgesFrom q.initial, edge.isCall = false
  callee : ∀ (i : Nat) (q : Procedure) (n : Nat), p.procedures[i]? = some q →
    ∀ edge ∈ q.graph.edgesFrom n, edge.isCall = true →
      ∃ (j : Nat) (r : Procedure), p.indexOf? edge.label = some j ∧ p.procedures[j]? = some r
  indexOf_name : ∀ (i : Nat) (q : Procedure), p.procedures[i]? = some q →
    p.indexOf? q.name = some i

end Program

namespace ProcessGraph

variable {g : ProcessGraph} {n : Nat} {edge : Edge}

lemma target_lt (h : edge ∈ g.edgesFrom n) : edge.target < g.size := by
  simp only [edgesFrom, List.mem_filter, Array.mem_toList_iff] at h
  exact (g.edges_lt edge h.1).1

lemma source_lt (h : edge ∈ g.edgesFrom n) : n < g.size := by
  simp only [edgesFrom, List.mem_filter, Array.mem_toList_iff, decide_eq_true_eq] at h
  exact (g.edges_lt edge h.1).2 n h.2

end ProcessGraph

namespace Program

variable {s : System} {p : Program} {name : String} {graph : ProcessGraph} {q : Procedure}

/-- A state whose edges are known to validation exists. -/
lemma edgesAt_eq_ok {n : Nat} {edges : List Edge} (h : edgesAt graph n = .ok edges) :
    n < graph.size ∧ edges = graph.edgesFrom n := by
  simp only [edgesAt, ProcessGraph.outgoing] at h
  split at h
  · next hlt =>
      cases h
      exact ⟨hlt, rfl⟩
  · cases h

/-- A search for undefined callees looks at all calls. -/
lemma undefinedCallee?_eq_none_iff : undefinedCallee? s graph = none ↔
    ∀ n, ∀ e ∈ graph.edgesFrom n, e.isCall = true → e.label ∈ s.names := by
  rw [undefinedCallee?, List.findSome?_eq_none_iff]
  constructor
  · intro h n e he hcall
    have hmem : e ∈ graph.stateNumbers.flatMap graph.edgesFrom :=
      List.mem_flatMap.2 ⟨n, List.mem_range.2 (ProcessGraph.source_lt he), he⟩
    by_contra hnot
    simpa [hcall, System.defines, hnot] using h e hmem
  · intro h e he
    obtain ⟨n, -, he⟩ := List.mem_flatMap.1 he
    by_cases hcall : e.isCall = true
    · simp [System.defines, h n e he hcall]
    · simp [hcall]

/-- What a procedure that passes the test looks like. -/
lemma checkProcedure_eq_ok (h : checkProcedure s name graph = .ok q) :
    q.name = name ∧ q.graph = graph ∧ q.initial < q.size ∧ q.final < q.size ∧
      q.graph.edgesFrom q.final = [] ∧
      (∀ edge ∈ q.graph.edgesFrom q.initial, edge.isCall = false) ∧
      ∀ n, ∀ edge ∈ q.graph.edgesFrom n, edge.isCall = true → edge.label ∈ s.names := by
  unfold checkProcedure at h
  cases hinitial : graph.initial with
  | none =>
      rw [hinitial] at h
      cases h
  | some initial =>
      cases hfinal : graph.final with
      | none =>
          rw [hinitial, hfinal] at h
          cases h
      | some final =>
          simp only [hinitial, hfinal] at h
          obtain ⟨fromFinal, hff, h⟩ := except_bind_eq_ok h
          obtain ⟨hfinal_lt, rfl⟩ := edgesAt_eq_ok hff
          split at h
          · cases h
          next hempty =>
          obtain ⟨fromInitial, hfi, h⟩ := except_bind_eq_ok h
          obtain ⟨hinitial_lt, rfl⟩ := edgesAt_eq_ok hfi
          split at h
          · cases h
          next hcall =>
          split at h
          · cases h
          next hcallee =>
          cases h
          refine ⟨rfl, rfl, hinitial_lt, hfinal_lt, by simpa using hempty, ?_,
            undefinedCallee?_eq_none_iff.1 hcallee⟩
          intro edge hedge
          simp only [List.any_eq_true, not_exists, not_and, Bool.not_eq_true] at hcall
          exact hcall edge hedge

/-! ## The program of a system

Validation tests one procedure at a time.  What a program needs in addition is about names: that a callee
which the system defines is found in the program, at the place of its name, and that a procedure is found
under its own name.  Both come from the uniqueness of names that a system carries.
-/

/-- A system that passes has its entry point, and each of its procedures has passed the test. -/
lemma ofSystem_eq_ok (h : ofSystem s = .ok p) : s.indexOf? s.main = some p.main ∧
    List.Forall₂ (fun a q => checkProcedure s a.1 a.2 = .ok q) s.procedures p.procedures.toList := by
  unfold ofSystem at h
  cases hmain : s.indexOf? s.main with
  | none =>
      rw [hmain] at h
      cases h
  | some main =>
      simp only [hmain] at h
      obtain ⟨procedures, hprocedures, h⟩ := except_bind_eq_ok h
      cases h
      exact ⟨rfl, except_mapM_eq_ok hprocedures⟩

variable {i : Nat}

/-- A procedure of the program is the one of the system at its place. -/
lemma checked_of_system (h : ofSystem s = .ok p) (hq : p.procedures[i]? = some q) :
    ∃ graph, s.procedures[i]? = some (q.name, graph) ∧ checkProcedure s q.name graph = .ok q := by
  have hall := (ofSystem_eq_ok h).2
  rw [← Array.getElem?_toList] at hq
  obtain ⟨hlt, hget⟩ := List.getElem?_eq_some_iff.1 hq
  have hlt' : i < s.procedures.length := hall.length_eq ▸ hlt
  have hok : checkProcedure s s.procedures[i].1 s.procedures[i].2 = .ok q := by
    rw [← hget]
    exact hall.get hlt' hlt
  have hname := (checkProcedure_eq_ok hok).1
  refine ⟨s.procedures[i].2, ?_, hname ▸ hok⟩
  rw [List.getElem?_eq_getElem hlt']
  exact congrArg some (Prod.ext hname.symm rfl)

/-- **Names are unique**, so a procedure is found under its own. -/
lemma indexOf?_of_system (h : ofSystem s = .ok p) (hq : p.procedures[i]? = some q) :
    p.indexOf? q.name = some i := by
  have hname : ∀ {k : Nat} {r : Procedure}, p.procedures[k]? = some r →
      (s.procedures.map Prod.fst)[k]? = some r.name := by
    intro k r hr
    obtain ⟨graph, hk, -⟩ := checked_of_system h hr
    rw [List.getElem?_map, hk]
    rfl
  obtain ⟨hlt, hget⟩ := Array.getElem?_eq_some_iff.1 hq
  refine Array.findIdx?_eq_some_iff_getElem.2 ⟨hlt, by simp [hget], fun j hj hsame => ?_⟩
  have hjname := hname (Array.getElem?_eq_getElem (hj.trans hlt))
  rw [of_decide_eq_true hsame] at hjname
  obtain ⟨hlti, hgeti⟩ := List.getElem?_eq_some_iff.1 (hname hq)
  obtain ⟨hltj, hgetj⟩ := List.getElem?_eq_some_iff.1 hjname
  have := s.names_nodup.getElem_inj_iff.1 (hgeti.trans hgetj.symm)
  omega

/-- **Validation guarantees well-formedness.** -/
theorem wellFormed_of_system (h : ofSystem s = .ok p) : p.WellFormed := by
  obtain ⟨hmain, hall⟩ := ofSystem_eq_ok h
  have hlength : p.procedures.size = s.procedures.length := by
    rw [← Array.length_toList, hall.length_eq]
  refine ⟨?_, fun i q hq => ?_, fun i q hq => ?_, fun i q hq => ?_, fun i q hq => ?_,
    fun i q n hq => ?_, fun i q hq => indexOf?_of_system h hq⟩
  · obtain ⟨hlt, -⟩ := List.findIdx?_eq_some_iff_getElem.1 hmain
    have hlt' : p.main < p.procedures.size := by simpa [System.names, hlength] using hlt
    exact ⟨_, Array.getElem?_eq_getElem hlt'⟩
  all_goals obtain ⟨graph, -, hok⟩ := checked_of_system h hq
  · exact (checkProcedure_eq_ok hok).2.2.1
  · exact (checkProcedure_eq_ok hok).2.2.2.1
  · exact (checkProcedure_eq_ok hok).2.2.2.2.1
  · exact (checkProcedure_eq_ok hok).2.2.2.2.2.1
  · intro edge hedge hcall
    -- the callee is a name of the system, and the program has a procedure at its place
    have hname := (checkProcedure_eq_ok hok).2.2.2.2.2.2 n edge hedge hcall
    obtain ⟨pair, hpair, hfst⟩ := List.mem_map.1 hname
    obtain ⟨j, hlt, hget⟩ := List.getElem_of_mem hpair
    have hlt' : j < p.procedures.size := hlength ▸ hlt
    have hcallee : p.procedures[j]? = some p.procedures[j] := Array.getElem?_eq_getElem hlt'
    obtain ⟨graph', hj, -⟩ := checked_of_system h hcallee
    rw [List.getElem?_eq_getElem hlt, hget] at hj
    refine ⟨j, _, ?_, hcallee⟩
    rw [← hfst, Option.some.inj hj]
    exact indexOf?_of_system h hcallee

end Program

end ModalCalls
