import Mathlib
import ModalCalls.Proofs.Process.Listing

/-!
# Validation is exact

`System.Checkable` is what a system must be like to be checked, and `System.Violates` is what each error
says of it.  Validation looks up the edges of initial and final states, so these have to be states of their
graphs where they are named at all (`System.EndpointsExist`).  Then it accepts exactly the systems that
can be checked, and otherwise names a procedure that is at fault (`Program.ofSystem_exact`).

A program that comes out of it is the system procedure by procedure (`Program.Represents`), and what it
says of predecessors and call sites is exact.
-/

namespace ModalCalls

namespace System

/-- The initial and final states that are named are states of their graphs. -/
def EndpointsExist (s : System) : Prop :=
  ∀ name graph, (name, graph) ∈ s.procedures → ∀ n,
    graph.initial = some n ∨ graph.final = some n → n < graph.size

/-- **A procedure that can be checked** as a part of a system. -/
structure Admits (s : System) (graph : ProcessGraph) : Prop where
  initial : graph.initial.isSome = true
  final : graph.final.isSome = true
  final_edges : ∀ n, graph.final = some n → graph.edgesFrom n = []
  guarded : ∀ n, graph.initial = some n → ∀ e ∈ graph.edgesFrom n, e.isCall = false
  callees : ∀ n, ∀ e ∈ graph.edgesFrom n, e.isCall = true → e.label ∈ s.names

/-- **A system that can be checked.** -/
structure Checkable (s : System) : Prop where
  main : s.main ∈ s.names
  procedures : ∀ name graph, (name, graph) ∈ s.procedures → s.Admits graph

/-- What an error says of a system. -/
def Violates (s : System) : ProgramError → Prop
  | .undefinedMain name => name = s.main ∧ name ∉ s.names
  | .missingInitial name => ∃ graph, (name, graph) ∈ s.procedures ∧ graph.initial = none
  | .missingFinal name => ∃ graph, (name, graph) ∈ s.procedures ∧ graph.final = none
  | .finalHasSuccessors name =>
    ∃ graph n, (name, graph) ∈ s.procedures ∧ graph.final = some n ∧ graph.edgesFrom n ≠ []
  | .unguarded name => ∃ graph n e, (name, graph) ∈ s.procedures ∧ graph.initial = some n ∧
    e ∈ graph.edgesFrom n ∧ e.isCall = true
  | .undefinedCallee caller callee => ∃ graph n e, (caller, graph) ∈ s.procedures ∧
    e ∈ graph.edgesFrom n ∧ e.isCall = true ∧ e.label = callee ∧ callee ∉ s.names
  | .fault _ => False

variable {s : System} {err : ProgramError}

lemma Checkable.not_violates (hs : s.Checkable) : ¬ s.Violates err := by
  cases err with
  | undefinedMain name =>
      rintro ⟨rfl, hmain⟩
      exact hmain hs.main
  | missingInitial name =>
      rintro ⟨graph, hmem, hnone⟩
      simpa [hnone] using (hs.procedures name graph hmem).initial
  | missingFinal name =>
      rintro ⟨graph, hmem, hnone⟩
      simpa [hnone] using (hs.procedures name graph hmem).final
  | finalHasSuccessors name =>
      rintro ⟨graph, n, hmem, hn, hedges⟩
      exact hedges ((hs.procedures name graph hmem).final_edges n hn)
  | unguarded name =>
      rintro ⟨graph, n, e, hmem, hn, he, hcall⟩
      simpa [hcall] using (hs.procedures name graph hmem).guarded n hn e he
  | undefinedCallee caller callee =>
      rintro ⟨graph, n, e, hmem, he, hcall, rfl, hnone⟩
      exact hnone ((hs.procedures caller graph hmem).callees n e he hcall)
  | fault f => exact id

end System

/-- **A procedure of a program**, with its name, its graph and the states that the graph names. -/
structure Procedure.Presents (q : Procedure) (name : String) (graph : ProcessGraph) : Prop where
  name_eq : q.name = name
  graph_eq : q.graph = graph
  initial_eq : graph.initial = some q.initial
  final_eq : graph.final = some q.final

namespace Program

variable {s : System} {p : Program} {name : String} {graph : ProcessGraph}

/-! ## One procedure

The conditions are tested in a fixed order, and an error is about the first that fails.  Unfolding the test
once, as a chain of conditions, lets the two directions be read off it together.
-/

lemma edgesAt_of_lt {n : Nat} (hn : n < graph.size) : edgesAt graph n = .ok (graph.edgesFrom n) := by
  have hlt : n < graph.states.size := hn
  simp only [edgesAt, ProcessGraph.outgoing, if_pos hlt]
  rfl

lemma of_undefinedCallee?_eq_some {callee : String} (h : undefinedCallee? s graph = some callee) :
    ∃ n, ∃ e ∈ graph.edgesFrom n, e.isCall = true ∧ e.label = callee ∧ callee ∉ s.names := by
  obtain ⟨e, he, hcallee⟩ := List.exists_of_findSome?_eq_some h
  obtain ⟨n, -, he⟩ := List.mem_flatMap.1 he
  split at hcallee
  · next hcond =>
      obtain rfl := Option.some.inj hcallee
      simp only [Bool.and_eq_true, Bool.not_eq_true', System.defines] at hcond
      exact ⟨n, e, he, hcond.1, rfl, by simpa using hcond.2⟩
  · cases hcallee

/-- The test of a procedure whose initial and final state exist. -/
lemma checkProcedure_eq {initial final : Nat} (hinitial : graph.initial = some initial)
    (hfinal : graph.final = some final) (hinitial_lt : initial < graph.size)
    (hfinal_lt : final < graph.size) :
    checkProcedure s name graph =
      if (graph.edgesFrom final).isEmpty = false then .error (.finalHasSuccessors name)
      else if (graph.edgesFrom initial).any (·.isCall) then .error (.unguarded name)
      else match undefinedCallee? s graph with
        | some callee => .error (.undefinedCallee name callee)
        | none => .ok ⟨name, graph, initial, final⟩ := by
  have hbind : ∀ {α β : Type} (a : α) (k : α → Except ProgramError β), (.ok a >>= k) = k a :=
    fun _ _ => rfl
  simp only [checkProcedure, hinitial, hfinal, edgesAt_of_lt hfinal_lt, edgesAt_of_lt hinitial_lt, hbind]
  cases (graph.edgesFrom final).isEmpty with
  | false => rfl
  | true =>
      cases (graph.edgesFrom initial).any (·.isCall) with
      | true => rfl
      | false => cases undefinedCallee? s graph <;> rfl

/-- **The test of a procedure** passes if the procedure can be checked, and says what is wrong otherwise. -/
lemma checkProcedure_cases (hmem : (name, graph) ∈ s.procedures)
    (hends : ∀ n, graph.initial = some n ∨ graph.final = some n → n < graph.size) :
    (∃ q, checkProcedure s name graph = .ok q ∧ q.Presents name graph ∧ s.Admits graph) ∨
    ∃ err, checkProcedure s name graph = .error err ∧ s.Violates err := by
  cases hinitial : graph.initial with
  | none =>
      refine Or.inr ⟨.missingInitial name, ?_, graph, hmem, hinitial⟩
      simp only [checkProcedure, hinitial]
      rfl
  | some initial =>
  cases hfinal : graph.final with
  | none =>
      refine Or.inr ⟨.missingFinal name, ?_, graph, hmem, hfinal⟩
      simp only [checkProcedure, hinitial, hfinal]
      rfl
  | some final =>
  rw [checkProcedure_eq hinitial hfinal (hends initial (Or.inl hinitial))
    (hends final (Or.inr hfinal))]
  -- the conditions in the order in which they are tested
  split
  · next hedges => exact Or.inr ⟨_, rfl, graph, final, hmem, hfinal, by simpa using hedges⟩
  next hedges =>
  split
  · next hcall =>
      obtain ⟨e, he, hiscall⟩ := List.any_eq_true.1 hcall
      exact Or.inr ⟨_, rfl, graph, initial, e, hmem, hinitial, he, hiscall⟩
  next hcall =>
  split
  · next callee hcallee =>
      obtain ⟨n, e, he, hiscall, hlabel, hnone⟩ := of_undefinedCallee?_eq_some hcallee
      exact Or.inr ⟨_, rfl, graph, n, e, hmem, he, hiscall, hlabel, hnone⟩
  next hcallee =>
  refine Or.inl ⟨_, rfl, ⟨rfl, rfl, hinitial, hfinal⟩, by simp [hinitial], by simp [hfinal], ?_, ?_,
    undefinedCallee?_eq_none_iff.1 hcallee⟩
  · intro n hn
    obtain rfl := Option.some.inj (hfinal.symm.trans hn)
    simpa using hedges
  · intro n hn
    obtain rfl := Option.some.inj (hinitial.symm.trans hn)
    simpa using hcall

/-! ## The whole system

A system has many procedures, and an error in one of them ends the validation.  So success says that all of
them have passed, in their order, and failure that one of them has not.
-/

/-- **A program and the system it comes from.** -/
structure Represents (p : Program) (s : System) : Prop where
  main : s.names[p.main]? = some s.main
  procedures : List.Forall₂ (fun a q => Procedure.Presents q a.1 a.2) s.procedures p.procedures.toList

/-- Validation passes if the system can be checked, and says what is wrong otherwise. -/
lemma ofSystem_cases (hends : s.EndpointsExist) :
    (∃ p, ofSystem s = .ok p ∧ p.Represents s ∧ s.Checkable) ∨
    ∃ err, ofSystem s = .error err ∧ s.Violates err := by
  cases hmain : s.indexOf? s.main with
  | none =>
      refine Or.inr ⟨.undefinedMain s.main, by simp only [ofSystem, hmain]; rfl, rfl, ?_⟩
      simpa [System.indexOf?, List.idxOf?_eq_none_iff] using hmain
  | some main =>
      have hchecks := except_mapM_cases (f := fun a => checkProcedure s a.1 a.2)
        (R := fun a q => s.Admits a.2 ∧ q.Presents a.1 a.2) (E := s.Violates) (l := s.procedures)
        fun a ha => (checkProcedure_cases ha (hends a.1 a.2 ha)).imp_left
          fun ⟨q, hq, hpresents, hadmits⟩ => ⟨q, hq, hadmits, hpresents⟩
      rcases hchecks with ⟨procedures, hok, hall⟩ | ⟨err, herr, hviolates⟩
      · have hindex : s.names[main]? = some s.main := by
          obtain ⟨hlt, hget, -⟩ := List.findIdx?_eq_some_iff_getElem.1 hmain
          rw [List.getElem?_eq_getElem hlt, ← beq_iff_eq.1 hget]
        obtain ⟨hadmits, hpresents⟩ := (List.forall₂_and_left _ _).1 hall
        refine Or.inl ⟨⟨main, procedures.toArray⟩, ?_, ⟨hindex, hpresents⟩,
          List.mem_of_getElem? hindex, fun name graph hmem => hadmits _ hmem⟩
        simp only [ofSystem, hmain]
        rw [hok]
        rfl
      · refine Or.inr ⟨err, ?_, hviolates⟩
        simp only [ofSystem, hmain]
        rw [herr]
        rfl

/-- **Validation is exact**, and so is what a program says of its edges. -/
theorem ofSystem_exact (hends : s.EndpointsExist) :
    ((∃ p, ofSystem s = .ok p) ↔ s.Checkable) ∧
    (∀ err, ofSystem s = .error err → s.Violates err) ∧
    ∀ p, ofSystem s = .ok p → p.Represents s ∧
      (∀ q ∈ p.procedures, ∀ n,
        Enumerates (q.graph.predecessors n) fun m => ∃ e ∈ q.graph.edgesFrom m, e.target = n) ∧
      ∀ label, Enumerates (p.callSites label) fun a => ∃ q, p.procedures[a.1]? = some q ∧
        ∃ e ∈ q.graph.edgesFrom a.2, e.isCall = true ∧ e.label = label := by
  rcases ofSystem_cases hends with ⟨p, hp, hrepresents, hs⟩ | ⟨err, herr, hviolates⟩
  · refine ⟨⟨fun _ => hs, fun _ => ⟨p, hp⟩⟩, fun err herr => ?_, fun p' hp' => ?_⟩
    · cases hp.symm.trans herr
    · cases hp.symm.trans hp'
      exact ⟨hrepresents, fun q _ => q.graph.enumerates_predecessors, p.enumerates_callSites⟩
  · refine ⟨⟨?_, fun hs => absurd hviolates hs.not_violates⟩, fun err' herr' => ?_, fun p hp => ?_⟩
    · rintro ⟨p, hp⟩
      cases herr.symm.trans hp
    · cases herr.symm.trans herr'
      exact hviolates
    · cases herr.symm.trans hp

/-- Calls along parallel edges, a call of a procedure that comes later, and a recursive call in a loop. -/
def loopingSystem : System where
  main := "main"
  procedures := [
    ("main", { states := #[[], [], [], []]
               edges := #[⟨some 0, 1, "a", .must, .internal⟩, ⟨some 1, 2, "later", .must, .call⟩,
                 ⟨some 1, 2, "later", .may, .call⟩, ⟨some 2, 2, "main", .must, .call⟩,
                 ⟨some 2, 3, "b", .must, .internal⟩]
               initial := some 0
               final := some 3 }),
    ("later", { states := #[[], []]
                edges := #[⟨some 0, 1, "c", .must, .internal⟩]
                initial := some 0
                final := some 1 })]

theorem ofSystem_exact_loopingSystem : loopingSystem.EndpointsExist ∧ loopingSystem.Checkable ∧
    ∃ p, ofSystem loopingSystem = .ok p ∧ p.Represents loopingSystem ∧
      p.procedures.toList.map (·.graph.predecessors 2) = [[1, 2], []] ∧
      p.callSites "later" = [(0, 1)] ∧ p.callSites "main" = [(0, 2)] := by
  have hends : loopingSystem.EndpointsExist := by
    intro name graph hmem n hn
    simp only [loopingSystem, List.mem_cons, Prod.mk.injEq, List.not_mem_nil, or_false] at hmem
    rcases hmem with ⟨-, rfl⟩ | ⟨-, rfl⟩ <;> rcases hn with hn | hn <;> cases hn <;> decide
  obtain ⟨hiff, -, hok⟩ := ofSystem_exact hends
  exact ⟨hends, hiff.1 ⟨_, rfl⟩, _, rfl, (hok _ rfl).1, rfl, rfl, rfl⟩

end Program

end ModalCalls
