import Mathlib
import ModalCalls.Proofs.Process.WellFormed

/-!
# What depends on what

Predecessors and call sites are collected in loops over procedures, states and edges, which add a state
whenever an edge asks for it.  If a state were missing it would not be updated again when it has to be, and
parallel edges must not add a state twice.  So what is collected is enumerated (`Enumerates`): everything
that should be there and nothing else, each once.

Adding one thing keeps this up (`Enumerates.addOnce`), and so does a loop whose steps do
(`Enumerates.foldl`).  The second rule is used once for each level of the loops.
-/

namespace ModalCalls

/-- **A list of all things with a property**, each once. -/
structure Enumerates {α : Type} (found : List α) (P : α → Prop) : Prop where
  nodup : found.Nodup
  mem_iff : ∀ a, a ∈ found ↔ P a

namespace Enumerates

variable {α β : Type} {found : List α} {P Q : α → Prop}

lemma nil : Enumerates ([] : List α) fun _ => False :=
  ⟨List.nodup_nil, fun a => by simp⟩

lemma congr (h : Enumerates found P) (hPQ : ∀ a, P a ↔ Q a) : Enumerates found Q :=
  ⟨h.nodup, fun a => (h.mem_iff a).trans (hPQ a)⟩

/-- One thing more. -/
lemma addOnce [BEq α] [LawfulBEq α] (h : Enumerates found P) (a : α) :
    Enumerates (ProcessGraph.addOnce found a) fun b => P b ∨ b = a := by
  unfold ProcessGraph.addOnce
  by_cases ha : a ∈ found
  · rw [if_pos (by simpa using ha)]
    refine h.congr fun b => ⟨Or.inl, ?_⟩
    rintro (hb | rfl)
    · exact hb
    · exact (h.mem_iff b).1 ha
  · rw [if_neg (by simpa using ha)]
    refine ⟨?_, fun b => by simp [h.mem_iff]⟩
    rw [List.nodup_append]
    refine ⟨h.nodup, List.nodup_singleton a, fun b hb c hc hbc => ha ?_⟩
    rw [← List.mem_singleton.1 hc, ← hbc]
    exact hb

/-- **A loop**: each step adds the things with a property of its own. -/
lemma foldl {step : List α → β → List α} {R : β → α → Prop} :
    ∀ {l : List β} {found : List α} {P : α → Prop},
      (∀ b ∈ l, ∀ {found P}, Enumerates found P →
        Enumerates (step found b) fun a => P a ∨ R b a) →
      Enumerates found P → Enumerates (l.foldl step found) fun a => P a ∨ ∃ b ∈ l, R b a
  | [], found, P, _, h => h.congr fun a => by simp
  | b :: l, found, P, hstep, h => by
      have hhead := hstep b (by simp) h
      have htail := foldl (fun c (hc : c ∈ l) => hstep c (by simp [hc])) hhead
      exact htail.congr fun a => by simp [or_assoc]

end Enumerates

variable {α : Type} [BEq α] [LawfulBEq α]

/-- What is collected in a graph. -/
lemma ProcessGraph.enumerates_collect (g : ProcessGraph) (p : Edge → Bool) (make : Nat → α)
    {found : List α} {P : α → Prop} (h : Enumerates found P) :
    Enumerates (g.collect p make found) fun a =>
      P a ∨ ∃ n, (∃ e ∈ g.edgesFrom n, p e = true) ∧ a = make n := by
  have hedge : ∀ (n : Nat) (e : Edge) {found : List α} {P : α → Prop}, Enumerates found P →
      Enumerates (if p e then addOnce found (make n) else found) fun a =>
        P a ∨ (p e = true ∧ a = make n) := by
    intro n e found P h
    cases hp : p e with
    | false => exact h.congr fun a => by simp
    | true => exact (h.addOnce (make n)).congr fun a => by simp
  have hstate := fun (n : Nat) {found : List α} {P : α → Prop} (h : Enumerates found P) =>
    Enumerates.foldl (l := g.edgesFrom n) (fun e _ => hedge n e) h
  refine (Enumerates.foldl (l := g.stateNumbers) (fun n _ => hstate n) h).congr fun a => ?_
  refine or_congr Iff.rfl ⟨?_, ?_⟩
  · rintro ⟨n, -, e, he, hp, ha⟩
    exact ⟨n, ⟨e, he, hp⟩, ha⟩
  · rintro ⟨n, ⟨e, he, hp⟩, ha⟩
    exact ⟨n, List.mem_range.2 (source_lt he), e, he, hp, ha⟩

/-- **Predecessors** are the states with an edge to a state. -/
lemma ProcessGraph.enumerates_predecessors (g : ProcessGraph) (n : Nat) :
    Enumerates (g.predecessors n) fun m => ∃ e ∈ g.edgesFrom m, e.target = n :=
  (g.enumerates_collect _ id .nil).congr fun m => by simp

/-- **Call sites** are the states with an edge that calls a procedure. -/
lemma Program.enumerates_callSites (p : Program) (callee : String) :
    Enumerates (p.callSites callee) fun a => ∃ q, p.procedures[a.1]? = some q ∧
      ∃ e ∈ q.graph.edgesFrom a.2, e.isCall = true ∧ e.label = callee := by
  refine (Enumerates.foldl
    (fun b _ => b.1.graph.enumerates_collect _ fun state => (b.2, state)) .nil).congr ?_
  rintro ⟨i, n⟩
  simp only [false_or, Prod.exists, List.mem_zipIdx_iff_getElem?, Array.getElem?_toList,
    Bool.and_eq_true, decide_eq_true_eq, Prod.mk.injEq]
  constructor
  · rintro ⟨q, _, hq, _, he, rfl, rfl⟩
    exact ⟨q, hq, he⟩
  · rintro ⟨q, hq, he⟩
    exact ⟨q, i, hq, n, he, rfl, rfl⟩

end ModalCalls
