import Mathlib

/-!
# Transcripts

The laws of a data structure that forgets, counts or queues speak about everything that was asked of it
before, and not about its present state alone.  They are stated about *transcripts*: a state together with
the events that have led to it, latest first.

* `Transcript.of` — the transcript of a sequence of calls.
* `Transcript.of_induction` — the run lemma: what holds at the start and is kept by every call holds in the end.
* `Since` — something has happened, and something else has not happened after it.
-/

namespace ModalCalls

/-- A state and the events that have led to it, latest first. -/
structure Transcript (σ ε : Type) where
  state : σ
  log : List ε

namespace Transcript

variable {σ ε ι : Type}

/-- One more call.  `run` gives the events of a call, latest first, and the state that the call leaves. -/
def call (run : ι → σ → List ε × σ) (t : Transcript σ ε) (c : ι) : Transcript σ ε where
  state := (run c t.state).2
  log := (run c t.state).1 ++ t.log

/-- The transcript of a sequence of calls that starts in the state `s`. -/
def of (run : ι → σ → List ε × σ) (s : σ) (calls : List ι) : Transcript σ ε :=
  calls.foldl (call run) ⟨s, []⟩

/-- **Runs.**  What holds at the start and is kept by every call holds of the whole transcript. -/
theorem of_induction {run : ι → σ → List ε × σ} {s : σ} {motive : Transcript σ ε → Prop}
    (start : motive ⟨s, []⟩) (step : ∀ t c, motive t → motive (t.call run c)) (calls : List ι) :
    motive (of run s calls) :=
  List.foldlRecOn calls (call run) start fun t ht c _ => step t c ht

/-- Calls add to the log and take nothing away. -/
lemma log_suffix_of_append (run : ι → σ → List ε × σ) (s : σ) (calls later : List ι) :
    (of run s calls).log <:+ (of run s (calls ++ later)).log := by
  rw [of, of, List.foldl_append]
  refine List.foldlRecOn (motive := fun t : Transcript σ ε => _ <:+ t.log) later (call run)
    (List.suffix_refl _) fun t ht c _ => ?_
  exact ht.trans (List.suffix_append _ _)

end Transcript

/-- Something of the first kind has happened, and nothing of the second kind after it. -/
def Since {ε : Type} (happened broken : ε → Prop) (log : List ε) : Prop :=
  ∃ later e earlier, log = later ++ e :: earlier ∧ happened e ∧ ∀ x ∈ later, ¬ broken x

section Since

variable {ε : Type} {happened broken : ε → Prop}

@[simp] lemma not_since_nil : ¬ Since happened broken [] := by
  rintro ⟨later, e, earlier, h, -⟩
  simp at h

/-- One more event: it happens now, or it has happened before and is not broken now. -/
lemma since_cons {x : ε} {log : List ε} :
    Since happened broken (x :: log) ↔ happened x ∨ (¬ broken x ∧ Since happened broken log) := by
  constructor
  · rintro ⟨later, e, earlier, h, he, hlater⟩
    cases later with
    | nil =>
        simp only [List.nil_append, List.cons.injEq] at h
        exact Or.inl (h.1 ▸ he)
    | cons y later =>
        simp only [List.cons_append, List.cons.injEq] at h
        simp only [List.mem_cons, forall_eq_or_imp] at hlater
        exact Or.inr ⟨h.1 ▸ hlater.1, later, e, earlier, h.2, he, hlater.2⟩
  · rintro (hx | ⟨hx, later, e, earlier, rfl, he, hlater⟩)
    · exact ⟨[], x, log, rfl, hx, by simp⟩
    · refine ⟨x :: later, e, earlier, rfl, he, ?_⟩
      simpa only [List.mem_cons, forall_eq_or_imp] using ⟨hx, hlater⟩

end Since

end ModalCalls
