import Mathlib
import ModalCalls.Proofs.Computation

/-!
# Two computations in lockstep

Two runs that start from related states and go the same way: whatever the first one answers, the second one
answers too, and the states they leave are related again.

The first run may lose something on its way, such as the room for a result, and what it answers after that
means nothing.  So `Lockstep` promises something only where nothing was lost in the end.  It says as well
that what is there in the end was there from the beginning, and because of that a sequence of computations
is in lockstep if its parts are (`Lockstep.bind`): nothing is asked of a part that has lost something.

* `Lockstep.mapM`, `Lockstep.foldlM` — a computation for each element of a list, under an invariant of the
  first run.

In this library what may be lost is room in a store, and the second run is the same operation over a larger
one.
-/

namespace ModalCalls

variable {ε σ α β : Type}

/-- **Lockstep.**  If `x` has an answer in `s` and has not lost anything (`clear`), then nothing was lost in
`s` either, and from a related state `y` has the same answer and leads to a related state. -/
def Lockstep (clear : σ → Prop) (rel : σ → σ → Prop) (x y : EStateM ε σ α) (s t : σ) : Prop :=
  ∀ a s', x s = .ok a s' → clear s' →
    clear s ∧ (rel s t → ∃ t', y t = .ok a t' ∧ rel s' t')

namespace Lockstep

variable {clear : σ → Prop} {rel : σ → σ → Prop} {s t : σ}

lemma pure (a : α) : Lockstep clear rel (Pure.pure a : EStateM ε σ α) (Pure.pure a) s t := by
  intro b s' h hclear
  cases h
  exact ⟨hclear, fun hrel => ⟨t, rfl, hrel⟩⟩

/-- Of an error nothing is asked. -/
lemma throw (e : ε) (y : EStateM ε σ α) : Lockstep clear rel (MonadExcept.throw e) y s t := by
  intro b s' h
  cases h

/-- One computation after another. -/
lemma bind {x y : EStateM ε σ α} {f g : α → EStateM ε σ β} (hx : Lockstep clear rel x y s t)
    (hf : ∀ a s' t', x s = .ok a s' → Lockstep clear rel (f a) (g a) s' t') :
    Lockstep clear rel (x >>= f) (y >>= g) s t := by
  intro b s'' h hclear
  obtain ⟨a, s', hxs, hfs⟩ := bind_eq_ok h
  have hclear' := (hf a s' s' hxs b s'' hfs hclear).1
  obtain ⟨hbefore, hlock⟩ := hx a s' hxs hclear'
  refine ⟨hbefore, fun hrel => ?_⟩
  obtain ⟨t', hy, hrel'⟩ := hlock hrel
  obtain ⟨t'', hg, hrel''⟩ := (hf a s' t' hxs b s'' hfs hclear).2 hrel'
  exact ⟨t'', (bind_of_ok hy).trans hg, hrel''⟩

/-- The answers are changed in the same way. -/
lemma map_pure {x y : EStateM ε σ α} {g : α → β} (hx : Lockstep clear rel x y s t) :
    Lockstep clear rel (x >>= fun a => (Pure.pure (g a) : EStateM ε σ β))
      (y >>= fun a => Pure.pure (g a)) s t :=
  bind hx fun a _ _ _ => pure (g a)

/-- A computation for each element of a list; `inv` is what each of them finds. -/
lemma mapM {f g : α → EStateM ε σ β} (inv : σ → Prop) : ∀ (l : List α) {s t : σ}, inv s →
    (∀ a ∈ l, ∀ s t, inv s → Lockstep clear rel (f a) (g a) s t) →
    (∀ a ∈ l, ∀ s, inv s → Yields (f a) s fun _ s' => inv s') →
    Lockstep clear rel (l.mapM f) (l.mapM g) s t
  | [], _, _, _, _, _ => pure []
  | a :: l, s, t, hs, hlock, hkeep => by
      rw [List.mapM_cons, List.mapM_cons]
      refine bind (hlock a (by simp) s t hs) fun b s' t' hb => map_pure ?_
      exact mapM inv l ((hkeep a (by simp) s hs).post_of_ok hb) (fun c hc => hlock c (by simp [hc]))
        fun c hc => hkeep c (by simp [hc])

/-- Folding a list; `inv` is what each step finds. -/
lemma foldlM {f g : β → α → EStateM ε σ β} (inv : β → σ → Prop) : ∀ (l : List α) {b : β} {s t : σ},
    inv b s →
    (∀ a ∈ l, ∀ b s t, inv b s → Lockstep clear rel (f b a) (g b a) s t) →
    (∀ a ∈ l, ∀ b s, inv b s → Yields (f b a) s inv) →
    Lockstep clear rel (l.foldlM f b) (l.foldlM g b) s t
  | [], b, _, _, _, _, _ => pure b
  | a :: l, b, s, t, hs, hlock, hkeep => by
      rw [List.foldlM_cons, List.foldlM_cons]
      refine bind (hlock a (by simp) b s t hs) fun b' s' t' hb => ?_
      exact foldlM inv l ((hkeep a (by simp) b s hs).post_of_ok hb)
        (fun c hc => hlock c (by simp [hc])) fun c hc => hkeep c (by simp [hc])

end Lockstep

end ModalCalls
