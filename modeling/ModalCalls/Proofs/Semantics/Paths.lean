import Mathlib
import ModalCalls.Proofs.Semantics.Denotation

/-!
# Maximal paths and fixpoints

What holds on some path, or on all paths, from a state is a fixpoint of what holds at the state itself and
at its successors.

* `exists_preferring` — from each state there is a maximal path that stays in a given set whenever it can.
  This is the only place where a path is made up; every other one is a path with a state put before it
  or with its first state left out.
* `isLeast_somePath_until`, `isLeast_allPaths_until` — "until" is a least fixpoint.
* `isGreatest_somePath_always`, `isGreatest_allPaths_always` — "always" is a greatest fixpoint.
* `until_or_always_iff` — the weak "until" on one path, by what it excludes.

A path may end, at a state without a step.  There "always" holds on the path if it holds at the state, and
"until" holds only if its second set has been reached.
-/

namespace ModalCalls

namespace TransitionSystem

variable (T : TransitionSystem)

/-- All steps are must steps. -/
def AllMust : Prop :=
  ∀ s, ∀ a ∈ T.arrows s, a.modality = .must

/-- Some step leads into the set. -/
def someNext (X : Set T.State) : Set T.State :=
  {s | ∃ a ∈ T.arrows s, a.target ∈ X}

/-- All steps lead into the set. -/
def allNext (X : Set T.State) : Set T.State :=
  {s | ∀ a ∈ T.arrows s, a.target ∈ X}

/-- On some maximal path. -/
def somePath (P : T.MaximalPath → Prop) : Set T.State :=
  {s | ∃ path : T.MaximalPath, path.at? 0 = some s ∧ P path}

/-- On all maximal paths. -/
def allPaths (P : T.MaximalPath → Prop) : Set T.State :=
  {s | ∀ path : T.MaximalPath, path.at? 0 = some s → P path}

variable {T} {A B X : Set T.State} {s t : T.State} {n : Nat}

namespace MaximalPath

/-! ## Making paths

A path is made by choosing a next state wherever there is a step.  The choice prefers a given set.  With the
whole space for the set this says that there is some path, with the set of a fixpoint that there is one
which stays inside.
-/

/-- The path without its first state. -/
def tail (path : T.MaximalPath) : T.MaximalPath where
  at? n := path.at? (n + 1)
  step n := path.step (n + 1)
  ends n := path.ends (n + 1)
  ended n := path.ended (n + 1)

/-- The path with a state before its first one. -/
def cons (s : T.State) (path : T.MaximalPath)
    (h : ∃ a ∈ T.arrows s, path.at? 0 = some a.target) : T.MaximalPath where
  at?
    | 0 => some s
    | n + 1 => path.at? n
  step n u t hu ht := by
    cases n with
    | zero =>
        obtain ⟨a, ha, hfirst⟩ := h
        obtain rfl := Option.some.inj hu
        exact ⟨a, ha, Option.some.inj (hfirst.symm.trans ht)⟩
    | succ n => exact path.step n u t hu ht
  ends n u hu hnone := by
    cases n with
    | zero =>
        obtain ⟨a, -, hfirst⟩ := h
        exact absurd (hfirst.symm.trans hnone) (by simp)
    | succ n => exact path.ends n u hu hnone
  ended n hnone := by
    cases n with
    | zero => cases hnone
    | succ n => exact path.ended n hnone

/-- The path that goes on as `next` says, which may stop only where there is no step. -/
def follow (next : T.State → Option T.State)
    (hstep : ∀ s t, next s = some t → ∃ a ∈ T.arrows s, a.target = t)
    (hends : ∀ s, next s = none → T.arrows s = ∅) (s : T.State) : T.MaximalPath where
  at? n := (·.bind next)^[n] (some s)
  step n u t hu ht := by
    rw [Function.iterate_succ_apply', hu] at ht
    exact hstep u t ht
  ends n u hu hnone := by
    rw [Function.iterate_succ_apply', hu] at hnone
    exact hends u hnone
  ended n hnone := by
    rw [Function.iterate_succ_apply', hnone]
    rfl

/-- **There is a maximal path from every state**, and it can be chosen to go into a given set whenever
some step does. -/
theorem exists_preferring (X : Set T.State) (s : T.State) :
    ∃ path : T.MaximalPath, path.at? 0 = some s ∧
      ∀ n u t, path.at? n = some u → path.at? (n + 1) = some t → u ∈ T.someNext X → t ∈ X := by
  classical
  let next : T.State → Option T.State := fun u =>
    if h : ∃ a ∈ T.arrows u, a.target ∈ X then some h.choose.target
    else if h : ∃ a, a ∈ T.arrows u then some h.choose.target
    else none
  have hstep : ∀ u t, next u = some t → ∃ a ∈ T.arrows u, a.target = t := by
    intro u t hut
    simp only [next] at hut
    split at hut
    · next h => exact ⟨h.choose, h.choose_spec.1, Option.some.inj hut⟩
    · split at hut
      · next h => exact ⟨h.choose, h.choose_spec, Option.some.inj hut⟩
      · cases hut
  have hends : ∀ u, next u = none → T.arrows u = ∅ := by
    intro u hu
    simp only [next] at hu
    split at hu
    · cases hu
    · split at hu
      · cases hu
      · next h => exact Set.eq_empty_of_forall_notMem fun a ha => h ⟨a, ha⟩
  refine ⟨follow next hstep hends s, rfl, fun n u t hu ht hprefer => ?_⟩
  simp only [follow] at hu ht
  rw [Function.iterate_succ_apply', hu] at ht
  obtain rfl : (Exists.choose hprefer).target = t := by
    simpa [next, dif_pos (show ∃ a ∈ T.arrows u, a.target ∈ X from hprefer)] using ht
  exact (Exists.choose_spec hprefer).2

/-! ## What holds on a path

The small laws of "eventually", "always" and "until", at the first state and after it.  The weak "until" is
characterised by what it excludes, because that is how it is expanded.
-/

variable {path : T.MaximalPath}

/-- A path that has not ended had not ended before. -/
lemma exists_at_of_le (path : T.MaximalPath) {m n : Nat} (hmn : m ≤ n) (hn : path.at? n = some s) :
    ∃ u, path.at? m = some u := by
  by_contra hnone
  have hlater : ∀ k, path.at? (m + k) = none := by
    intro k
    induction k with
    | zero => exact Option.eq_none_iff_forall_not_mem.2 fun u hu => hnone ⟨u, hu⟩
    | succ k ih => exact path.ended _ ih
  rw [← Nat.add_sub_cancel' hmn, hlater] at hn
  cases hn

/-- The next state of a path, where there is a step. -/
lemma exists_next (path : T.MaximalPath) (hs : path.at? 0 = some s) (h : s ∈ T.someNext Set.univ) :
    ∃ a ∈ T.arrows s, path.tail.at? 0 = some a.target := by
  obtain ⟨a, ha, -⟩ := h
  cases hnext : path.at? 1 with
  | none => simp [path.ends 0 s hs hnext] at ha
  | some t =>
      obtain ⟨b, hb, rfl⟩ := path.step 0 s t hs hnext
      exact ⟨b, hb, hnext⟩

/-- What comes at some time is what anything lasts until. -/
lemma eventually_iff_until : path.Eventually A ↔ path.Until Set.univ A := by
  simp [Eventually, Until]

lemma until_of_mem (hs : path.at? 0 = some s) (h : s ∈ B) : path.Until A B :=
  ⟨0, s, hs, h, by simp⟩

lemma until_of_tail (hs : path.at? 0 = some s) (hA : s ∈ A) (h : path.tail.Until A B) :
    path.Until A B := by
  obtain ⟨n, t, ht, htB, hbefore⟩ := h
  refine ⟨n + 1, t, ht, htB, fun m hm u hu => ?_⟩
  cases m with
  | zero => exact Option.some.inj (hs.symm.trans hu) ▸ hA
  | succ m => exact hbefore m (by omega) u hu

lemma always_tail (h : path.Always A) : path.tail.Always A :=
  fun n => h (n + 1)

/-- A set that a path starts in and does not leave. -/
lemma always_of_step (hs : path.at? 0 = some s) (hX : s ∈ X)
    (hstep : ∀ n u t, path.at? n = some u → path.at? (n + 1) = some t → u ∈ X → t ∈ X) :
    path.Always X := by
  intro n
  induction n with
  | zero => exact fun u hu => Option.some.inj (hs.symm.trans hu) ▸ hX
  | succ n ih =>
      intro t ht
      obtain ⟨u, hu⟩ := path.exists_at_of_le (Nat.le_succ n) ht
      exact hstep n u t hu ht (ih u hu)

/-- **The weak "until"** holds on a path exactly if the first set is not left before the second one is
reached. -/
theorem until_or_always_iff (path : T.MaximalPath) :
    path.Until A B ∨ path.Always A ↔ ¬ path.Until Bᶜ (Aᶜ ∩ Bᶜ) := by
  classical
  constructor
  · rintro hweak ⟨n, s, hs, ⟨hsA, hsB⟩, hbefore⟩
    rcases hweak with ⟨m, t, ht, htB, hbefore'⟩ | halways
    · rcases Nat.lt_trichotomy m n with hmn | rfl | hnm
      · exact hbefore m hmn t ht htB
      · exact hsB (Option.some.inj (ht.symm.trans hs) ▸ htB)
      · exact hsA (hbefore' n hnm s hs)
    · exact hsA (halways n s hs)
  · intro hnot
    by_cases halways : path.Always A
    · exact Or.inr halways
    · left
      -- the first time that the first set is left
      have hleft : ∃ n s, path.at? n = some s ∧ s ∉ A := by
        simpa [Always] using halways
      obtain ⟨s, hs, hsA⟩ := Nat.find_spec hleft
      have hbefore : ∀ m < Nat.find hleft, ∀ t, path.at? m = some t → t ∈ A := by
        intro m hm t ht
        by_contra htA
        exact Nat.find_min hleft hm ⟨t, ht, htA⟩
      by_contra hnever
      have hnotB : ∀ m ≤ Nat.find hleft, ∀ t, path.at? m = some t → t ∉ B := by
        intro m hm t ht htB
        exact hnever ⟨m, t, ht, htB, fun k hk => hbefore k (by omega)⟩
      exact hnot ⟨Nat.find hleft, s, hs, ⟨hsA, hnotB _ le_rfl s hs⟩,
        fun m hm => hnotB m hm.le⟩

end MaximalPath

open MaximalPath

/-! ## Until

A set closed under the body of the fixpoint contains every state from which the second set is reached, by
induction on the time that it takes.  For all paths there is no such time that would do for all of them at
once; instead a path is taken that stays outside of the closed set as long as it can, and this path has to
reach the second set as well.
-/

/-- **"Until" on some path is a least fixpoint.** -/
theorem isLeast_somePath_until (A B : Set T.State) :
    IsLeast {X | B ∪ (A ∩ T.someNext X) ⊆ X} (T.somePath (·.Until A B)) := by
  constructor
  · rintro s (hB | ⟨hA, a, ha, path, hfirst, huntil⟩)
    · obtain ⟨path, hs, -⟩ := exists_preferring Set.univ s
      exact ⟨path, hs, until_of_mem hs hB⟩
    · exact ⟨path.cons s ⟨a, ha, hfirst⟩, rfl, until_of_tail rfl hA huntil⟩
  · rintro X hX s ⟨path, hs, n, hn⟩
    -- by induction on the time at which the second set is reached
    induction n generalizing s path with
    | zero =>
        obtain ⟨t, ht, htB, -⟩ := hn
        exact hX (Or.inl (Option.some.inj (hs.symm.trans ht) ▸ htB))
    | succ n ih =>
        obtain ⟨t, ht, htB, hbefore⟩ := hn
        obtain ⟨u, hu⟩ := path.exists_at_of_le (m := 1) (by omega) ht
        obtain ⟨a, ha, rfl⟩ := path.step 0 s u hs hu
        exact hX (Or.inr ⟨hbefore 0 (by omega) s hs, a, ha,
          ih path.tail hu ⟨t, ht, htB, fun m hm => hbefore (m + 1) (by omega)⟩⟩)

/-- **"Until" on all paths is a least fixpoint.**  A state without a step has to be in the second set. -/
theorem isLeast_allPaths_until (A B : Set T.State) :
    IsLeast {X | B ∪ (A ∩ (T.someNext Set.univ ∩ T.allNext X)) ⊆ X}
      (T.allPaths (·.Until A B)) := by
  constructor
  · rintro s (hB | ⟨hA, hsome, hall⟩) path hs
    · exact until_of_mem hs hB
    · obtain ⟨a, ha, hnext⟩ := path.exists_next hs hsome
      exact until_of_tail hs hA (hall a ha path.tail hnext)
  · intro X hX s hs
    by_contra hsX
    -- A path that keeps out of `X` as long as it can: it does so up to where the second set is reached.
    obtain ⟨path, hfirst, hprefer⟩ := exists_preferring Xᶜ s
    obtain ⟨n, t, ht, htB, hbefore⟩ := hs path hfirst
    have hout : ∀ m ≤ n, ∀ u, path.at? m = some u → u ∉ X := by
      intro m
      induction m with
      | zero => exact fun _ u hu => Option.some.inj (hfirst.symm.trans hu) ▸ hsX
      | succ m ih =>
          intro hm u hu
          obtain ⟨v, hv⟩ := path.exists_at_of_le (Nat.le_succ m) hu
          have hvX := ih (by omega) v hv
          obtain ⟨b, hb, -⟩ := path.step m v u hv hu
          refine hprefer m v u hv hu ?_
          by_contra hnone
          refine hvX (hX (Or.inr ⟨hbefore m (by omega) v hv, ⟨b, hb, trivial⟩, fun a ha => ?_⟩))
          by_contra haX
          exact hnone ⟨a, ha, haX⟩
    exact hout n le_rfl t ht (hX (Or.inl htB))

/-! ## Always

For a greatest fixpoint the argument goes the other way round: from a set that its body maps over itself, a
path is made that never leaves the set.
-/

/-- **"Always" on some path is a greatest fixpoint.**  The path may end at a state without a step. -/
theorem isGreatest_somePath_always (A : Set T.State) :
    IsGreatest {X | X ⊆ A ∩ (T.someNext X ∪ T.allNext ∅)} (T.somePath (·.Always A)) := by
  constructor
  · rintro s ⟨path, hs, halways⟩
    refine ⟨halways 0 s hs, ?_⟩
    cases hnext : path.at? 1 with
    | none =>
        refine Or.inr fun a ha => ?_
        simp [path.ends 0 s hs hnext] at ha
    | some t =>
        obtain ⟨a, ha, rfl⟩ := path.step 0 s t hs hnext
        exact Or.inl ⟨a, ha, path.tail, hnext, always_tail halways⟩
  · intro X hX s hs
    obtain ⟨path, hfirst, hprefer⟩ := exists_preferring X s
    have hin : path.Always X := always_of_step hfirst hs fun n u t hu ht huX => by
      obtain ⟨a, ha, -⟩ := path.step n u t hu ht
      exact hprefer n u t hu ht ((hX huX).2.resolve_right fun hempty => hempty a ha)
    exact ⟨path, hfirst, fun n u hu => (hX (hin n u hu)).1⟩

/-- **"Always" on all paths is a greatest fixpoint.** -/
theorem isGreatest_allPaths_always (A : Set T.State) :
    IsGreatest {X | X ⊆ A ∩ T.allNext X} (T.allPaths (·.Always A)) := by
  constructor
  · intro s hs
    obtain ⟨path, hfirst, -⟩ := exists_preferring Set.univ s
    exact ⟨hs path hfirst 0 s hfirst, fun a ha path hnext =>
      always_tail (hs (path.cons s ⟨a, ha, hnext⟩) rfl)⟩
  · intro X hX s hs path hfirst
    have hin : path.Always X := always_of_step hfirst hs fun n u t hu ht huX => by
      obtain ⟨a, ha, rfl⟩ := path.step n u t hu ht
      exact (hX huX).2 a ha
    exact fun n u hu => (hX (hin n u hu)).1

end TransitionSystem

end ModalCalls
