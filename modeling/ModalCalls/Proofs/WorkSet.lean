import Mathlib
import ModalCalls.WorkSet
import ModalCalls.Proofs.Transcript

/-!
# Queues without repetitions

What a work set holds, and in which order, is determined by what was inserted and popped.  An insertion is
*effective* if the state was absent; only such an insertion gives a state its place, so a state waits since its
latest effective insertion however often it is inserted again.

* `WorkSet.drain_eq_toList` — the list of a work set is what popping gives until nothing is left.
* `WorkSet.toList_insert_of_pop?` — putting a state back that was taken out.
* `WorkSet.Waits` — the invariant, with a step lemma for an insertion and one for a pop.
* `WorkSet.transcript_queues` — **the discipline of a work set**: no state is held twice, none is lost before it
  is popped, and they leave in the order of their latest effective insertions, or in the reverse order.
-/

namespace ModalCalls

namespace WorkSet

variable {w rest : WorkSet} {n : Nat}

/-! ## Insertions

A state that is present is not inserted again.  The order in which states are handed out is fixed from the
beginning.
-/

lemma mem_queue_insertMany {n : Nat} : ∀ (ns : List Nat) (w : WorkSet),
    n ∈ (w.insertMany ns).queue ↔ n ∈ ns ∨ n ∈ w.queue
  | [], w => by simp [insertMany]
  | m :: ns, w => by
      have ih := mem_queue_insertMany (n := n) ns (w.insert m).2
      rw [mem_queue_insert] at ih
      rw [insertMany, List.foldl_cons]
      refine ih.trans ?_
      rw [List.mem_cons]
      tauto

lemma nodup_toList (w : WorkSet) : w.toList.Nodup := by
  simp only [toList]
  split
  · exact w.nodup
  · exact List.nodup_reverse.2 w.nodup

lemma order_insert (w : WorkSet) (n : Nat) : (w.insert n).2.order = w.order := by
  simp only [insert]
  split <;> rfl

lemma order_insertMany : ∀ (ns : List Nat) (w : WorkSet), (w.insertMany ns).order = w.order
  | [], _ => rfl
  | n :: ns, w => (order_insertMany ns (w.insert n).2).trans (order_insert w n)

/-! ## Taking states out

A queue is a list without repetitions, kept in the order of insertion; which end is taken from depends on
the order of the set.  That the list of members is what popping would give is proved by emptying the set.
-/

lemma order_of_pop? (h : w.pop? = some (n, rest)) : rest.order = w.order := by
  unfold pop? at h
  split at h <;> split at h <;> cases h <;> rfl

lemma length_toList (w : WorkSet) : w.toList.length = w.size := by
  simp only [toList, size]
  split
  · rfl
  · exact List.length_reverse

lemma isEmpty_iff_toList (w : WorkSet) : w.isEmpty = true ↔ w.toList = [] := by
  rw [isEmpty, List.isEmpty_iff, ← List.length_eq_zero_iff, ← List.length_eq_zero_iff, length_toList, size]

lemma size_of_pop? (h : w.pop? = some (n, rest)) : w.size = rest.size + 1 := by
  rw [← length_toList, toList_of_pop? h, List.length_cons, length_toList]

/-- What popping gives until nothing is left. -/
def drain (w : WorkSet) : List Nat :=
  match _hpop : w.pop? with
  | none => []
  | some (n, rest) => n :: rest.drain
termination_by w.size
decreasing_by
  have := size_of_pop? _hpop
  omega

/-- **The list of the members is what popping gives.** -/
lemma drain_eq_toList (w : WorkSet) : w.drain = w.toList := by
  induction hs : w.size generalizing w with
  | zero =>
      have hempty : w.toList = [] := List.length_eq_zero_iff.1 ((length_toList w).trans hs)
      rw [drain]
      split
      · exact hempty.symm
      · next hpop => simp [toList_of_pop? hpop] at hempty
  | succ k ih =>
      rw [drain]
      split
      · next hpop =>
          rw [size, (pop?_eq_none_iff w).1 hpop] at hs
          cases hs
      · next n rest hpop =>
          have := size_of_pop? hpop
          rw [ih rest (by omega), toList_of_pop? hpop]

/-- A work set is known by its order and its queue, which has the same members as the set. -/
lemma eq_of_queue {w w' : WorkSet} (horder : w.order = w'.order) (hqueue : w.queue = w'.queue) :
    w = w' := by
  obtain ⟨order, queue, members, _, hmembers⟩ := w
  obtain ⟨order', queue', members', _, hmembers'⟩ := w'
  cases horder
  cases hqueue
  have hsame : members = members' :=
    Std.ExtTreeSet.ext_mem fun n => (hmembers n).trans (hmembers' n).symm
  cases hsame
  rfl

/-- A work set is known by its order and the list of its members. -/
lemma eq_of_toList {w w' : WorkSet} (horder : w.order = w'.order) (hlist : w.toList = w'.toList) :
    w = w' := by
  refine eq_of_queue horder ?_
  simp only [toList, ← horder] at hlist
  cases horder' : w.order with
  | oldest => simpa only [horder'] using hlist
  | newest => exact List.reverse_injective (by simpa only [horder'] using hlist)

/-- A member that is put back is the last one or the first one again. -/
lemma toList_insert (hn : n ∉ rest.queue) :
    (rest.insert n).2.toList = match rest.order with
      | .oldest => rest.toList ++ [n]
      | .newest => n :: rest.toList := by
  rw [insert_of_not_mem hn]
  simp only [toList, append]
  cases rest.order with
  | oldest => rfl
  | newest => exact List.reverse_concat

/-- **Putting back what was taken out** restores the list of members exactly if the newest member is handed
out, or there is no other. -/
lemma toList_insert_of_pop? (h : w.pop? = some (n, rest)) :
    (rest.insert n).2.toList = w.toList ↔ w.order = .newest ∨ rest.isEmpty = true := by
  have hlist := toList_of_pop? h
  have hn : n ∉ rest.queue := by
    have hnodup := nodup_toList w
    rw [hlist, List.nodup_cons, mem_toList] at hnodup
    exact hnodup.1
  rw [toList_insert hn, order_of_pop? h, hlist, isEmpty_iff_toList]
  cases w.order with
  | newest => simp
  | oldest =>
      simp only [reduceCtorEq, false_or]
      cases hrest : rest.toList with
      | nil => simp
      | cons m ms =>
          have hne : m ≠ n := fun heq => hn ((mem_toList rest n).1 (by simp [hrest, heq]))
          simp [hne]

/-! ## Sequences of calls

A queue forgets what it has handed out, so laws about its discipline are laws about histories.  In a
history, latest event first, the place of a state is that of its latest effective insertion.  The invariant
compares the queue with the history: the same states wait, in the same order.  A pop that finds nothing is
part of a history, too, and changes nothing.
-/

/-- The operations that change a work set. -/
inductive Call where
  | insert (n : Nat)
  | extend (ns : List Nat)
  | pop

/-- What happens to a work set: an insertion, which may find the state present, and a pop, which may find
nothing. -/
inductive Event where
  | inserted (n : Nat) (fresh : Bool)
  | popped (answer : Option Nat)
deriving DecidableEq

/-- The insertions of a list of states one after another, latest first. -/
def insertions (w : WorkSet) : List Nat → List Event
  | [] => []
  | n :: ns => insertions (w.insert n).2 ns ++ [.inserted n (w.insert n).1]

/-- Carry a call out. -/
def Call.run : Call → WorkSet → List Event × WorkSet
  | insert n, w => ([.inserted n (w.insert n).1], (w.insert n).2)
  | extend ns, w => (insertions w ns, w.insertMany ns)
  | pop, w =>
    match w.pop? with
    | some (n, rest) => ([.popped (some n)], rest)
    | none => ([.popped none], w)

/-- The latest effective insertion of `m` came before that of `n`. -/
def EnteredBefore (log : List Event) (m n : Nat) : Prop :=
  log.idxOf (.inserted n true) < log.idxOf (.inserted m true)

/-- Of two states the first one is to leave first: it entered first if the oldest is picked, and last if the
newest is. -/
def Precedes (order : PickOrder) (log : List Event) (m n : Nat) : Prop :=
  match order with
  | .oldest => EnteredBefore log m n
  | .newest => EnteredBefore log n m

/-- A state was inserted, effectively or not, and it was not popped since. -/
def IsDue (log : List Event) (n : Nat) : Prop :=
  Since (fun e => ∃ fresh, e = .inserted n fresh) (· = .popped (some n)) log

/-- Whenever a state has left, it was due, and it preceded all others that were due at that time. -/
def LeftInTurn (order : PickOrder) (log : List Event) : Prop :=
  ∀ later n earlier, log = later ++ .popped (some n) :: earlier →
    IsDue earlier n ∧ ∀ m, IsDue earlier m → m ≠ n → Precedes order earlier n m

variable {log : List Event} {m : Nat}

lemma isDue_inserted {fresh : Bool} : IsDue (.inserted n fresh :: log) m ↔ m = n ∨ IsDue log m := by
  cases fresh <;> simp [IsDue, since_cons, eq_comm]

lemma isDue_popped {answer : Option Nat} :
    IsDue (.popped answer :: log) m ↔ answer ≠ some m ∧ IsDue log m := by
  simp [IsDue, since_cons]

/-- An event that gives none of two states its place leaves their order alone. -/
lemma enteredBefore_cons {e : Event} (hm : e ≠ .inserted m true) (hn : e ≠ .inserted n true) :
    EnteredBefore (e :: log) m n ↔ EnteredBefore log m n := by
  simp [EnteredBefore, hm, hn]

/-- Whoever enters now comes after all others. -/
lemma enteredBefore_cons_self (h : m ≠ n) : EnteredBefore (.inserted n true :: log) m n := by
  simp [EnteredBefore, Ne.symm h]

lemma leftInTurn_cons {order : PickOrder} {e : Event} (h : LeftInTurn order log)
    (he : ∀ n, e = .popped (some n) → IsDue log n ∧ ∀ m, IsDue log m → m ≠ n → Precedes order log n m) :
    LeftInTurn order (e :: log) := by
  intro later n earlier hlog
  cases later with
  | nil =>
      simp only [List.nil_append, List.cons.injEq] at hlog
      obtain ⟨rfl, rfl⟩ := hlog
      exact he n rfl
  | cons e' later =>
      simp only [List.cons_append, List.cons.injEq] at hlog
      exact h later n earlier hlog.2

/-! ### The invariant

What a queue is to say about its history, with one step lemma for each kind of event.  An insertion that
finds the state present changes neither the queue nor who is due.  Any other puts the state behind all that
wait, and this agrees with the history because its insertion is now the latest.
-/

/-- **The invariant**: exactly the states that are due wait in the queue, in the order of their latest effective
insertions, and all others have left in turn. -/
structure Waits (w : WorkSet) (log : List Event) : Prop where
  mem_iff : ∀ n, n ∈ w.queue ↔ IsDue log n
  entered : ∀ n ∈ w.queue, Event.inserted n true ∈ log
  sorted : w.queue.Pairwise (EnteredBefore log)
  left : LeftInTurn w.order log

/-- The list of the members is sorted as they are to leave. -/
lemma Waits.toList_sorted (h : Waits w log) : w.toList.Pairwise (Precedes w.order log) := by
  have hsorted := h.sorted
  simp only [toList]
  cases w.order with
  | oldest => exact hsorted
  | newest => exact List.pairwise_reverse.2 hsorted

/-- **An insertion keeps the invariant.** -/
lemma Waits.insert (h : Waits w log) (n : Nat) :
    Waits (w.insert n).2 (.inserted n (w.insert n).1 :: log) where
  mem_iff m := by rw [mem_queue_insert, isDue_inserted, h.mem_iff]
  entered m hm := by
    by_cases hn : n ∈ w.queue
    · rw [insert_of_mem hn] at hm
      exact List.mem_cons_of_mem _ (h.entered m hm)
    · rw [insert_of_not_mem hn] at hm ⊢
      rcases List.mem_append.1 hm with hm | hm
      · exact List.mem_cons_of_mem _ (h.entered m hm)
      · simp [List.mem_singleton.1 hm]
  sorted := by
    by_cases hn : n ∈ w.queue
    · rw [insert_of_mem hn]
      exact h.sorted.imp fun hab => (enteredBefore_cons (by simp) (by simp)).2 hab
    · rw [insert_of_not_mem hn]
      have hne : ∀ {m}, m ∈ w.queue → m ≠ n := fun hm heq => hn (heq ▸ hm)
      refine List.pairwise_append.2 ⟨?_, List.pairwise_singleton _ n, ?_⟩
      · refine h.sorted.imp_of_mem fun ha hb hab => (enteredBefore_cons ?_ ?_).2 hab
        · simp [(hne ha).symm]
        · simp [(hne hb).symm]
      · intro m hm n' hn'
        rw [List.mem_singleton.1 hn']
        exact enteredBefore_cons_self (hne hm)
  left := by
    rw [order_insert]
    exact leftInTurn_cons h.left (by simp)

lemma Waits.insertMany : ∀ (ns : List Nat) {w : WorkSet} {log : List Event}, Waits w log →
    Waits (w.insertMany ns) (insertions w ns ++ log)
  | [], _, _, h => h
  | n :: ns, w, log, h => by
      rw [insertions, List.append_assoc, List.singleton_append]
      exact insertMany ns (h.insert n)

/-- The queue after a pop is the queue before without its first or without its last member. -/
lemma queue_of_pop? (h : w.pop? = some (n, rest)) : w.queue = n :: rest.queue ∨ w.queue = rest.queue ++ [n] := by
  have hlist := toList_of_pop? h
  have horder := order_of_pop? h
  simp only [toList, horder] at hlist
  cases hw : w.order with
  | oldest =>
      simp only [hw] at hlist
      exact Or.inl hlist
  | newest =>
      simp only [hw] at hlist
      exact Or.inr (by simpa using congrArg List.reverse hlist)

/-- **A pop keeps the invariant.** -/
lemma Waits.pop (h : Waits w log) (hpop : w.pop? = some (n, rest)) : Waits rest (.popped (some n) :: log) := by
  have hsub : rest.queue.Sublist w.queue := by
    rcases queue_of_pop? hpop with hq | hq <;> rw [hq]
    · exact List.sublist_cons_self n _
    · exact List.sublist_append_left _ _
  have hmem : ∀ m, m ∈ rest.queue ↔ n ≠ m ∧ m ∈ w.queue := by
    have hnodup := nodup_toList w
    rw [toList_of_pop? hpop, List.nodup_cons] at hnodup
    intro m
    rw [← mem_toList, ← mem_toList w, toList_of_pop? hpop, List.mem_cons]
    constructor
    · intro hm
      exact ⟨fun heq => hnodup.1 (heq ▸ hm), Or.inr hm⟩
    · rintro ⟨hne, rfl | hm⟩
      · exact absurd rfl hne
      · exact hm
  refine ⟨fun m => ?_, fun m hm => ?_, ?_, ?_⟩
  · rw [hmem, isDue_popped, h.mem_iff]
    simp
  · exact List.mem_cons_of_mem _ (h.entered m (hsub.subset hm))
  · exact (h.sorted.sublist hsub).imp fun hab => (enteredBefore_cons (by simp) (by simp)).2 hab
  · have hfirst := h.toList_sorted
    rw [toList_of_pop? hpop, List.pairwise_cons] at hfirst
    rw [order_of_pop? hpop]
    refine leftInTurn_cons h.left ?_
    rintro _ ⟨⟩
    refine ⟨(h.mem_iff n).1 ?_, fun m hm hne => hfirst.1 m ?_⟩
    · rw [← mem_toList, toList_of_pop? hpop]
      exact List.mem_cons_self
    · exact (mem_toList rest m).2 ((hmem m).2 ⟨hne.symm, (h.mem_iff m).2 hm⟩)

/-- A pop that finds nothing leaves everything as it is. -/
lemma Waits.pop_none (h : Waits w log) : Waits w (.popped none :: log) where
  mem_iff m := by simp [isDue_popped, h.mem_iff]
  entered m hm := List.mem_cons_of_mem _ (h.entered m hm)
  sorted := h.sorted.imp fun hab => (enteredBefore_cons (by simp) (by simp)).2 hab
  left := leftInTurn_cons h.left (by simp)

/-! ### The discipline

The laws as a user of the set sees them: in terms of its list, and with the order of leaving.
-/

/-- **A work set and its history.** -/
structure Queues (order : PickOrder) (t : Transcript WorkSet Event) : Prop where
  /-- No state is held twice. -/
  nodup : t.state.queue.Nodup
  mem_queue_iff : ∀ n, n ∈ t.state.queue ↔ t.state.contains n = true
  /-- The members, their number and whether there are any can be read off the list. -/
  contains_iff : ∀ n, t.state.contains n = true ↔ n ∈ t.state.toList
  size_eq : t.state.size = t.state.toList.length
  isEmpty_iff : t.state.isEmpty = true ↔ t.state.toList = []
  /-- The list is what popping gives until nothing is left. -/
  drain_eq : t.state.drain = t.state.toList
  /-- The members have entered, and the list shows the order in which they are to leave. -/
  entered : ∀ n ∈ t.state.toList, Event.inserted n true ∈ t.log
  sorted : t.state.toList.Pairwise (Precedes order t.log)
  /-- All others have left in that order as well. -/
  left : LeftInTurn order t.log
  /-- Whatever is inserted stays until it is popped. -/
  contains_iff_isDue : ∀ n, t.state.contains n = true ↔ IsDue t.log n

lemma Waits.queues {t : Transcript WorkSet Event} (h : Waits t.state t.log) : Queues t.state.order t where
  nodup := t.state.nodup
  mem_queue_iff _ := contains_iff_mem.symm
  contains_iff n := contains_iff_mem.trans (mem_toList _ n).symm
  size_eq := (length_toList _).symm
  isEmpty_iff := isEmpty_iff_toList _
  drain_eq := drain_eq_toList _
  entered n hn := h.entered n ((mem_toList _ n).1 hn)
  sorted := h.toList_sorted
  left := h.left
  contains_iff_isDue n := contains_iff_mem.trans (h.mem_iff n)

lemma Call.run_waits {t : Transcript WorkSet Event} (h : Waits t.state t.log) (call : Call) :
    Waits (t.call Call.run call).state (t.call Call.run call).log ∧
      (t.call Call.run call).state.order = t.state.order := by
  cases call with
  | insert n => exact ⟨h.insert n, order_insert _ n⟩
  | extend ns => exact ⟨h.insertMany ns, order_insertMany ns _⟩
  | pop =>
      simp only [Transcript.call, run]
      cases hpop : t.state.pop? with
      | none => exact ⟨h.pop_none, rfl⟩
      | some next => exact ⟨h.pop hpop, order_of_pop? hpop⟩

/-- **The discipline of a work set.**  Start with the empty set of either order and insert and pop in any sequence.
No state is held twice, the members are those of the list, which is what popping gives, and a state is held exactly
if it was inserted and not popped since.  States leave in the order of their latest effective insertions if the
oldest is picked, and in the reverse order if the newest is. -/
theorem transcript_queues (order : PickOrder) (calls : List Call) :
    Queues order (.of Call.run (.empty order) calls) := by
  have hwaits : ∀ calls, Waits (Transcript.of Call.run (.empty order) calls).state
        (Transcript.of Call.run (.empty order) calls).log ∧
      (Transcript.of Call.run (.empty order) calls).state.order = order := by
    refine Transcript.of_induction (motive := fun t => Waits t.state t.log ∧ t.state.order = order) ?_ ?_
    · refine ⟨⟨by simp [empty, IsDue], by simp [empty], List.Pairwise.nil, ?_⟩, rfl⟩
      intro later n earlier hlog
      simp at hlog
    · rintro t call ⟨h, horder⟩
      obtain ⟨hnext, hsame⟩ := Call.run_waits h call
      exact ⟨hnext, hsame.trans horder⟩
  obtain ⟨h, horder⟩ := hwaits calls
  simpa only [horder] using h.queues

/-- A state that is inserted again keeps its place; one that comes back after it was popped gets a new one. -/
example : (Transcript.of Call.run (.empty .oldest)
    [.extend [3, 1, 2], .insert 1, .pop, .insert 3]).state.toList = [1, 2, 3] := by
  decide

end WorkSet

end ModalCalls
