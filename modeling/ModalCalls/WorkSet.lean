import Std.Data.ExtTreeSet

/-!
# Sets of dirty states with a pick order

A `WorkSet` holds the states whose transformers have to be looked at again.  It is a queue without
repetitions: inserting a member again changes nothing, in particular not its place.  New members
go to the back, and the pick order says from which end the next one is taken.

Whether a state is a member is not read off the queue but looked up in a set.  Queue and set have
the same members; this is part of the type.
-/

namespace ModalCalls

/-- Which member is handed out next. -/
inductive PickOrder where
  /-- The one that has waited longest. -/
  | oldest
  /-- The one that came last. -/
  | newest
deriving DecidableEq, Inhabited

/-- A queue without repetitions, in the order in which its members came. -/
structure WorkSet where
  order : PickOrder
  queue : List Nat
  members : Std.ExtTreeSet Nat
  nodup : queue.Nodup
  /-- The set has the members of the queue. -/
  mem_members : ∀ n, n ∈ members ↔ n ∈ queue

namespace WorkSet

/-- No members. -/
def empty (order : PickOrder) : WorkSet where
  order := order
  queue := []
  members := ∅
  nodup := List.nodup_nil
  mem_members n := by simp

instance : Inhabited WorkSet where
  default := empty .oldest

/-- Membership. -/
def contains (w : WorkSet) (n : Nat) : Bool :=
  w.members.contains n

theorem contains_iff_mem {w : WorkSet} {n : Nat} : w.contains n = true ↔ n ∈ w.queue :=
  Std.ExtTreeSet.contains_iff_mem.trans (w.mem_members n)

/-- Add a new member at the back. -/
def append (w : WorkSet) (n : Nat) (hn : n ∉ w.queue) : WorkSet where
  order := w.order
  queue := w.queue ++ [n]
  members := w.members.insert n
  nodup := List.nodup_append.2 ⟨w.nodup, by simp, fun a ha b hb hab =>
    hn (List.mem_singleton.1 hb ▸ hab ▸ ha)⟩
  mem_members m := by
    rw [Std.ExtTreeSet.mem_insert, w.mem_members, Std.LawfulEqCmp.compare_eq_iff_eq, List.mem_append,
      List.mem_singleton, eq_comm]
    exact Or.comm

/-- Take out a member, which leaves the rest of the queue. -/
def remove (w : WorkSet) (n : Nat) (rest : List Nat) (hrest : w.queue.Perm (n :: rest)) : WorkSet where
  order := w.order
  queue := rest
  members := w.members.erase n
  nodup := (List.nodup_cons.1 (hrest.nodup w.nodup)).2
  mem_members m := by
    have hn := (List.nodup_cons.1 (hrest.nodup w.nodup)).1
    rw [Std.ExtTreeSet.mem_erase, w.mem_members, hrest.mem_iff, List.mem_cons, ne_eq,
      Std.LawfulEqCmp.compare_eq_iff_eq]
    constructor
    · rintro ⟨hne, rfl | hm⟩
      · exact absurd rfl hne
      · exact hm
    · intro hm
      exact ⟨fun heq => hn (heq ▸ hm), Or.inr hm⟩

/-- Add a member at the back, and say whether it was absent. -/
def insert (w : WorkSet) (n : Nat) : Bool × WorkSet :=
  if h : w.contains n then (false, w) else (true, w.append n fun hn => h (contains_iff_mem.2 hn))

/-- Add all members of a list, in its order. -/
def insertMany (w : WorkSet) (ns : List Nat) : WorkSet :=
  ns.foldl (fun w n => (w.insert n).2) w

theorem perm_of_getLast? {queue : List Nat} {n : Nat} (h : queue.getLast? = some n) :
    queue.Perm (n :: queue.dropLast) := by
  obtain ⟨rest, rfl⟩ := List.getLast?_eq_some_iff.1 h
  rw [List.dropLast_concat]
  exact List.perm_append_singleton n rest

/-- Take out the member that is next in pick order. -/
def pop? (w : WorkSet) : Option (Nat × WorkSet) :=
  match w.order with
  | .oldest =>
    match h : w.queue with
    | [] => none
    | n :: rest => some (n, w.remove n rest (h ▸ .refl _))
  | .newest =>
    match h : w.queue.getLast? with
    | none => none
    | some n => some (n, w.remove n w.queue.dropLast (perm_of_getLast? h))

/-- Number of members. -/
def size (w : WorkSet) : Nat :=
  w.queue.length

/-- Whether there is no member. -/
def isEmpty (w : WorkSet) : Bool :=
  w.queue.isEmpty

/-- The members in the order in which they would be taken. -/
def toList (w : WorkSet) : List Nat :=
  match w.order with
  | .oldest => w.queue
  | .newest => w.queue.reverse

/-! ## Laws

Insertion and removal in terms of the queue and of the list of members.  The set beside the queue does not
occur any more.
-/

theorem insert_of_mem {w : WorkSet} {n : Nat} (h : n ∈ w.queue) : w.insert n = (false, w) := by
  rw [insert, dif_pos (contains_iff_mem.2 h)]

theorem insert_of_not_mem {w : WorkSet} {n : Nat} (h : n ∉ w.queue) :
    w.insert n = (true, w.append n h) := by
  rw [insert, dif_neg fun hn => h (contains_iff_mem.1 hn)]

theorem mem_queue_insert (w : WorkSet) (m n : Nat) :
    n ∈ (w.insert m).2.queue ↔ n = m ∨ n ∈ w.queue := by
  by_cases h : m ∈ w.queue
  · rw [insert_of_mem h]
    constructor
    · exact Or.inr
    · rintro (rfl | hn)
      · exact h
      · exact hn
  · rw [insert_of_not_mem h]
    simp only [append, List.mem_append, List.mem_singleton]
    exact Or.comm

theorem mem_toList (w : WorkSet) (n : Nat) : n ∈ w.toList ↔ n ∈ w.queue := by
  simp only [toList]
  split <;> simp

/-- Taking a member out takes the first of the list. -/
theorem toList_of_pop? {w rest : WorkSet} {n : Nat} (h : w.pop? = some (n, rest)) :
    w.toList = n :: rest.toList := by
  unfold pop? at h
  split at h
  · next horder =>
    split at h
    · cases h
    · next m ms hqueue =>
      cases h
      simp only [toList, remove, horder, hqueue]
  · next horder =>
    split at h
    · cases h
    · next m hlast =>
      cases h
      obtain ⟨ms, hqueue⟩ := List.getLast?_eq_some_iff.1 hlast
      simp [toList, remove, horder, hqueue]

/-- Only an empty set has nothing to take out. -/
theorem pop?_eq_none_iff (w : WorkSet) : w.pop? = none ↔ w.queue = [] := by
  unfold pop?
  split
  · split
    · next hqueue => simp [hqueue]
    · next hqueue => simp [hqueue]
  · split
    · next hlast => simpa using hlast
    · next hlast =>
      obtain ⟨ms, hqueue⟩ := List.getLast?_eq_some_iff.1 hlast
      simp [hqueue]

end WorkSet

end ModalCalls
