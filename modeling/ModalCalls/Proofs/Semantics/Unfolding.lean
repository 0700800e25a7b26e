import Mathlib
import ModalCalls.Proofs.Semantics.Configuration

/-!
# Where unfolding ends

Between two steps a program makes moves by which no action is taken (`SilentMove`).  A call edge moves
control to the callee's initial state and pushes the target of the edge, and a procedure that has ended
moves control to the location that it pops.

Returns make the stack shorter, and calls are guarded: no call leaves an initial state.  So the move after a
call can only be the return from a procedure that ends where it begins.  As far as the caller can tell
such a call *skips* its edge (`Location.Skips`), and skipping is the one way to go on without a step.

* `wellFounded_silentMove_iff` — silent moves come to an end exactly if skipping does.
* `Program.not_endless_iff` — **in a program that passes validation no configuration has an endless sequence
  of silent moves, exactly if no location skips to itself.**  That is so if no procedure ends where it
  begins.
* `Program.endless_of_skip` — validation does not ask for it: a call of an empty procedure may lead back to
  where it was made.
-/

namespace ModalCalls

variable {p : Program}

/-- **A silent move**: no action is taken. -/
inductive SilentMove : Config p → Config p → Prop
  | call {l l' entry : Location p} {stack : List (Location p)} {edge : Edge}
      (hedge : l.Joined edge l') (hkind : edge.isCall = true) (hentry : entry.IsEntry edge.label) :
      SilentMove ⟨l, stack⟩ ⟨entry, l' :: stack⟩
  | pop {l l' : Location p} {stack : List (Location p)} (hexit : l.isExit = true) :
      SilentMove ⟨l, l' :: stack⟩ ⟨l', stack⟩

/-- An endless sequence of silent moves begins here. -/
def Config.Endless (start : Config p) : Prop :=
  ∃ c : Nat → Config p, c 0 = start ∧ ∀ k, SilentMove (c k) (c (k + 1))

/-- A call from `l` to `l'` that returns at once: the callee ends where it begins. -/
def Location.Skips (l l' : Location p) : Prop :=
  ∃ (edge : Edge) (entry : Location p), l.Joined edge l' ∧ edge.isCall = true ∧
    entry.IsEntry edge.label ∧ entry.isExit = true

/-! ## Silent moves and skipping

After a call control is at the beginning of a procedure, and no call leaves it.  So either the procedure
ends where it begins and returns at once, or nothing silent follows.  The induction goes down the stack, and
for each location on it along the edges that are skipped.
-/

/-- A call is followed by the callee's return or by nothing. -/
lemma acc_of_isEntry (hp : p.WellFormed) {entry l' : Location p} {stack : List (Location p)}
    {name : String} (hentry : entry.IsEntry name)
    (hreturn : entry.isExit = true → Acc (flip SilentMove) (⟨l', stack⟩ : Config p)) :
    Acc (flip SilentMove) (⟨entry, l' :: stack⟩ : Config p) := by
  refine Acc.intro _ fun c hc => ?_
  cases hc with
  | call hedge hkind _ => exact absurd hkind (by simp [hentry.isCall_eq hp hedge])
  | pop hexit => exact hreturn hexit

/-- Silent moves from the locations above a stack come to an end if those below do: one induction along
the edges that are skipped. -/
lemma acc_of_stack (hp : p.WellFormed) (hskips : WellFounded (flip (Location.Skips (p := p))))
    {stack : List (Location p)}
    (hbelow : ∀ l' rest, stack = l' :: rest → Acc (flip SilentMove) (⟨l', rest⟩ : Config p))
    (l : Location p) : Acc (flip SilentMove) (⟨l, stack⟩ : Config p) := by
  induction l using hskips.induction with
  | h l ih =>
      refine Acc.intro _ fun c hc => ?_
      cases hc with
      | @call _ l' entry _ edge hedge hkind hentry =>
          exact acc_of_isEntry hp hentry fun hexit =>
            ih l' ⟨edge, entry, hedge, hkind, hentry, hexit⟩
      | pop _ => exact hbelow _ _ rfl

/-- **Silent moves come to an end exactly if skipping does.** -/
theorem wellFounded_silentMove_iff (hp : p.WellFormed) :
    WellFounded (flip (SilentMove (p := p))) ↔ WellFounded (flip (Location.Skips (p := p))) := by
  constructor
  · intro hsilent
    -- an edge is skipped by two moves, the call and the return
    refine Subrelation.wf ?_ (InvImage.wf (fun l => (⟨l, []⟩ : Config p)) hsilent.transGen)
    rintro l' l ⟨edge, entry, hedge, hkind, hentry, hexit⟩
    exact .tail (.single (SilentMove.pop hexit)) (SilentMove.call hedge hkind hentry)
  · intro hskips
    refine ⟨fun c => ?_⟩
    obtain ⟨l, stack⟩ := c
    induction stack generalizing l with
    | nil => exact acc_of_stack hp hskips (by simp) l
    | cons l' stack ih =>
        refine acc_of_stack hp hskips ?_ l
        rintro _ _ ⟨⟩
        exact ih l'

/-! ## Endless sequences and cycles

A relation has no endless sequence exactly if it is well founded, and on finitely many locations exactly if
it has no cycle.  Configurations are infinitely many, so the step to locations has to come first.
-/

lemma forall_not_endless_iff :
    (∀ start : Config p, ¬ start.Endless) ↔ WellFounded (flip (SilentMove (p := p))) := by
  rw [wellFounded_iff_isEmpty_descending_chain]
  constructor
  · exact fun h => ⟨fun ⟨c, hc⟩ => h (c 0) ⟨c, rfl, hc⟩⟩
  · rintro h start ⟨c, -, hc⟩
    exact h.false ⟨c, hc⟩

/-- The procedure of a location is one of the program's, and the state one of the procedure's. -/
lemma Location.exists_position (l : Location p) :
    ∃ i : Fin p.procedures.size, l.procedure = i ∧ l.state < p.procedures[i].size := by
  obtain ⟨q, hq, hlt⟩ := l.exists_state
  obtain ⟨hi, rfl⟩ := Array.getElem?_eq_some_iff.1 hq
  exact ⟨⟨l.procedure, hi⟩, rfl, hlt⟩

/-- A program has finitely many locations. -/
instance : Finite (Location p) := by
  choose procedure hprocedure hstate using Location.exists_position (p := p)
  refine Finite.of_injective (β := (i : Fin p.procedures.size) × Fin p.procedures[i].size)
    (fun l => ⟨procedure l, l.state, hstate l⟩) fun l l' h => Location.ext ?_ ?_
  · rw [hprocedure l, hprocedure l']
    exact congrArg (fun x => (x.1 : Nat)) h
  · exact congrArg (fun x => (x.2 : Nat)) h

/-- Among finitely many locations skipping comes to an end exactly if it does not lead in a circle. -/
lemma wellFounded_skips_iff : WellFounded (flip (Location.Skips (p := p))) ↔
    ∀ l : Location p, ¬ Relation.TransGen Location.Skips l l := by
  constructor
  · intro h l hl
    exact h.transGen.irrefl.irrefl l (Relation.transGen_swap.2 hl)
  · intro h
    have htrans : IsTrans (Location p) (Relation.TransGen (flip Location.Skips)) :=
      ⟨fun _ _ _ => Relation.TransGen.trans⟩
    have hirrefl : Std.Irrefl (Relation.TransGen (flip (Location.Skips (p := p)))) :=
      ⟨fun l hl => h l (Relation.transGen_swap.1 hl)⟩
    exact Subrelation.wf (fun h => Relation.TransGen.single h)
      (Finite.wellFounded_of_trans_of_irrefl (Relation.TransGen (flip Location.Skips)))

namespace Program

/-- **Unfolding ends.**  In a program that passes validation no configuration, whatever its stack, has an
endless sequence of silent moves, exactly if no location skips to itself.  A program in which no
procedure ends where it begins skips nothing. -/
theorem not_endless_iff {s : System} (h : ofSystem s = .ok p) :
    ((∀ start : Config p, ¬ start.Endless) ↔
      ∀ l : Location p, ¬ Relation.TransGen Location.Skips l l) ∧
    ((∀ (i : Nat) (q : Procedure), p.procedures[i]? = some q → q.initial ≠ q.final) →
      ∀ start : Config p, ¬ start.Endless) := by
  have hiff : (∀ start : Config p, ¬ start.Endless) ↔
      ∀ l : Location p, ¬ Relation.TransGen Location.Skips l l :=
    forall_not_endless_iff.trans
      ((wellFounded_silentMove_iff (wellFormed_of_system h)).trans wellFounded_skips_iff)
  refine ⟨hiff, fun hproper => hiff.2 fun l hl => ?_⟩
  obtain ⟨_, ⟨edge, entry, -, -, hentry, hexit⟩, -⟩ := Relation.TransGen.head'_iff.1 hl
  simp [hentry.isExit_eq hproper] at hexit

/-- As many `b` as `a`: between the two the procedure may call itself. -/
def nestedGraph : ProcessGraph where
  states := #[[], [], [], []]
  edges := #[⟨some 0, 1, "a", .must, .internal⟩, ⟨some 1, 2, "main", .must, .call⟩,
    ⟨some 2, 3, "b", .must, .internal⟩, ⟨some 1, 3, "b", .must, .internal⟩]
  initial := some 0
  final := some 3

/-- Recursion does not make unfolding endless. -/
theorem not_endless_iff_nestedGraph : ∃ p : Program,
    ofSystem { main := "main", procedures := [("main", nestedGraph)] } = .ok p ∧
    (∀ (i : Nat) (q : Procedure), p.procedures[i]? = some q → q.initial ≠ q.final) ∧
    ∀ start : Config p, ¬ start.Endless := by
  have hsystem : ofSystem { main := "main", procedures := [("main", nestedGraph)] }
      = .ok ⟨0, #[⟨"main", nestedGraph, 0, 3⟩]⟩ := rfl
  have hproper : ∀ (i : Nat) (q : Procedure),
      (#[⟨"main", nestedGraph, 0, 3⟩] : Array Procedure)[i]? = some q → q.initial ≠ q.final := by
    rintro (_ | i) q ⟨⟩
    decide
  exact ⟨_, hsystem, hproper, (not_endless_iff hsystem).2 hproper⟩

/-- After one step there is a call that leads back to where it was made. -/
def circlingGraph : ProcessGraph where
  states := #[[], [], []]
  edges := #[⟨some 0, 1, "a", .must, .internal⟩, ⟨some 1, 1, "empty", .must, .call⟩]
  initial := some 0
  final := some 2

/-- A procedure that ends where it begins. -/
def emptyGraph : ProcessGraph where
  states := #[[]]
  initial := some 0
  final := some 0

/-- **Validation lets an endless sequence pass.**  A call of an empty procedure returns at once, here to
the state that made the call. -/
theorem endless_of_skip : ∃ (s : System) (p : Program) (start : Config p),
    ofSystem s = .ok p ∧ start.Endless := by
  let p : Program := ⟨0, #[⟨"main", circlingGraph, 0, 2⟩, ⟨"empty", emptyGraph, 0, 0⟩]⟩
  let caller : Location p := ⟨0, 1, _, rfl, by decide⟩
  let callee : Location p := ⟨1, 0, _, rfl, by decide⟩
  have hentry : p.entryOf? "empty" = some (1, 0) := by decide +kernel
  have hedge : caller.Joined ⟨some 1, 1, "empty", .must, .call⟩ caller := ⟨by decide, rfl, rfl⟩
  have hcall : SilentMove ⟨caller, []⟩ ⟨callee, [caller]⟩ := .call hedge rfl hentry
  have hpop : SilentMove ⟨callee, [caller]⟩ ⟨caller, []⟩ := .pop rfl
  refine ⟨{ main := "main", procedures := [("main", circlingGraph), ("empty", emptyGraph)] }, p,
    ⟨caller, []⟩, rfl, fun k => if k % 2 = 0 then ⟨caller, []⟩ else ⟨callee, [caller]⟩, rfl, fun k => ?_⟩
  rcases Nat.mod_two_eq_zero_or_one k with hk | hk
  · simpa [hk, Nat.add_mod] using hcall
  · simpa [hk, Nat.add_mod] using hpop

end Program

end ModalCalls
