import Mathlib
import ModalCalls.Proofs.Diagram.Reading

/-!
# Running out of room

A store that has run out of room answers with the constant `0` in place of the node that is missing, and such
answers enter the cache like all others.  What was computed before is not touched by that, and computing goes
on.

* `Store.Call.Specifies` — the value that the answer of a call ought to have, by evaluation of the handles
  that the call is about.
* `Store.Call.answers` — the step lemma: a call on handles of a sound store ends.  If there was room, the
  answer has the value that is specified.
* `Store.overflow_harmless` — **the flag goes up before a wrong handle is given out**, it stays up, and
  handles that were given out keep their values.
* `Store.node_reserved` — the calls that do not end: those that ask for a node of variable `0`.
-/

namespace ModalCalls

namespace Store

open DiagramM Serial

variable {s s' : Store} {f : Handle} {fs : List Handle}

/-! ## One call

What a call ought to answer is specified for each operation by evaluation of the handles it is about, before
the call.  Without the flag every operation meets its specification; the flag is what takes the place of a
proof that there was room.
-/

namespace Call

variable {c : Call}

/-- Variable `0` marks the terminal: no node may be asked for that tests it. -/
def NamesVariable : Call → Prop
  | var v => v ≠ 0
  | node v _ _ => v ≠ 0
  | _ => True

/-- **The value that is specified**: what the answer of a call on a store ought to be, for given inputs. -/
def Specifies (s : Store) (inputs : Array Bool) (b : Bool) : Call → Prop
  | constant b' => b = b'
  | var v => b = inputValue inputs v
  | node v low high => (if inputValue inputs v then s.eval high inputs else s.eval low inputs) = .ok b
  | ite f g h => (do if ← s.eval f inputs then s.eval g inputs else s.eval h inputs) = .ok b
  | and f g => (do return (← s.eval f inputs) && (← s.eval g inputs)) = .ok b
  | or f g => (do return (← s.eval f inputs) || (← s.eval g inputs)) = .ok b
  | not f => (do return !(← s.eval f inputs)) = .ok b
  | andMany fs => (do return (← fs.mapM (s.eval · inputs)).all id) = .ok b
  | orMany fs => (do return (← fs.mapM (s.eval · inputs)).any id) = .ok b
  | compose f subst => (do
      let values ← subst.toList.mapM (s.eval · inputs)
      s.eval f (override values inputs)) = .ok b
  | read text => ∃ entries root, Spells text.toList entries root ∧
      b = described entries root (inputValue inputs)

/-- **What a call answers** in the store `s'` that it leaves. -/
structure Answers (c : Call) (s : Store) (made : Option Handle) (s' : Store) : Prop where
  grows : s.Grows s'
  /-- Only a text may be refused. -/
  refused : made = none → ∃ text, c = read text
  valid : ∀ f, made = some f → s'.Valid f
  specified : s'.overflowed = false → ∀ f, made = some f →
    ∀ inputs, ∃ b, c.Specifies s inputs b ∧ s'.eval f inputs = .ok b

/-- An answer with a handle that means what is specified. -/
lemma answers_some (hgrows : s.Grows s') (hf : s'.Valid f) {F : (Nat → Bool) → Bool}
    (hmean : s'.overflowed = false → ∀ x, s'.meaning f x = F x)
    (hspecified : ∀ inputs, c.Specifies s inputs (F (inputValue inputs))) :
    c.Answers s (some f) s' where
  grows := hgrows
  refused := nofun
  valid := by
    rintro _ ⟨⟩
    exact hf
  specified := by
    rintro ho _ ⟨⟩ inputs
    exact ⟨_, hspecified inputs, by rw [eval_eq hgrows.sound.toShaped hf, hmean ho]⟩

/-- A text that is refused. -/
lemma answers_none {text : String} (hgrows : s.Grows s') : (read text).Answers s none s' where
  grows := hgrows
  refused := fun _ => ⟨text, rfl⟩
  valid := nofun
  specified := nofun

/-- An operation that builds what is specified. -/
lemma yields_built {x : DiagramM Handle} {F : (Nat → Bool) → Bool} (hx : Yields x s (s.Built F))
    (hspecified : ∀ inputs, c.Specifies s inputs (F (inputValue inputs))) :
    Yields (x >>= fun r => pure (some r)) s (c.Answers s) :=
  Yields.map_pure (hx.mono fun _ _ h => answers_some h.grows h.valid h.meaning hspecified)

/-- **A call on handles of a sound store ends**, and answers with what is specified. -/
theorem answers (hs : s.Sound) (hargs : ∀ g ∈ c.arguments, s.Valid g) (hordered : c.IsOrdered s)
    (hvar : c.NamesVariable) : Yields c.run s (c.Answers s) := by
  have heval : ∀ {g : Handle}, s.Valid g → ∀ inputs,
      s.eval g inputs = .ok (s.meaning g (inputValue inputs)) := eval_eq hs.toShaped
  cases c with
  | constant b =>
      exact Yields.pure (answers_some (.refl hs) (hs.valid_constant b)
        (fun _ _ => meaning_constant hs.toShaped b) fun _ => rfl)
  | var v => exact yields_built (mkVar_spec hs (Nat.pos_of_ne_zero hvar)) fun _ => rfl
  | node v low high =>
      obtain ⟨hlow, hhigh⟩ : s.Valid low ∧ s.Valid high := by simpa [arguments] using hargs
      refine yields_built ((mkNode_spec hs (Nat.pos_of_ne_zero hvar) hlow hhigh
        (beneath_of_isBelow hordered.1) (beneath_of_isBelow hordered.2)).mono fun _ _ h => h.1) ?_
      intro inputs
      rw [Specifies, heval hlow, heval hhigh]
      exact (apply_ite Except.ok _ _ _).symm
  | ite f g h =>
      obtain ⟨hf, hg, hh⟩ : s.Valid f ∧ s.Valid g ∧ s.Valid h := by simpa [arguments] using hargs
      refine yields_built (ite_spec hs hf hg hh) fun inputs => ?_
      rw [Specifies, heval hf, heval hg, heval hh]
      exact (apply_ite Except.ok _ _ _).symm
  | and f g =>
      obtain ⟨hf, hg⟩ : s.Valid f ∧ s.Valid g := by simpa [arguments] using hargs
      refine yields_built (and_spec hs hf hg) fun inputs => ?_
      rw [Specifies, heval hf, heval hg]
      rfl
  | or f g =>
      obtain ⟨hf, hg⟩ : s.Valid f ∧ s.Valid g := by simpa [arguments] using hargs
      refine yields_built (or_spec hs hf hg) fun inputs => ?_
      rw [Specifies, heval hf, heval hg]
      rfl
  | not f =>
      have hf : s.Valid f := by simpa [arguments] using hargs
      refine Yields.pure (answers_some (.refl hs) hf.neg (fun _ _ => meaning_neg hs.toShaped hf)
        fun inputs => ?_)
      rw [Specifies, heval hf]
      rfl
  | andMany fs =>
      have hfs : ∀ f ∈ fs, s.Valid f := hargs
      refine Yields.map_pure ((andMany_spec hs hfs).mono fun _ _ h =>
        answers_some h.grows h.valid h.meaning fun inputs => ?_)
      rw [Specifies, mapM_eval hs.toShaped hfs, List.foldl_map, foldl_and_eq_all, Bool.true_and]
      exact congrArg Except.ok List.all_map
  | orMany fs =>
      have hfs : ∀ f ∈ fs, s.Valid f := hargs
      refine Yields.map_pure ((orMany_spec hs hfs).mono fun _ _ h =>
        answers_some h.grows h.valid h.meaning fun inputs => ?_)
      rw [Specifies, mapM_eval hs.toShaped hfs, List.foldl_map, foldl_or_eq_any, Bool.false_or]
      exact congrArg Except.ok List.any_map
  | compose f subst =>
      have hf : s.Valid f := hargs f (by simp [arguments])
      have hsubst : s.ValidSubst subst := fun g hg => hargs g (by simp [arguments, hg])
      refine Yields.map_pure ((compose_spec hs hf hsubst).mono fun _ _ h =>
        answers_some h.1 h.2.1 (fun ho => (h.2.2.1 ho).1) fun inputs => ?_)
      rw [Specifies, mapM_eval hs.toShaped fun g hg => hsubst g (Array.mem_toList_iff.1 hg)]
      exact (eval_eq hs.toShaped hf _).trans (congrArg Except.ok (meaning_override inputs))
  | read text =>
      obtain ⟨result, s', hrun, hgrows, hvalid⟩ := ofSerial_spec hs text
      refine Yields.bind (.of_eq_ok hrun ?_)
      cases result with
      | error flaw => exact Yields.pure (answers_none hgrows)
      | ok f =>
          refine Yields.pure ⟨hgrows, by simp, ?_, ?_⟩
          · rintro _ ⟨⟩
            exact hvalid f rfl
          · rintro ho _ ⟨⟩ inputs
            obtain ⟨entries, root, hspells, hmean⟩ := meaning_of_ofSerial hs hrun ho
            exact ⟨_, ⟨entries, root, hspells, rfl⟩, by
              rw [eval_eq hgrows.sound.toShaped (hvalid f rfl), hmean]⟩

/-- Variable `0` is refused, and nothing changes. -/
lemma run_of_not_namesVariable (hvar : ¬ c.NamesVariable) : c.run s = .error .reservedVariable s := by
  cases c with
  | var v => exact run_reserved (not_not.1 hvar) _ _
  | node v low high => exact run_reserved (not_not.1 hvar) _ _
  | _ => exact absurd trivial hvar

end Call

/-! ## Sequences of calls

The flag goes up once and stays up, and no node is ever taken away.  Both are said of two stores that one
sequence of calls leads through, so the statement looks at a sequence from a new store and at any way in which
it may go on.
-/

/-- A store that keeps its nodes does not shrink. -/
lemma Keeps.size_le (h : s.Keeps s') : s.size ≤ s'.size := by
  by_contra hlt
  have hpos : 1 ≤ s.size := by omega
  obtain ⟨n, hn⟩ := Table.value?_eq_some.2 ⟨hpos, le_refl s.size⟩
  have hle : s.size ≤ s'.size := (Table.value?_eq_some.1 ⟨n, h _ n hn⟩).2
  exact hlt hle

/-- **Running out of room does no harm.**  Create a store and make any sequence of calls on handles that were
given out before, also after the flag has gone up.

A further call ends, unless it asks for a node of variable `0`, which is refused and changes nothing.  Only a
text may be left without a handle.  If the flag is down after the call, the handle that it gives out has the
specified value on all inputs.

There never are more nodes than places but one, and every node fits its place.  In whatever way the sequence
continues, no node is lost, the flag does not come down, and the handles keep their values. -/
theorem overflow_harmless {bits : Nat} {s₀ : Store} (hcreate : create bits = .ok s₀)
    (h : Continues s₀ [] s fs) :
    (∀ c : Call, (∀ g ∈ c.arguments, g ∈ fs) → c.IsOrdered s →
      (c.NamesVariable → ∃ made s', c.run s = .ok made s' ∧ (made = none → ∃ text, c = .read text) ∧
        (s'.overflowed = false → ∀ f, made = some f →
          ∀ inputs, ∃ b, c.Specifies s inputs b ∧ s'.eval f inputs = .ok b)) ∧
      (¬ c.NamesVariable → c.run s = .error .reservedVariable s)) ∧
    s.capacity = 2 ^ bits ∧ s.size ≤ s.capacity - 1 ∧
    (∀ i n, 1 < i → s.table.value? i = some n → s.Fits i n) ∧
    ∀ t gs, Continues s fs t gs → s.size ≤ t.size ∧ (s.overflowed = true → t.overflowed = true) ∧
      ∀ f ∈ fs, ∀ inputs, ∃ b, s.eval f inputs = .ok b ∧ t.eval f inputs = .ok b := by
  obtain ⟨hbits, rfl⟩ := create_eq_ok hcreate
  obtain ⟨hgrows, hfs⟩ := Calls.grows h (empty_sound hbits) (by simp)
  have hs := hgrows.sound
  refine ⟨fun c hargs hordered => ⟨fun hvar => ?_, Call.run_of_not_namesVariable⟩,
    hgrows.capacity.trans (empty_table hbits).2, Nat.le_sub_one_of_lt hs.room, hs.fits, fun t gs ht => ?_⟩
  · obtain ⟨made, s', hrun, hanswers⟩ := Call.answers hs (fun g hg => hfs g (hargs g hg)) hordered hvar
    exact ⟨made, s', hrun, hanswers.refused, hanswers.specified⟩
  · obtain ⟨hlater, -⟩ := Calls.grows ht hs hfs
    refine ⟨hlater.keeps.size_le, fun ho => ?_, fun f hf inputs =>
      ⟨_, eval_eq hs.toShaped (hfs f hf) inputs, ?_⟩⟩
    · by_contra hdown
      rw [hlater.overflowed (Bool.eq_false_of_not_eq_true hdown)] at ho
      cases ho
    · rw [eval_eq hlater.sound.toShaped (hlater.keeps.valid (hfs f hf)),
        hlater.meaning_eq hs.toShaped (hfs f hf)]

/-- A store with room for two variables and nothing else. -/
def crampedStore : Store :=
  after (Call.var 2).run (after (Call.var 1).run (.empty 2))

/-- There is no room for the conjunction of the two variables.  They keep their values when it is asked for,
and a text can be read afterwards. -/
theorem overflow_harmless_crampedStore :
    ∃ t, create 2 = .ok (.empty 2) ∧
      Continues (.empty 2) [] crampedStore [.positive 3, .positive 2] ∧
      crampedStore.overflowed = false ∧ t.overflowed = true ∧
      Continues crampedStore [.positive 3, .positive 2] t [.zero, .positive 3, .positive 2] ∧
      (∀ f ∈ [Handle.positive 3, .positive 2], ∀ inputs, ∃ b,
        crampedStore.eval f inputs = .ok b ∧ t.eval f inputs = .ok b) ∧
      ∃ made t', (Call.read "2,-1,1;1,-1,2|3").run t = .ok made t' := by
  have hcreate : create 2 = .ok (.empty 2) := rfl
  have h₁ : Continues (.empty 2) [] _ [.positive 2] :=
    .call (.var 1) .refl trivial (by simp [Call.arguments]) trivial
  have h₂ : Continues (.empty 2) [] crampedStore [.positive 3, .positive 2] :=
    .call (.var 2) h₁ trivial (by simp [Call.arguments]) trivial
  have hcall : Continues crampedStore [.positive 3, .positive 2] _ [.zero, .positive 3, .positive 2] :=
    .call (.and (.positive 2) (.positive 3)) .refl trivial (by decide) trivial
  have h₃ : Continues (.empty 2) [] _ [.zero, .positive 3, .positive 2] :=
    .call (.and (.positive 2) (.positive 3)) h₂ trivial (by decide) trivial
  obtain ⟨-, -, -, -, hlater⟩ := overflow_harmless hcreate h₂
  obtain ⟨hends, -⟩ := overflow_harmless hcreate h₃
  obtain ⟨made, t', hrun, -⟩ :=
    (hends (.read "2,-1,1;1,-1,2|3") (by simp [Call.arguments]) trivial).1 trivial
  exact ⟨_, hcreate, h₂, rfl, rfl, hcall, (hlater _ _ hcall).2.2, made, t', hrun⟩

/-- **Variable `0` is refused** also where all else that a node requires is there. -/
theorem node_reserved : ∃ s, Continues (.empty 3) [] s [.positive 2] ∧
    (Call.node 0 (.positive 2) (.positive 2)).IsOrdered s ∧
    (Call.node 0 (.positive 2) (.positive 2)).run s = .error .reservedVariable s :=
  ⟨_, .call (.var 1) .refl trivial (by simp [Call.arguments]) trivial, ⟨rfl, rfl⟩, rfl⟩

end Store

end ModalCalls
