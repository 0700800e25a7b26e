import Mathlib
import ModalCalls.Diagram.Serial
import ModalCalls.Proofs.Diagram.Substitution

/-!
# Handles are canonical

A handle can only be come by through the operations of a store.  `Store.Call` lists them, and `Store.Calls`
are the sequences of calls, each of them on handles that were given out before.  A sequence goes on after a
call that found no room, that read a malformed text or that ended with a fault.

* `Store.Call.outcome` — the step lemma: a call on handles of a sound store leaves a sound store and answers
  with a handle of it.  Reading a serial form is one of the calls (`DiagramM.ofSerial_spec`).
* `Store.Calls.grows` — the run lemma, for all sequences at once.
* `Store.Issued` — the handles that a new store has given out after some sequence of calls.
* `Store.issued_canonical` — **every node fits its place, no node is stored twice, and two handles are equal
  exactly if evaluation cannot tell them apart.**  Running out of room does not change that.
-/

namespace ModalCalls

namespace Store

variable {s : Store} {f g : Handle} {x y : Nat → Bool}

/-! ## What evaluation can tell apart

Functions that differ have different handles, but evaluation is only ever asked for vectors of inputs, and a
vector is finite.  That is enough because a store is finite too: there is a last variable that some of its
nodes test, and a vector that reaches up to it can give every tested variable any value.
-/

/-- Only variables that some node tests matter. -/
lemma meaning_eq_of_tested (hs : s.Shaped) (hf : s.Valid f)
    (hxy : ∀ i n, 1 < i → s.table.value? i = some n → x n.var = y n.var) :
    s.meaning f x = s.meaning f y := by
  induction hi : f.index using Nat.strong_induction_on generalizing f with
  | _ i ih =>
      subst hi
      by_cases h : f.index = 1
      · rw [meaning_of_index hs hf h, meaning_of_index hs hf h]
      · have hlt : 1 < f.index := by
          have := hf.pos
          omega
        obtain ⟨n, hn⟩ := hf
        have hfits := hs.fits _ n hlt hn
        rw [meaning_of_node hs hlt hn, meaning_of_node hs hlt hn, hxy _ n hlt hn,
          ih _ hfits.high_lt (hs.valid_high hlt hn) rfl,
          ih _ hfits.low_lt (hs.valid_low hlt hn) rfl]

lemma eval_eq (hs : s.Shaped) (hf : s.Valid f) (inputs : Array Bool) :
    s.eval f inputs = .ok (s.meaning f (inputValue inputs)) :=
  evalAt_eq hs hf

/-- A vector of inputs that gives the variables up to a bound their values. -/
def inputsUpTo (bound : Nat) (x : Nat → Bool) : Array Bool :=
  ((List.range bound).map fun v => x (v + 1)).toArray

lemma inputValue_inputsUpTo {bound v : Nat} (hpos : 0 < v) (hle : v ≤ bound) :
    inputValue (inputsUpTo bound x) v = x v := by
  have hlt : v - 1 < bound := by omega
  simp [inputValue, inputsUpTo, hlt, Nat.sub_add_cancel hpos]

/-- There is a last variable that some node tests. -/
lemma exists_var_le (s : Store) :
    ∃ bound, ∀ i n, 1 < i → s.table.value? i = some n → n.var ≤ bound := by
  obtain ⟨bound, hbound⟩ := (s.table.values.toList.map Node.var).toFinset.exists_le
  refine ⟨bound, fun i n hi hn => hbound n.var ?_⟩
  have hmem : n ∈ s.table.values := by
    obtain ⟨i, rfl⟩ : ∃ k, i = k + 1 := ⟨i - 1, by omega⟩
    exact Array.mem_of_getElem? hn
  simpa using ⟨n, hmem, rfl⟩

/-- A vector of inputs can give all variables that some node tests any values. -/
lemma exists_inputs (hs : s.Shaped) (x : Nat → Bool) :
    ∃ inputs, ∀ i n, 1 < i → s.table.value? i = some n → inputValue inputs n.var = x n.var := by
  obtain ⟨bound, hbound⟩ := s.exists_var_le
  exact ⟨inputsUpTo bound x, fun i n hi hn =>
    inputValue_inputsUpTo (hs.fits i n hi hn).var_pos (hbound i n hi hn)⟩

/-- **Handles that evaluate alike are equal.** -/
theorem eq_iff_eval_eq (hs : s.Shaped) (hf : s.Valid f) (hg : s.Valid g) :
    f = g ↔ ∀ inputs, s.eval f inputs = s.eval g inputs := by
  constructor
  · rintro rfl _
    rfl
  · refine fun h => canonical hs hf hg fun x => ?_
    obtain ⟨inputs, hinputs⟩ := exists_inputs hs x
    have heval := h inputs
    rw [eval_eq hs hf, eval_eq hs hg, Except.ok.injEq] at heval
    rw [← meaning_eq_of_tested hs hf hinputs, heval, meaning_eq_of_tested hs hg hinputs]

/-! ## Reading

A serial form comes from outside, so nothing is known of it.  Everything that is looked up while it is read is
either a handle read before or refused, and a node is built only after the order of its children was tested.
Hence the specification of node construction applies, whatever the text is.
-/

/-- What may stand below a variable does. -/
lemma beneath_of_isBelow {v : Nat} (h : s.isBelow v f = .ok true) : s.Beneath v f := by
  simp only [isBelow] at h
  split at h
  · next hterm => exact Or.inl (Handle.isTerminal_iff.1 hterm)
  · obtain ⟨n, hn, hlt⟩ := except_bind_eq_ok h
    refine Or.inr ⟨n, ?_, by simpa using Except.ok.inj hlt⟩
    simp only [node, Table.value] at hn
    split at hn
    · next m hm =>
        cases hn
        exact hm
    · cases hn

lemma isBelow_of_beneath {v : Nat} (h : s.Beneath v f) : s.isBelow v f = .ok true := by
  simp only [isBelow]
  split
  · rfl
  · next hterm =>
      rcases h with hindex | ⟨n, hn, hlt⟩
      · exact absurd (Handle.isTerminal_iff.2 hindex) hterm
      · rw [node_of_value? hn]
        exact congrArg Except.ok (decide_eq_true hlt)

/-- It can be told of every handle of the store. -/
lemma exists_isBelow (hf : s.Valid f) (v : Nat) : ∃ b, s.isBelow v f = .ok b := by
  simp only [isBelow]
  split
  · exact ⟨true, rfl⟩
  · obtain ⟨n, hn⟩ := hf
    exact ⟨decide (v < n.var), by rw [node_of_value? hn]; rfl⟩

end Store

namespace Serial

variable {known : Array Handle} {text : List Char} {f : Handle}

/-- A reference stands for a handle that is known, up to its sign. -/
lemma resolve_eq_ok (h : resolve known text = .ok f) : ∃ g ∈ known, ∃ b, f = g.negateIf b := by
  simp only [resolve] at h
  split at h
  · cases h
  · split at h
    · cases h
    · split at h
      · cases h
      · next g hg =>
          cases h
          exact ⟨g, Array.mem_of_getElem? hg, _, rfl⟩

/-- The parts of an entry: a variable that is not reserved, and two references. -/
lemma readEntry_eq_ok {v : Nat} {low high : Handle} (h : readEntry known text = .ok (v, low, high)) :
    0 < v ∧ (∃ g ∈ known, ∃ b, low = g.negateIf b) ∧ ∃ g ∈ known, ∃ b, high = g.negateIf b := by
  simp only [readEntry] at h
  split at h
  · obtain ⟨v', hv, h⟩ := except_bind_eq_ok h
    obtain ⟨low', hlow, h⟩ := except_bind_eq_ok h
    obtain ⟨high', hhigh, h⟩ := except_bind_eq_ok h
    cases h
    refine ⟨?_, resolve_eq_ok hlow, resolve_eq_ok hhigh⟩
    simp only [readVar] at hv
    split at hv
    · cases hv
    · cases hv
    · next w hne _ =>
        cases hv
        exact Nat.pos_of_ne_zero hne
  · cases h

end Serial

namespace DiagramM

open Store

variable {s : Store}

/-- Reading entries adds a handle for each of them, up to the first that is malformed. -/
lemma ofEntries_spec : ∀ (texts : List (List Char)) {known : Array Handle} {s : Store}, s.Sound →
    (∀ f ∈ known, s.Valid f) →
    Yields (ofEntries known texts) s fun result s' =>
      s.Grows s' ∧ ∀ known', result = .ok known' → ∀ f ∈ known', s'.Valid f
  | [], known, s, hs, hknown => Yields.pure ⟨.refl hs, by rintro _ ⟨⟩; exact hknown⟩
  | text :: rest, known, s, hs, hknown => by
      have hmember : ∀ f : Handle, (∃ g ∈ known, ∃ b, f = g.negateIf b) → s.Valid f := by
        rintro f ⟨g, hg, b, rfl⟩
        exact (hknown g hg).negateIf b
      rw [ofEntries]
      split
      · exact Yields.pure ⟨.refl hs, nofun⟩
      · next v low high hentry =>
          obtain ⟨hv, hlow, hhigh⟩ := Serial.readEntry_eq_ok hentry
          have hlow := hmember low hlow
          have hhigh := hmember high hhigh
          obtain ⟨lowBelow, hlb⟩ := exists_isBelow hlow v
          obtain ⟨highBelow, hhb⟩ := exists_isBelow hhigh v
          refine Yields.bind (read_ok hlb (Yields.bind (read_ok hhb ?_)))
          split
          · next hboth =>
              obtain ⟨rfl, rfl⟩ := Bool.and_eq_true_iff.1 hboth
              refine Yields.bind ((mkNode_spec hs hv hlow hhigh (beneath_of_isBelow hlb)
                (beneath_of_isBelow hhb)).mono ?_)
              rintro f s₁ ⟨hbuilt, -⟩
              have hg := hbuilt.grows
              refine (ofEntries_spec rest hg.sound fun h hh => ?_).mono fun _ s' hrest =>
                ⟨hg.trans hrest.1, hrest.2⟩
              rcases Array.mem_push.1 hh with hh | rfl
              · exact hg.keeps.valid (hknown h hh)
              · exact hbuilt.valid
          · exact Yields.pure ⟨.refl hs, nofun⟩

/-- **Reading a serial form** leads to a handle of the store, whatever the text is. -/
theorem ofSerial_spec (hs : s.Sound) (text : String) :
    Yields (ofSerial text) s fun result s' =>
      s.Grows s' ∧ ∀ f, result = .ok f → s'.Valid f := by
  have hchars : Yields (ofSerialChars text.toList) s fun result s' =>
      s.Grows s' ∧ ∀ f, result = .ok f → s'.Valid f := by
    rw [ofSerialChars]
    split
    · exact Yields.pure ⟨.refl hs, nofun⟩
    · next body root _ =>
        have hone : ∀ f ∈ #[Handle.one], s.Valid f := by
          intro f hf
          rw [List.mem_singleton.1 (Array.mem_toList_iff.2 hf)]
          exact hs.valid_one
        refine Yields.bind ((ofEntries_spec (Serial.entriesOf body) hs hone).mono ?_)
        rintro (flaw | known) s' ⟨hg, hknown⟩
        · exact Yields.pure ⟨hg, nofun⟩
        · refine Yields.pure ⟨hg, fun f hf => ?_⟩
          obtain ⟨g, hmem, b, rfl⟩ := Serial.resolve_eq_ok hf
          exact (hknown known rfl g hmem).negateIf b
  refine Yields.bind (hchars.mono ?_)
  rintro (flaw | f) s' ⟨hg, hf⟩
  · exact Yields.pure ⟨hg, nofun⟩
  · refine Yields.pure ⟨hg, ?_⟩
    rintro _ ⟨⟩
    exact hf f rfl

end DiagramM

/-! ## Calls

The operations differ in what they compute, and agree in what they do to a store: they keep its nodes, keep it
sound and answer with a handle of it.  So one statement is made for all of them (`Call.outcome`), by cases on
the operation.
-/

namespace Store

open DiagramM

/-- The operations that answer with a handle. -/
inductive Call where
  | constant (b : Bool)
  | var (v : Nat)
  | node (v : Nat) (low high : Handle)
  | ite (f g h : Handle)
  | and (f g : Handle)
  | or (f g : Handle)
  | not (f : Handle)
  | andMany (fs : List Handle)
  | orMany (fs : List Handle)
  | compose (f : Handle) (subst : Array Handle)
  | read (text : String)

namespace Call

/-- Carry a call out.  Only reading may end without a handle. -/
def run : Call → DiagramM (Option Handle)
  | constant b => pure (some (.constant b))
  | var v => do
    let f ← mkVar v
    return some f
  | node v low high => do
    let f ← mkNode v low high
    return some f
  | ite f g h => do
    let r ← DiagramM.ite f g h
    return some r
  | and f g => do
    let r ← DiagramM.and f g
    return some r
  | or f g => do
    let r ← DiagramM.or f g
    return some r
  | not f => pure (some (-f))
  | andMany fs => do
    let r ← DiagramM.andMany fs
    return some r
  | orMany fs => do
    let r ← DiagramM.orMany fs
    return some r
  | compose f subst => do
    let r ← DiagramM.compose f subst
    return some r
  | read text => do
    match ← ofSerial text with
    | .ok f => return some f
    | .error _ => return none

/-- The handles that a call is about. -/
def arguments : Call → List Handle
  | constant _ => []
  | var _ => []
  | node _ low high => [low, high]
  | ite f g h => [f, g, h]
  | and f g => [f, g]
  | or f g => [f, g]
  | not f => [f]
  | andMany fs => fs
  | orMany fs => fs
  | compose f subst => f :: subst.toList
  | read _ => []

/-- What node construction requires of its caller: the children test later variables. -/
def IsOrdered (s : Store) : Call → Prop
  | node v low high => s.isBelow v low = .ok true ∧ s.isBelow v high = .ok true
  | _ => True

variable {s s' : Store} {c : Call} {f : Handle}

/-- A call that answers with a handle of the store. -/
lemma yields_some {x : DiagramM Handle} {post : Handle → Store → Prop} (hx : Yields x s post)
    (hpost : ∀ r s₁, post r s₁ → s.Grows s₁ ∧ s₁.Valid r) :
    Yields (x >>= fun r => pure (some r)) s fun made s' =>
      s.Grows s' ∧ ∀ f, made = some f → s'.Valid f := by
  refine Yields.map_pure (hx.mono fun r s₁ hr => ⟨(hpost r s₁ hr).1, ?_⟩)
  rintro _ ⟨⟩
  exact (hpost r s₁ hr).2

/-- A node of the reserved variable is not built, and nothing changes. -/
lemma run_reserved {v : Nat} (hv : v = 0) (low high : Handle) :
    (mkNode v low high >>= fun r => pure (some r)) s = .error .reservedVariable s :=
  bind_of_error (by rw [mkNode, if_pos hv]; rfl)

/-- **The outcome of a call** on handles of a sound store.  It keeps the store sound and answers with a
handle of it or, where a text is malformed, with none.  Only a node of the reserved variable is a
fault. -/
theorem outcome (hs : s.Sound) (hargs : ∀ g ∈ c.arguments, s.Valid g) (hordered : c.IsOrdered s) :
    c.run s = .error .reservedVariable s ∨
      Yields c.run s fun made s' => s.Grows s' ∧ ∀ f, made = some f → s'.Valid f := by
  have hbuilt : ∀ {F : (Nat → Bool) → Bool} (r : Handle) (s₁ : Store), s.Built F r s₁ →
      s.Grows s₁ ∧ s₁.Valid r := fun _ _ h => ⟨h.grows, h.valid⟩
  have hhandle : ∀ {f : Handle}, s.Valid f →
      Yields (pure (some f) : DiagramM (Option Handle)) s fun made s' =>
        s.Grows s' ∧ ∀ g, made = some g → s'.Valid g := by
    refine fun hf => Yields.pure ⟨.refl hs, ?_⟩
    rintro _ ⟨⟩
    exact hf
  cases c with
  | constant b => exact Or.inr (hhandle (hs.valid_constant b))
  | var v =>
      rcases Nat.eq_zero_or_pos v with hv | hv
      · exact Or.inl (run_reserved hv _ _)
      · exact Or.inr (yields_some (mkVar_spec hs hv) hbuilt)
  | node v low high =>
      rcases Nat.eq_zero_or_pos v with hv | hv
      · exact Or.inl (run_reserved hv _ _)
      · refine Or.inr (yields_some (mkNode_spec hs hv (hargs low ?_) (hargs high ?_)
          (beneath_of_isBelow hordered.1) (beneath_of_isBelow hordered.2)) fun r s₁ h => hbuilt r s₁ h.1)
        all_goals simp [arguments]
  | ite f g h =>
      refine Or.inr (yields_some (ite_spec hs (hargs f ?_) (hargs g ?_) (hargs h ?_)) hbuilt)
      all_goals simp [arguments]
  | and f g =>
      refine Or.inr (yields_some (and_spec hs (hargs f ?_) (hargs g ?_)) hbuilt)
      all_goals simp [arguments]
  | or f g =>
      refine Or.inr (yields_some (or_spec hs (hargs f ?_) (hargs g ?_)) hbuilt)
      all_goals simp [arguments]
  | not f => exact Or.inr (hhandle (hargs f (by simp [arguments])).neg)
  | andMany fs =>
      exact Or.inr (yields_some (andMany_spec hs hargs) fun r s₁ h => ⟨h.grows, h.valid⟩)
  | orMany fs =>
      exact Or.inr (yields_some (orMany_spec hs hargs) fun r s₁ h => ⟨h.grows, h.valid⟩)
  | compose f subst =>
      have hsubst : s.ValidSubst subst := fun g hg => hargs g (by simp [arguments, hg])
      exact Or.inr (yields_some (compose_spec hs (hargs f (by simp [arguments])) hsubst)
        fun r s₁ h => ⟨h.1, h.2.1⟩)
  | read text =>
      refine Or.inr (Yields.bind ((ofSerial_spec hs text).mono ?_))
      rintro (flaw | r) s₁ ⟨hgrows, hvalid⟩
      · exact Yields.pure ⟨hgrows, nofun⟩
      · refine Yields.pure ⟨hgrows, ?_⟩
        rintro _ ⟨⟩
        exact hvalid r rfl

/-- **A call keeps a store sound** and answers with a handle of it. -/
theorem step (hs : s.Sound) (hargs : ∀ g ∈ c.arguments, s.Valid g) (hordered : c.IsOrdered s)
    (hrun : c.run s = .ok (some f) s') : s.Grows s' ∧ s'.Valid f := by
  rcases outcome hs hargs hordered with herror | hyields
  · rw [herror] at hrun
    cases hrun
  · obtain ⟨hgrows, hvalid⟩ := hyields.post_of_ok hrun
    exact ⟨hgrows, hvalid f rfl⟩

/-- A call keeps a store sound, whatever it answers. -/
lemma grows_after (hs : s.Sound) (hargs : ∀ g ∈ c.arguments, s.Valid g) (hordered : c.IsOrdered s) :
    s.Grows (after c.run s) := by
  rcases outcome hs hargs hordered with herror | ⟨made, s', hok, hgrows, -⟩
  · simpa only [after, herror] using Grows.refl hs
  · simpa only [after, hok] using hgrows

/-- The handle that a call answers with, if it answers with one. -/
def given (c : Call) (s : Store) : List Handle :=
  match answer c.run s with
  | .ok (some f) => [f]
  | _ => []

/-- What a call gives out is a handle of the store that it leaves. -/
lemma valid_of_mem_given (hs : s.Sound) (hargs : ∀ g ∈ c.arguments, s.Valid g) (hordered : c.IsOrdered s)
    (hf : f ∈ c.given s) : (after c.run s).Valid f := by
  rw [given] at hf
  split at hf
  · next g hg =>
      rw [List.mem_singleton.1 hf]
      exact (step hs hargs hordered (answer_eq_ok_iff.1 hg)).2
  · cases hf

end Call

/-! ## Sequences of calls

Which stores there are, and which handles of them, is a question of which sequences of calls there are.  One
relation answers it for all purposes: it says where a sequence starts and where it leads, and it can be
restricted to some calls.  What a sequence keeps is shown for this relation, once.
-/

/-- **Sequences of calls** that start from the store `s` when the handles `fs` have been given out, and lead to
a store and the handles that have been given out by then, latest first.  Every call is `allowed` and on handles
that were given out before, and children of a node test later variables.  A call may run out of room, its text
may be refused, and it may end with a fault. -/
inductive Calls (allowed : Call → Prop) (s : Store) (fs : List Handle) : Store → List Handle → Prop
  | refl : Calls allowed s fs s fs
  | call {t : Store} {gs : List Handle} (c : Call) (h : Calls allowed s fs t gs) (hallowed : allowed c)
      (hargs : ∀ g ∈ c.arguments, g ∈ gs) (hordered : c.IsOrdered t) :
      Calls allowed s fs (after c.run t) (c.given t ++ gs)

/-- Any sequence of calls. -/
def Continues (s : Store) (fs : List Handle) : Store → List Handle → Prop :=
  Calls (fun _ => True) s fs

/-- **The handles that a store has given out** after a sequence of calls to a new store, latest first. -/
def Issued (bits : Nat) : Store → List Handle → Prop :=
  Continues (.empty bits) []

variable {allowed : Call → Prop} {bits : Nat} {s t : Store} {fs gs : List Handle}

/-- **Calls keep a store sound**, and everything that is given out is a handle of it. -/
theorem Calls.grows (h : Calls allowed s fs t gs) (hs : s.Sound) (hfs : ∀ f ∈ fs, s.Valid f) :
    s.Grows t ∧ ∀ g ∈ gs, t.Valid g := by
  induction h with
  | refl => exact ⟨.refl hs, hfs⟩
  | @call t gs c _ _ hargs hordered ih =>
      obtain ⟨hgrows, hgs⟩ := ih
      have hvalid : ∀ g ∈ c.arguments, t.Valid g := fun g hg => hgs g (hargs g hg)
      have hafter := Call.grows_after hgrows.sound hvalid hordered
      refine ⟨hgrows.trans hafter, fun g hg => ?_⟩
      rcases List.mem_append.1 hg with hg | hg
      · exact Call.valid_of_mem_given hgrows.sound hvalid hordered hg
      · exact hafter.keeps.valid (hgs g hg)

/-- A sequence of calls that starts from a new store. -/
lemma Calls.sound (h : Calls allowed (.empty bits) [] s fs) (hbits : validBits bits = true) :
    s.Sound ∧ ∀ f ∈ fs, s.Valid f := by
  obtain ⟨hgrows, hfs⟩ := h.grows (empty_sound hbits) (by simp)
  exact ⟨hgrows.sound, hfs⟩

/-! ## Canonicity

After any sequence of calls the store is sound, so all that is known of well-shaped stores applies to it.
What remains to be said is that no node is stored twice, the terminal included: a node that fits tests a
positive variable, and the terminal does not.
-/

/-- No node is stored twice, and none is stored that looks like the terminal. -/
lemma Shaped.index_eq_of_value? (hs : s.Shaped) {i j : Nat} {n : Node}
    (hi : s.table.value? i = some n) (hj : s.table.value? j = some n) : i = j := by
  have hpos : ∀ {k : Nat}, s.table.value? k = some n → 1 ≤ k := fun hk =>
    (Table.value?_eq_some.1 ⟨n, hk⟩).1
  have hterminal : ∀ {k : Nat}, 1 < k → s.table.value? k = some n → n ≠ Node.terminal := by
    rintro k hk hn rfl
    exact absurd (hs.fits k _ hk hn).var_pos (lt_irrefl 0)
  have hfirst : s.table.value? 1 = some n → n = Node.terminal := fun h =>
    (Option.some.inj (h.symm.trans hs.terminal))
  rcases Nat.eq_or_lt_of_le (hpos hi) with rfl | hi1
  · rcases Nat.eq_or_lt_of_le (hpos hj) with rfl | hj1
    · rfl
    · exact absurd (hfirst hi) (hterminal hj1 hj)
  · rcases Nat.eq_or_lt_of_le (hpos hj) with rfl | hj1
    · exact absurd (hfirst hj) (hterminal hi1 hi)
    · exact hs.unique i j n hi1 hj1 hi hj

/-- **Handles are canonical.**  After any sequence of calls every node but the terminal fits its place: its
high child is not complemented, its children differ, stand at smaller indices and test later variables.
No two nodes are equal.  Everything that was given out can be evaluated on all inputs, and two handles that
were given out are equal exactly if they evaluate alike. -/
theorem issued_canonical (hbits : validBits bits = true) (h : Issued bits s fs) :
    (∀ i n, 1 < i → s.table.value? i = some n → s.Fits i n) ∧
    (∀ i j n, s.table.value? i = some n → s.table.value? j = some n → i = j) ∧
    (∀ f ∈ fs, ∀ inputs, ∃ b, s.eval f inputs = .ok b) ∧
    ∀ f ∈ fs, ∀ g ∈ fs, f = g ↔ ∀ inputs, s.eval f inputs = s.eval g inputs := by
  obtain ⟨hs, hfs⟩ := Calls.sound h hbits
  exact ⟨hs.fits, fun i j n hi hj => hs.index_eq_of_value? hi hj,
    fun f hf inputs => ⟨_, eval_eq hs.toShaped (hfs f hf) inputs⟩,
    fun f hf g hg => eq_iff_eval_eq hs.toShaped (hfs f hf) (hfs g hg)⟩

/-- Two variables, their conjunction, and the first variable read again from its serial form. -/
theorem issued_canonical_and : ∃ s fs, Issued 3 s fs ∧ s.overflowed = false ∧ s.size = 4 ∧
    fs = [.positive 2, .positive 4, .positive 3, .positive 2] ∧
    (∀ i n, 1 < i → s.table.value? i = some n → s.Fits i n) ∧
    (∀ i j n, s.table.value? i = some n → s.table.value? j = some n → i = j) ∧
    (∀ f ∈ fs, ∀ inputs, ∃ b, s.eval f inputs = .ok b) ∧
    ∀ f ∈ fs, ∀ g ∈ fs, f = g ↔ ∀ inputs, s.eval f inputs = s.eval g inputs := by
  have h₁ : Issued 3 _ [.positive 2] := .call (.var 1) .refl trivial (by decide) trivial
  have h₂ : Issued 3 _ [.positive 3, .positive 2] := .call (.var 2) h₁ trivial (by decide) trivial
  have h₃ : Issued 3 _ [.positive 4, .positive 3, .positive 2] :=
    .call (.and (.positive 2) (.positive 3)) h₂ trivial (by decide) trivial
  have h₄ : Issued 3 _ [.positive 2, .positive 4, .positive 3, .positive 2] :=
    .call (.read "1,-1,1|2") h₃ trivial (by decide) trivial
  exact ⟨_, _, h₄, rfl, rfl, rfl, issued_canonical rfl h₄⟩

end Store

end ModalCalls
