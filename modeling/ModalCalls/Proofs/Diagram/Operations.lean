import Mathlib
import ModalCalls.Proofs.Diagram.Issued
import ModalCalls.Proofs.Diagram.Twin

/-!
# What the operations compute

`Store.Reached` are the stores that calls can lead to, whatever the calls have left in the cache and
whether or not they ended well.  Calls are on handles that were given out, but this excludes no handle of the
store: each of them can be asked for, and asking changes nothing (`Store.Reached.call`).

`Store.Computes s x value` says that the operation `x` ends in `s` with a handle of the store it leaves, that
the handles of `s` keep their values, and that the value of the result is `value` unless the store has
overflowed.  The right-hand side `value` is written with evaluation alone.

* `Store.ite_computes` — **if-then-else, conjunction and disjunction**, of two handles or of a list.  The
  bound on the depth of if-then-else is never what ends it: with any larger bound it goes the same way
  (`DiagramM.iteWithin_mono`).
* `Store.compose_computes` — **substitution is simultaneous**: the result has the value that the function has
  where all replaced variables have the values of their replacements *before* any of them is replaced.
-/

namespace ModalCalls

namespace Store

open DiagramM

/-! ## The stores that calls lead to

A sequence of calls only knows the handles that were given out.  A store has others, those of nodes that were
built on the way.  They can be had all the same: the children of a node stand at smaller indices, so going up
from the terminal every node is asked for by its variable and its children, and the answer is the node that is
stored, since nodes are stored once.  A store that calls on any of its handles lead to is therefore one that
calls on given handles lead to.
-/

/-- **The stores that calls lead to.**  The store that a call leaves counts even if it ends without a handle. -/
def Reached (s : Store) : Prop :=
  ∃ bits s₀ fs, create bits = .ok s₀ ∧ Continues s₀ [] s fs

variable {s₀ s : Store} {fs₀ fs gs : List Handle} {f : Handle}

lemma sound_of_create {bits : Nat} (h : create bits = .ok s) : s.Sound := by
  obtain ⟨hbits, rfl⟩ := create_eq_ok h
  exact empty_sound hbits

/-- Calls keep a store sound. -/
lemma Reached.sound (h : Reached s) : s.Sound := by
  obtain ⟨bits, s₀, fs, hcreate, hcalls⟩ := h
  exact (Calls.grows hcalls (sound_of_create hcreate) (by simp)).1.sound

/-- A node that is stored is found when it is asked for. -/
lemma mkNode_of_stored (hs : s.Shaped) {i : Nat} {n : Node} (hi : 1 < i) (hn : s.table.value? i = some n) :
    mkNode n.var n.low n.high s = .ok (.positive i) s := by
  have hfits := hs.fits i n hi hn
  have hfind : s.table.find? n = some i := by
    cases hfound : s.table.find? n with
    | none => exact absurd hfound (Table.find?_ne_none hn (hs.interned i n hi hn))
    | some k => rw [hs.index_eq_of_value? (Table.value?_of_find? hfound) hn]
  simp only [mkNode, hfits.var_pos.ne', hfits.distinct, hfits.plain, if_false, Bool.false_eq_true, intern,
    Table.put_of_find? hfind]

/-- A node that is stored is asked for by its variable and its children. -/
lemma Continues.cons_of_stored (hs : s.Shaped) (h : Continues s₀ fs₀ s fs) {i : Nat} {n : Node} (hi : 1 < i)
    (hn : s.table.value? i = some n) (hlow : n.low ∈ fs) (hhigh : n.high ∈ fs) :
    Continues s₀ fs₀ s (.positive i :: fs) := by
  have hfits := hs.fits i n hi hn
  have hnode : (Call.node n.var n.low n.high).run s = .ok (some (.positive i)) s :=
    bind_of_ok (mkNode_of_stored hs hi hn)
  have hcall := Calls.call (.node n.var n.low n.high) h trivial (by simp [Call.arguments, hlow, hhigh])
    ⟨isBelow_of_beneath hfits.low_beneath, isBelow_of_beneath hfits.high_beneath⟩
  simp only [after, Call.given, answer, hnode] at hcall
  exact hcall

/-- A handle is its plain handle or the complement of that. -/
lemma Continues.exists_mem_of_positive (h : Continues s₀ fs₀ s fs) (hf : .positive f.index ∈ fs) :
    ∃ gs, Continues s₀ fs₀ s gs ∧ f ∈ gs ∧ ∀ g ∈ fs, g ∈ gs := by
  have hsign := f.eq_negateIf_positive
  cases hnegated : f.isNegated with
  | false =>
      rw [hnegated, Handle.negateIf_false] at hsign
      exact ⟨fs, h, by rw [hsign]; exact hf, fun _ hg => hg⟩
  | true =>
      rw [hnegated, Handle.negateIf_true] at hsign
      refine ⟨_, Calls.call (.not (.positive f.index)) h trivial (by simpa [Call.arguments] using hf) trivial,
        ?_, fun g hg => List.mem_cons_of_mem _ hg⟩
      rw [hsign, Handle.index_neg]
      exact List.mem_cons_self

/-- **Every handle of a store can be come by**, and asking for it leaves the store as it is. -/
theorem Continues.exists_mem (hs : s.Shaped) (h : Continues s₀ fs₀ s fs) (hf : s.Valid f) :
    ∃ gs, Continues s₀ fs₀ s gs ∧ f ∈ gs ∧ ∀ g ∈ fs, g ∈ gs := by
  induction hi : f.index using Nat.strong_induction_on generalizing f fs with
  | _ i ih =>
      subst hi
      by_cases hterm : f.index = 1
      · obtain ⟨b, rfl⟩ : ∃ b, f = .constant b := by
          rcases Handle.eq_constant_of_index hterm with rfl | rfl
          · exact ⟨true, rfl⟩
          · exact ⟨false, rfl⟩
        exact ⟨_, Calls.call (.constant b) h trivial (by simp [Call.arguments]) trivial,
          List.mem_cons_self, fun g hg => List.mem_cons_of_mem _ hg⟩
      · have hlt : 1 < f.index := by
          have := hf.pos
          omega
        obtain ⟨n, hn⟩ := hf
        have hfits := hs.fits _ n hlt hn
        -- the children first, then the node, and then its complement if it is that
        obtain ⟨gs₁, h₁, hlow, hsub₁⟩ := ih _ hfits.low_lt h (hs.valid_low hlt hn) rfl
        obtain ⟨gs₂, h₂, hhigh, hsub₂⟩ := ih _ hfits.high_lt h₁ (hs.valid_high hlt hn) rfl
        have h₃ := h₂.cons_of_stored hs hlt hn (hsub₂ _ hlow) hhigh
        obtain ⟨gs, hgs, hmem, hsub⟩ := Continues.exists_mem_of_positive h₃ List.mem_cons_self
        exact ⟨gs, hgs, hmem, fun g hg => hsub g (List.mem_cons_of_mem _ (hsub₂ g (hsub₁ g hg)))⟩

/-- The same for several handles. -/
lemma Continues.exists_forall_mem (hs : s.Shaped) (h : Continues s₀ fs₀ s fs) :
    ∀ {gs : List Handle}, (∀ g ∈ gs, s.Valid g) →
      ∃ hs, Continues s₀ fs₀ s hs ∧ ∀ g ∈ gs, g ∈ hs
  | [], _ => ⟨fs, h, by simp⟩
  | g :: gs, hgs => by
      obtain ⟨hgiven, hrest⟩ := List.forall_mem_cons.1 hgs
      obtain ⟨fs₁, h₁, hmem⟩ := exists_forall_mem hs h hrest
      obtain ⟨fs₂, h₂, hg, hsub⟩ := h₁.exists_mem hs hgiven
      exact ⟨fs₂, h₂, List.forall_mem_cons.2 ⟨hg, fun e he => hsub e (hmem e he)⟩⟩

lemma Reached.create {bits : Nat} (h : create bits = .ok s) : Reached s :=
  ⟨bits, s, [], h, Calls.refl⟩

/-- **Calls may be on any handles of the store.** -/
theorem Reached.call (c : Call) (h : Reached s) (hargs : ∀ g ∈ c.arguments, s.Valid g)
    (hordered : c.IsOrdered s) : Reached (after c.run s) := by
  have hs := h.sound.toShaped
  obtain ⟨bits, s₀, fs, hcreate, hcalls⟩ := h
  obtain ⟨gs, hgs, hmem⟩ := hcalls.exists_forall_mem hs hargs
  exact ⟨bits, s₀, _, hcreate, Calls.call c hgs trivial hmem hordered⟩

/-! ## What is computed

The value that an operation ought to have is a computation with evaluation, which may fail like any other, and
not a function that handles are said to mean.  What a handle means only serves to prove it.
-/

/-- **What an operation computes.** -/
def Computes (s : Store) (x : DiagramM Handle) (value : Array Bool → Except Fault Bool) : Prop :=
  Yields x s fun r s' => s'.Valid r ∧
    (∀ f inputs, s.Valid f → s'.eval f inputs = s.eval f inputs) ∧
    (s'.overflowed = false → ∀ inputs, ∃ b, value inputs = .ok b ∧ s'.eval r inputs = .ok b)

/-- An operation computes what its result means. -/
lemma computes_of_meaning (hs : s.Sound) {x : DiagramM Handle}
    {value : Array Bool → Except Fault Bool} {F : (Nat → Bool) → Bool}
    (hx : Yields x s fun r s' => s.Grows s' ∧ s'.Valid r ∧
      (s'.overflowed = false → ∀ y, s'.meaning r y = F y))
    (hvalue : ∀ inputs, value inputs = .ok (F (inputValue inputs))) : s.Computes x value := by
  refine hx.mono ?_
  rintro r s' ⟨hgrows, hr, hmean⟩
  refine ⟨hr, fun f inputs hf => ?_, fun ho inputs => ⟨_, hvalue inputs, ?_⟩⟩
  · rw [eval_eq hgrows.sound.toShaped (hgrows.keeps.valid hf), eval_eq hs.toShaped hf,
      hgrows.meaning_eq hs.toShaped hf]
  · rw [eval_eq hgrows.sound.toShaped hr, hmean ho]

lemma computes_of_built (hs : s.Sound) {x : DiagramM Handle}
    {value : Array Bool → Except Fault Bool} {F : (Nat → Bool) → Bool} (hx : Yields x s (s.Built F))
    (hvalue : ∀ inputs, value inputs = .ok (F (inputValue inputs))) : s.Computes x value :=
  computes_of_meaning hs (hx.mono fun _ _ hr => ⟨hr.grows, hr.valid, hr.meaning⟩) hvalue

/-- The values of a list of handles. -/
lemma mapM_eval (hs : s.Shaped) {fs : List Handle} (hfs : ∀ f ∈ fs, s.Valid f)
    (inputs : Array Bool) :
    fs.mapM (s.eval · inputs) = .ok (fs.map (s.meaning · (inputValue inputs))) :=
  except_mapM_eq_map fun f hf => eval_eq hs (hfs f hf) inputs

end Store

namespace DiagramM

/-! ## If-then-else

The recursion of if-then-else is bounded, so that it can be defined without knowing that nodes are ordered.
Here that knowledge is there: the bound is never what ends it, and a larger one changes nothing.
-/

/-- An expansion goes the way its two calls go. -/
lemma expand_eq_ok {call call' : Triple → DiagramM Handle} {w : Triple} {s s' : Store} {r : Handle}
    (hcall : ∀ {u : Triple} {s s' : Store} {r : Handle}, call u s = .ok r s' → call' u s = .ok r s')
    (h : expand call w s = .ok r s') : expand call' w s = .ok r s' := by
  obtain ⟨v, s₁, hv, h⟩ := bind_eq_ok h
  obtain ⟨⟨lo, hi⟩, s₂, hparts, h⟩ := bind_eq_ok h
  obtain ⟨low, s₃, hlow, h⟩ := bind_eq_ok h
  obtain ⟨high, s₄, hhigh, h⟩ := bind_eq_ok h
  rw [expand, bind_of_ok hv, bind_of_ok hparts]
  exact (bind_of_ok (hcall hlow)).trans ((bind_of_ok (hcall hhigh)).trans h)

/-- **The bound does not matter** once it is large enough, by induction on the bound. -/
lemma iteWithin_mono : ∀ {d d' : Nat} {u : Triple} {s s' : Store} {r : Handle}, d ≤ d' →
    iteWithin d u s = .ok r s' → iteWithin d' u s = .ok r s'
  | 0, _, _, _, _, _, _, h => by cases h
  | _ + 1, 0, _, _, _, _, hle, _ => absurd hle (by omega)
  | d + 1, d' + 1, u, s, s', r, hle, h => by
      have ih : ∀ {u : Triple} {s s' : Store} {r : Handle}, iteWithin d u s = .ok r s' →
          iteWithin d' u s = .ok r s' := iteWithin_mono (by omega)
      cases hu : u.reduce with
      | answer q =>
          rw [iteWithin, hu] at h ⊢
          exact h
      | general negate w =>
          rw [iteWithin_general hu] at h ⊢
          obtain ⟨found, s₁, hlook, h⟩ := bind_eq_ok h
          rw [bind_of_ok hlook]
          cases found with
          | some q => exact h
          | none =>
              obtain ⟨q, s₂, hexpand, h⟩ := bind_eq_ok h
              exact (bind_of_ok (expand_eq_ok ih hexpand)).trans h

end DiagramM

namespace Store

open DiagramM

variable {s : Store} {f : Handle} {subst : Array Handle}

/-- A small store with two variables `@2` and `@3`, and with `@4` for the first without the second. -/
def pairStore : Store :=
  after (Call.and (.positive 2) (-.positive 3)).run
    (after (Call.var 2).run (after (Call.var 1).run (.empty 3)))

lemma reached_pairStore : Reached pairStore := by
  refine .call _ (.call _ (.call _ (@Reached.create _ 3 rfl) (by simp [Call.arguments]) trivial)
    (by simp [Call.arguments]) trivial) ?_ trivial
  simp only [Call.arguments, List.forall_mem_cons]
  exact ⟨⟨_, rfl⟩, ⟨_, rfl⟩, by simp⟩

/-- **If-then-else and the operations built on it.**  In every store that calls lead to and for all handles
of it they end with a handle.  Unless the store has overflowed, the value of that handle is, on all inputs,
the if-then-else, the conjunction or the disjunction of the values.  A larger bound on the depth of the
recursion changes neither the result nor the store. -/
theorem ite_computes (hs : Reached s) :
    (∀ f g h, s.Valid f → s.Valid g → s.Valid h →
      (s.Computes (ite f g h) fun inputs => do
        if ← s.eval f inputs then s.eval g inputs else s.eval h inputs) ∧
      ∀ depth, iteDepth s.capacity ≤ depth → iteWithin depth ⟨f, g, h⟩ s = ite f g h s) ∧
    (∀ f g, s.Valid f → s.Valid g →
      (s.Computes (DiagramM.and f g) fun inputs => do
        return (← s.eval f inputs) && (← s.eval g inputs)) ∧
      s.Computes (DiagramM.or f g) fun inputs => do
        return (← s.eval f inputs) || (← s.eval g inputs)) ∧
    ∀ fs : List Handle, (∀ f ∈ fs, s.Valid f) →
      (s.Computes (andMany fs) fun inputs => do
        return (← fs.mapM (s.eval · inputs)).all id) ∧
      s.Computes (orMany fs) fun inputs => do
        return (← fs.mapM (s.eval · inputs)).any id := by
  replace hs := hs.sound
  refine ⟨fun f g h hf hg hh => ⟨?_, fun depth hdepth => ?_⟩, fun f g hf hg => ⟨?_, ?_⟩,
    fun fs hfs => ⟨?_, ?_⟩⟩
  · refine computes_of_built hs (ite_spec hs hf hg hh) fun inputs => ?_
    rw [eval_eq hs.toShaped hf, eval_eq hs.toShaped hg, eval_eq hs.toShaped hh]
    exact (apply_ite Except.ok _ _ _).symm
  · obtain ⟨r, s', hok, -⟩ := ite_spec hs hf hg hh
    rw [hok]
    exact iteWithin_mono hdepth hok
  · refine computes_of_built hs (and_spec hs hf hg) fun inputs => ?_
    rw [eval_eq hs.toShaped hf, eval_eq hs.toShaped hg]
    rfl
  · refine computes_of_built hs (or_spec hs hf hg) fun inputs => ?_
    rw [eval_eq hs.toShaped hf, eval_eq hs.toShaped hg]
    rfl
  · refine computes_of_meaning hs ((andMany_spec hs hfs).mono fun _ _ hr =>
      ⟨hr.grows, hr.valid, hr.meaning⟩) fun inputs => ?_
    rw [mapM_eval hs.toShaped hfs, List.foldl_map, foldl_and_eq_all, Bool.true_and]
    exact congrArg Except.ok List.all_map
  · refine computes_of_meaning hs ((orMany_spec hs hfs).mono fun _ _ hr =>
      ⟨hr.grows, hr.valid, hr.meaning⟩) fun inputs => ?_
    rw [mapM_eval hs.toShaped hfs, List.foldl_map, foldl_or_eq_any, Bool.false_or]
    exact congrArg Except.ok List.any_map

/-- The exclusive or of two variables. -/
theorem ite_computes_pairStore :
    Reached pairStore ∧
    (after (ite (.positive 2) (-.positive 3) (.positive 3)) pairStore).overflowed = false ∧
    (pairStore.Computes (ite (.positive 2) (-.positive 3) (.positive 3)) fun inputs => do
      if ← pairStore.eval (.positive 2) inputs then pairStore.eval (-.positive 3) inputs
      else pairStore.eval (.positive 3) inputs) ∧
    pairStore.Computes (orMany [.positive 2, .positive 3, .positive 4]) fun inputs => do
      return (← [Handle.positive 2, .positive 3, .positive 4].mapM (pairStore.eval · inputs)).any id :=
  ⟨reached_pairStore, rfl,
    ((ite_computes reached_pairStore).1 _ _ _ ⟨_, rfl⟩ ⟨_, rfl⟩ ⟨_, rfl⟩).1,
    ((ite_computes reached_pairStore).2.2 _ (by
      simp only [List.forall_mem_cons]
      exact ⟨⟨_, rfl⟩, ⟨_, rfl⟩, ⟨_, rfl⟩, by simp⟩)).2⟩

/-! ## Substitution

A substitution has a replacement for each of the first variables and leaves the others alone.  Evaluation of
the result is told by evaluation of the parts: first of all replacements on the given inputs, then of the
function on what they yield.
-/

/-- The inputs with the first of them replaced. -/
def override (values : List Bool) (inputs : Array Bool) : Array Bool :=
  (values ++ inputs.toList.drop values.length).toArray

lemma getD_override (values : List Bool) (inputs : Array Bool) (i : Nat) :
    (override values inputs).getD i false = (values[i]?).getD (inputs.getD i false) := by
  rw [override, Array.getD_eq_getD_getElem?, List.getElem?_toArray, List.getElem?_append]
  split
  · next hi => simp [List.getElem?_eq_getElem hi]
  · next hi =>
      have hi : values.length ≤ i := by omega
      rw [List.getElem?_drop, Nat.add_sub_cancel' hi, List.getElem?_eq_none hi, Option.getD_none,
        Array.getD_eq_getD_getElem?, Array.getElem?_toList]

/-- A function is read at the overridden inputs when its variables are replaced. -/
lemma meaning_override (inputs : Array Bool) :
    s.meaning f (inputValue (override (subst.toList.map (s.meaning · (inputValue inputs))) inputs))
      = s.meaning f (s.substituted subst (inputValue inputs)) := by
  congr 1
  funext v
  rw [inputValue, getD_override, List.getElem?_map, Array.getElem?_toList, substituted]
  cases subst[v - 1]? <;> rfl

/-- **Substitution is simultaneous.**  In every store that calls lead to, a function whose variables are
replaced ends with a handle.  Unless the store has overflowed, its value is, on all inputs, the value of the
function where input `i` is the value of replacement `i` on the given inputs, as long as there is one, and the
given input beyond. -/
theorem compose_computes (hs : Reached s) (hf : s.Valid f) (hsubst : ∀ g ∈ subst, s.Valid g) :
    s.Computes (compose f subst) (fun inputs => do
      let values ← subst.toList.mapM (s.eval · inputs)
      s.eval f (override values inputs)) := by
  replace hs := hs.sound
  refine computes_of_meaning hs ((compose_spec hs hf hsubst).mono fun _ _ hr =>
    ⟨hr.1, hr.2.1, fun ho => (hr.2.2.1 ho).1⟩) fun inputs => ?_
  rw [mapM_eval hs.toShaped fun g hg => hsubst g (Array.mem_toList_iff.1 hg)]
  exact (eval_eq hs.toShaped hf _).trans (congrArg Except.ok (meaning_override inputs))

/-- Two variables exchanged: what was the first without the second is the second without the first. -/
theorem compose_computes_pairStore :
    Reached pairStore ∧
    (after (compose (.positive 4) #[.positive 3, .positive 2]) pairStore).overflowed = false ∧
    pairStore.Computes (compose (.positive 4) #[.positive 3, .positive 2]) (fun inputs => do
      let values ← [Handle.positive 3, .positive 2].mapM (pairStore.eval · inputs)
      pairStore.eval (.positive 4) (override values inputs)) :=
  ⟨reached_pairStore, rfl,
    compose_computes reached_pairStore ⟨_, rfl⟩ (by
      simp only [List.mem_toArray, List.forall_mem_cons]
      exact ⟨⟨_, rfl⟩, ⟨_, rfl⟩, by simp⟩)⟩

end Store

end ModalCalls
