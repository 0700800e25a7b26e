import Mathlib

/-!
# Computations that succeed

Operations of this library run in `EStateM`: they take a state and end either with a value or with an
error, and in both cases with the state they have reached.  `Yields x s post` says that the operation
`x`, started in `s`, ends with a value, and that `post` holds of that value and of the state it leaves.

An operation is specified by one such statement, and the rules below put the statements of a
sequence of operations together without opening any of them again.

* `Yields.bind` — one operation after another.
* `Yields.mapM`, `Yields.foldlM` — an operation for each element of a list, under an invariant of the
  state that each of them keeps.
-/

namespace ModalCalls

variable {ε σ α β γ : Type}

/-- **Success.**  Started in `s`, the computation ends with a value, and `post` holds of the value and
of the state it leaves. -/
def Yields (x : EStateM ε σ α) (s : σ) (post : α → σ → Prop) : Prop :=
  ∃ a s', x s = .ok a s' ∧ post a s'

/-- A sequence of computations that ends well. -/
lemma bind_eq_ok {ε σ α β : Type} {x : EStateM ε σ α} {f : α → EStateM ε σ β} {s s' : σ} {b : β}
    (h : (x >>= f) s = .ok b s') : ∃ a t, x s = .ok a t ∧ f a t = .ok b s' := by
  change EStateM.bind x f s = .ok b s' at h
  simp only [EStateM.bind] at h
  split at h
  · next a t hx => exact ⟨a, t, hx, h⟩
  · simp at h

lemma bind_of_ok {x : EStateM ε σ α} {f : α → EStateM ε σ β} {s s' : σ} {a : α}
    (h : x s = .ok a s') : (x >>= f) s = f a s' := by
  change EStateM.bind x f s = f a s'
  simp only [EStateM.bind, h]

/-! ## Answers

A computation that fails leaves a state, too.  Where that matters the answer and the state are looked at
separately, as two functions of the state before.
-/

/-- The answer of a computation: its value or its error. -/
def answer (x : EStateM ε σ α) (s : σ) : Except ε α :=
  match x s with
  | .ok a _ => .ok a
  | .error e _ => .error e

/-- The state that a computation leaves, whatever its answer is. -/
def after (x : EStateM ε σ α) (s : σ) : σ :=
  match x s with
  | .ok _ s' => s'
  | .error _ s' => s'

lemma answer_eq_ok_iff {x : EStateM ε σ α} {s : σ} {a : α} :
    answer x s = .ok a ↔ x s = .ok a (after x s) := by
  simp only [answer, after]
  split <;> simp_all

lemma bind_of_error {x : EStateM ε σ α} {f : α → EStateM ε σ β} {s s' : σ} {err : ε}
    (h : x s = .error err s') : (x >>= f) s = .error err s' := by
  change EStateM.bind x f s = .error err s'
  simp only [EStateM.bind, h]

lemma answer_eq_error_iff {x : EStateM ε σ α} {s : σ} {err : ε} :
    answer x s = .error err ↔ x s = .error err (after x s) := by
  simp only [answer, after]
  split <;> simp_all

lemma answer_of_ok {x : EStateM ε σ α} {s s' : σ} {a : α} (h : x s = .ok a s') :
    answer x s = .ok a := by
  simp only [answer, h]

lemma answer_bind_of_ok {x : EStateM ε σ α} {f : α → EStateM ε σ β} {s s' : σ} {a : α}
    (h : x s = .ok a s') : answer (x >>= f) s = answer (f a) s' := by
  simp only [answer, bind_of_ok h]

/-- What comes after an error does not count. -/
lemma answer_bind_of_error {x : EStateM ε σ α} {f : α → EStateM ε σ β} {s : σ} {err : ε}
    (h : answer x s = .error err) : answer (x >>= f) s = .error err := by
  simp only [answer, bind_of_error (answer_eq_error_iff.1 h)]

/-! ## Queries

Queries cannot change anything, so they live in `Except`.  Of a query for each element of a list one wants
to know how its answers stand to the elements, position by position; the lemmas say so with `List.Forall₂`.
-/

/-- A sequence of queries that ends well. -/
lemma except_bind_eq_ok {x : Except ε α} {f : α → Except ε β} {b : β} (h : (x >>= f) = .ok b) :
    ∃ a, x = .ok a ∧ f a = .ok b := by
  cases x with
  | error e => cases h
  | ok a => exact ⟨a, rfl, h⟩

/-- A query for each element of a list that ends well. -/
lemma except_mapM_eq_ok {f : α → Except ε β} :
    ∀ {l : List α} {bs : List β}, l.mapM f = .ok bs → List.Forall₂ (fun a b => f a = .ok b) l bs
  | [], bs, h => by
      cases h
      exact .nil
  | a :: l, bs, h => by
      rw [List.mapM_cons] at h
      obtain ⟨b, hb, h⟩ := except_bind_eq_ok h
      obtain ⟨bs', hbs, h⟩ := except_bind_eq_ok h
      cases h
      exact .cons hb (except_mapM_eq_ok hbs)

/-- A query that succeeds for each element of a list. -/
lemma except_mapM_eq_map {f : α → Except ε β} {g : α → β} :
    ∀ {l : List α}, (∀ a ∈ l, f a = .ok (g a)) → l.mapM f = .ok (l.map g)
  | [], _ => rfl
  | a :: l, h => by
      rw [List.mapM_cons, h a (by simp), except_mapM_eq_map fun b hb => h b (by simp [hb])]
      rfl

/-- A query that succeeds for each element of a list, with something known of its answers. -/
lemma except_mapM_exists {f : α → Except ε β} {R : α → β → Prop} :
    ∀ {l : List α}, (∀ a ∈ l, ∃ b, f a = .ok b ∧ R a b) →
      ∃ bs, l.mapM f = .ok bs ∧ List.Forall₂ R l bs
  | [], _ => ⟨[], rfl, .nil⟩
  | a :: l, h => by
      obtain ⟨b, hb, hR⟩ := h a (by simp)
      obtain ⟨bs, hbs, hRs⟩ := except_mapM_exists (l := l) fun a' ha' => h a' (by simp [ha'])
      refine ⟨b :: bs, ?_, .cons hR hRs⟩
      rw [List.mapM_cons, hb, hbs]
      rfl

/-- A query for each element of a list that succeeds, with something known of its answers, or fails, with
something known of its errors. -/
lemma except_mapM_cases {f : α → Except ε β} {R : α → β → Prop} {E : ε → Prop} :
    ∀ {l : List α}, (∀ a ∈ l, (∃ b, f a = .ok b ∧ R a b) ∨ ∃ err, f a = .error err ∧ E err) →
      (∃ bs, l.mapM f = .ok bs ∧ List.Forall₂ R l bs) ∨ ∃ err, l.mapM f = .error err ∧ E err
  | [], _ => Or.inl ⟨[], rfl, .nil⟩
  | a :: l, h => by
      rw [List.mapM_cons]
      rcases h a (by simp) with ⟨b, hb, hR⟩ | ⟨err, herr, hE⟩
      · rw [hb]
        rcases except_mapM_cases (l := l) fun a' ha' => h a' (by simp [ha']) with
          ⟨bs, hbs, hRs⟩ | ⟨err, herr, hE⟩
        · rw [hbs]
          exact Or.inl ⟨b :: bs, rfl, .cons hR hRs⟩
        · rw [herr]
          exact Or.inr ⟨err, rfl, hE⟩
      · rw [herr]
        exact Or.inr ⟨err, rfl, hE⟩

/-- A test that succeeds for each element of a list. -/
lemma except_filterM_eq_filter {f : α → Except ε Bool} {g : α → Bool} {l : List α}
    (h : ∀ a ∈ l, f a = .ok (g a)) : l.filterM f = .ok (l.filter g) := by
  have haux : ∀ (l kept : List α), (∀ a ∈ l, f a = .ok (g a)) →
      l.filterAuxM f kept = .ok ((l.filter g).reverse ++ kept) := by
    intro l
    induction l with
    | nil => exact fun kept _ => rfl
    | cons a l ih =>
        intro kept h
        rw [List.filterAuxM, h a (by simp)]
        refine (ih _ fun b hb => h b (by simp [hb])).trans ?_
        cases hg : g a <;> simp [hg]
  rw [List.filterM, haux l [] h]
  show Except.ok _ = _
  rw [List.append_nil, List.reverse_reverse]

/-- Two queries with the same answers, element by element. -/
lemma except_mapM_agree {f : α → Except ε γ} {g : β → Except ε γ} {l : List α} {l' : List β}
    (h : List.Forall₂ (fun a b => ∃ c, f a = .ok c ∧ g b = .ok c) l l') :
    ∃ cs, l.mapM f = .ok cs ∧ l'.mapM g = .ok cs := by
  induction h with
  | nil => exact ⟨[], rfl, rfl⟩
  | cons hab _ ih =>
      obtain ⟨c, hf, hg⟩ := hab
      obtain ⟨cs, hfs, hgs⟩ := ih
      refine ⟨c :: cs, ?_, ?_⟩
      · rw [List.mapM_cons, hf, hfs]
        rfl
      · rw [List.mapM_cons, hg, hgs]
        rfl

/-! ### Lists of answers

From the relation between two lists to the members that correspond to each other, by position and by
membership.
-/

/-- What stands at a position of the first list leads to that position of the second. -/
lemma exists_of_getElem?_left {R : α → β → Prop} {l : List α} {bs : List β}
    (h : List.Forall₂ R l bs) {k : Nat} {a : α} (ha : l[k]? = some a) :
    ∃ b, bs[k]? = some b ∧ R a b := by
  obtain ⟨hk, rfl⟩ := List.getElem?_eq_some_iff.1 ha
  have hk' : k < bs.length := h.length_eq ▸ hk
  exact ⟨bs[k], List.getElem?_eq_getElem hk', h.get hk hk'⟩

/-- What stands at a position of the second list comes from that position of the first. -/
lemma exists_of_getElem?_right {R : α → β → Prop} {l : List α} {bs : List β}
    (h : List.Forall₂ R l bs) {k : Nat} {b : β} (hb : bs[k]? = some b) :
    ∃ a, l[k]? = some a ∧ R a b :=
  exists_of_getElem?_left (R := fun b a => R a b) h.flip hb

/-- Everything in the second list comes from the first. -/
lemma exists_of_mem_right {R : α → β → Prop} {l : List α} {bs : List β} (h : List.Forall₂ R l bs)
    {b : β} (hb : b ∈ bs) : ∃ a ∈ l, R a b := by
  obtain ⟨k, hk⟩ := List.getElem?_of_mem hb
  obtain ⟨a, ha, hab⟩ := exists_of_getElem?_right h hk
  exact ⟨a, List.mem_of_getElem? ha, hab⟩

/-- Everything in the first list leads to the second. -/
lemma exists_of_mem_left {R : α → β → Prop} {l : List α} {bs : List β} (h : List.Forall₂ R l bs)
    {a : α} (ha : a ∈ l) : ∃ b ∈ bs, R a b :=
  exists_of_mem_right (R := fun b a => R a b) h.flip ha

namespace Yields

lemma of_eq_ok {x : EStateM ε σ α} {s s' : σ} {a : α} {post : α → σ → Prop}
    (hx : x s = .ok a s') (h : post a s') : Yields x s post :=
  ⟨a, s', hx, h⟩

/-- What a computation yields is what it ends with: it has only one outcome. -/
lemma post_of_ok {x : EStateM ε σ α} {s s' : σ} {a : α} {post : α → σ → Prop}
    (h : Yields x s post) (hx : x s = .ok a s') : post a s' := by
  obtain ⟨b, t, hb, hpost⟩ := h
  rw [hb] at hx
  cases hx
  exact hpost

lemma pure {s : σ} {a : α} {post : α → σ → Prop} (h : post a s) :
    Yields (Pure.pure a : EStateM ε σ α) s post :=
  ⟨a, s, rfl, h⟩

lemma mono {x : EStateM ε σ α} {s : σ} {post post' : α → σ → Prop} (h : Yields x s post)
    (hp : ∀ a s', post a s' → post' a s') : Yields x s post' := by
  obtain ⟨a, s', hx, ha⟩ := h
  exact ⟨a, s', hx, hp a s' ha⟩

/-- One computation after another: the second starts from what the first yields. -/
lemma bind {x : EStateM ε σ α} {f : α → EStateM ε σ β} {s : σ} {post : β → σ → Prop}
    (h : Yields x s fun a s' => Yields (f a) s' post) : Yields (x >>= f) s post := by
  obtain ⟨a, s', hx, b, s'', hf, hb⟩ := h
  refine ⟨b, s'', ?_, hb⟩
  show EStateM.bind x f s = _
  simp only [EStateM.bind, hx]
  exact hf

/-- A computation whose value is changed afterwards. -/
lemma map_pure {x : EStateM ε σ α} {g : α → β} {s : σ} {post : β → σ → Prop}
    (h : Yields x s fun a s' => post (g a) s') :
    Yields (x >>= fun a => (Pure.pure (g a) : EStateM ε σ β)) s post :=
  bind (h.mono fun _ _ ha => pure ha)

lemma get {s : σ} {post : σ → σ → Prop} (h : post s s) :
    Yields (MonadState.get : EStateM ε σ σ) s post :=
  ⟨s, s, rfl, h⟩

/-- **An operation for each element of a list.**  `inv` is what every operation finds and leaves,
`later` relates the state before to the state after, and `rel` says what an operation makes of its
element; what was true of an earlier element has to survive the later operations. -/
lemma mapM {f : α → EStateM ε σ β} (inv : σ → Prop) (later : σ → σ → Prop)
    (rel : α → β → σ → Prop) (hrefl : ∀ s, inv s → later s s)
    (htrans : ∀ s t u, later s t → later t u → later s u)
    (hkeep : ∀ a b s t, inv s → rel a b s → later s t → rel a b t) :
    ∀ (l : List α) (s : σ), inv s →
      (∀ a ∈ l, ∀ t, inv t → later s t →
        Yields (f a) t fun b u => inv u ∧ later t u ∧ rel a b u) →
      Yields (l.mapM f) s fun bs u =>
        inv u ∧ later s u ∧ List.Forall₂ (fun a b => rel a b u) l bs
  | [], s, hs, _ => pure ⟨hs, hrefl s hs, .nil⟩
  | a :: l, s, hs, h => by
      rw [List.mapM_cons]
      refine bind ((h a (by simp) s hs (hrefl s hs)).mono ?_)
      rintro b t ⟨ht, hst, hab⟩
      have hrest := mapM inv later rel hrefl htrans hkeep l t ht fun c hc u hu htu =>
        h c (by simp [hc]) u hu (htrans s t u hst htu)
      refine map_pure (hrest.mono ?_)
      rintro bs u ⟨hu, htu, hall⟩
      exact ⟨hu, htrans s t u hst htu, .cons (hkeep a b t u ht hab htu) hall⟩

/-- Folding a list: `inv` is kept by every operation. -/
lemma foldlM {f : β → α → EStateM ε σ β} (inv : List α → β → σ → Prop) :
    ∀ (l : List α) (b : β) (s : σ), inv l b s →
      (∀ a l' b t, inv (a :: l') b t → Yields (f b a) t fun b' u => inv l' b' u) →
      Yields (l.foldlM f b) s fun b' u => inv [] b' u
  | [], _, _, hs, _ => pure hs
  | a :: l, b, s, hs, h => by
      rw [List.foldlM_cons]
      exact bind ((h a l b s hs).mono fun b' u hu => foldlM inv l b' u hu h)

end Yields

end ModalCalls
