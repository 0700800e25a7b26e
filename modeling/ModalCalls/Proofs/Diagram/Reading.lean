import Mathlib
import ModalCalls.Proofs.Diagram.Operations
import ModalCalls.Proofs.Diagram.RoundTrip

/-!
# Which texts can be read, and what is read

A serial form can come from anywhere.  This file says, of every text, whether it is read and what comes
of it.  There are three steps from a text to a handle.

**Spelling.**  `Serial.Spells` is about characters only: a text spells a list of entries and a root, all of
them numbers.

**Description.**  `Serial.described` is what a list of entries means, without any store: entry after entry,
the function "if the variable then the one reference else the other".

**Making.**  `Store.Makes` is what a store makes of the entries: one diagram after another by node
construction, which reduces them on the way.  An entry is refused if a child may not stand below its
variable, and that is looked up in the diagram which was made of the child.

* `DiagramM.ofSerial_eq_ok_iff` — reading succeeds exactly if the text spells entries that the store can make.
* `Store.Makes.spec` — as long as there is room, the diagrams mean what the entries describe.  A diagram may
  stand below a variable exactly if its function ignores all variables up to it (`Store.beneath_iff_ignores`),
  so it can be told from the entries alone whether they can be made (`Serial.Ordered`).
* `Store.ofSerial_accepts` — all of it together, for any text and any store that calls lead to.
-/

namespace ModalCalls

namespace Serial

/-! ## Spelling

A text is compared with a list of entries as it would be written down by hand: pieces between semicolons,
fields between commas, and numbers that may be padded with blanks and signed.  Several texts spell the same
entries, but a text spells only one list of them: a separator never occurs inside a piece, and that is made
part of the definition.
-/

/-- A text that is read as a number of 64 bits other than zero. -/
def IsReference (text : List Char) (number : Int) : Prop :=
  Text.readIntBelow (2 ^ 63) (Text.trim text) = some number ∧ number ≠ 0

/-- A text of exactly three fields: a variable of 32 bits other than zero, and two references. -/
def IsEntry (text : List Char) (e : Entry) : Prop :=
  ∃ v low high, text = [','].intercalate [v, low, high] ∧ (∀ field ∈ [v, low, high], ',' ∉ field) ∧
    (Text.readNatBelow (2 ^ 32) (Text.trim v) = some e.var ∧ e.var ≠ 0) ∧
    IsReference low e.low ∧ IsReference high e.high

/-- **What a text spells.**  Up to its first bar it consists of pieces between semicolons.  Those that are
not empty are the entries, and what comes after the bar is the root. -/
def Spells (text : List Char) (entries : List Entry) (root : Int) : Prop :=
  ∃ pieces rest, text = [';'].intercalate pieces ++ '|' :: rest ∧ '|' ∉ [';'].intercalate pieces ∧
    (∀ piece ∈ pieces, ';' ∉ piece) ∧
    List.Forall₂ IsEntry (pieces.filter fun piece => !piece.isEmpty) entries ∧ IsReference rest root

/-! ## Description

What entries say is a matter of functions and does not need a store.  An entry refers to functions before
it, so a list of entries is read from left to right, and what may stand below a variable is told by
dependence: a function that ignores all variables up to `v` may stand below `v`, whatever diagram it has.
-/

/-- The function that a signed number refers to: `k + 1` is function `k`, and `-(k + 1)` its complement. -/
def refer (known : List ((Nat → Bool) → Bool)) (number : Int) (x : Nat → Bool) : Bool :=
  decide (number < 0) ^^ known.getD (number.natAbs - 1) (fun _ => false) x

/-- The function of an entry. -/
def Entry.function (known : List ((Nat → Bool) → Bool)) (e : Entry) (x : Nat → Bool) : Bool :=
  if x e.var then refer known e.high x else refer known e.low x

/-- The functions of a list of entries, after those that are known. -/
def functions (known : List ((Nat → Bool) → Bool)) : List Entry → List ((Nat → Bool) → Bool)
  | [] => known
  | e :: rest => functions (known ++ [e.function known]) rest

/-- What is known before the first entry: number `1` is the terminal. -/
def terminals : List ((Nat → Bool) → Bool) :=
  [fun _ => true]

/-- **The function that entries and a root describe.** -/
def described (entries : List Entry) (root : Int) : (Nat → Bool) → Bool :=
  refer (functions terminals entries) root

/-- A function does not depend on the variables up to `v`. -/
def Ignores (v : Nat) (F : (Nat → Bool) → Bool) : Prop :=
  ∀ x y : Nat → Bool, (∀ w, v < w → x w = y w) → F x = F y

/-- A number may stand below variable `v`: it refers to something known, which ignores the variables up to
`v`. -/
def MayStandBelow (known : List ((Nat → Bool) → Bool)) (v : Nat) (number : Int) : Prop :=
  number.natAbs ≤ known.length ∧ Ignores v (refer known number)

/-- **Entries in order.**  All references are to the terminal or to earlier entries, and may stand where they
do. -/
def Ordered (known : List ((Nat → Bool) → Bool)) : List Entry → Prop
  | [] => True
  | e :: rest => MayStandBelow known e.var e.low ∧ MayStandBelow known e.var e.high ∧
      Ordered (known ++ [e.function known]) rest

/-! ## Making

A store does not see functions, it sees handles.  `Makes` follows what a reader does, one entry after the
other, but without any text.  It is a relation and not a function, since it has to be able to stop: an entry
whose children do not fit has no successor.
-/

/-- The handle that a signed number refers to. -/
def handle? (known : List Handle) (number : Int) : Option Handle :=
  known[number.natAbs - 1]?.map (·.negateIf (number < 0))

end Serial

open Serial

/-- **What a store makes of entries**: from the handles that are known, one more for each entry. -/
inductive Store.Makes : Store → List Handle → List Entry → Store → List Handle → Prop
  | nil {s : Store} {known : List Handle} : Makes s known [] s known
  | cons {s s₁ s' : Store} {known made : List Handle} {e : Entry} {rest : List Entry}
      {low high f : Handle} (hlow : handle? known e.low = some low)
      (hhigh : handle? known e.high = some high) (hbelow : s.Beneath e.var low)
      (hbelow' : s.Beneath e.var high) (hmake : DiagramM.mkNode e.var low high s = .ok f s₁)
      (h : Makes s₁ (known ++ [f]) rest s' made) : Makes s known (e :: rest) s' made

/-! ## From characters to entries

Each reading function is characterised by an equivalence, so that success and failure are known at the same
time: a field, an entry, a body, a whole text.  Nothing about functions is used here, and the store only
passes through.
-/

namespace Serial

variable {text : List Char} {known : Array Handle} {e : Entry} {f : Handle} {number : Int}

lemma resolve_eq_ok_iff : resolve known text = .ok f ↔
    ∃ number, IsReference text number ∧ handle? known.toList number = some f := by
  have hlimit : Nat.pow 2 63 = 2 ^ 63 := rfl
  simp only [resolve, IsReference, handle?, hlimit]
  constructor
  · intro h
    split at h
    · cases h
    · next number hread =>
        split at h
        · cases h
        · next hzero =>
            split at h
            · cases h
            · next g hg =>
                cases h
                exact ⟨number, ⟨hread, hzero⟩, by simp [hg]⟩
  · rintro ⟨number, ⟨hread, hzero⟩, hf⟩
    obtain ⟨g, hg, rfl⟩ := Option.map_eq_some_iff.1 hf
    rw [Array.getElem?_toList] at hg
    simp only [hread, hzero, if_false, hg]

lemma readVar_eq_ok_iff {v : Nat} : readVar text = .ok v ↔
    Text.readNatBelow (2 ^ 32) (Text.trim text) = some v ∧ v ≠ 0 := by
  have hlimit : Nat.pow 2 32 = 2 ^ 32 := rfl
  simp only [readVar, hlimit]
  constructor
  · intro h
    split at h
    · cases h
    · cases h
    · next hne hread =>
        cases h
        exact ⟨hread, hne⟩
  · rintro ⟨hread, hne⟩
    rw [hread]
    split
    · next h => cases h
    · next h => exact absurd (Option.some.inj h) hne
    · next h =>
        cases h
        rfl

/-- **An entry is read** as the variable and the handles that its text spells. -/
lemma readEntry_eq_ok_iff {v : Nat} {low high : Handle} : readEntry known text = .ok (v, low, high) ↔
    ∃ e : Entry, IsEntry text e ∧ v = e.var ∧ handle? known.toList e.low = some low ∧
      handle? known.toList e.high = some high := by
  constructor
  · intro h
    simp only [readEntry] at h
    split at h
    · next v' low' high' hfields =>
        obtain ⟨-, htext, hcomma⟩ := Text.fields_eq_iff.1 hfields
        obtain ⟨w, hw, h⟩ := except_bind_eq_ok h
        obtain ⟨g, hg, h⟩ := except_bind_eq_ok h
        obtain ⟨g', hg', h⟩ := except_bind_eq_ok h
        cases h
        obtain ⟨m, hm, hlow⟩ := resolve_eq_ok_iff.1 hg
        obtain ⟨m', hm', hhigh⟩ := resolve_eq_ok_iff.1 hg'
        exact ⟨⟨v, m, m'⟩, ⟨v', low', high', htext, hcomma, readVar_eq_ok_iff.1 hw, hm, hm'⟩, rfl, hlow,
          hhigh⟩
    · cases h
  · rintro ⟨e, ⟨v', low', high', htext, hcomma, hv, hm, hm'⟩, rfl, hlow, hhigh⟩
    simp only [readEntry, Text.fields_eq_iff.2 ⟨by simp, htext, hcomma⟩, readVar_eq_ok_iff.2 hv,
      resolve_eq_ok_iff.2 ⟨_, hm, hlow⟩, resolve_eq_ok_iff.2 ⟨_, hm', hhigh⟩]
    rfl

/-- The pieces of a body that are not empty. -/
lemma entriesOf_intercalate {pieces : List (List Char)} (h : ∀ piece ∈ pieces, ';' ∉ piece) :
    entriesOf ([';'].intercalate pieces) = pieces.filter fun piece => !piece.isEmpty := by
  cases pieces with
  | nil => rfl
  | cons piece pieces => rw [entriesOf, Text.fields_intercalate (by simp) h]

/-- A text is taken apart at its first bar and then at semicolons. -/
lemma spells_iff {entries : List Entry} {root : Int} : Spells text entries root ↔
    ∃ body rest, Text.splitFirst '|' text = some (body, rest) ∧
      List.Forall₂ IsEntry (entriesOf body) entries ∧ IsReference rest root := by
  constructor
  · rintro ⟨pieces, rest, htext, hbar, hpieces, hspelled, hroot⟩
    rw [← entriesOf_intercalate hpieces] at hspelled
    exact ⟨_, rest, Text.splitFirst_eq_some_iff.2 ⟨htext, hbar⟩, hspelled, hroot⟩
  · rintro ⟨body, rest, hsplit, hspelled, hroot⟩
    obtain ⟨htext, hbar⟩ := Text.splitFirst_eq_some_iff.1 hsplit
    have hbody := (Text.intercalate_fields ';' body).symm
    exact ⟨Text.fields ';' body, rest, hbody ▸ htext, hbody ▸ hbar, fun _ => Text.not_mem_of_mem_fields,
      hspelled, hroot⟩

/-! ### A text spells one thing

Numbers may be spelled in more than one way, with signs and zeros in front, but no text can be read as two
different numbers.  The same then follows for entries and for whole texts.
-/

lemma IsReference.unique {number' : Int} (h : IsReference text number) (h' : IsReference text number') :
    number = number' :=
  Option.some.inj (h.1.symm.trans h'.1)

lemma IsEntry.unique {e' : Entry} (h : IsEntry text e) (h' : IsEntry text e') : e = e' := by
  obtain ⟨v, low, high, htext, hcomma, ⟨hv, -⟩, hlow, hhigh⟩ := h
  obtain ⟨w, low', high', htext', hcomma', ⟨hw, -⟩, hlow', hhigh'⟩ := h'
  have hfields := Text.fields_eq_iff.2 ⟨by simp, htext, hcomma⟩
  have hfields' := Text.fields_eq_iff.2 ⟨by simp, htext', hcomma'⟩
  obtain ⟨rfl, rfl, rfl⟩ : v = w ∧ low = low' ∧ high = high' := by simpa using hfields.symm.trans hfields'
  obtain ⟨var, l, r⟩ := e
  obtain ⟨var', l', r'⟩ := e'
  simp only at hv hw hlow hlow' hhigh hhigh'
  rw [Option.some.inj (hv.symm.trans hw), hlow.unique hlow', hhigh.unique hhigh']

/-- A text spells only one list of entries and one root. -/
lemma Spells.unique {entries entries' : List Entry} {root root' : Int} (h : Spells text entries root)
    (h' : Spells text entries' root') : entries = entries' ∧ root = root' := by
  obtain ⟨body, rest, hsplit, hspelled, hroot⟩ := spells_iff.1 h
  obtain ⟨body', rest', hsplit', hspelled', hroot'⟩ := spells_iff.1 h'
  obtain ⟨rfl, rfl⟩ : body = body' ∧ rest = rest' := by simpa using hsplit.symm.trans hsplit'
  have hentry : Relator.RightUnique IsEntry := fun _ _ _ => IsEntry.unique
  exact ⟨hentry.forall₂ hspelled hspelled', hroot.unique hroot'⟩

end Serial

namespace DiagramM

variable {s s' : Store} {known known' : Array Handle}

/-- A node of the reserved variable is not built. -/
lemma pos_of_mkNode {v : Nat} {low high f : Handle} (h : mkNode v low high s = .ok f s') : 0 < v := by
  refine Nat.pos_of_ne_zero fun hv => ?_
  rw [mkNode, if_pos hv] at h
  cases h

/-- Reading one more entry, step by step. -/
lemma ofEntries_cons_eq_ok_iff {text : List Char} {rest : List (List Char)} :
    ofEntries known (text :: rest) s = .ok (.ok known') s' ↔
      ∃ v low high f s₁, readEntry known text = .ok (v, low, high) ∧ s.Beneath v low ∧ s.Beneath v high ∧
        mkNode v low high s = .ok f s₁ ∧ ofEntries (known.push f) rest s₁ = .ok (.ok known') s' := by
  constructor
  · intro h
    cases hentry : readEntry known text with
    | error flaw =>
        simp only [ofEntries, hentry] at h
        cases h
    | ok parts =>
        obtain ⟨v, low, high⟩ := parts
        simp only [ofEntries, hentry] at h
        obtain ⟨lowBelow, t, hreadLow, h₁⟩ := bind_eq_ok h
        obtain ⟨highBelow, t', hreadHigh, h₂⟩ := bind_eq_ok h₁
        obtain ⟨hl, rfl⟩ := read_eq_ok hreadLow
        obtain ⟨hh, rfl⟩ := read_eq_ok hreadHigh
        split at h₂
        · next hboth =>
            obtain ⟨rfl, rfl⟩ := Bool.and_eq_true_iff.1 hboth
            obtain ⟨f, s₁, hf, h₃⟩ := bind_eq_ok h₂
            exact ⟨v, low, high, f, s₁, rfl, Store.beneath_of_isBelow hl, Store.beneath_of_isBelow hh, hf, h₃⟩
        · cases h₂
  · rintro ⟨v, low, high, f, s₁, hentry, hl, hh, hf, h⟩
    have hread : ∀ {g : Handle}, s.Beneath v g → DiagramM.read (·.isBelow v g) s = .ok true s :=
      fun hg => by simp only [DiagramM.read, Store.isBelow_of_beneath hg]
    simp only [ofEntries, hentry]
    rw [bind_of_ok (hread hl), bind_of_ok (hread hh), Bool.and_self, if_pos rfl, bind_of_ok hf]
    exact h

/-- **Entries are read** exactly if they can be spelled and made. -/
lemma ofEntries_eq_ok_iff : ∀ {texts : List (List Char)} {known known' : Array Handle} {s s' : Store},
    ofEntries known texts s = .ok (.ok known') s' ↔
      ∃ entries, List.Forall₂ IsEntry texts entries ∧ s.Makes known.toList entries s' known'.toList
  | [], known, known', s, s' => by
      constructor
      · intro h
        cases h
        exact ⟨[], .nil, .nil⟩
      · rintro ⟨entries, hspelled, hmakes⟩
        cases hspelled
        generalize hk : known.toList = l at hmakes
        generalize hk' : known'.toList = l' at hmakes
        cases hmakes
        rw [ofEntries, Array.toList_inj.1 (hk.trans hk'.symm)]
        rfl
  | text :: texts, known, known', s, s' => by
      rw [ofEntries_cons_eq_ok_iff]
      constructor
      · rintro ⟨v, low, high, f, s₁, hentry, hl, hh, hf, h⟩
        obtain ⟨e, he, rfl, hlow, hhigh⟩ := readEntry_eq_ok_iff.1 hentry
        obtain ⟨entries, hspelled, hmakes⟩ := ofEntries_eq_ok_iff.1 h
        rw [Array.toList_push] at hmakes
        exact ⟨e :: entries, .cons he hspelled, .cons hlow hhigh hl hh hf hmakes⟩
      · rintro ⟨_, _ | ⟨he, hspelled⟩, hmakes⟩
        cases hmakes with
        | cons hlow hhigh hl hh hf hmakes =>
            rw [← Array.toList_push] at hmakes
            exact ⟨_, _, _, _, _, readEntry_eq_ok_iff.2 ⟨_, he, rfl, hlow, hhigh⟩, hl, hh, hf,
              ofEntries_eq_ok_iff.2 ⟨_, hspelled, hmakes⟩⟩

/-- **A text is read** exactly if it spells entries that the store can make, and a root among them. -/
theorem ofSerial_eq_ok_iff {text : String} {f : Handle} : ofSerial text s = .ok (.ok f) s' ↔
    ∃ entries root made, Spells text.toList entries root ∧ s.Makes [.one] entries s' made ∧
      handle? made root = some f := by
  have hchars : ofSerial text s = .ok (.ok f) s' ↔ ofSerialChars text.toList s = .ok (.ok f) s' := by
    constructor
    · intro h
      obtain ⟨result, t, hresult, h⟩ := bind_eq_ok h
      cases result <;> cases h
      exact hresult
    · intro h
      rw [ofSerial, bind_of_ok h]
      rfl
  rw [hchars]
  constructor
  · intro h
    cases hsplit : Text.splitFirst '|' text.toList with
    | none =>
        simp only [ofSerialChars, hsplit] at h
        cases h
    | some parts =>
        obtain ⟨body, rest⟩ := parts
        simp only [ofSerialChars, hsplit] at h
        obtain ⟨result, t, hresult, h⟩ := bind_eq_ok h
        cases result with
        | error flaw => cases h
        | ok made =>
            obtain ⟨hroot, rfl⟩ := EStateM.Result.ok.inj h
            obtain ⟨entries, hspelled, hmakes⟩ := ofEntries_eq_ok_iff.1 hresult
            obtain ⟨root, hroot, hf⟩ := resolve_eq_ok_iff.1 hroot
            exact ⟨entries, root, made.toList, spells_iff.2 ⟨body, rest, hsplit, hspelled, hroot⟩, hmakes, hf⟩
  · rintro ⟨entries, root, made, hspells, hmakes, hf⟩
    obtain ⟨body, rest, hsplit, hspelled, hroot⟩ := spells_iff.1 hspells
    have hentries : ofEntries #[.one] (entriesOf body) s = .ok (.ok made.toArray) s' :=
      ofEntries_eq_ok_iff.2 ⟨entries, hspelled, hmakes⟩
    simp only [ofSerialChars, hsplit]
    rw [bind_of_ok hentries]
    simp only [resolve_eq_ok_iff.2 ⟨root, hroot, hf⟩]
    rfl

end DiagramM

/-! ## What is made

The two views meet.  As long as there is room, the handles that were made mean the functions that the
entries describe, and then the order that the store tests is the order that the entries have.  Canonicity is
used for the second part: the node of a handle tests a variable only if its function depends on it.
-/

namespace Store

variable {s s' : Store} {f : Handle} {known made : List Handle} {entries : List Entry} {number : Int}

/-- **A diagram may stand below a variable** exactly if its function ignores all variables up to it. -/
theorem beneath_iff_ignores (hs : s.Shaped) (hf : s.Valid f) {v : Nat} :
    s.Beneath v f ↔ Ignores v (s.meaning f) := by
  constructor
  · exact fun hv x y hxy => meaning_eq_of_beneath hs hf hv hxy
  · intro h
    by_cases h1 : f.index = 1
    · exact beneath_of_index h1
    · have hlt : 1 < f.index := by
        have := hf.pos
        omega
      obtain ⟨n, hn⟩ := hf
      refine Or.inr ⟨n, hn, ?_⟩
      -- the function does depend on the variable of its node
      by_contra hle
      refine children_differ hs hlt hn (children_agree hs hlt hn fun x b => h _ _ fun w hw => ?_)
      exact Function.update_of_ne (by omega) _ _

lemma valid_of_mem_one (hs : s.Shaped) : ∀ g ∈ [Handle.one], s.Valid g := by
  intro g hg
  rw [List.mem_singleton.1 hg]
  exact hs.valid_one

lemma map_meaning_one (hs : s.Shaped) : [Handle.one].map s.meaning = terminals :=
  congrArg (· :: []) (funext fun _ => meaning_one hs)

/-- A number refers to a handle unless it goes beyond the list. -/
lemma exists_handle?_iff (hpos : 0 < known.length) :
    (∃ f, handle? known number = some f) ↔ number.natAbs ≤ known.length := by
  simp only [handle?, Option.map_eq_some_iff]
  constructor
  · rintro ⟨f, g, hg, -⟩
    have := (List.getElem?_eq_some_iff.1 hg).1
    omega
  · intro hle
    exact ⟨_, _, List.getElem?_eq_getElem (by omega), rfl⟩

/-- What a number refers to, as a handle and as a function. -/
lemma refer_eq_meaning (hs : s.Shaped) (hknown : ∀ g ∈ known, s.Valid g)
    (hf : handle? known number = some f) :
    s.Valid f ∧ refer (known.map s.meaning) number = s.meaning f := by
  obtain ⟨g, hg, rfl⟩ := Option.map_eq_some_iff.1 hf
  have hvalid := hknown g (List.mem_of_getElem? hg)
  refine ⟨hvalid.negateIf _, ?_⟩
  funext x
  simp [refer, hg, meaning_negateIf hs hvalid]

/-- The function of an entry, over the diagrams of its children. -/
lemma function_eq_branch {e : Entry} {low high : Handle}
    (hlow : refer (known.map s.meaning) e.low = s.meaning low)
    (hhigh : refer (known.map s.meaning) e.high = s.meaning high) :
    e.function (known.map s.meaning) = s.branch e.var low high := by
  funext x
  rw [Entry.function, branch, hlow, hhigh]

/-- What is known after one more entry are handles of the store. -/
lemma Built.valid_append {F : (Nat → Bool) → Bool} (hf : s.Built F f s')
    (hknown : ∀ g ∈ known, s.Valid g) : ∀ g ∈ known ++ [f], s'.Valid g := by
  intro g hg
  rcases List.mem_append.1 hg with hg | hg
  · exact hf.grows.keeps.valid (hknown g hg)
  · rw [List.mem_singleton.1 hg]
    exact hf.valid

/-- The functions that are known after one more entry. -/
lemma map_meaning_append (hs : s.Shaped) (hknown : ∀ g ∈ known, s.Valid g) {F : (Nat → Bool) → Bool}
    (hf : s.Built F f s') (ho : s'.overflowed = false) :
    (known ++ [f]).map s'.meaning = known.map s.meaning ++ [F] := by
  rw [List.map_append, List.map_singleton, funext (hf.meaning ho)]
  congr 1
  exact List.map_congr_left fun g hg => funext fun x => hf.grows.meaning_eq hs (hknown g hg)

/-- **What is made of entries.**  Each of them leads to a handle.  As long as there is room, the handles mean
what the entries describe, and the entries are in order. -/
theorem Makes.spec (h : s.Makes known entries s' made) (hs : s.Sound)
    (hknown : ∀ g ∈ known, s.Valid g) (hpos : 0 < known.length) :
    s.Grows s' ∧ (∀ g ∈ made, s'.Valid g) ∧ made.length = known.length + entries.length ∧
      (s'.overflowed = false → made.map s'.meaning = functions (known.map s.meaning) entries ∧
        Ordered (known.map s.meaning) entries) := by
  induction h with
  | nil => exact ⟨.refl hs, hknown, rfl, fun _ => ⟨rfl, trivial⟩⟩
  | @cons s s₁ s' known made e rest low high f hlow hhigh hbelow hbelow' hmake _ ih =>
      obtain ⟨hvalid, hrefer⟩ := refer_eq_meaning hs.toShaped hknown hlow
      obtain ⟨hvalid', hrefer'⟩ := refer_eq_meaning hs.toShaped hknown hhigh
      obtain ⟨hbuilt, -⟩ := (DiagramM.mkNode_spec hs (DiagramM.pos_of_mkNode hmake) hvalid hvalid' hbelow
        hbelow').post_of_ok hmake
      obtain ⟨hgrows, hmade, hlength, hmean⟩ := ih hbuilt.grows.sound (hbuilt.valid_append hknown) (by simp)
      refine ⟨hbuilt.grows.trans hgrows, hmade, ?_, fun ho => ?_⟩
      · rw [hlength, List.length_append, List.length_singleton, List.length_cons]
        omega
      · rw [← function_eq_branch hrefer hrefer'] at hbuilt
        rw [map_meaning_append hs.toShaped hknown hbuilt (hgrows.overflowed ho)] at hmean
        have hbelow := (beneath_iff_ignores hs.toShaped hvalid).1 hbelow
        have hbelow' := (beneath_iff_ignores hs.toShaped hvalid').1 hbelow'
        rw [← hrefer] at hbelow
        rw [← hrefer'] at hbelow'
        refine ⟨(hmean ho).1, ⟨?_, hbelow⟩, ⟨?_, hbelow'⟩, (hmean ho).2⟩
        · simpa using (exists_handle?_iff hpos).1 ⟨low, hlow⟩
        · simpa using (exists_handle?_iff hpos).1 ⟨high, hhigh⟩

end Store

namespace DiagramM

open Store

variable {s : Store}

/-- **Entries in order are read**, unless there is no room for one of them. -/
lemma ofEntries_of_ordered {texts : List (List Char)} {entries : List Entry}
    (hspelled : List.Forall₂ IsEntry texts entries) : ∀ {known : Array Handle} {s : Store}, s.Sound →
    (∀ g ∈ known.toList, s.Valid g) → 0 < known.toList.length →
    Ordered (known.toList.map s.meaning) entries →
    Yields (ofEntries known texts) s fun result s' => s'.overflowed = false →
      ∃ made, result = .ok made ∧ made.toList.length = known.toList.length + entries.length := by
  induction hspelled with
  | nil =>
      intro known s _ _ _ _
      exact Yields.pure fun _ => ⟨known, rfl, rfl⟩
  | @cons text e texts entries he _ ih =>
      intro known s hs hknown hpos hordered
      obtain ⟨⟨hle, hlow⟩, ⟨hle', hhigh⟩, hrest⟩ := hordered
      rw [List.length_map] at hle hle'
      obtain ⟨low, hl⟩ := (exists_handle?_iff hpos).2 hle
      obtain ⟨high, hh⟩ := (exists_handle?_iff hpos).2 hle'
      obtain ⟨hvalid, hrefer⟩ := refer_eq_meaning hs.toShaped hknown hl
      obtain ⟨hvalid', hrefer'⟩ := refer_eq_meaning hs.toShaped hknown hh
      rw [hrefer, ← beneath_iff_ignores hs.toShaped hvalid] at hlow
      rw [hrefer', ← beneath_iff_ignores hs.toShaped hvalid'] at hhigh
      have hv : 0 < e.var := by
        obtain ⟨_, _, _, -, -, ⟨-, hv⟩, -⟩ := he
        exact Nat.pos_of_ne_zero hv
      simp only [ofEntries, readEntry_eq_ok_iff.2 ⟨e, he, rfl, hl, hh⟩]
      refine Yields.bind (read_ok (isBelow_of_beneath hlow) (Yields.bind
        (read_ok (isBelow_of_beneath hhigh) ?_)))
      rw [Bool.and_self, if_pos rfl]
      refine Yields.bind ((mkNode_spec hs hv hvalid hvalid' hlow hhigh).mono ?_)
      rintro f s₁ ⟨hbuilt, -⟩
      have hknown₁ : ∀ g ∈ (known.push f).toList, s₁.Valid g := by
        rw [Array.toList_push]
        exact hbuilt.valid_append hknown
      by_cases ho : s₁.overflowed = false
      · rw [← function_eq_branch hrefer hrefer'] at hbuilt
        rw [← map_meaning_append hs.toShaped hknown hbuilt ho, ← Array.toList_push] at hrest
        refine (ih hbuilt.grows.sound hknown₁ (by simp) hrest).mono ?_
        intro result s' h ho'
        obtain ⟨made, hmade, hlength⟩ := h ho'
        refine ⟨made, hmade, ?_⟩
        rw [hlength, Array.toList_push, List.length_append, List.length_singleton, List.length_cons]
        omega
      · -- the flag stays up, so nothing is claimed of the rest
        refine (ofEntries_spec texts hbuilt.grows.sound fun g hg => hknown₁ g
          (Array.mem_toList_iff.2 hg)).mono fun _ s' h ho' => absurd (h.1.overflowed ho') ho

/-- **A text that spells entries in order is read**, unless there is no room for one of them. -/
lemma ofSerial_of_ordered (hs : s.Sound) {text : String} {entries : List Entry} {root : Int}
    (hspells : Spells text.toList entries root) (hordered : Ordered terminals entries)
    (hroot : root.natAbs ≤ entries.length + 1) :
    Yields (ofSerial text) s fun result s' => s'.overflowed = false → ∃ f, result = .ok f := by
  obtain ⟨body, rest, hsplit, hspelled, href⟩ := spells_iff.1 hspells
  rw [← map_meaning_one hs.toShaped] at hordered
  have hentries := @ofEntries_of_ordered _ _ hspelled #[.one] _ hs (valid_of_mem_one hs.toShaped)
    Nat.one_pos hordered
  refine Yields.bind ?_
  simp only [ofSerialChars, hsplit]
  refine Yields.bind (hentries.mono ?_)
  rintro (flaw | made) s' h
  · refine Yields.pure (Yields.pure fun ho => ?_)
    obtain ⟨made, hmade, -⟩ := h ho
    cases hmade
  · refine Yields.pure ?_
    cases hresolve : resolve made rest with
    | ok f => exact Yields.pure fun _ => ⟨f, rfl⟩
    | error flaw =>
        refine Yields.pure fun ho => ?_
        obtain ⟨_, ⟨⟩, hlength⟩ := h ho
        have hle : root.natAbs ≤ made.toList.length := by
          rw [hlength]
          simpa [Nat.add_comm] using hroot
        obtain ⟨f, hf⟩ := (exists_handle?_iff (by rw [hlength]; simp)).2 hle
        rw [resolve_eq_ok_iff.2 ⟨root, href, hf⟩] at hresolve
        cases hresolve

end DiagramM

/-! ## Reading any text

All parts are put together.  Where the store has run out of room nothing can be said of meanings, so there
the only description of success is by what the store makes; otherwise the entries alone decide.
-/

namespace Store

open DiagramM

variable {s : Store}

/-- **What was read means what its entries describe**, if there was room for all of them. -/
lemma meaning_of_ofSerial (hs : s.Sound) {text : String} {f : Handle} {s' : Store}
    (hrun : ofSerial text s = .ok (.ok f) s') (ho : s'.overflowed = false) :
    ∃ entries root, Spells text.toList entries root ∧ s'.meaning f = described entries root := by
  obtain ⟨entries, root, made, hspells, hmakes, hroot⟩ := ofSerial_eq_ok_iff.1 hrun
  obtain ⟨hgrows, hvalids, -, hmean⟩ := hmakes.spec hs (valid_of_mem_one hs.toShaped) Nat.one_pos
  refine ⟨entries, root, hspells, ?_⟩
  rw [described, ← map_meaning_one hs.toShaped, ← (hmean ho).1,
    (refer_eq_meaning hgrows.sound.toShaped hvalids hroot).2]

/-- **Reading any text.**  In every store that calls lead to, reading ends, and it ends with a handle
exactly if the text spells entries that the store can make and a root that is the terminal or one of them.
If there was room for all entries, the entries alone tell whether they can be made, and the handle has on
all inputs the value that they describe.  In any case every node fits its place and no node is stored
twice. -/
theorem ofSerial_accepts (hs : Reached s) (text : String) :
    ∃ result s', ofSerial text s = .ok result s' ∧
      ((∃ f, result = .ok f) ↔ ∃ entries root t made, Spells text.toList entries root ∧
        s.Makes [.one] entries t made ∧ root.natAbs ≤ entries.length + 1) ∧
      (s'.overflowed = false →
        ((∃ f, result = .ok f) ↔ ∃ entries root, Spells text.toList entries root ∧
          Ordered terminals entries ∧ root.natAbs ≤ entries.length + 1) ∧
        ∀ f entries root, result = .ok f → Spells text.toList entries root →
          ∀ inputs, s'.eval f inputs = .ok (described entries root (inputValue inputs))) ∧
      (∀ i n, 1 < i → s'.table.value? i = some n → s'.Fits i n) ∧
      ∀ i j n, s'.table.value? i = some n → s'.table.value? j = some n → i = j := by
  replace hs := hs.sound
  obtain ⟨result, s', hrun, hgrows, hvalid⟩ := ofSerial_spec hs text
  have hknown := valid_of_mem_one hs.toShaped
  have hmeaning := map_meaning_one hs.toShaped
  have hmade : ∀ {f}, result = .ok f → ∃ entries root made, Spells text.toList entries root ∧
      s.Makes [.one] entries s' made ∧ handle? made root = some f := by
    rintro f rfl
    exact ofSerial_eq_ok_iff.1 hrun
  have hrange : ∀ {entries t made root}, s.Makes [.one] entries t made →
      ((∃ f, handle? made root = some f) ↔ root.natAbs ≤ entries.length + 1) := by
    intro entries t made root hmakes
    obtain ⟨-, -, hlength, -⟩ := hmakes.spec hs hknown Nat.one_pos
    rw [exists_handle?_iff (by rw [hlength]; simp), hlength, List.length_singleton, Nat.add_comm]
  refine ⟨result, s', hrun, ⟨?_, ?_⟩, fun ho => ⟨⟨?_, ?_⟩, ?_⟩, hgrows.sound.fits,
    fun i j n hi hj => hgrows.sound.index_eq_of_value? hi hj⟩
  · rintro ⟨f, hf⟩
    obtain ⟨entries, root, made, hspells, hmakes, hroot⟩ := hmade hf
    exact ⟨entries, root, s', made, hspells, hmakes, (hrange hmakes).1 ⟨f, hroot⟩⟩
  · rintro ⟨entries, root, t, made, hspells, hmakes, hroot⟩
    obtain ⟨f, hf⟩ := (hrange hmakes).2 hroot
    rw [ofSerial_eq_ok_iff.2 ⟨entries, root, made, hspells, hmakes, hf⟩] at hrun
    cases hrun
    exact ⟨f, rfl⟩
  · rintro ⟨f, hf⟩
    obtain ⟨entries, root, made, hspells, hmakes, hroot⟩ := hmade hf
    obtain ⟨-, -, -, hmean⟩ := hmakes.spec hs hknown Nat.one_pos
    exact ⟨entries, root, hspells, hmeaning ▸ (hmean ho).2, (hrange hmakes).1 ⟨f, hroot⟩⟩
  · rintro ⟨entries, root, hspells, hordered, hroot⟩
    exact (ofSerial_of_ordered hs hspells hordered hroot).post_of_ok hrun ho
  · intro f entries root hf hspells inputs
    subst hf
    obtain ⟨entries', root', hspells', hmean⟩ := meaning_of_ofSerial hs hrun ho
    obtain ⟨rfl, rfl⟩ := hspells.unique hspells'
    rw [eval_eq hgrows.sound.toShaped (hvalid f rfl), hmean]

/-- A text with blanks, a plus sign and an empty piece in it. -/
def redundantText : String :=
  " 2 ,-1,+1;;2,-1,1;1,-2,-3;1,1,-2|-4"

/-- Its entries: a variable, the same again, a node with equal children, and one with a complemented high
child that nothing refers to. -/
def redundantEntries : List Entry :=
  [⟨2, -1, 1⟩, ⟨2, -1, 1⟩, ⟨1, -2, -3⟩, ⟨1, 1, -2⟩]

/-- The root is the complement of the third entry, which is the second variable. -/
theorem ofSerial_accepts_redundant :
    Reached pairStore ∧ Spells redundantText.toList redundantEntries (-4) ∧
    ∃ s', ofSerial redundantText pairStore = .ok (.ok (.positive 3)) s' ∧
      s'.overflowed = false ∧ s'.size = 5 ∧
      (∀ inputs, s'.eval (.positive 3) inputs
        = .ok (described redundantEntries (-4) (inputValue inputs))) ∧
      ∀ i n, 1 < i → s'.table.value? i = some n → s'.Fits i n := by
  have hspells : Spells redundantText.toList redundantEntries (-4) := by
    have hentry : ∀ (v low high : String) (e : Entry),
        (∀ field ∈ [v.toList, low.toList, high.toList], ',' ∉ field) ∧
          (Text.readNatBelow (2 ^ 32) (Text.trim v.toList) = some e.var ∧ e.var ≠ 0) ∧
          (Text.readIntBelow (2 ^ 63) (Text.trim low.toList) = some e.low ∧ e.low ≠ 0) ∧
          Text.readIntBelow (2 ^ 63) (Text.trim high.toList) = some e.high ∧ e.high ≠ 0 →
        IsEntry ([','].intercalate [v.toList, low.toList, high.toList]) e :=
      fun v low high e h => ⟨v.toList, low.toList, high.toList, rfl, h⟩
    refine spells_iff.2 ⟨_, _, rfl, ?_, by decide +kernel, by decide⟩
    exact .cons (hentry " 2 " "-1" "+1" ⟨2, -1, 1⟩ (by decide +kernel))
      (.cons (hentry "2" "-1" "1" ⟨2, -1, 1⟩ (by decide +kernel))
        (.cons (hentry "1" "-2" "-3" ⟨1, -2, -3⟩ (by decide +kernel))
          (.cons (hentry "1" "1" "-2" ⟨1, 1, -2⟩ (by decide +kernel)) .nil)))
  obtain ⟨result, s', hrun, -, hroom, hfits, -⟩ := ofSerial_accepts reached_pairStore redundantText
  have hanswer : answer (ofSerial redundantText) pairStore = .ok (.ok (.positive 3)) := by
    decide +kernel
  have hafter : after (ofSerial redundantText) pairStore = s' := by
    simp only [after, hrun]
  rw [answer_of_ok hrun, Except.ok.injEq] at hanswer
  subst hanswer
  have ho : s'.overflowed = false := by
    rw [← hafter]
    decide +kernel
  refine ⟨reached_pairStore, hspells, s', hrun, ho, ?_, (hroom ho).2 _ _ _ rfl hspells, hfits⟩
  rw [← hafter]
  decide +kernel

end Store

end ModalCalls
