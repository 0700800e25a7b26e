import Mathlib
import ModalCalls.Proofs.Diagram.SerialForm
import ModalCalls.Proofs.Diagram.Writable
import ModalCalls.Proofs.Text.Written

/-!
# Serial forms can be read back

A diagram is written in one store and read in another one.  `Store.serial_roundTrip`: what is read
means what was written, it is written the same again, and two handles are written alike exactly if they
evaluate alike.

Writing and reading meet in `Serial.Describes`: a list of entries describes nodes of a store, children
before parents, and refers to a child by where it stands in the list.

* `Store.listWithin_describes` — writing makes such a list.
* `DiagramM.ofEntries_describes` — reading such a list makes a copy of each node (`Store.Copies`).  Texts are
  never refused: whether or not there is room, a copy tests no earlier variable than the node.  If the
  functions of all nodes have handles already, reading adds no node.
-/

namespace ModalCalls

open Store

namespace Serial

variable {s : Store} {indices more : List Nat} {entries : List Entry} {f : Handle} {number : Int}
  {l m : Listing}

/-! ## Lists of entries

Entries refer to each other by position.  `Describes` ties such a list to nodes of a store, and it grows at
the end, as both writing and reading go.  The terminal stands first and has no entry of its own, which is
why there is one node more than there are entries.
-/

/-- A signed number refers to a handle by where its node stands among some nodes. -/
def Refers (indices : List Nat) (f : Handle) (number : Int) : Prop :=
  ∃ k : Nat, indices[k]? = some f.index ∧
    number = if f.isNegated then -((k + 1 : Nat) : Int) else ((k + 1 : Nat) : Int)

/-- **Entries describe nodes of a store**, the terminal first and children before their parents. -/
inductive Describes (s : Store) : List Nat → List Entry → Prop
  | terminal : Describes s [1] []
  | node {indices : List Nat} {entries : List Entry} {i : Nat} {n : Node} {low high : Int}
      (h : Describes s indices entries) (hi : 1 < i) (hnew : i ∉ indices)
      (hn : s.table.value? i = some n) (hlow : Refers indices n.low low)
      (hhigh : Refers indices n.high high) :
      Describes s (indices ++ [i]) (entries ++ [⟨n.var, low, high⟩])

/-- A reference is not larger than the list is long. -/
lemma Refers.natAbs_le (h : Refers indices f number) : number.natAbs ≤ indices.length := by
  obtain ⟨k, hk, rfl⟩ := h
  have hlt := (List.getElem?_eq_some_iff.1 hk).1
  split <;> omega

lemma Describes.length_eq (h : Describes s indices entries) : indices.length = entries.length + 1 := by
  induction h with
  | terminal => rfl
  | node _ _ _ _ _ _ ih => simp [ih]

lemma Describes.first (h : Describes s indices entries) : indices[0]? = some 1 := by
  induction h with
  | terminal => rfl
  | node h _ _ _ _ _ ih =>
      rw [List.getElem?_append_left (by have := h.length_eq; omega), ih]

/-- No node is described twice, and all of them are nodes of the store. -/
lemma Describes.length_le (h : Describes s indices entries) (hs : s.Shaped) :
    indices.length ≤ s.size := by
  have hall : indices.Nodup ∧ ∀ i ∈ indices, 1 ≤ i ∧ i ≤ s.size := by
    induction h with
    | terminal =>
        refine ⟨List.nodup_singleton 1, fun i hi => ?_⟩
        rw [List.mem_singleton.1 hi]
        exact Table.value?_eq_some.1 ⟨_, hs.terminal⟩
    | @node indices entries i n low high _ _ hnew hn _ _ ih =>
        refine ⟨List.nodup_append.2 ⟨ih.1, List.nodup_singleton i, ?_⟩, fun j hj => ?_⟩
        · rintro a ha b hb rfl
          rw [List.mem_singleton.1 hb] at ha
          exact hnew ha
        · rcases List.mem_append.1 hj with hj | hj
          · exact ih.2 j hj
          · rw [List.mem_singleton.1 hj]
            exact Table.value?_eq_some.1 ⟨n, hn⟩
  have hsubset : indices ⊆ List.range' 1 s.size := fun i hi => by
    have := hall.2 i hi
    rw [List.mem_range']
    exact ⟨i - 1, by omega, by omega⟩
  simpa using (hall.1.subperm hsubset).length_le

/-- References have 64 bits. -/
lemma Describes.length_lt (h : Describes s indices entries) (hs : s.Shaped) (hw : s.Writable) :
    indices.length < 2 ^ 63 := by
  have := h.length_le hs
  have := hs.room
  have := hw.capacity_le
  omega

/-! ## Writing

The walk below a handle visits a node only if it has no number yet.  The invariant relates the listing to a
list of nodes: the entries describe these nodes, the numbers are their positions, and a node that was
visited is among them.  The second half of the lemma is about another store.  If it has a handle for what is
written, it has one for every node below, because a part of a represented function is represented.
-/

/-- The entries of a listing describe some nodes, and these are the nodes that it has numbers for. -/
structure Listing.Writes (l : Listing) (s : Store) (indices : List Nat) : Prop where
  describes : Describes s indices l.entries.toList
  numbers : ∀ i number, l.numbers[i]? = some number → ∃ k, indices[k]? = some i ∧ number = k + 1
  listed : ∀ f : Handle, f.index ∈ indices → l.Lists f

lemma Listing.Writes.refers (h : l.Writes s indices) (href : l.reference f = .ok number) :
    Refers indices f number := by
  simp only [Listing.reference] at href
  split at href
  · next hterm =>
      cases href
      exact ⟨0, by rw [h.describes.first, Handle.isTerminal_iff.1 hterm], by simp⟩
  · split at href
    · next number hnumber =>
        cases href
        obtain ⟨k, hk, rfl⟩ := h.numbers _ _ hnumber
        exact ⟨k, hk, rfl⟩
    · cases href

/-- One more node is listed. -/
lemma Listing.Writes.push (h : l.Writes s indices) {i : Nat} {n : Node} (hi : 1 < i)
    (hnew : i ∉ indices) (hn : s.table.value? i = some n) (hpush : l.push i n = .ok m) :
    m.Writes s (indices ++ [i]) := by
  obtain ⟨low, hlow, hpush⟩ := except_bind_eq_ok hpush
  obtain ⟨high, hhigh, hpush⟩ := except_bind_eq_ok hpush
  cases hpush
  have hlength : indices.length = l.entries.size + 1 := by
    rw [h.describes.length_eq, Array.length_toList]
  refine ⟨?_, fun j number hj => ?_, fun f hf => ?_⟩
  · rw [Array.toList_push]
    exact .node h.describes hi hnew hn (h.refers hlow) (h.refers hhigh)
  · rw [Std.TreeMap.getElem?_insert] at hj
    split at hj
    · next heq =>
        rw [Nat.compare_eq_eq] at heq
        cases hj
        exact ⟨indices.length, by simp [heq], by omega⟩
    · obtain ⟨k, hk, rfl⟩ := h.numbers j number hj
      exact ⟨k, by rw [List.getElem?_append_left (List.getElem?_eq_some_iff.1 hk).1, hk], rfl⟩
  · simp only [Lists, Std.TreeMap.getElem?_insert, Nat.compare_eq_eq]
    rcases List.mem_append.1 hf with hf | hf
    · refine (h.listed f hf).imp_right fun hsome => ?_
      split
      · rfl
      · exact hsome
    · rw [if_pos (List.mem_singleton.1 hf).symm]
      exact Or.inr rfl

end Serial

namespace Store

open Serial

variable {s t : Store} {f : Handle}

/-- The children of a node have handles where the node has one. -/
lemma Represents.children (hs : s.Shaped) (ht : t.Shaped) (hlt : 1 < f.index) {n : Node}
    (hn : s.table.value? f.index = some n) (h : t.Represents (s.meaning f)) :
    t.Represents (s.meaning n.low) ∧ t.Represents (s.meaning n.high) := by
  obtain ⟨g, hg, hmean⟩ := h
  obtain ⟨-, ⟨hone, -⟩ | ⟨m, m', -, hlt', hm, hm', -, hlow, hhigh⟩⟩ :=
    agree_cases hs ht ⟨n, hn⟩ hg fun x => (hmean x).symm
  · omega
  · obtain rfl := Option.some.inj (hm.symm.trans hn)
    exact ⟨⟨m'.low, ht.valid_low hlt' hm', fun x => (hlow x).symm⟩,
      ⟨m'.high, ht.valid_high hlt' hm', fun x => (hhigh x).symm⟩⟩

lemma Represents.positive (hs : s.Shaped) (ht : t.Shaped) (hf : s.Valid f)
    (h : t.Represents (s.meaning f)) : t.Represents (s.meaning (.positive f.index)) := by
  obtain ⟨g, hg, hmean⟩ := h
  refine ⟨g.negateIf f.isNegated, hg.negateIf _, fun x => ?_⟩
  have hsign : s.meaning f x = (f.isNegated ^^ s.meaning (.positive f.index) x) := by
    conv_lhs => rw [f.eq_negateIf_positive]
    exact meaning_negateIf hs hf.positive _
  rw [meaning_negateIf ht hg, hmean, hsign, ← Bool.xor_assoc, Bool.xor_self, Bool.false_xor]

/-- **Writing lists nodes below the handle** after those that are listed already.  Where the handle's
function has a handle, all of their functions have one. -/
lemma listWithin_describes (hs : s.Shaped) : ∀ (d : Nat) {f : Handle} {l m : Listing}
    {indices : List Nat}, s.Valid f → l.Writes s indices → s.listWithin d f l = .ok m →
    ∃ more, m.Writes s (indices ++ more) ∧ ∀ i ∈ more, i ≤ f.index ∧
      ∀ t : Store, t.Shaped → t.Represents (s.meaning f) → t.Represents (s.meaning (.positive i))
  | 0, _, _, _, _, _, _, h => by cases h
  | d + 1, f, l, m, indices, hf, hl, h => by
      by_cases hlists : l.Lists f
      · rw [listWithin_listed hlists] at h
        cases h
        exact ⟨[], by rwa [List.append_nil], by simp⟩
      · have hlt : 1 < f.index := by
          have := hf.pos
          have : f.index ≠ 1 := fun h1 => hlists (Or.inl h1)
          omega
        obtain ⟨n, hn⟩ := id hf
        rw [listWithin_node hlists hn] at h
        obtain ⟨l₁, hlow, h⟩ := except_bind_eq_ok h
        obtain ⟨l₂, hhigh, hpush⟩ := except_bind_eq_ok h
        obtain ⟨lows, hl₁, hlows⟩ := listWithin_describes hs d (hs.valid_low hlt hn) hl hlow
        obtain ⟨highs, hl₂, hhighs⟩ := listWithin_describes hs d (hs.valid_high hlt hn) hl₁ hhigh
        have hfits := hs.fits _ n hlt hn
        have hnew : f.index ∉ (indices ++ lows) ++ highs := by
          simp only [List.mem_append, not_or]
          refine ⟨⟨fun hmem => hlists (hl.listed f hmem), fun hmem => ?_⟩, fun hmem => ?_⟩
          · have := (hlows _ hmem).1
            have := hfits.low_lt
            omega
          · have := (hhighs _ hmem).1
            have := hfits.high_lt
            omega
        refine ⟨lows ++ highs ++ [f.index], by simpa using hl₂.push hlt hnew hn hpush, fun i hi => ?_⟩
        simp only [List.mem_append, List.mem_singleton] at hi
        rcases hi with (hi | hi) | rfl
        · obtain ⟨hle, hrep⟩ := hlows i hi
          exact ⟨hle.trans hfits.low_lt.le, fun t ht h =>
            hrep t ht (h.children hs ht hlt hn).1⟩
        · obtain ⟨hle, hrep⟩ := hhighs i hi
          exact ⟨hle.trans hfits.high_lt.le, fun t ht h =>
            hrep t ht (h.children hs ht hlt hn).2⟩
        · exact ⟨le_rfl, fun t ht h => h.positive hs ht hf⟩

/-! ## Copies

A copy may live in another store, at another index and with another shape of the buckets around it.  It is
not required to mean the same once there was no room, but even then it tests no earlier variable than the
original.  That is enough for a reader not to refuse any entry, so reading does not depend on room.
-/

/-- **A handle `g` of the store `t` is a copy of a handle `f` of the store `s`.**  It tests no earlier
variable, and it means the same unless there was no room. -/
structure Copies (s t : Store) (f g : Handle) : Prop where
  valid : t.Valid g
  beneath : ∀ v, s.Beneath v f → t.Beneath v g
  meaning : t.overflowed = false → ∀ x, t.meaning g x = s.meaning f x

namespace Copies

variable {t' : Store} {g : Handle}

lemma grows (h : s.Copies t f g) (ht : t.Shaped) (hg : t.Grows t') : s.Copies t' f g where
  valid := hg.keeps.valid h.valid
  beneath := fun v hv => hg.keeps.beneath (h.beneath v hv)
  meaning := fun ho x => (hg.meaning_eq ht h.valid).trans (h.meaning (hg.overflowed ho) x)

lemma negateIf (h : s.Copies t f g) (hs : s.Shaped) (ht : t.Shaped) (hf : s.Valid f) (b : Bool) :
    s.Copies t (f.negateIf b) (g.negateIf b) where
  valid := h.valid.negateIf b
  beneath := fun v hv => (h.beneath v (by simpa [Beneath] using hv)).negateIf b
  meaning := fun ho x => by
    rw [meaning_negateIf ht h.valid, meaning_negateIf hs hf, h.meaning ho]

lemma one (hs : s.Shaped) (ht : t.Shaped) : s.Copies t (.positive 1) .one where
  valid := ht.valid_one
  beneath := fun _ _ => beneath_of_index rfl
  meaning := fun _ _ => (meaning_one ht).trans (meaning_one hs).symm

/-- The function of a node, over copies of its children. -/
lemma branch_eq (hs : s.Shaped) {i : Nat} (hi : 1 < i) {n : Node} (hn : s.table.value? i = some n)
    {low high : Handle} (hlow : s.Copies t n.low low) (hhigh : s.Copies t n.high high)
    (ho : t.overflowed = false) : t.branch n.var low high = s.meaning (.positive i) := by
  funext x
  rw [branch, hlow.meaning ho, hhigh.meaning ho, meaning_of_node (f := .positive i) hs hi hn,
    Handle.isNegated_positive, Bool.false_xor]

/-- A node that is built over copies of the children is a copy. -/
lemma node (hs : s.Shaped) {i : Nat} (hi : 1 < i) {n : Node} (hn : s.table.value? i = some n)
    {low high : Handle} (hlow : s.Copies t n.low low) (hhigh : s.Copies t n.high high)
    (hr : t.Built (t.branch n.var low high) g t') (hbeneath : ∀ v, v < n.var → t'.Beneath v g) :
    s.Copies t' (.positive i) g where
  valid := hr.valid
  beneath := by
    rintro v (h | ⟨m, hm, hv⟩)
    · simp only [Handle.index_positive] at h
      omega
    · rw [Handle.index_positive, hn] at hm
      cases hm
      exact hbeneath v hv
  meaning := fun ho x => by
    rw [hr.meaning ho, branch_eq hs hi hn hlow hhigh (hr.grows.overflowed ho)]

end Copies

end Store

/-! ## Reading

Reading undoes what writing has done, character by character: a number is read as itself, an entry falls
into its three fields again, and a body into its entries.  The entries then are read in order, and after
each of them the known handles are copies of the nodes described so far.
-/

namespace Serial

variable {s t : Store} {indices : List Nat} {f : Handle} {number : Int} {known : Array Handle}

/-- The known handles are copies of the nodes that were described. -/
abbrev CopiesAll (s t : Store) (indices : List Nat) (known : Array Handle) : Prop :=
  List.Forall₂ (fun i g => s.Copies t (.positive i) g) indices known.toList

/-- A reference to a node is resolved to a copy. -/
lemma resolve_refers (hs : s.Shaped) (ht : t.Shaped) (hf : s.Valid f) (h : Refers indices f number)
    (hlength : indices.length < 2 ^ 63) (hknown : CopiesAll s t indices known) :
    ∃ g, resolve known (toString number).toList = .ok g ∧ s.Copies t f g := by
  have hread : Text.readIntBelow (Nat.pow 2 63) (Text.trim (toString number).toList)
      = some number := by
    rw [Text.trim_of_isNumeral fun c => Text.isNumeral_of_mem_int]
    exact Text.readIntBelow_toString (h.natAbs_le.trans_lt hlength)
  obtain ⟨k, hk, hnumber⟩ := h
  obtain ⟨g, hg, hcopy⟩ := exists_of_getElem?_left hknown hk
  have hzero : number ≠ 0 := by
    rw [hnumber]
    split <;> omega
  have habs : number.natAbs - 1 = k := by
    rw [hnumber]
    split <;> omega
  have hsign : decide (number < 0) = f.isNegated := by
    rw [hnumber]
    cases f.isNegated <;> simp <;> omega
  refine ⟨g.negateIf f.isNegated, ?_, ?_⟩
  · rw [Array.getElem?_toList] at hg
    simp only [resolve, hread, hzero, if_false, habs, hg, hsign]
  · have hcopy := hcopy.negateIf hs ht hf.positive f.isNegated
    rwa [← f.eq_negateIf_positive] at hcopy

lemma readVar_toString {v : Nat} (hpos : 0 < v) (hlt : v < 2 ^ 32) :
    readVar (toString v).toList = .ok v := by
  have hread : Text.readNatBelow (Nat.pow 2 32) (Text.trim (toString v).toList) = some v := by
    rw [Text.trim_of_isNumeral fun c => Text.isNumeral_of_mem_nat]
    exact Text.readNatBelow_toString hlt
  simp only [readVar, hread]
  split
  · next h => cases h
  · next h =>
      cases h
      exact absurd hpos (lt_irrefl 0)
  · next h =>
      cases h
      rfl

/-- The fields of an entry. -/
lemma fields_display (e : Entry) : Text.fields ',' e.display.toList
    = [(toString e.var).toList, (toString e.low).toList, (toString e.high).toList] := by
  have hcomma : ∀ z : Int, ',' ∉ (toString z).toList := fun z =>
    Text.not_mem_of_isNumeral (by decide) fun c => Text.isNumeral_of_mem_int
  have hvar : ',' ∉ (toString e.var).toList :=
    Text.not_mem_of_isNumeral (by decide) fun c => Text.isNumeral_of_mem_nat
  have htext : e.display.toList = (toString e.var).toList ++ ',' :: ((toString e.low).toList ++
      ',' :: (toString e.high).toList) := by
    simp [Entry.display]
  rw [htext, Text.fields_append hvar, Text.fields_append (hcomma _), Text.fields_of_not_mem (hcomma _)]

lemma mem_display {e : Entry} {c : Char} (h : c ∈ e.display.toList) :
    Text.isNumeral c = true ∨ c = ',' := by
  have hsplit : c ∈ (toString e.var).toList ∨ c = ',' ∨ c ∈ (toString e.low).toList ∨ c = ',' ∨
      c ∈ (toString e.high).toList := by
    simpa [Entry.display] using h
  rcases hsplit with h | h | h | h | h
  · exact Or.inl (Text.isNumeral_of_mem_nat h)
  · exact Or.inr h
  · exact Or.inl (Text.isNumeral_of_mem_int h)
  · exact Or.inr h
  · exact Or.inl (Text.isNumeral_of_mem_int h)

/-- A character that is no part of an entry does not occur in one. -/
lemma not_mem_display {c : Char} (hc : Text.isNumeral c = false) (hcomma : c ≠ ',') (e : Entry) :
    c ∉ e.display.toList := fun h => by
  rcases mem_display h with h | h
  · simp [hc] at h
  · exact hcomma h

/-- The entries before the bar of a serial form. -/
def body (entries : List Entry) : List Char :=
  [';'].intercalate (entries.map (·.display.toList))

lemma entriesOf_body (entries : List Entry) : entriesOf (body entries) = entries.map (·.display.toList) := by
  cases entries with
  | nil => rfl
  | cons e entries =>
      have hfields : Text.fields ';' (body (e :: entries)) = (e :: entries).map (·.display.toList) := by
        refine Text.fields_intercalate (by simp) fun text htext => ?_
        obtain ⟨e', -, rfl⟩ := List.mem_map.1 htext
        exact not_mem_display (by decide) (by decide) e'
      rw [entriesOf, hfields, List.filter_eq_self]
      intro text htext
      obtain ⟨e', -, rfl⟩ := List.mem_map.1 htext
      simp [Entry.display]

/-- **An entry is read as the node that it describes**, with copies of the children. -/
lemma readEntry_display (hs : s.Shaped) (ht : t.Shaped) (hw : s.Writable) {i : Nat} (hi : 1 < i)
    {n : Node} (hn : s.table.value? i = some n) {low high : Int} (hlow : Refers indices n.low low)
    (hhigh : Refers indices n.high high) (hlength : indices.length < 2 ^ 63)
    (hknown : CopiesAll s t indices known) :
    ∃ g h, readEntry known (Entry.display ⟨n.var, low, high⟩).toList = .ok (n.var, g, h) ∧
      s.Copies t n.low g ∧ s.Copies t n.high h := by
  obtain ⟨g, hg, hcopy⟩ := resolve_refers hs ht (hs.valid_low hi hn) hlow hlength hknown
  obtain ⟨h, hh, hcopy'⟩ := resolve_refers hs ht (hs.valid_high hi hn) hhigh hlength hknown
  refine ⟨g, h, ?_, hcopy, hcopy'⟩
  simp only [readEntry, fields_display, readVar_toString (hs.fits i n hi hn).var_pos (hw.var_lt i n hn),
    hg, hh]
  rfl

end Serial

namespace DiagramM

open Serial

variable {s t : Store} {indices : List Nat} {entries : List Entry} {f : Handle}

/-- Reading one entry after some others. -/
lemma ofEntries_append {text : List Char} : ∀ {texts : List (List Char)} {known known' : Array Handle}
    {t t' : Store}, ofEntries known texts t = .ok (.ok known') t' →
      ofEntries known (texts ++ [text]) t = ofEntries known' [text] t'
  | [], _, _, _, _, h => by
      cases h
      rfl
  | first :: texts, known, known', t, t', h => by
      rw [List.cons_append]
      cases hentry : readEntry known first with
      | error flaw =>
          simp only [ofEntries, hentry] at h
          cases h
      | ok parts =>
          simp only [ofEntries, hentry] at h ⊢
          obtain ⟨lowBelow, t₁, hlow, h⟩ := bind_eq_ok h
          obtain ⟨highBelow, t₂, hhigh, h⟩ := bind_eq_ok h
          rw [bind_of_ok hlow, bind_of_ok hhigh]
          split at h
          · next hboth =>
              obtain ⟨g, t₃, hg, h⟩ := bind_eq_ok h
              rw [if_pos hboth, bind_of_ok hg]
              exact ofEntries_append h
          · cases h

/-- Reading an entry whose children may stand below its variable. -/
lemma ofEntries_singleton {text : List Char} {known : Array Handle} {v : Nat} {low high r : Handle}
    {t' : Store} (hentry : readEntry known text = .ok (v, low, high)) (hlow : t.Beneath v low)
    (hhigh : t.Beneath v high) (hr : mkNode v low high t = .ok r t') :
    ofEntries known [text] t = .ok (.ok (known.push r)) t' := by
  have hbelow : ∀ {g : Handle}, t.Beneath v g → DiagramM.read (·.isBelow v g) t = .ok true t :=
    fun hg => by simp only [DiagramM.read, isBelow_of_beneath hg]
  simp only [ofEntries, hentry]
  rw [bind_of_ok (hbelow hlow), bind_of_ok (hbelow hhigh), Bool.and_self, if_pos rfl, bind_of_ok hr]
  rfl

/-- **Reading entries copies the nodes that they describe.**  If the functions of all of them have handles,
no node is added. -/
lemma ofEntries_describes (hs : s.Shaped) (hw : s.Writable) (ht : t.Sound)
    (h : Describes s indices entries) :
    Yields (ofEntries #[.one] (entries.map (·.display.toList))) t fun result t' =>
      t.Grows t' ∧ (∃ known, result = .ok known ∧ CopiesAll s t' indices known) ∧
      (t.overflowed = false → (∀ i ∈ indices, t.Represents (s.meaning (.positive i))) →
        t.Quiet t') := by
  induction h with
  | terminal =>
      exact Yields.pure ⟨.refl ht, ⟨_, rfl, .cons (.one hs ht.toShaped) .nil⟩, fun _ _ => .refl t⟩
  | @node indices entries i n low high h hi hnew hn hlow hhigh ih =>
      obtain ⟨result, t₁, hread, hgrows, ⟨known, rfl, hknown⟩, hquiet⟩ := ih
      have ht₁ := hgrows.sound
      obtain ⟨g, g', hentry, hcopy, hcopy'⟩ :=
        readEntry_display hs ht₁.toShaped hw hi hn hlow hhigh (h.length_lt hs hw) hknown
      have hfits := hs.fits i n hi hn
      have hbeneath := hcopy.beneath _ hfits.low_beneath
      have hbeneath' := hcopy'.beneath _ hfits.high_beneath
      obtain ⟨r, t₂, hr, hbuilt, hlater⟩ :=
        mkNode_spec ht₁ hfits.var_pos hcopy.valid hcopy'.valid hbeneath hbeneath'
      refine ⟨.ok (known.push r), t₂, ?_, hgrows.trans hbuilt.grows, ⟨_, rfl, ?_⟩, fun ho hrep => ?_⟩
      · rw [List.map_append, List.map_singleton, ofEntries_append hread]
        exact ofEntries_singleton hentry hbeneath hbeneath' hr
      · rw [CopiesAll, Array.toList_push]
        exact List.rel_append (hknown.imp fun i g hc => hc.grows ht₁.toShaped hbuilt.grows)
          (.cons (.node hs hi hn hcopy hcopy' hbuilt hlater) .nil)
      · have hq := hquiet ho fun j hj => hrep j (by simp [hj])
        have ho₁ : t₁.overflowed = false := hq.overflowed.trans ho
        refine hq.trans (hbuilt.quiet ho₁ ?_)
        rw [Copies.branch_eq hs hi hn hcopy hcopy' ho₁]
        exact hgrows.represents ht.toShaped (hrep i (by simp))

end DiagramM

/-! ## The round trip

Writing describes, and reading a description copies.  So the two stores have to agree on nothing but the
text.
-/

namespace Store

open Serial

variable {s t : Store} {f : Handle} {text : String}

/-- **Writing a diagram** describes the nodes below its handle.  Where its function has a handle, so have
theirs. -/
lemma exists_describes (hs : s.Shaped) (hf : s.Valid f) (htext : s.serial f = .ok text) :
    ∃ indices entries number, Describes s indices entries ∧ Refers indices f number ∧
      (∀ t : Store, t.Shaped → t.Represents (s.meaning f) →
        ∀ i ∈ indices, t.Represents (s.meaning (.positive i))) ∧
      text.toList = body entries ++ '|' :: (toString number).toList := by
  obtain ⟨l, hl, htext⟩ := except_bind_eq_ok htext
  obtain ⟨number, hnumber, htext⟩ := except_bind_eq_ok htext
  cases htext
  have hnone : Listing.Writes {} s [1] := by
    refine ⟨.terminal, fun i number h => ?_, fun f hf => Or.inl (List.mem_singleton.1 hf)⟩
    simp at h
  obtain ⟨more, hwrites, hmore⟩ := listWithin_describes hs _ hf hnone hl
  refine ⟨_, _, number, hwrites.describes, hwrites.refers hnumber, fun t ht hrep i hi => ?_, ?_⟩
  · rcases List.mem_append.1 hi with hi | hi
    · rw [List.mem_singleton.1 hi]
      exact ⟨.one, ht.valid_one, fun x => (meaning_one ht).trans (meaning_one hs).symm⟩
    · exact (hmore i hi).2 t ht hrep
  · simp [body, String.toList_intercalate, Function.comp_def]

/-- A diagram can be written. -/
lemma exists_serial (hs : s.Shaped) (hf : s.Valid f) : ∃ text, s.serial f = .ok text := by
  obtain ⟨text, htext, -⟩ := serial_eq_of_agree hs hs hf hf fun _ => rfl
  exact ⟨text, htext⟩

end Store

namespace DiagramM

open Serial

variable {s t : Store} {f : Handle} {text : String}

/-- **Reading a diagram that was written** gives a copy of it.  If its function has a handle already, no node
is added. -/
theorem ofSerial_serial (hs : s.Shaped) (hw : s.Writable) (ht : t.Sound) (hf : s.Valid f)
    (htext : s.serial f = .ok text) :
    Yields (ofSerial text) t fun result t' =>
      t.Grows t' ∧ (∃ g, result = .ok g ∧ s.Copies t' f g) ∧
      (t.overflowed = false → t.Represents (s.meaning f) → t.Quiet t') := by
  obtain ⟨indices, entries, number, hdescribes, hrefers, hrep, hchars⟩ := exists_describes hs hf htext
  have hbar : '|' ∉ body entries := by
    refine Text.not_mem_intercalate (by decide) fun text htext => ?_
    obtain ⟨e, -, rfl⟩ := List.mem_map.1 htext
    exact not_mem_display (by decide) (by decide) e
  have hlength := hdescribes.length_lt hs hw
  obtain ⟨result, t', hread, hgrows, ⟨known, rfl, hknown⟩, hquiet⟩ := ofEntries_describes hs hw ht hdescribes
  obtain ⟨g, hresolve, hcopy⟩ := resolve_refers hs hgrows.sound.toShaped hf hrefers hlength hknown
  refine Yields.of_eq_ok (a := .ok g) ?_ ⟨hgrows, ⟨g, rfl, hcopy⟩, fun ho h =>
    hquiet ho (hrep t ht.toShaped h)⟩
  have hchars : ofSerialChars text.toList t = .ok (.ok g) t' := by
    rw [ofSerialChars, hchars, Text.splitFirst_append hbar]
    simp only [entriesOf_body]
    rw [bind_of_ok hread]
    simp only [hresolve]
    rfl
  rw [ofSerial, bind_of_ok hchars]
  rfl

end DiagramM

/-! ## Stores after calls

A variable is written as a number, and only a number of 32 bits is read again.  So the sequences of calls
that count here are those whose calls name such variables; then all numbers of the store can be read again,
whatever else was asked for, and whatever was refused.
-/

namespace Store

variable {bits bits' : Nat} {s s' : Store} {fs fs' : List Handle} {f : Handle}

/-- **The handles that a store has given out**, latest first, after a sequence of calls to a new store.
Variables have 32 bits. -/
def Served (bits : Nat) : Store → List Handle → Prop :=
  Calls Call.NamesWords (.empty bits) []

/-- Whatever a call answers, it leaves a store that can be written. -/
lemma Call.writable_after {c : Call} (hs : s.Sound) (hw : s.Writable) (hwords : c.NamesWords)
    (hargs : ∀ g ∈ c.arguments, s.Valid g) (hordered : c.IsOrdered s) : (after c.run s).Writable := by
  rcases Call.outcome hs hargs hordered with herror | ⟨made, s', hok, -⟩
  · simpa only [after, herror] using hw
  · simpa only [after, hok] using (Call.run_keepsWritable hwords s made s' hw hok).1

/-- **Calls keep a store writable.** -/
theorem Served.writable (h : Served bits s fs) (hbits : validBits bits = true) : s.Writable := by
  induction h with
  | refl => exact empty_writable hbits
  | @call s fs c h hwords hargs hordered ih =>
      obtain ⟨hs, hfs⟩ := Calls.sound h hbits
      exact Call.writable_after hs ih hwords (fun g hg => hfs g (hargs g hg)) hordered

/-- Handles of two stores that evaluate alike mean the same. -/
lemma meaning_eq_of_eval_eq {f' : Handle} (hs : s.Shaped) (hs' : s'.Shaped) (hw : s.Writable)
    (hw' : s'.Writable) (hf : s.Valid f) (hf' : s'.Valid f')
    (h : ∀ inputs, s.eval f inputs = s'.eval f' inputs) (x : Nat → Bool) :
    s.meaning f x = s'.meaning f' x := by
  have hinputs : ∀ {s : Store}, s.Shaped → s.Writable → ∀ i n, 1 < i → s.table.value? i = some n →
      inputValue (inputsUpTo (2 ^ 32) x) n.var = x n.var := fun hs hw i n hi hn =>
    inputValue_inputsUpTo (hs.fits i n hi hn).var_pos (hw.var_lt i n hn).le
  have heval := h (inputsUpTo (2 ^ 32) x)
  rw [eval_eq hs hf, eval_eq hs' hf', Except.ok.injEq] at heval
  rw [← meaning_eq_of_tested hs hf (hinputs hs hw), heval,
    meaning_eq_of_tested hs' hf' (hinputs hs' hw')]

/-- **Serial forms can be read back.**  Take two stores after any sequences of calls.  What was given out by
the first can be written, and the second one reads the text without complaint.  If there was room for it,
the handle read evaluates like the one written, and is written the same.  A handle given out by the second
has the same text exactly if it evaluates alike, and then it is the one that is read, for which there
always is room. -/
theorem serial_roundTrip (hbits : validBits bits = true) (hbits' : validBits bits' = true)
    (h : Served bits s fs) (h' : Served bits' s' fs') (hroom : s'.overflowed = false) (hf : f ∈ fs) :
    ∃ text g t, s.serial f = .ok text ∧ DiagramM.ofSerial text s' = .ok (.ok g) t ∧
      (t.overflowed = false → t.serial g = .ok text ∧
        ∀ inputs, ∃ b, s.eval f inputs = .ok b ∧ t.eval g inputs = .ok b) ∧
      ∀ e ∈ fs', (s'.serial e = .ok text ↔ ∀ inputs, s.eval f inputs = s'.eval e inputs) ∧
        ((∀ inputs, s.eval f inputs = s'.eval e inputs) → g = e ∧ t.overflowed = false) := by
  obtain ⟨hs, hfs⟩ := Calls.sound h hbits
  obtain ⟨hs', hfs'⟩ := Calls.sound h' hbits'
  have hw := h.writable hbits
  have hw' := h'.writable hbits'
  have hvalid := hfs f hf
  obtain ⟨text, htext⟩ := exists_serial hs.toShaped hvalid
  obtain ⟨_, t, hread, hgrows, ⟨g, rfl, hcopy⟩, hquiet⟩ :=
    DiagramM.ofSerial_serial hs.toShaped hw hs' hvalid htext
  have hsame : ∀ {u : Store} {e : Handle}, u.Shaped → u.Valid e →
      (∀ x, s.meaning f x = u.meaning e x) → u.serial e = .ok text := by
    intro u e hu he hagree
    obtain ⟨text', h₁, h₂⟩ := serial_eq_of_agree hs.toShaped hu hvalid he hagree
    rw [htext] at h₁
    rw [h₂, h₁]
  refine ⟨text, g, t, htext, hread, fun ho => ⟨?_, fun inputs => ?_⟩, fun e he => ?_⟩
  · exact hsame hgrows.sound.toShaped hcopy.valid fun x => (hcopy.meaning ho x).symm
  · refine ⟨_, eval_eq hs.toShaped hvalid inputs, ?_⟩
    rw [eval_eq hgrows.sound.toShaped hcopy.valid, hcopy.meaning ho]
  · have hevalid := hfs' e he
    have halike : (∀ inputs, s.eval f inputs = s'.eval e inputs) →
        ∀ x, s.meaning f x = s'.meaning e x :=
      meaning_eq_of_eval_eq hs.toShaped hs'.toShaped hw hw' hvalid hevalid
    refine ⟨⟨fun htext' inputs => ?_, fun heval => hsame hs'.toShaped hevalid (halike heval)⟩,
      fun heval => ?_⟩
    · -- the text is read only once, as that of `f` and as that of `e`
      obtain ⟨-, ⟨_, heq, hcopy'⟩, hquiet'⟩ :=
        (DiagramM.ofSerial_serial hs'.toShaped hw' hs' hevalid htext').post_of_ok hread
      cases heq
      have ho : t.overflowed = false :=
        (hquiet' hroom ⟨e, hevalid, fun _ => rfl⟩).overflowed.trans hroom
      rw [eval_eq hs.toShaped hvalid, eval_eq hs'.toShaped hevalid, ← hcopy.meaning ho,
        hcopy'.meaning ho]
    · have hmean := halike heval
      have ho : t.overflowed = false :=
        (hquiet hroom ⟨e, hevalid, fun x => (hmean x).symm⟩).overflowed.trans hroom
      refine ⟨canonical hgrows.sound.toShaped hcopy.valid (hgrows.keeps.valid hevalid) fun x => ?_, ho⟩
      rw [hcopy.meaning ho, hmean, hgrows.meaning_eq hs'.toShaped hevalid]

/-- A conjunction is read into a store that has refused a text and has built the conjunction in another way. -/
theorem serial_roundTrip_and : ∃ s fs s' fs', Served 3 s fs ∧ Served 4 s' fs' ∧
    s'.overflowed = false ∧ fs = [.positive 4, .positive 3, .positive 2] ∧
    fs' = [.positive 4, .negative 4, .negative 3, .negative 2, .positive 3, .positive 2] ∧
    ∃ text g t, s.serial (.positive 4) = .ok text ∧ DiagramM.ofSerial text s' = .ok (.ok g) t ∧
      (t.overflowed = false → t.serial g = .ok text ∧
        ∀ inputs, ∃ b, s.eval (.positive 4) inputs = .ok b ∧ t.eval g inputs = .ok b) ∧
      ∀ e ∈ fs', (s'.serial e = .ok text ↔
          ∀ inputs, s.eval (.positive 4) inputs = s'.eval e inputs) ∧
        ((∀ inputs, s.eval (.positive 4) inputs = s'.eval e inputs) →
          g = e ∧ t.overflowed = false) := by
  have h₁ : Served 3 _ [.positive 2] :=
    .call (.var 1) .refl (show 1 < 2 ^ 32 by decide) (by decide) trivial
  have h₂ : Served 3 _ [.positive 3, .positive 2] :=
    .call (.var 2) h₁ (show 2 < 2 ^ 32 by decide) (by decide) trivial
  have h₃ : Served 3 _ [.positive 4, .positive 3, .positive 2] :=
    .call (.and (.positive 2) (.positive 3)) h₂ trivial (by decide) trivial
  have k₁ : Served 4 _ [.positive 2] :=
    .call (.var 2) .refl (show 2 < 2 ^ 32 by decide) (by decide) trivial
  have k₂ : Served 4 _ [.positive 3, .positive 2] :=
    .call (.var 1) k₁ (show 1 < 2 ^ 32 by decide) (by decide) trivial
  have k₃ : Served 4 _ [.negative 2, .positive 3, .positive 2] :=
    .call (.not (.positive 2)) k₂ trivial (by decide) trivial
  have k₄ : Served 4 _ [.negative 3, .negative 2, .positive 3, .positive 2] :=
    .call (.not (.positive 3)) k₃ trivial (by decide) trivial
  have k₅ : Served 4 _ [.negative 4, .negative 3, .negative 2, .positive 3, .positive 2] :=
    .call (.or (.negative 2) (.negative 3)) k₄ trivial (by decide) trivial
  have k₆ : Served 4 _ [.positive 4, .negative 4, .negative 3, .negative 2, .positive 3, .positive 2] :=
    .call (.not (.negative 4)) k₅ trivial (by decide) trivial
  have k₇ : Served 4 _ [.positive 4, .negative 4, .negative 3, .negative 2, .positive 3, .positive 2] :=
    .call (.read "1,-1,1|") k₆ trivial (by decide) trivial
  exact ⟨_, _, _, _, h₃, k₇, rfl, rfl, rfl, serial_roundTrip rfl rfl h₃ k₇ rfl (by simp)⟩

end Store

end ModalCalls
