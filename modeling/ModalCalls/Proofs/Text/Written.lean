import Mathlib
import ModalCalls.Diagram.Serial

/-!
# Reading what was written

Numbers are written in decimal and put together with separators.  All of it can be read back.

* `Text.readNatBelow_toString`, `Text.readIntBelow_toString` — a number that is below the limit is read as
  itself.
* `Text.fields_intercalate`, `Text.splitFirst_append` — parts without the separator are found again, and
  these are the only parts that are found (`Text.fields_eq_iff`, `Text.splitFirst_eq_some_iff`).
* `Text.trim_of_isNumeral` — a written number has no blanks to lose.  `Text.isNumeral` tells its characters
  from all separators.
-/

namespace ModalCalls.Text

variable {cs a b : List Char} {sep : Char} {limit n : Nat} {z : Int}

/-! ## The characters of a number

Digits and a minus sign are all that occurs in a number, and no separator and no blank is among them.  That
is why numbers can be joined with separators and found again, and why trimming does nothing to them.
-/

/-- A character that occurs in a written number. -/
def isNumeral (c : Char) : Bool :=
  c.isDigit || c == '-'

lemma isNumeral_of_mem_nat {c : Char} (h : c ∈ (toString n).toList) : isNumeral c = true := by
  rw [Nat.toString_eq_repr, Nat.toList_repr] at h
  rw [isNumeral, Nat.isDigit_of_mem_toDigits (by decide) (by decide) h, Bool.true_or]

lemma isNumeral_of_mem_int {c : Char} (h : c ∈ (toString z).toList) : isNumeral c = true := by
  cases z with
  | ofNat n => exact isNumeral_of_mem_nat h
  | negSucc n =>
      have hsplit : c = '-' ∨ c ∈ (toString (n + 1)).toList := by
        simpa [Int.repr] using h
      rcases hsplit with rfl | h
      · rfl
      · exact isNumeral_of_mem_nat h

/-- None of them is blank. -/
lemma isBlank_of_isNumeral {c : Char} (h : isNumeral c = true) : isBlank c = false := by
  have hrange : c.toNat = 45 ∨ 48 ≤ c.toNat ∧ c.toNat ≤ 57 := by
    rw [isNumeral, Bool.or_eq_true, beq_iff_eq, Char.isDigit_iff_toNat] at h
    rcases h with h | rfl
    · exact Or.inr h
    · exact Or.inl rfl
  simp only [isBlank, blankRanges, List.any_cons, List.any_nil, Bool.or_false, Bool.or_eq_false_iff,
    Bool.and_eq_false_iff, decide_eq_false_iff_not]
  omega

/-- A text without blanks is left as it is. -/
lemma trim_of_isNumeral (h : ∀ c ∈ cs, isNumeral c = true) : trim cs = cs := by
  have hdrop : ∀ l : List Char, (∀ c ∈ l, isNumeral c = true) → l.dropWhile isBlank = l := by
    intro l hl
    cases l with
    | nil => rfl
    | cons c l => exact List.dropWhile_cons_of_neg (by simp [isBlank_of_isNumeral (hl c (by simp))])
  rw [trim, hdrop cs h, hdrop cs.reverse fun c hc => h c (List.mem_reverse.1 hc), List.reverse_reverse]

/-- A separator that is no part of a number is not among its characters. -/
lemma not_mem_of_isNumeral (hsep : isNumeral sep = false) (h : ∀ c ∈ cs, isNumeral c = true) :
    sep ∉ cs := fun hmem => by
  simp [h sep hmem] at hsep

/-! ## Numbers

Reading digits is compared with the library function that writes them.  The limit is looked at after the
number was read, and a sign is read by itself.
-/

lemma digitsValue_eq (h : ∀ c ∈ cs, c.isDigit = true) :
    ∀ acc, digitsValue acc cs = some (Nat.ofDigitChars 10 cs acc) := by
  induction cs with
  | nil => exact fun acc => by rw [digitsValue, Nat.ofDigitChars_nil]
  | cons c cs ih =>
      intro acc
      rw [digitsValue, if_pos (h c (by simp)), ih fun d hd => h d (by simp [hd]), Nat.ofDigitChars_cons]
      rfl

lemma readDigits_toDigits (n : Nat) : readDigits (Nat.toDigits 10 n) = some n := by
  have hdigits : ∀ c ∈ Nat.toDigits 10 n, c.isDigit = true := fun c =>
    Nat.isDigit_of_mem_toDigits (by decide) (by decide)
  have hvalue := digitsValue_eq hdigits 0
  rw [Nat.ofDigitChars_ten_toDigits] at hvalue
  cases hcs : Nat.toDigits 10 n with
  | nil => exact absurd hcs Nat.toDigits_ne_nil
  | cons c cs => rwa [hcs] at hvalue

/-- A number begins with a digit, so no sign is taken for one. -/
lemma exists_digit (n : Nat) : ∃ c cs, Nat.toDigits 10 n = c :: cs ∧ c ≠ '+' ∧ c ≠ '-' := by
  cases hcs : Nat.toDigits 10 n with
  | nil => exact absurd hcs Nat.toDigits_ne_nil
  | cons c cs =>
      have hdigit : c.isDigit = true :=
        Nat.isDigit_of_mem_toDigits (b := 10) (n := n) (by decide) (by decide) (by simp [hcs])
      refine ⟨c, cs, rfl, ?_, ?_⟩ <;> rintro rfl <;> exact absurd hdigit (by decide)

/-- **A number is read as itself.** -/
lemma readNatBelow_toString (h : n < limit) : readNatBelow limit (toString n).toList = some n := by
  obtain ⟨c, cs, hcs, hplus, -⟩ := exists_digit n
  have hread := readDigits_toDigits n
  rw [Nat.toString_eq_repr, Nat.toList_repr]
  rw [hcs] at hread ⊢
  simp only [readNatBelow]
  split
  · next _ rest heq => exact absurd (List.cons.inj heq).1 hplus
  · rw [hread, Option.filter_some, if_pos (by simpa using h)]

/-- **An integer is read as itself.** -/
lemma readIntBelow_toString (h : z.natAbs < limit) :
    readIntBelow limit (toString z).toList = some z := by
  cases z with
  | ofNat n =>
      obtain ⟨c, cs, hcs, -, hminus⟩ := exists_digit n
      have hread := readNatBelow_toString (n := n) h
      show readIntBelow limit (toString n).toList = _
      rw [Nat.toString_eq_repr, Nat.toList_repr, hcs] at hread ⊢
      rw [readIntBelow, hread]
      · rfl
      · rintro rest heq
        exact hminus (List.cons.inj heq).1
  | negSucc n =>
      have htext : (toString (Int.negSucc n)).toList = '-' :: Nat.toDigits 10 (n + 1) := by
        simp [Int.repr]
      rw [htext, readIntBelow, readDigits_toDigits, Option.filter_some, if_pos]
      · rfl
      · simpa using h.le

/-! ## Separators

There are two ways of taking a text apart, at every separator or at the first one.  Both are described by
what they give back when the parts are put together, and this determines them.
-/

lemma fields_of_not_mem (h : sep ∉ a) : fields sep a = [a] := by
  induction a with
  | nil => rfl
  | cons c a ih =>
      rw [List.mem_cons, not_or] at h
      rw [fields, if_neg (Ne.symm h.1), ih h.2]

lemma fields_append (h : sep ∉ a) : fields sep (a ++ sep :: b) = a :: fields sep b := by
  induction a with
  | nil => rw [List.nil_append, fields, if_pos rfl]
  | cons c a ih =>
      rw [List.mem_cons, not_or] at h
      rw [List.cons_append, fields, if_neg (Ne.symm h.1), ih h.2]

/-- **The fields of texts that were joined** are these texts. -/
lemma fields_intercalate {texts : List (List Char)} (hne : texts ≠ [])
    (h : ∀ text ∈ texts, sep ∉ text) : fields sep ([sep].intercalate texts) = texts := by
  induction texts with
  | nil => exact absurd rfl hne
  | cons text texts ih =>
      have htext := h text (by simp)
      cases texts with
      | nil => rw [List.intercalate_singleton, fields_of_not_mem htext]
      | cons next rest =>
          rw [List.intercalate_cons_cons, List.append_assoc, List.singleton_append, fields_append htext,
            ih (by simp) fun t ht => h t (by simp [ht])]

/-- Joined texts have no characters but their own and the separator. -/
lemma not_mem_intercalate {c : Char} {texts : List (List Char)} (hsep : c ≠ sep)
    (h : ∀ text ∈ texts, c ∉ text) : c ∉ [sep].intercalate texts := by
  induction texts with
  | nil => simp
  | cons text texts ih =>
      have htext := h text (by simp)
      have hrest := ih fun t ht => h t (by simp [ht])
      cases texts with
      | nil => rwa [List.intercalate_singleton]
      | cons next rest =>
          rw [List.intercalate_cons_cons]
          simp [htext, hsep, hrest]

lemma splitFirst_append (h : sep ∉ a) : splitFirst sep (a ++ sep :: b) = some (a, b) := by
  induction a with
  | nil => rw [List.nil_append, splitFirst, if_pos rfl]
  | cons c a ih =>
      rw [List.mem_cons, not_or] at h
      rw [List.cons_append, splitFirst, if_neg (Ne.symm h.1), ih h.2]
      rfl

lemma fields_ne_nil (sep : Char) (cs : List Char) : fields sep cs ≠ [] := by
  cases cs with
  | nil => simp [fields]
  | cons c cs =>
      rw [fields]
      split
      · simp
      · split <;> simp

/-- Joining the fields of a text gives the text back. -/
lemma intercalate_fields (sep : Char) (cs : List Char) : [sep].intercalate (fields sep cs) = cs := by
  induction cs with
  | nil => rfl
  | cons c cs ih =>
      rw [fields]
      split
      · next hc =>
          obtain ⟨first, rest, hfields⟩ := List.exists_cons_of_ne_nil (fields_ne_nil sep cs)
          rw [hfields] at ih ⊢
          rw [List.intercalate_cons_cons, ih, hc]
          rfl
      · split
        · next first rest hfields =>
            rw [hfields] at ih
            cases rest with
            | nil => simpa using ih
            | cons next rest =>
                rw [List.intercalate_cons_cons] at ih ⊢
                rw [← ih]
                rfl
        · next hfields => exact absurd hfields (fields_ne_nil sep cs)

lemma not_mem_of_mem_fields : ∀ {cs text : List Char}, text ∈ fields sep cs → sep ∉ text
  | [], text, h => by
      rw [List.mem_singleton.1 h]
      simp
  | c :: cs, text, h => by
      rw [fields] at h
      split at h
      · rcases List.mem_cons.1 h with rfl | h
        · simp
        · exact not_mem_of_mem_fields h
      · next hc =>
          split at h
          · next first rest hfields =>
              rcases List.mem_cons.1 h with rfl | h
              · have hfirst : sep ∉ first := not_mem_of_mem_fields (hfields ▸ List.mem_cons_self)
                simp [hfirst, Ne.symm hc]
              · exact not_mem_of_mem_fields (hfields ▸ List.mem_cons_of_mem first h)
          · next hfields => exact absurd hfields (fields_ne_nil sep cs)

/-- **The fields of a text** are the texts without the separator that it is joined from. -/
lemma fields_eq_iff {texts : List (List Char)} : fields sep cs = texts ↔
    texts ≠ [] ∧ cs = [sep].intercalate texts ∧ ∀ text ∈ texts, sep ∉ text := by
  constructor
  · rintro rfl
    exact ⟨fields_ne_nil sep cs, (intercalate_fields sep cs).symm, fun _ => not_mem_of_mem_fields⟩
  · rintro ⟨hne, rfl, hsep⟩
    exact fields_intercalate hne hsep

lemma splitFirst_eq_some_iff : splitFirst sep cs = some (a, b) ↔ cs = a ++ sep :: b ∧ sep ∉ a := by
  constructor
  · intro h
    induction cs generalizing a with
    | nil => cases h
    | cons c cs ih =>
        rw [splitFirst] at h
        split at h
        · next hc =>
            cases h
            simp [hc]
        · next hc =>
            obtain ⟨⟨before, after⟩, hsplit, heq⟩ := Option.map_eq_some_iff.1 h
            cases heq
            obtain ⟨rfl, hbefore⟩ := ih hsplit
            simp [hbefore, Ne.symm hc]
  · rintro ⟨rfl, hsep⟩
    exact splitFirst_append hsep

end ModalCalls.Text
