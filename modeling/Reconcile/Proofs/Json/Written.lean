import Mathlib.Data.List.Forall2
import Reconcile.Json.Reader
import Reconcile.Json.Writer

/-! # Written JSON is read back

What is written is read as the value that it stands for, whatever comes after it, with any fuel beyond
its own length. This is shown for numbers, and of arrays and objects if it holds of their members. -/

namespace Reconcile.Json

/-- What can come after a written value: nothing, a comma, or a bracket or brace that closes. -/
def Ends : List Char → Prop
  | [] => True
  | c :: _ => c = ',' ∨ c = ']' ∨ c = '\x7d'

/-- The text stands for a value, wherever it is followed by something that ends it. It does not start as
what may stand in front of a value, or in place of the first. -/
structure ReadsAs (text : List Char) (v : Json) : Prop where
  starts : ∃ c more, text = c :: more ∧ isBlank c = false ∧ c ≠ ']'
  read : ∀ {fuel : Nat} {rest : List Char}, text.length < fuel → Ends rest →
    value fuel (text ++ rest) = some (v, rest)

theorem skipBlanks_cons {c : Char} (h : isBlank c = false) (rest : List Char) :
    skipBlanks (c :: rest) = c :: rest := by
  rw [skipBlanks, List.dropWhile_cons, h]
  rfl

/-! ## Numbers -/

theorem isDigit_of_mem_naturalText {n : Nat} {c : Char} (h : c ∈ naturalText n) :
    c.isDigit = true :=
  Nat.isDigit_of_mem_toDigits (by decide) (by decide) h

theorem decimal_naturalText (n : Nat) : decimal (naturalText n) = n := by
  have h := Nat.ofDigitChars_ten_toDigits (n := n)
  rwa [Nat.ofDigitChars_eq_foldl] at h

theorem head?_naturalText {n : Nat} (hn : 0 < n) : (naturalText n).head? ≠ some '0' := by
  induction n using Nat.strongRecOn with
  | ind n ih =>
    rw [naturalText, Nat.toDigits_eq_if (by decide)]
    split
    · rename_i hlt
      have hall : ∀ i : Fin 10, 0 < i.val → i.val.digitChar ≠ '0' := by decide
      simpa using hall ⟨n, hlt⟩ hn
    · rename_i hge
      rw [List.head?_append_of_ne_nil _ Nat.toDigits_ne_nil]
      exact ih (n / 10) (by omega) (by omega)

/-- No number starts with a needless zero. -/
theorem not_padded_naturalText (n : Nat) :
    ¬ ((naturalText n).head? = some '0' ∧ 1 < (naturalText n).length) := by
  rintro ⟨hhead, hlength⟩
  have hsmall : ¬ (naturalText n).length ≤ 1 := by omega
  rw [naturalText, Nat.length_toDigits_le_iff (by decide) (by decide)] at hsmall
  exact head?_naturalText (by omega) hhead

theorem Ends.digits {rest : List Char} (h : Ends rest) :
    rest.takeWhile Char.isDigit = [] ∧ rest.dropWhile Char.isDigit = rest := by
  cases rest with
  | nil => exact ⟨rfl, rfl⟩
  | cons c rest => rcases h with rfl | rfl | rfl <;> exact ⟨rfl, rfl⟩

theorem Ends.numberTail {rest : List Char} (h : Ends rest) :
    numberTail rest = some (false, rest) := by
  cases rest with
  | nil => rfl
  | cons c rest => rcases h with rfl | rfl | rfl <;> rfl

theorem digits_naturalText (n : Nat) {rest : List Char} (h : Ends rest) :
    digits (naturalText n ++ rest) = some (naturalText n, rest) := by
  have hall : ∀ c ∈ naturalText n, c.isDigit = true := fun c => isDigit_of_mem_naturalText
  rw [digits, List.takeWhile_append_of_pos hall, List.dropWhile_append_of_pos hall, h.digits.1,
    h.digits.2, List.append_nil]
  split
  · rename_i hnil
    exact absurd hnil Nat.toDigits_ne_nil
  · rfl

theorem exists_digit_naturalText (n : Nat) :
    ∃ c more, naturalText n = c :: more ∧ c.isDigit = true := by
  cases h : naturalText n with
  | nil => exact absurd h Nat.toDigits_ne_nil
  | cons c more => exact ⟨c, more, rfl, isDigit_of_mem_naturalText (h ▸ List.mem_cons_self)⟩

theorem ne_of_isDigit {c d : Char} (hc : c.isDigit = true) (hd : d.isDigit = false) : c ≠ d := by
  rintro rfl
  rw [hc] at hd
  cases hd

theorem numberValue_naturalText (n : Nat) {rest : List Char} (h : Ends rest) :
    numberValue (naturalText n ++ rest) = some (.natural n, rest) := by
  have hdigits := digits_naturalText n h
  have hpadded := not_padded_naturalText n
  have hdecimal := decimal_naturalText n
  obtain ⟨c, more, htext, hc⟩ := exists_digit_naturalText n
  rw [htext] at hdigits hpadded hdecimal ⊢
  rw [List.cons_append] at hdigits ⊢
  have hsign : ∀ rest', c :: (more ++ rest) ≠ '-' :: rest' :=
    fun _ heq => ne_of_isDigit hc (by decide) (List.cons.inj heq).1
  simp only [numberValue, hdigits, if_neg hpadded, h.numberTail, hdecimal, Bool.or_self]
  rfl

theorem isBlank_of_isDigit {c : Char} (hc : c.isDigit = true) : isBlank c = false := by
  have hne : ∀ {d : Char}, d.isDigit = false → c ≠ d := ne_of_isDigit hc
  simp [isBlank, hne]

theorem value_digit {c : Char} (hc : c.isDigit = true) (fuel : Nat) (rest : List Char) :
    value (fuel + 1) (c :: rest) = numberValue (c :: rest) := by
  have hne : ∀ {d : Char}, d.isDigit = false → c ≠ d := ne_of_isDigit hc
  have hquote : c ≠ '"' := hne (by decide)
  have hbracket : c ≠ '[' := hne (by decide)
  have hbrace : c ≠ '\x7b' := hne (by decide)
  have hnull : c ≠ 'n' := hne (by decide)
  have htrue : c ≠ 't' := hne (by decide)
  have hfalse : c ≠ 'f' := hne (by decide)
  simp only [value, skipBlanks_cons (isBlank_of_isDigit hc), if_neg hnull, if_neg htrue,
    if_neg hfalse]

theorem readsAs_natural (n : Nat) : ReadsAs (naturalText n) (.natural n) := by
  obtain ⟨c, more, htext, hc⟩ := exists_digit_naturalText n
  refine ⟨⟨c, more, htext, isBlank_of_isDigit hc, ne_of_isDigit hc (by decide)⟩, ?_⟩
  intro fuel rest hfuel hrest
  cases fuel with
  | zero => omega
  | succ fuel =>
      have hvalue := numberValue_naturalText n hrest
      rw [htext, List.cons_append] at hvalue ⊢
      rw [value_digit hc, hvalue]

/-! ## Arrays -/

theorem length_le_commas {text : List Char} {texts : List (List Char)} (h : text ∈ texts) :
    text.length ≤ (commas texts).length := by
  fun_induction commas texts with
  | case1 => simp at h
  | case2 t => exact Nat.le_of_eq (congrArg List.length (List.mem_singleton.mp h))
  | case3 t ts hts ih =>
      rcases List.mem_cons.mp h with rfl | h
      · simp
      · have := ih h
        simp only [List.length_append, List.length_cons]
        omega

theorem count_le_commas (texts : List (List Char)) : texts.length ≤ (commas texts).length + 1 := by
  fun_induction commas texts with
  | case1 => simp
  | case2 t => simp
  | case3 t ts hts ih =>
      simp only [List.length_append, List.length_cons] at ih ⊢
      omega

/-- Fuel for the whole row is enough for each member, and for their number. -/
theorem fuel_of_commas {fuel : Nat} {text : List Char} {texts : List (List Char)}
    (h : (commas (text :: texts)).length < fuel) :
    (∀ t ∈ text :: texts, t.length < fuel) ∧ texts.length < fuel := by
  have hcount : texts.length + 1 ≤ (commas (text :: texts)).length + 1 :=
    count_le_commas (text :: texts)
  exact ⟨fun t ht => Nat.lt_of_le_of_lt (length_le_commas ht) h, by omega⟩

section Member

variable {fuel count : Nat} {text : List Char} {v : Json}

theorem items_last (h : ReadsAs text v) (hfuel : text.length < fuel) (rest : List Char) :
    items (value fuel) (count + 1) (text ++ ']' :: rest) = some ([v], rest) := by
  have hread : value fuel (text ++ ']' :: rest) = some (v, ']' :: rest) :=
    h.read hfuel (.inr (.inl rfl))
  simp only [items, hread]
  rfl

theorem items_more (h : ReadsAs text v) (hfuel : text.length < fuel) (rest : List Char) :
    items (value fuel) (count + 1) (text ++ ',' :: rest) =
      (items (value fuel) count rest).map (fun (vs, rest) => (v :: vs, rest)) := by
  have hread : value fuel (text ++ ',' :: rest) = some (v, ',' :: rest) := h.read hfuel (.inl rfl)
  simp only [items, hread]
  rfl

end Member

theorem items_commas {fuel count : Nat} {text : List Char} {texts : List (List Char)} {v : Json}
    {vs : List Json} (h : ReadsAs text v) (hall : List.Forall₂ ReadsAs texts vs)
    (hfuel : ∀ t ∈ text :: texts, t.length < fuel) (hcount : texts.length < count)
    (rest : List Char) :
    items (value fuel) count (commas (text :: texts) ++ ']' :: rest) = some (v :: vs, rest) := by
  induction hall generalizing count text v with
  | nil =>
      obtain ⟨count, rfl⟩ := Nat.exists_eq_succ_of_ne_zero (Nat.ne_of_gt hcount)
      exact items_last h (hfuel text (by simp)) rest
  | @cons text' v' texts vs h' hall ih =>
      obtain ⟨count, rfl⟩ := Nat.exists_eq_succ_of_ne_zero (Nat.ne_of_gt (Nat.zero_lt_of_lt hcount))
      have htext : commas (text :: text' :: texts) ++ ']' :: rest =
          text ++ ',' :: (commas (text' :: texts) ++ ']' :: rest) := by simp [commas]
      have hrest := ih h' (fun t ht => hfuel t (List.mem_cons_of_mem _ ht))
        (Nat.lt_of_succ_lt_succ hcount)
      rw [htext, items_more h (hfuel text (by simp)), hrest, Option.map_some]

/-- What comes first in an array is neither a blank nor the end of the array. -/
theorem exists_commas_cons {text : List Char} {v : Json} (h : ReadsAs text v)
    (texts : List (List Char)) :
    ∃ c more, commas (text :: texts) = c :: more ∧ isBlank c = false ∧ c ≠ ']' := by
  obtain ⟨c, more, rfl, hblank, hne⟩ := h.starts
  cases texts with
  | nil => exact ⟨c, more, rfl, hblank, hne⟩
  | cons text texts => exact ⟨c, _, rfl, hblank, hne⟩

theorem readsAs_array {texts : List (List Char)} {vs : List Json}
    (h : List.Forall₂ ReadsAs texts vs) : ReadsAs (arrayText texts) (.array vs) := by
  refine ⟨⟨'[', _, rfl, rfl, by decide⟩, fun {fuel rest} hfuel _ => ?_⟩
  cases fuel with
  | zero => omega
  | succ fuel =>
      have htext : arrayText texts ++ rest = '[' :: (commas texts ++ ']' :: rest) := by
        simp [arrayText]
      have hopen : skipBlanks ('[' :: (commas texts ++ ']' :: rest)) =
          '[' :: (commas texts ++ ']' :: rest) := skipBlanks_cons rfl _
      cases h with
      | nil => rfl
      | @cons text v texts vs h hall =>
          have hlength : (commas (text :: texts)).length < fuel := by
            simp only [arrayText, List.length_append, List.length_cons] at hfuel
            omega
          obtain ⟨hmember, hcount⟩ := fuel_of_commas hlength
          have hitems := items_commas h hall hmember hcount rest
          obtain ⟨c, more, hcommas, hblank, hne⟩ := exists_commas_cons h texts
          rw [hcommas, List.cons_append] at htext hopen hitems
          have hclose : ∀ more', c :: (more ++ ']' :: rest) ≠ ']' :: more' :=
            fun _ heq => hne (List.cons.inj heq).1
          simp only [htext, value, hopen, skipBlanks_cons hblank, hitems, Option.map_some]

/-! ## Objects -/

/-- The content of the string that a key is written as. -/
def keyOf (key : String) : JsonString := ⟨key.toList.map Char.toNat, false⟩

/-- The object with fields of these keys. -/
def record (fields : List (String × Json)) : Json :=
  .object (fields.map (fun f => (keyOf f.1, f.2)))

/-- Whether a character needs no escape. -/
def isPlain (c : Char) : Bool := c ≠ '"' ∧ c ≠ '\\' ∧ 32 ≤ c.toNat

/-- A key that needs no escapes. -/
def Plain (key : String) : Prop := key.toList.all isPlain = true

instance (key : String) : Decidable (Plain key) :=
  inferInstanceAs (Decidable (key.toList.all isPlain = true))

theorem stringTail_cons {c : Char} (hquote : c ≠ '"') (hescape : c ≠ '\\') (rest : List Char) :
    stringTail (c :: rest) = (stringTail rest).map (fun (s, rest) =>
      (⟨c.toNat :: s.codes, s.hasControl || c.toNat < 32⟩, rest)) := by
  rw [stringTail]
  · rw [if_neg hescape]
    cases stringTail rest <;> rfl
  · exact hquote
  · exact fun _ _ _ _ _ heq => absurd heq hescape
  · exact fun _ _ heq => absurd heq hescape

theorem stringTail_plain {key : List Char} (h : key.all isPlain = true) (rest : List Char) :
    stringTail (key ++ '"' :: rest) = some (⟨key.map Char.toNat, false⟩, rest) := by
  induction key with
  | nil => rw [List.nil_append, stringTail, List.map_nil]
  | cons c key ih =>
      rw [List.all_cons, Bool.and_eq_true, isPlain, decide_eq_true_eq] at h
      obtain ⟨⟨hquote, hescape, hcontrol⟩, hkey⟩ := h
      rw [List.cons_append, stringTail_cons hquote hescape, ih hkey]
      simp [Nat.not_lt.mpr hcontrol]

/-- The text stands for a field. -/
inductive FieldReadsAs : List Char → String × Json → Prop
  | mk {key : String} {text : List Char} {v : Json} (hkey : Plain key) (h : ReadsAs text v) :
      FieldReadsAs (fieldText key text) (key, v)

theorem fieldText_append (key : String) (text rest : List Char) :
    fieldText key text ++ rest = '"' :: (key.toList ++ '"' :: ':' :: (text ++ rest)) := by
  simp [fieldText]

theorem length_fieldText (key : String) (text : List Char) :
    text.length < (fieldText key text).length := by
  simp only [fieldText, List.length_append, List.length_cons]
  omega

section Field

variable {fuel count : Nat} {text : List Char} {f : String × Json}

theorem objectFields_last (h : FieldReadsAs text f) (hfuel : text.length < fuel)
    (rest : List Char) :
    objectFields (value fuel) (count + 1) (text ++ '\x7d' :: rest) =
      some ([(keyOf f.1, f.2)], rest) := by
  obtain @⟨key, text, v, hkey, h⟩ := h
  have hread : value fuel (text ++ '\x7d' :: rest) = some (v, '\x7d' :: rest) :=
    h.read (Nat.lt_trans (length_fieldText key text) hfuel) (.inr (.inr rfl))
  have hquote : ∀ more, skipBlanks ('"' :: more) = '"' :: more := skipBlanks_cons rfl
  have hcolon : ∀ more, skipBlanks (':' :: more) = ':' :: more := skipBlanks_cons rfl
  simp only [fieldText_append, objectFields, hquote, stringTail_plain hkey, hcolon, hread]
  rfl

theorem objectFields_more (h : FieldReadsAs text f) (hfuel : text.length < fuel)
    (rest : List Char) :
    objectFields (value fuel) (count + 1) (text ++ ',' :: rest) =
      (objectFields (value fuel) count rest).map (fun (fs, rest) =>
        ((keyOf f.1, f.2) :: fs, rest)) := by
  obtain @⟨key, text, v, hkey, h⟩ := h
  have hread : value fuel (text ++ ',' :: rest) = some (v, ',' :: rest) :=
    h.read (Nat.lt_trans (length_fieldText key text) hfuel) (.inl rfl)
  have hquote : ∀ more, skipBlanks ('"' :: more) = '"' :: more := skipBlanks_cons rfl
  have hcolon : ∀ more, skipBlanks (':' :: more) = ':' :: more := skipBlanks_cons rfl
  have hcomma : skipBlanks (',' :: rest) = ',' :: rest := skipBlanks_cons rfl _
  simp only [fieldText_append, objectFields, hquote, stringTail_plain hkey, hcolon, hread, hcomma]
  rfl

end Field

theorem objectFields_commas {fuel count : Nat} {text : List Char} {texts : List (List Char)}
    {f : String × Json} {fs : List (String × Json)} (h : FieldReadsAs text f)
    (hall : List.Forall₂ FieldReadsAs texts fs) (hfuel : ∀ t ∈ text :: texts, t.length < fuel)
    (hcount : texts.length < count) (rest : List Char) :
    objectFields (value fuel) count (commas (text :: texts) ++ '\x7d' :: rest) =
      some ((f :: fs).map (fun f => (keyOf f.1, f.2)), rest) := by
  induction hall generalizing count text f with
  | nil =>
      obtain ⟨count, rfl⟩ := Nat.exists_eq_succ_of_ne_zero (Nat.ne_of_gt hcount)
      exact objectFields_last h (hfuel text (by simp)) rest
  | @cons text' f' texts fs h' hall ih =>
      obtain ⟨count, rfl⟩ := Nat.exists_eq_succ_of_ne_zero (Nat.ne_of_gt (Nat.zero_lt_of_lt hcount))
      have htext : commas (text :: text' :: texts) ++ '\x7d' :: rest =
          text ++ ',' :: (commas (text' :: texts) ++ '\x7d' :: rest) := by simp [commas]
      have hrest := ih h' (fun t ht => hfuel t (List.mem_cons_of_mem _ ht))
        (Nat.lt_of_succ_lt_succ hcount)
      rw [htext, objectFields_more h (hfuel text (by simp)), hrest, Option.map_some]
      rfl

theorem readsAs_object {texts : List (List Char)} {fs : List (String × Json)}
    (h : List.Forall₂ FieldReadsAs texts fs) :
    ReadsAs (objectText texts) (record fs) := by
  refine ⟨⟨'\x7b', _, rfl, rfl, by decide⟩, fun {fuel rest} hfuel _ => ?_⟩
  cases fuel with
  | zero => omega
  | succ fuel =>
      have htext : objectText texts ++ rest = '\x7b' :: (commas texts ++ '\x7d' :: rest) := by
        simp [objectText]
      have hopen : skipBlanks ('\x7b' :: (commas texts ++ '\x7d' :: rest)) =
          '\x7b' :: (commas texts ++ '\x7d' :: rest) := skipBlanks_cons rfl _
      cases h with
      | nil => rfl
      | @cons text f texts fs h hall =>
          have hlength : (commas (text :: texts)).length < fuel := by
            simp only [objectText, List.length_append, List.length_cons] at hfuel
            omega
          obtain ⟨hmember, hcount⟩ := fuel_of_commas hlength
          have hfields := objectFields_commas h hall hmember hcount rest
          obtain ⟨more, hcommas⟩ : ∃ more, commas (text :: texts) = '"' :: more := by
            cases h
            cases texts <;> exact ⟨_, rfl⟩
          rw [hcommas, List.cons_append] at htext hopen hfields
          have hquote : skipBlanks ('"' :: (more ++ '\x7d' :: rest)) =
              '"' :: (more ++ '\x7d' :: rest) := skipBlanks_cons rfl _
          simp only [htext, value, hopen, hquote, hfields, Option.map_some]
          rfl

/-! ## Whole texts -/

theorem parse_ofList {text : List Char} {v : Json} (h : ReadsAs text v) :
    parse (String.ofList text) = some v := by
  have hread : value (text.length + 1) (text ++ []) = some (v, []) :=
    h.read (Nat.lt_succ_self _) trivial
  rw [List.append_nil] at hread
  simp only [parse, String.toList_ofList, hread]
  rfl

end Reconcile.Json
