import SpvEnvelope.Json.Value

/-!
# JSON texts read back

A value without other than natural numbers is read back from its text (`Json.parse_render`), so no
two such values have the same text (`Json.eq_of_render_eq`). The writer extends a text at its end and
the reader takes characters from the front; they meet at the list of characters that a value has
(`Json.chars`), which is read back in front of anything but a digit.

A string ends at the first quote that is not escaped, and every character is escaped in a way that
is read back (`Json.readString_escape`). A number ends at the first character that is no digit.
-/

namespace SpvEnvelope.Json

/-! ## Characters of a text -/

mutual

/-- The characters of a value's text. -/
def chars : Json → List Char
  | .null => ['n', 'u', 'l', 'l']
  | .bool true => ['t', 'r', 'u', 'e']
  | .bool false => ['f', 'a', 'l', 's', 'e']
  | .nat value => Nat.toDigits 10 value
  | .number written => written.toList
  | .str value => '"' :: value.toList.flatMap escape ++ ['"']
  | .arr items => '[' :: itemChars items
  | .obj fields => '\x7b' :: fieldChars fields

/-- The characters of an array's items and its closing bracket. -/
def itemChars : List Json → List Char
  | [] => [']']
  | [item] => chars item ++ [']']
  | item :: next :: rest => chars item ++ ',' :: itemChars (next :: rest)

/-- The characters of an object's fields and its closing brace. -/
def fieldChars : List (String × Json) → List Char
  | [] => ['\x7d']
  | [(name, value)] => '"' :: name.toList.flatMap escape ++ '"' :: ':' :: chars value ++ ['\x7d']
  | (name, value) :: next :: rest =>
    '"' :: name.toList.flatMap escape ++ '"' :: ':' :: chars value ++ ',' :: fieldChars (next :: rest)

end

@[simp] theorem toList_quote (text : String) :
    (quote text).toList = '"' :: text.toList.flatMap escape ++ ['"'] := by
  simp [quote]

mutual

@[simp] theorem toList_renderOnto (text : String) :
    ∀ json : Json, (renderOnto text json).toList = text.toList ++ chars json
  | .null => by simp [renderOnto, chars]
  | .bool true => by simp [renderOnto, chars]
  | .bool false => by simp [renderOnto, chars]
  | .nat value => by simp [renderOnto, chars]
  | .number written => by simp [renderOnto, chars]
  | .str value => by simp [renderOnto, chars]
  | .arr items => by
    have h := toList_renderItemsOnto (text ++ "[") items
    simpa [renderOnto, chars] using h
  | .obj fields => by
    have h := toList_renderFieldsOnto (text ++ "\x7b") fields
    simpa [renderOnto, chars] using h

theorem toList_renderItemsOnto (text : String) :
    ∀ items : List Json, (renderItemsOnto text items ++ "]").toList = text.toList ++ itemChars items
  | [] => by simp [renderItemsOnto, itemChars]
  | [item] => by
    have h := toList_renderOnto text item
    simp [renderItemsOnto, itemChars, h]
  | item :: next :: rest => by
    have hitem := toList_renderOnto text item
    have hrest := toList_renderItemsOnto (renderOnto text item ++ ",") (next :: rest)
    rw [renderItemsOnto, hrest]
    simp [itemChars, hitem]

theorem toList_renderFieldsOnto (text : String) :
    ∀ fields : List (String × Json),
      (renderFieldsOnto text fields ++ "\x7d").toList = text.toList ++ fieldChars fields
  | [] => by simp [renderFieldsOnto, fieldChars]
  | [(name, value)] => by
    have h := toList_renderOnto (text ++ quote name ++ ":") value
    simp [renderFieldsOnto, fieldChars, h]
  | (name, value) :: next :: rest => by
    have hvalue := toList_renderOnto (text ++ quote name ++ ":") value
    have hrest := toList_renderFieldsOnto
      (renderOnto (text ++ quote name ++ ":") value ++ ",") (next :: rest)
    rw [renderFieldsOnto, hrest]
    simp [fieldChars, hvalue]

end

@[simp] theorem toList_render (json : Json) : json.render.toList = chars json := by
  rw [render, toList_renderOnto]
  simp

/-! ## Strings -/

theorem hexValue?_digit : ∀ value < 16, hexValue? (Hex.digit value) = some value := by
  decide

/-- A character is written with a letter, with two hex digits or as it is. -/
theorem escape_cases (c : Char) :
    (∃ letter, letter ≠ 'u' ∧ unescape? letter = some c ∧ escape c = ['\\', letter]) ∨
      (c.toNat < 32 ∧
        escape c = ['\\', 'u', '0', '0'] ++ Hex.byteDigits (UInt8.ofNat c.toNat)) ∨
      (c ≠ '"' ∧ c ≠ '\\' ∧ 32 ≤ c.toNat ∧ escape c = [c]) := by
  by_cases hquote : c = '"'
  · subst hquote
    exact .inl ⟨'"', by decide, rfl, rfl⟩
  by_cases hbackslash : c = '\\'
  · subst hbackslash
    exact .inl ⟨'\\', by decide, rfl, rfl⟩
  by_cases hn : c = '\n'
  · subst hn
    exact .inl ⟨'n', by decide, rfl, rfl⟩
  by_cases hr : c = '\r'
  · subst hr
    exact .inl ⟨'r', by decide, rfl, rfl⟩
  by_cases ht : c = '\t'
  · subst ht
    exact .inl ⟨'t', by decide, rfl, rfl⟩
  by_cases hb : c.toNat = 8
  · refine .inl ⟨'b', by decide, ?_, by simp [escape, hquote, hbackslash, hn, hr, ht, hb]⟩
    rw [← Char.ofNat_toNat c, hb]
    rfl
  by_cases hf : c.toNat = 12
  · refine .inl ⟨'f', by decide, ?_, by simp [escape, hquote, hbackslash, hn, hr, ht, hf]⟩
    rw [← Char.ofNat_toNat c, hf]
    rfl
  by_cases hcontrol : c.toNat < 32
  · exact .inr (.inl ⟨hcontrol, by simp [escape, *]⟩)
  · exact .inr (.inr ⟨hquote, hbackslash, by omega, by simp [escape, *]⟩)

/-- A character is read back from the way it is written. -/
theorem readString_escape {c : Char} {text rest after : List Char}
    (h : readString rest = some (text, after)) :
    readString (escape c ++ rest) = some (c :: text, after) := by
  rcases escape_cases c with ⟨letter, hu, hletter, hc⟩ | ⟨hlt, hc⟩ | ⟨hquote, hbackslash, hle, hc⟩
  · rw [hc]
    simp [readString, hu, hletter, h]
  · have hbyte : (UInt8.ofNat c.toNat).toNat = c.toNat := by
      simp
      omega
    have hhigh := hexValue?_digit (c.toNat / 16) (by omega)
    have hlow := hexValue?_digit (c.toNat % 16) (by omega)
    simp [hc, Hex.byteDigits, hbyte, readString, hhigh, hlow, h, Nat.div_add_mod]
  · rw [hc]
    simp [readString, hbackslash, h]
    omega

@[simp] theorem readString_flatMap_escape (text rest : List Char) :
    readString (text.flatMap escape ++ '"' :: rest) = some (text, rest) := by
  induction text with
  | nil => simp [readString]
  | cons c text ih =>
    rw [List.flatMap_cons, List.append_assoc]
    exact readString_escape ih

/-! ## Values -/

/-- A value whose numbers are all natural. -/
inductive IsPlain : Json → Prop
  | null : IsPlain .null
  | bool (value : Bool) : IsPlain (.bool value)
  | nat (value : Nat) : IsPlain (.nat value)
  | str (value : String) : IsPlain (.str value)
  | arr {items : List Json} (items_plain : ∀ item ∈ items, IsPlain item) : IsPlain (.arr items)
  | obj {fields : List (String × Json)} (fields_plain : ∀ field ∈ fields, IsPlain field.2) :
      IsPlain (.obj fields)

attribute [simp] IsPlain.null IsPlain.bool IsPlain.nat IsPlain.str

@[simp] theorem isPlain_arr_iff {items : List Json} :
    (arr items).IsPlain ↔ ∀ item ∈ items, item.IsPlain :=
  ⟨fun h => by cases h; assumption, .arr⟩

@[simp] theorem isPlain_obj_iff {fields : List (String × Json)} :
    (obj fields).IsPlain ↔ ∀ field ∈ fields, field.2.IsPlain :=
  ⟨fun h => by cases h; assumption, .obj⟩

/-- The value is read back from its characters in front of anything but a digit. -/
def IsReadBack (json : Json) : Prop :=
  ∀ fuel rest, (chars json).length ≤ fuel → (∀ c ∈ rest.head?, ¬c.isDigit) →
    readValue fuel (chars json ++ rest) = some (json, rest)

/-- A value does not start with a closing bracket, since no value is read from one. -/
theorem IsReadBack.head?_ne {json : Json} (h : IsReadBack json) (rest : List Char) :
    (chars json ++ rest).head? ≠ some ']' := by
  have hread := h (chars json).length [] (Nat.le_refl _) (by simp)
  rw [List.append_nil] at hread
  cases hchars : chars json with
  | nil => simp [hchars, readValue] at hread
  | cons first others =>
    intro hfirst
    obtain rfl : first = ']' := by simpa using hfirst
    simp [hchars, readValue, readWord] at hread

theorem itemChars_head?_ne {item : Json} (h : IsReadBack item) (items : List Json)
    (rest : List Char) : (itemChars (item :: items) ++ rest).head? ≠ some ']' := by
  cases items with
  | nil =>
    rw [itemChars, List.append_assoc]
    exact h.head?_ne _
  | cons next items =>
    rw [itemChars, List.append_assoc]
    exact h.head?_ne _

/-- Items are read back up to the closing bracket. -/
theorem readItems_itemChars {items : List Json} (hne : items ≠ [])
    (h : ∀ item ∈ items, IsReadBack item) (fuel : Nat) (hfuel : (itemChars items).length ≤ fuel)
    (rest : List Char) : readItems fuel (itemChars items ++ rest) = some (items, rest) := by
  induction items generalizing fuel with
  | nil => exact absurd rfl hne
  | cons item items ih =>
    obtain ⟨hitem, hitems⟩ := List.forall_mem_cons.mp h
    cases items with
    | nil =>
      simp only [itemChars, List.length_append, List.length_singleton] at hfuel
      obtain ⟨fuel, rfl⟩ := Nat.exists_eq_succ_of_ne_zero (by omega : fuel ≠ 0)
      have hread := hitem fuel (']' :: rest) (by omega) (by simp)
      simp [readItems, itemChars, hread]
    | cons next items =>
      simp only [itemChars, List.length_append, List.length_cons] at hfuel
      obtain ⟨fuel, rfl⟩ := Nat.exists_eq_succ_of_ne_zero (by omega : fuel ≠ 0)
      have hread := hitem fuel (',' :: (itemChars (next :: items) ++ rest)) (by omega) (by simp)
      have hrest := ih (by simp) hitems fuel (by omega)
      simp [readItems, itemChars, hread, hrest]

/-- Fields are read back up to the closing brace. -/
theorem readFields_fieldChars {fields : List (String × Json)} (hne : fields ≠ [])
    (h : ∀ field ∈ fields, IsReadBack field.2) (fuel : Nat)
    (hfuel : (fieldChars fields).length ≤ fuel) (rest : List Char) :
    readFields fuel (fieldChars fields ++ rest) = some (fields, rest) := by
  induction fields generalizing fuel with
  | nil => exact absurd rfl hne
  | cons field fields ih =>
    obtain ⟨hvalue, hfields⟩ := List.forall_mem_cons.mp h
    obtain ⟨name, value⟩ := field
    change IsReadBack value at hvalue
    cases fields with
    | nil =>
      simp only [fieldChars, List.length_append, List.length_cons] at hfuel
      obtain ⟨fuel, rfl⟩ := Nat.exists_eq_succ_of_ne_zero (by omega : fuel ≠ 0)
      have hread := hvalue fuel ('\x7d' :: rest) (by omega) (by simp)
      simp [readFields, fieldChars, hread]
    | cons next fields =>
      simp only [fieldChars, List.length_append, List.length_cons] at hfuel
      obtain ⟨fuel, rfl⟩ := Nat.exists_eq_succ_of_ne_zero (by omega : fuel ≠ 0)
      have hread := hvalue fuel (',' :: (fieldChars (next :: fields) ++ rest)) (by omega) (by simp)
      have hrest := ih (by simp) hfields fuel (by omega)
      simp [readFields, fieldChars, hread, hrest]

/-- The first character of a value tells how to read on. -/
theorem isReadBack_of_cons {json : Json} {c : Char} {others : List Char}
    (hchars : chars json = c :: others)
    (h : ∀ fuel rest, others.length ≤ fuel → (∀ c ∈ rest.head?, ¬c.isDigit) →
      readValue (fuel + 1) (c :: (others ++ rest)) = some (json, rest)) : IsReadBack json := by
  intro fuel rest hfuel hrest
  rw [hchars, List.length_cons] at hfuel
  obtain ⟨fuel, rfl⟩ := Nat.exists_eq_succ_of_ne_zero (by omega : fuel ≠ 0)
  rw [hchars, List.cons_append]
  exact h fuel rest (by omega) hrest

/-- A number is read up to its last digit. -/
theorem isReadBack_nat (value : Nat) : IsReadBack (.nat value) := by
  have hdigits : ∀ c ∈ Nat.toDigits 10 value, c.isDigit := fun c hc =>
    Nat.isDigit_of_mem_toDigits (by decide) (by decide) hc
  obtain ⟨first, others, hchars⟩ := List.exists_cons_of_ne_nil (Nat.toDigits_ne_nil (n := value))
  refine isReadBack_of_cons (by rw [chars, hchars]) fun fuel rest _ hrest => ?_
  have hfirst : first.isDigit := hdigits first (by simp [hchars])
  have hquote : first ≠ '"' := by
    rintro rfl
    cases hfirst
  have hbracket : first ≠ '[' := by
    rintro rfl
    cases hfirst
  have hbrace : first ≠ '\x7b' := by
    rintro rfl
    cases hfirst
  have hnone : rest.takeWhile Char.isDigit = [] ∧ rest.dropWhile Char.isDigit = rest := by
    cases rest with
    | nil => simp
    | cons c rest =>
      have hc := hrest c rfl
      simp [hc]
  simp only [readValue, hquote, hbracket, hbrace, hfirst, if_false, if_true]
  rw [← List.cons_append, ← hchars, List.takeWhile_append_of_pos hdigits,
    List.dropWhile_append_of_pos hdigits, hnone.1, hnone.2, List.append_nil,
    Nat.ofDigitChars_ten_toDigits]
  rfl

/-- A value is read back if its numbers are natural. -/
theorem IsPlain.isReadBack {json : Json} (h : json.IsPlain) : IsReadBack json := by
  induction h with
  | nat value => exact isReadBack_nat value
  | null => exact isReadBack_of_cons rfl fun fuel rest _ _ => by simp [readValue, readWord]
  | bool value =>
    cases value with
    | true => exact isReadBack_of_cons rfl fun fuel rest _ _ => by simp [readValue, readWord]
    | false => exact isReadBack_of_cons rfl fun fuel rest _ _ => by simp [readValue, readWord]
  | str value => exact isReadBack_of_cons rfl fun fuel rest _ _ => by simp [readValue]
  | @arr items _ ih =>
    refine isReadBack_of_cons rfl fun fuel rest hfuel _ => ?_
    cases items with
    | nil => simp [itemChars, readValue]
    | cons item items =>
      have hread := readItems_itemChars (by simp) ih fuel hfuel rest
      have hhead := itemChars_head?_ne (ih item (by simp)) items rest
      generalize itemChars (item :: items) ++ rest = input at hread hhead
      simp [readValue, hread, hhead]
  | @obj fields _ ih =>
    refine isReadBack_of_cons rfl fun fuel rest hfuel _ => ?_
    cases fields with
    | nil => simp [fieldChars, readValue]
    | cons field fields =>
      have hread := readFields_fieldChars (by simp) ih fuel hfuel rest
      have hhead : (fieldChars (field :: fields) ++ rest).head? ≠ some '\x7d' := by
        cases fields <;> simp [fieldChars]
      generalize fieldChars (field :: fields) ++ rest = input at hread hhead
      simp [readValue, hread, hhead]

/-- **A value whose numbers are natural is read back from its text.** -/
theorem parse_render {json : Json} (h : json.IsPlain) : parse json.render = .ok json := by
  have hread := h.isReadBack (chars json).length [] (Nat.le_refl _) (by simp)
  rw [List.append_nil] at hread
  simp [parse, hread]

/-- So the text tells the value. -/
theorem eq_of_render_eq {json other : Json} (h : json.IsPlain) (hother : other.IsPlain)
    (heq : json.render = other.render) : json = other := by
  have hread := parse_render h
  rw [heq, parse_render hother] at hread
  exact (Except.ok.inj hread).symm

end SpvEnvelope.Json
