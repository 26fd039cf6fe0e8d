import Mathlib.Data.List.Induction
import SpvEnvelope.Hash.Digest

/-!
# Which texts are hex

A text is read as a byte string exactly if it has an even number of bytes and all of them are hex
digits (`Hex.decode_isOk_iff`). Its characters are then hex digits as well, because a character of
several bytes has none that is a digit, and in lowercase it is the text that is written for the byte
string (`Hex.decode_eq_ok_iff`). Of any other text the flaw that is reported is there, an odd number
of bytes before all others, and a byte that is no digit only if all bytes before it are
(`Hex.decode_eq_error_iff`).
-/

namespace SpvEnvelope.Hex

variable {c : Char} {byte : UInt8} {text : String} {bytes done input : List UInt8} {index : Nat}
  {e : Error}

/-! ## Digits -/

/-- The hex digits, of either case. -/
def digits : String := "0123456789abcdefABCDEF"

/-- A character that is a hex digit. -/
def IsDigit (c : Char) : Prop := c ∈ digits.toList

instance : DecidablePred IsDigit := fun c => inferInstanceAs (Decidable (c ∈ digits.toList))

/-- A byte of text that is a hex digit. -/
def IsDigitByte (byte : UInt8) : Prop := byte ∈ textBytes digits

instance : DecidablePred IsDigitByte :=
  fun byte => inferInstanceAs (Decidable (byte ∈ textBytes digits))

theorem toList_digits : digits.toList = ['0', '1', '2', '3', '4', '5', '6', '7', '8', '9',
    'a', 'b', 'c', 'd', 'e', 'f', 'A', 'B', 'C', 'D', 'E', 'F'] :=
  String.toList_ofList

theorem textBytes_digits : textBytes digits = [48, 49, 50, 51, 52, 53, 54, 55, 56, 57,
    97, 98, 99, 100, 101, 102, 65, 66, 67, 68, 69, 70] := by
  rw [textBytes, toList_digits]
  rfl

/-- The digits are three ranges of bytes. -/
theorem isDigitByte_iff : IsDigitByte byte ↔ 48 ≤ byte.toNat ∧ byte.toNat ≤ 57 ∨
    97 ≤ byte.toNat ∧ byte.toNat ≤ 102 ∨ 65 ≤ byte.toNat ∧ byte.toNat ≤ 70 := by
  simp only [IsDigitByte, textBytes_digits, List.mem_cons, List.not_mem_nil, or_false,
    ← UInt8.toNat_inj, UInt8.reduceToNat]
  omega

/-- The bytes that have a value are the digits. -/
@[simp] theorem digitValue?_isSome_iff (byte : UInt8) :
    (digitValue? byte).isSome = true ↔ IsDigitByte byte := by
  rw [isDigitByte_iff]
  simp only [digitValue?, UInt8.le_iff_toNat_le, UInt8.reduceToNat]
  split
  · simp only [Option.isSome_some, true_iff]
    omega
  · split
    · simp only [Option.isSome_some, true_iff]
      omega
    · split
      · simp only [Option.isSome_some, true_iff]
        omega
      · simp only [Option.isSome_none, Bool.false_eq_true, false_iff]
        omega

theorem IsDigitByte.exists_value (h : IsDigitByte byte) : ∃ value, digitValue? byte = some value :=
  Option.isSome_iff_exists.mp ((digitValue?_isSome_iff byte).mpr h)

theorem isDigitByte_of_value {value : Nat} (h : digitValue? byte = some value) : IsDigitByte byte :=
  (digitValue?_isSome_iff byte).mp (h ▸ rfl)

theorem digitValue?_eq_none (h : ¬IsDigitByte byte) : digitValue? byte = none :=
  Option.not_isSome_iff_eq_none.mp (mt (digitValue?_isSome_iff byte).mp h)

theorem digitValue?_lt {value : Nat} (h : digitValue? byte = some value) : value < 16 := by
  simp only [digitValue?, UInt8.le_iff_toNat_le, UInt8.reduceToNat] at h
  split at h
  · cases h
    omega
  · split at h
    · cases h
      omega
    · split at h
      · cases h
        omega
      · cases h

/-- A digit is one byte of text, whose value is written as the digit in lowercase. -/
theorem IsDigit.exists_byte (h : IsDigit c) : ∃ byte value, String.utf8EncodeChar c = [byte] ∧
    digitValue? byte = some value ∧ digit value = c.toLower := by
  have hdigits : (digits.toList.all fun c => String.utf8EncodeChar c = [UInt8.ofNat c.toNat] ∧
      (digitValue? (UInt8.ofNat c.toNat)).map digit = some c.toLower) = true := by
    rw [toList_digits]
    decide +kernel
  obtain ⟨hbyte, hvalue⟩ := of_decide_eq_true (List.all_eq_true.mp hdigits c h)
  obtain ⟨value, hsome, hdigit⟩ := Option.map_eq_some_iff.mp hvalue
  exact ⟨_, value, hbyte, hsome, hdigit⟩

/-- A character whose bytes are all digits is a digit. -/
theorem isDigit_of_bytes (h : ∀ byte ∈ String.utf8EncodeChar c, IsDigitByte byte) : IsDigit c := by
  have hascii : ∀ n < 128, IsDigitByte (UInt8.ofNat n) → IsDigit (Char.ofNat n) := by
    unfold IsDigitByte IsDigit
    rw [textBytes_digits, toList_digits]
    decide +kernel
  by_cases hlt : c.toNat < 128
  · have hone : UInt8.ofNat c.toNat ∈ String.utf8EncodeChar c := by
      have hle : c.toNat ≤ 127 := Nat.le_of_lt_succ hlt
      simp [String.utf8EncodeChar, hle]
    have hdigit := hascii c.toNat hlt (h _ hone)
    rwa [Char.ofNat_toNat] at hdigit
  · -- the last byte of a character of several bytes is out of the range of digits
    have hlast : UInt8.ofNat (c.val.toNat % 64 + 128) ∈ String.utf8EncodeChar c := by
      have hle : ¬c.val.toNat ≤ 127 := fun hle => hlt (Nat.lt_succ_of_le hle)
      unfold String.utf8EncodeChar
      simp only [if_neg hle]
      split
      · simp
      · split <;> simp
    have hrange := isDigitByte_iff.mp (h _ hlast)
    simp only [UInt8.toNat_ofNat'] at hrange
    omega

/-- The bytes of a text are digits exactly if its characters are. -/
theorem forall_isDigitByte_iff :
    (∀ byte ∈ textBytes text, IsDigitByte byte) ↔ ∀ c ∈ text.toList, IsDigit c := by
  simp only [textBytes, List.mem_flatMap]
  constructor
  · intro h c hc
    exact isDigit_of_bytes fun byte hbyte => h byte ⟨c, hc, hbyte⟩
  · rintro h byte ⟨c, hc, hbyte⟩
    obtain ⟨digitByte, value, hone, hvalue, -⟩ := (h c hc).exists_byte
    rw [hone, List.mem_singleton] at hbyte
    exact hbyte ▸ isDigitByte_of_value hvalue

/-! ## Flaws -/

/-- The first of the bytes from `index` on that is no digit. -/
inductive BadDigit : (index : Nat) → List UInt8 → Error → Prop
  | here {index : Nat} {byte : UInt8} {rest : List UInt8} (h : ¬IsDigitByte byte) :
      BadDigit index (byte :: rest) (.badDigit byte index)
  | later {index : Nat} {byte : UInt8} {rest : List UInt8} {e : Error} (h : IsDigitByte byte)
      (hr : BadDigit (index + 1) rest e) : BadDigit index (byte :: rest) e

/-- What is the matter with a text that is not hex. -/
inductive Flaw (text : String) : Error → Prop
  | odd (h : (textBytes text).length % 2 = 1) : Flaw text .oddLength
  | badDigit {e : Error} (h : (textBytes text).length % 2 = 0) (hb : BadDigit 0 (textBytes text) e) :
      Flaw text e

theorem exists_badDigit_iff :
    (∃ e, BadDigit index input e) ↔ ∃ byte ∈ input, ¬IsDigitByte byte := by
  induction input generalizing index with
  | nil =>
    constructor
    · rintro ⟨e, h⟩
      cases h
    · rintro ⟨byte, h, -⟩
      cases h
  | cons byte rest ih =>
    constructor
    · rintro ⟨e, h⟩
      cases h with
      | here h => exact ⟨byte, List.mem_cons_self, h⟩
      | later _ hr =>
        obtain ⟨bad, hmem, hbad⟩ := ih.mp ⟨e, hr⟩
        exact ⟨bad, List.mem_cons_of_mem _ hmem, hbad⟩
    · rintro ⟨bad, hmem, hbad⟩
      by_cases h : IsDigitByte byte
      · rcases List.mem_cons.mp hmem with rfl | hmem
        · exact absurd h hbad
        · obtain ⟨e, hr⟩ := ih.mpr ⟨bad, hmem, hbad⟩
          exact ⟨e, .later h hr⟩
      · exact ⟨_, .here h⟩

theorem exists_flaw_iff : (∃ e, Flaw text e) ↔
    (textBytes text).length % 2 = 1 ∨ ∃ byte ∈ textBytes text, ¬IsDigitByte byte := by
  constructor
  · rintro ⟨e, h⟩
    cases h with
    | odd h => exact .inl h
    | badDigit _ hb => exact .inr (exists_badDigit_iff.mp ⟨e, hb⟩)
  · intro h
    rcases Nat.mod_two_eq_zero_or_one (textBytes text).length with heven | hodd
    · rcases h with hodd | hbad
      · omega
      · obtain ⟨e, hb⟩ := exists_badDigit_iff.mpr hbad
        exact ⟨e, .badDigit heven hb⟩
    · exact ⟨_, .odd hodd⟩

/-! ## Pairs of digits -/

/-- The values of the two digits of a byte. -/
def halves (byte : UInt8) : List (Option Nat) :=
  [some (byte.toNat / 16), some (byte.toNat % 16)]

theorem halves_of_lt {high low : Nat} (hh : high < 16) (hl : low < 16) :
    halves (UInt8.ofNat (16 * high + low)) = [some high, some low] := by
  have hbyte : (UInt8.ofNat (16 * high + low)).toNat = 16 * high + low :=
    UInt8.toNat_ofNat_of_lt' (show 16 * high + low < 256 by omega)
  rw [halves, hbyte, show (16 * high + low) / 16 = high by omega,
    show (16 * high + low) % 16 = low by omega]

theorem readDigit_of_value {value : Nat} (h : digitValue? byte = some value) :
    readDigit byte index = .ok value := by
  rw [readDigit, h]

theorem readDigit_of_not (h : ¬IsDigitByte byte) :
    readDigit byte index = .error (.badDigit byte index) := by
  rw [readDigit, digitValue?_eq_none h]

/-- A step reads two digits, or stops at the first one of them that is none. -/
theorem readPairs_cons (index : Nat) (done : List UInt8) (high low : UInt8) (rest : List UInt8) :
    (¬IsDigitByte high ∧
      readPairs index done (high :: low :: rest) = .error (.badDigit high index)) ∨
    (IsDigitByte high ∧ ¬IsDigitByte low ∧
      readPairs index done (high :: low :: rest) = .error (.badDigit low (index + 1))) ∨
    ∃ byte, IsDigitByte high ∧ IsDigitByte low ∧
      [digitValue? high, digitValue? low] = halves byte ∧
      readPairs index done (high :: low :: rest) = readPairs (index + 2) (byte :: done) rest := by
  by_cases hh : IsDigitByte high
  · obtain ⟨h, hvalue⟩ := hh.exists_value
    by_cases hl : IsDigitByte low
    · obtain ⟨l, lvalue⟩ := hl.exists_value
      refine .inr (.inr ⟨UInt8.ofNat (16 * h + l), hh, hl, ?_, ?_⟩)
      · rw [halves_of_lt (digitValue?_lt hvalue) (digitValue?_lt lvalue), hvalue, lvalue]
      · rw [readPairs, readDigit_of_value hvalue, readDigit_of_value lvalue]
        rfl
    · refine .inr (.inl ⟨hh, hl, ?_⟩)
      rw [readPairs, readDigit_of_value hvalue, readDigit_of_not hl]
      rfl
  · refine .inl ⟨hh, ?_⟩
    rw [readPairs, readDigit_of_not hh]
    rfl

/-- The digits that are read are the halves of the bytes that they are read as. -/
theorem halves_of_readPairs (heven : input.length % 2 = 0)
    (h : readPairs index done input = .ok bytes) :
    ∃ rest, bytes = done.reverse ++ rest ∧ input.map digitValue? = rest.flatMap halves := by
  induction input using List.twoStepInduction generalizing index done with
  | nil =>
    cases h
    exact ⟨[], by rw [List.append_nil], rfl⟩
  | singleton byte => cases heven
  | cons_cons high low input ih =>
    rw [List.length_cons, List.length_cons] at heven
    rcases readPairs_cons index done high low input with ⟨-, he⟩ | ⟨-, -, he⟩ | ⟨byte, -, -, hv, he⟩
    · cases he ▸ h
    · cases he ▸ h
    · obtain ⟨rest, rfl, hrest⟩ := ih (by omega) (he ▸ h)
      refine ⟨byte :: rest, ?_, ?_⟩
      · rw [List.reverse_cons, List.append_assoc, List.singleton_append]
      · rw [List.flatMap_cons, ← hv, ← hrest]
        rfl

/-- Reading pairs fails at the first byte that is no digit. -/
theorem readPairs_eq_error_iff (heven : input.length % 2 = 0) :
    readPairs index done input = .error e ↔ BadDigit index input e := by
  induction input using List.twoStepInduction generalizing index done with
  | nil =>
    constructor <;> intro h <;> cases h
  | singleton byte => cases heven
  | cons_cons high low input ih =>
    rw [List.length_cons, List.length_cons] at heven
    rcases readPairs_cons index done high low input with
      ⟨hh, he⟩ | ⟨hh, hl, he⟩ | ⟨byte, hh, hl, -, he⟩
    · rw [he]
      constructor
      · rintro ⟨⟩
        exact .here hh
      · rintro (_ | ⟨h, -⟩)
        · rfl
        · exact absurd h hh
    · rw [he]
      constructor
      · rintro ⟨⟩
        exact .later hh (.here hl)
      · rintro (h | ⟨-, _ | ⟨h, -⟩⟩)
        · exact absurd hh h
        · rfl
        · exact absurd h hl
    · rw [he, ih (by omega)]
      constructor
      · intro h
        exact .later hh (.later hl h)
      · rintro (h | ⟨-, h | ⟨-, h⟩⟩)
        · exact absurd hh h
        · exact absurd hl h
        · exact h

/-! ## Texts -/

/-- **A text that is not read as a byte string has the flaw that is reported.** -/
theorem decode_eq_error_iff : decode text = .error e ↔ Flaw text e := by
  unfold decode decodeBytes
  split
  · rename_i hodd
    constructor
    · rintro ⟨⟩
      exact .odd hodd
    · rintro (_ | ⟨heven, -⟩)
      · rfl
      · omega
  · rename_i hodd
    have heven : (textBytes text).length % 2 = 0 := by omega
    rw [readPairs_eq_error_iff heven]
    constructor
    · intro h
      exact .badDigit heven h
    · rintro (h | ⟨-, h⟩)
      · exact absurd h hodd
      · exact h

/-- A text is read as a byte string exactly if its bytes are an even number of digits. -/
theorem decode_isOk_iff : (∃ bytes, decode text = .ok bytes) ↔
    (textBytes text).length % 2 = 0 ∧ ∀ byte ∈ textBytes text, IsDigitByte byte := by
  have hflaw : (∃ e, decode text = .error e) ↔
      (textBytes text).length % 2 = 1 ∨ ∃ byte ∈ textBytes text, ¬IsDigitByte byte := by
    simp [decode_eq_error_iff, exists_flaw_iff]
  have hok : (∃ bytes, decode text = .ok bytes) ↔ ¬∃ e, decode text = .error e := by
    cases decode text <;> simp
  rw [hok, hflaw, not_or, Nat.mod_two_not_eq_one]
  simp

@[simp]
theorem toList_toLower (text : String) : text.toLower.toList = text.toList.map Char.toLower :=
  String.toList_map

@[simp] theorem length_toLower (text : String) : text.toLower.length = text.length :=
  String.length_map

/-- The bytes of a text of digits have the values that are written as the text in lowercase. -/
theorem map_digit_textBytes (h : ∀ c ∈ text.toList, IsDigit c) :
    (textBytes text).map (fun byte => (digitValue? byte).map digit) =
      text.toLower.toList.map some := by
  rw [toList_toLower, textBytes]
  generalize text.toList = chars at h
  induction chars with
  | nil => rfl
  | cons c rest ih =>
    obtain ⟨hc, hrest⟩ := List.forall_mem_cons.mp h
    obtain ⟨byte, value, hbyte, hvalue, hdigit⟩ := hc.exists_byte
    rw [List.flatMap_cons, hbyte, List.map_append, ih hrest]
    simp [hvalue, hdigit]

/-- A text of digits has as many bytes as characters. -/
theorem length_textBytes (h : ∀ c ∈ text.toList, IsDigit c) :
    (textBytes text).length = text.length := by
  have hlength := congrArg List.length (map_digit_textBytes h)
  rw [List.length_map, List.length_map, String.length_toList, length_toLower] at hlength
  exact hlength

/-- In lowercase, a text that is read as a byte string is the one that is written for it. -/
theorem toLower_of_decode (h : decode text = .ok bytes) : text.toLower = encode bytes := by
  obtain ⟨heven, hdigits⟩ := decode_isOk_iff.mp ⟨bytes, h⟩
  have hread : readPairs 0 [] (textBytes text) = .ok bytes := by
    rwa [decode, decodeBytes, if_neg (by omega)] at h
  obtain ⟨rest, hrest, hvalues⟩ := halves_of_readPairs heven hread
  obtain rfl : bytes = rest := hrest
  have hdigit : (bytes.flatMap halves).map (Option.map digit) =
      (bytes.flatMap byteDigits).map some := by
    simp [List.map_flatMap, halves, byteDigits]
  have hlower := map_digit_textBytes (forall_isDigitByte_iff.mp hdigits)
  rw [← hvalues, List.map_map] at hdigit
  apply String.toList_inj.mp
  rw [encode, String.toList_ofList]
  exact (List.map_inj_right fun _ _ => Option.some.inj).mp (hlower.symm.trans hdigit)

@[simp] theorem length_encode (bytes : List UInt8) : (encode bytes).length = 2 * bytes.length := by
  rw [encode, String.length_ofList]
  induction bytes with
  | nil => rfl
  | cons byte rest ih =>
    rw [List.flatMap_cons, List.length_append, ih]
    simp only [byteDigits, List.length_cons, List.length_nil]
    omega

/-- Byte strings are written differently. -/
theorem eq_of_encode_eq {bytes' : List UInt8} (h : encode bytes = encode bytes') :
    bytes = bytes' := by
  have hread := decode_encode bytes
  rw [h, decode_encode] at hread
  exact (Except.ok.inj hread).symm

/-- **A text is read as a byte string exactly if its characters are digits and, in lowercase, it is
what is written for the byte string.** -/
theorem decode_eq_ok_iff : decode text = .ok bytes ↔
    (∀ c ∈ text.toList, IsDigit c) ∧ text.toLower = encode bytes := by
  constructor
  · intro h
    exact ⟨forall_isDigitByte_iff.mp (decode_isOk_iff.mp ⟨bytes, h⟩).2, toLower_of_decode h⟩
  · rintro ⟨hdigits, hlower⟩
    have heven : (textBytes text).length % 2 = 0 := by
      have hlength := congrArg String.length hlower
      rw [length_encode, length_toLower] at hlength
      rw [length_textBytes hdigits]
      omega
    obtain ⟨bytes', h⟩ := decode_isOk_iff.mpr ⟨heven, forall_isDigitByte_iff.mpr hdigits⟩
    have he : encode bytes' = encode bytes := (toLower_of_decode h).symm.trans hlower
    rw [h, eq_of_encode_eq he]

/-- A text that is read as a byte string has two bytes for each byte of it. -/
theorem length_of_decode (h : decode text = .ok bytes) :
    text.length = 2 * bytes.length ∧ (textBytes text).length = 2 * bytes.length := by
  obtain ⟨hdigits, hlower⟩ := decode_eq_ok_iff.mp h
  have hlength := congrArg String.length hlower
  rw [length_encode, length_toLower] at hlength
  rw [length_textBytes hdigits]
  exact ⟨hlength, hlength⟩

end SpvEnvelope.Hex
