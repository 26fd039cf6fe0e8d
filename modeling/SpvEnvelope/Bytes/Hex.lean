/-!
# Hexadecimal text

A byte string is written as two lowercase hex digits per byte. Reading accepts either case, works on
the UTF-8 bytes of the text and reports the first offending byte. A text of odd length is refused
before any digit is looked at. Each of the sixteen digits is one byte of text and is read as the
value that it was written for, so the digits of a byte string are read as these bytes
(`Hex.decode_encode`).

| here | there |
| --- | --- |
| `Hex.encode`, `Hex.decode` | the hex functions behind every `to_hex` and `from_hex` |
| `Hex.Error` | `FromHexError` |
-/

namespace SpvEnvelope

/-- The UTF-8 bytes of a text. -/
def textBytes (text : String) : List UInt8 :=
  text.toList.flatMap String.utf8EncodeChar

namespace Hex

/-- Why a text is not the hex form of a byte string. -/
inductive Error where
  /-- The text has an odd number of bytes. -/
  | oddLength
  /-- The byte at `index` is not a hex digit. -/
  | badDigit (byte : UInt8) (index : Nat)
deriving DecidableEq

/-! ## Writing -/

/-- The lowercase hex digit of a value below 16. -/
def digit (value : Nat) : Char :=
  if value < 10 then Char.ofNat (48 + value) else Char.ofNat (87 + value)

/-- The two digits of a byte, high half first. -/
def byteDigits (byte : UInt8) : List Char :=
  [digit (byte.toNat / 16), digit (byte.toNat % 16)]

/-- The lowercase hex text of a byte string. -/
def encode (bytes : List UInt8) : String :=
  String.ofList (bytes.flatMap byteDigits)

/-! ## Reading -/

/-- The value of the ASCII hex digit `byte`. -/
def digitValue? (byte : UInt8) : Option Nat :=
  if 48 ≤ byte ∧ byte ≤ 57 then some (byte.toNat - 48)
  else if 97 ≤ byte ∧ byte ≤ 102 then some (byte.toNat - 87)
  else if 65 ≤ byte ∧ byte ≤ 70 then some (byte.toNat - 55)
  else none

/-- The value of the digit found at `index`, or the complaint about it. -/
def readDigit (byte : UInt8) (index : Nat) : Except Error Nat :=
  match digitValue? byte with
  | some value => .ok value
  | none => .error (.badDigit byte index)

/-- Reads digits in pairs, the first of them standing at `index`; `done` holds the bytes read so
far, last one first. -/
def readPairs (index : Nat) (done : List UInt8) : List UInt8 → Except Error (List UInt8)
  | high :: low :: rest => do
    let h ← readDigit high index
    let l ← readDigit low (index + 1)
    readPairs (index + 2) (UInt8.ofNat (16 * h + l) :: done) rest
  | _ => .ok done.reverse

/-- The bytes that a string of ASCII digits stands for. -/
def decodeBytes (digits : List UInt8) : Except Error (List UInt8) :=
  if digits.length % 2 = 1 then .error .oddLength else readPairs 0 [] digits

/-- The bytes that a text stands for. -/
def decode (text : String) : Except Error (List UInt8) :=
  decodeBytes (textBytes text)

/-! ## What is written is read back -/

/-- A digit is one byte of text, which is read as the digit's value. -/
theorem utf8EncodeChar_digit : ∀ value < 16, ∃ byte,
    String.utf8EncodeChar (digit value) = [byte] ∧ digitValue? byte = some value := by
  have hdigits : ∀ value < 16,
      String.utf8EncodeChar (digit value) = [UInt8.ofNat (digit value).toNat] ∧
        digitValue? (UInt8.ofNat (digit value).toNat) = some value := by decide
  intro value h
  exact ⟨_, hdigits value h⟩

/-- The text of a byte is two digits, one for each half. -/
theorem flatMap_utf8EncodeChar_byteDigits (byte : UInt8) : ∃ high low,
    (byteDigits byte).flatMap String.utf8EncodeChar = [high, low] ∧
      digitValue? high = some (byte.toNat / 16) ∧ digitValue? low = some (byte.toNat % 16) := by
  have hlt := byte.toNat_lt
  obtain ⟨high, hhigh, hhighValue⟩ := utf8EncodeChar_digit (byte.toNat / 16) (by omega)
  obtain ⟨low, hlow, hlowValue⟩ := utf8EncodeChar_digit (byte.toNat % 16) (by omega)
  exact ⟨high, low, by simp [byteDigits, hhigh, hlow], hhighValue, hlowValue⟩

theorem readPairs_byteDigits (index : Nat) (done bytes : List UInt8) :
    readPairs index done ((bytes.flatMap byteDigits).flatMap String.utf8EncodeChar) =
      .ok (done.reverse ++ bytes) := by
  induction bytes generalizing index done with
  | nil => simp [readPairs]
  | cons byte rest ih =>
    obtain ⟨high, low, hdigits, hhigh, hlow⟩ := flatMap_utf8EncodeChar_byteDigits byte
    have hbyte : UInt8.ofNat (16 * (byte.toNat / 16) + byte.toNat % 16) = byte := by
      rw [Nat.div_add_mod, UInt8.ofNat_toNat]
    rw [List.flatMap_cons, List.flatMap_append, hdigits]
    simp only [List.cons_append, List.nil_append, readPairs, readDigit, hhigh, hlow]
    change readPairs (index + 2) _ _ = _
    rw [hbyte, ih, List.reverse_cons, List.append_assoc, List.singleton_append]

theorem length_flatMap_byteDigits (bytes : List UInt8) :
    ((bytes.flatMap byteDigits).flatMap String.utf8EncodeChar).length = 2 * bytes.length := by
  induction bytes with
  | nil => rfl
  | cons byte rest ih =>
    obtain ⟨high, low, hdigits, -, -⟩ := flatMap_utf8EncodeChar_byteDigits byte
    rw [List.flatMap_cons, List.flatMap_append, hdigits, List.length_append, ih]
    simp only [List.length_cons, List.length_nil]
    omega

/-- The hex text of a byte string is read as these bytes. -/
@[simp] theorem decode_encode (bytes : List UInt8) : decode (encode bytes) = .ok bytes := by
  have hlength := length_flatMap_byteDigits bytes
  rw [decode, encode, textBytes, String.toList_ofList, decodeBytes, if_neg (by omega),
    readPairs_byteDigits, List.reverse_nil, List.nil_append]

/-! ## Wording -/

/-- The lowercase hex digits of a byte without a leading zero. -/
def shortByte (byte : UInt8) : String :=
  if byte.toNat < 16 then String.ofList [digit byte.toNat] else encode [byte]

/-- A byte shown as the code point it denotes, in single quotes. The quote, the backslash and
control characters are escaped. -/
def quoteByte (byte : UInt8) : String :=
  let shown :=
    if byte = 0 then "\\0"
    else if byte = 9 then "\\t"
    else if byte = 10 then "\\n"
    else if byte = 13 then "\\r"
    else if byte = 39 then "\\'"
    else if byte = 92 then "\\\\"
    else if byte < 32 ∨ (127 ≤ byte ∧ byte < 160) then "\\u\x7b" ++ shortByte byte ++ "\x7d"
    else String.ofList [Char.ofNat byte.toNat]
  "'" ++ shown ++ "'"

/-- The wording of a complaint. -/
def Error.message : Error → String
  | .oddLength => "Odd number of digits"
  | .badDigit byte index =>
    "Invalid character " ++ quoteByte byte ++ " at position " ++ toString index

end Hex

end SpvEnvelope
