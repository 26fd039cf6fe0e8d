import SpvEnvelope.Bytes.Hex
import SpvEnvelope.Bytes.Reader
import SpvEnvelope.Hash.Sha256

/-!
# Digests

Transactions and Merkle nodes are named by 32-byte digests. A digest is kept in the order in which
it was computed and is shown in reverse. An empty text or byte string in shown order stands for the
digest of 32 zeros; the text of a digest is never empty, so this is none that is written
(`Digest.ofText_text`).

| here | there |
| --- | --- |
| `Digest` | `Hash` (§10.1) |
| `Digest.ofBytes`, `ofShownBytes`, `ofText` | `from_bytes`, `from_display_bytes`, `from_hex` |
| `Digest.shownBytes`, `text` | `to_display_bytes`, `to_string` |
| `Digest.double` | `double_hash_h` |
-/

namespace SpvEnvelope

/-- A hash of 32 bytes, in the order in which it was computed. -/
@[ext] structure Digest where
  bytes : List UInt8
  length_bytes : bytes.length = 32
deriving DecidableEq

namespace Digest

attribute [simp] length_bytes

/-- Why something does not denote a digest. -/
inductive Error where
  /-- The text is not hex. -/
  | hex (cause : Hex.Error)
  /-- The byte string has a length other than 32. -/
  | byteCount (count : Nat)
  /-- The text is hex of a length other than 64. -/
  | digitCount (count : Nat)
deriving DecidableEq

/-- The wording of a complaint. -/
def Error.message : Error → String
  | .hex cause => "invalid hex: " ++ cause.message
  | .byteCount count => s!"invalid hash: invalid hash length of {count}, want 32"
  | .digitCount count => s!"invalid hash: hash string must be 64 hex characters, got {count}"

/-- The digest of 32 zeros. -/
def zero : Digest := ⟨List.replicate 32 0, rfl⟩

/-- Digests are ordered by their bytes, the first differing one deciding. -/
instance : Ord Digest where
  compare left right := compare left.bytes right.bytes

theorem compare_eq (left right : Digest) : compare left right = compare left.bytes right.bytes :=
  rfl

instance : Std.TransOrd Digest where
  eq_swap := by
    intro left right
    rw [compare_eq, compare_eq]
    exact Std.OrientedCmp.eq_swap
  isLE_trans := by
    intro left middle right
    rw [compare_eq, compare_eq, compare_eq]
    exact Std.TransCmp.isLE_trans

instance : Std.LawfulEqOrd Digest where
  compare_self := by
    intro digest
    rw [compare_eq]
    exact Std.ReflCmp.compare_self
  eq_of_compare := by
    intro left right h
    rw [compare_eq] at h
    exact Digest.ext (Std.LawfulEqCmp.eq_of_compare h)

/-- The digests in ascending order. -/
def sort (digests : List Digest) : List Digest :=
  digests.mergeSort fun left right => (compare left right).isLE

/-- The SHA-256 of the SHA-256 of a message. -/
def double (message : List UInt8) : Digest :=
  ⟨sha256d message, length_sha256d message⟩

/-- Reads the 32 bytes of a digest. -/
def read : Reader ReadError Digest := do
  let ⟨bytes, h⟩ ← Reader.bytes 32
  return ⟨bytes, h⟩

/-! ## Byte strings -/

/-- The digest with these bytes in computed order. -/
def ofBytes (bytes : List UInt8) : Except Error Digest :=
  if h : bytes.length = 32 then .ok ⟨bytes, h⟩ else .error (.byteCount bytes.length)

/-- The bytes in shown order. -/
def shownBytes (digest : Digest) : List UInt8 :=
  digest.bytes.reverse

/-- The digest with the bytes in the opposite order. -/
def reverse (digest : Digest) : Digest :=
  ⟨digest.bytes.reverse, by simp⟩

/-- The digest with these bytes in shown order. -/
def ofShownBytes (bytes : List UInt8) : Except Error Digest :=
  if bytes.isEmpty then .ok zero else reverse <$> ofBytes bytes

/-! ## Text -/

/-- The 64 lowercase hex digits of a digest in shown order. -/
def text (digest : Digest) : String :=
  Hex.encode digest.shownBytes

/-- The digest that a text shows. That the text is hex is checked before its length. -/
def ofText (text : String) : Except Error Digest :=
  if text.isEmpty then .ok zero
  else
    match Hex.decode text with
    | .error cause => .error (.hex cause)
    | .ok bytes =>
      if bytes.length = 32 then ofShownBytes bytes else .error (.digitCount (textBytes text).length)

/-! ## What is shown is read back -/

@[simp] theorem length_shownBytes (digest : Digest) : digest.shownBytes.length = 32 := by
  simp [shownBytes]

@[simp] theorem ofShownBytes_shownBytes (digest : Digest) :
    ofShownBytes digest.shownBytes = .ok digest := by
  have hlength := digest.length_shownBytes
  have hne : digest.shownBytes.isEmpty = false := by
    rw [List.isEmpty_eq_false_iff, ← List.length_pos_iff, hlength]
    decide
  rw [ofShownBytes, if_neg (by simp [hne]), ofBytes, dif_pos hlength]
  exact congrArg Except.ok (Digest.ext (List.reverse_reverse digest.bytes))

theorem text_ne_empty (digest : Digest) : digest.text ≠ "" := by
  intro h
  have hlength := digest.length_shownBytes
  have hread : Hex.decode "" = .ok digest.shownBytes := h ▸ Hex.decode_encode digest.shownBytes
  have hnil : Hex.decode "" = .ok [] := rfl
  rw [← Except.ok.inj (hnil.symm.trans hread)] at hlength
  cases hlength

/-- The text of a digest shows this digest. -/
@[simp] theorem ofText_text (digest : Digest) : ofText digest.text = .ok digest := by
  have hne : ¬digest.text.isEmpty = true := mt String.isEmpty_iff.mp digest.text_ne_empty
  rw [ofText, if_neg hne, text, Hex.decode_encode]
  simp only [if_pos digest.length_shownBytes]
  exact digest.ofShownBytes_shownBytes

end Digest

end SpvEnvelope
