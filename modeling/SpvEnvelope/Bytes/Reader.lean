/-!
# Reading byte strings

A reader consumes bytes from the front of its input. What is left of the input is its state, also
after a failure: a read that fails leaves the input as it was, while the reads before it have
consumed theirs.

Integers are little-endian: a number is written in a fixed count of bytes, the least significant one
first, and every byte string is the written form of the number it is read as
(`LittleEndian.encode_decode`).

| here | there |
| --- | --- |
| `Reader` | `BsvReader`, its data from its position on (§10.1) |
| `Reader.bytes` | `read_bytes`, `read_array` |
| `Reader.u8`, `u16`, `u32`, `u64` | `read_u8`, `read_u16_le`, `read_u32_le`, `read_u64_le` |
| `ReadError` | `UnexpectedEof`, `VarIntTooLarge` |
-/

namespace SpvEnvelope

/-! ## Steps that may fail -/

section

variable {α β ε : Type} {x : Except ε α} {f : α → Except ε β}

@[simp] theorem Except.pure_eq_ok (a : α) : (pure a : Except ε α) = .ok a := rfl

@[simp] theorem Except.throw_eq_error (e : ε) : (throw e : Except ε α) = .error e := rfl

@[simp] theorem Except.ok_bind (a : α) : (.ok a : Except ε α) >>= f = f a := rfl

@[simp] theorem Except.error_bind (e : ε) : (.error e : Except ε α) >>= f = .error e := rfl

@[simp] theorem Except.bind_eq_ok_iff {b : β} : x >>= f = .ok b ↔ ∃ a, x = .ok a ∧ f a = .ok b := by
  cases x <;> simp

@[simp] theorem Except.bind_eq_error_iff {e : ε} :
    x >>= f = .error e ↔ x = .error e ∨ ∃ a, x = .ok a ∧ f a = .error e := by
  cases x <;> simp

end

/-! ## Little-endian integers -/

namespace LittleEndian

/-- The low `width` bytes of `n`, least significant first. -/
def encode : (width : Nat) → (n : Nat) → List UInt8
  | 0, _ => []
  | width + 1, n => UInt8.ofNat n :: encode width (n / 256)

/-- The number that a byte string stands for. -/
def decode : List UInt8 → Nat
  | [] => 0
  | byte :: rest => byte.toNat + 256 * decode rest

@[simp] theorem length_encode (width n : Nat) : (encode width n).length = width := by
  induction width generalizing n with
  | zero => rfl
  | succ width ih => simp [encode, ih]

@[simp]
theorem encode_decode (bytes : List UInt8) : encode bytes.length (decode bytes) = bytes := by
  induction bytes with
  | nil => rfl
  | cons byte rest ih =>
    have hb := byte.toNat_lt
    simp only [List.length_cons, encode, decode]
    congr 1
    · apply UInt8.toNat_inj.mp
      simp
    · rw [show (byte.toNat + 256 * decode rest) / 256 = decode rest by omega, ih]

end LittleEndian

/-! ## Readers -/

/-- Why a single read fails. -/
inductive ReadError where
  /-- Fewer bytes remain than were asked for. -/
  | unexpectedEnd (needed remaining : Nat)
  /-- A variable-length integer is too large to count bytes or items. -/
  | sizeTooLarge (value : UInt64)
deriving DecidableEq

/-- The wording of a failed read. -/
def ReadError.message : ReadError → String
  | .unexpectedEnd needed remaining =>
    s!"unexpected end of data: needed {needed} bytes, {remaining} remaining"
  | .sizeTooLarge value => s!"varint value {value} exceeds the host size range"

/-- A computation that consumes bytes from the front of its input and may fail with an `ε`. -/
abbrev Reader (ε α : Type) := EStateM ε (List UInt8) α

/-- Whether at least `n` bytes are there, looking at no more than `n` of them. -/
def hasAtLeast (n : Nat) (input : List UInt8) : Bool :=
  n == 0 || !(input.drop (n - 1)).isEmpty

@[simp] theorem hasAtLeast_eq (n : Nat) (input : List UInt8) :
    hasAtLeast n input = decide (n ≤ input.length) := by
  rw [Bool.eq_iff_iff]
  simp only [hasAtLeast, Bool.or_eq_true, beq_iff_eq, Bool.not_eq_true', List.isEmpty_eq_false_iff,
    ne_eq, List.drop_eq_nil_iff, decide_eq_true_eq]
  omega

namespace Reader

variable {ε ε' α : Type}

/-- The same reader with its failures reported through `f`. -/
def mapError (f : ε → ε') (reader : Reader ε α) : Reader ε' α :=
  EStateM.adaptExcept f reader

/-- Takes exactly `n` bytes, or none if fewer remain. -/
def bytes (n : Nat) : Reader ReadError { taken : List UInt8 // taken.length = n } := fun input =>
  let taken := input.take n
  if h : taken.length = n then .ok ⟨taken, h⟩ (input.drop n)
  else .error (.unexpectedEnd n input.length) input

/-- An unsigned integer of `width` bytes. -/
def uint (width : Nat) : Reader ReadError Nat := do
  let taken ← bytes width
  return LittleEndian.decode taken.val

/-- An 8-bit integer. -/
def u8 : Reader ReadError UInt8 := UInt8.ofNat <$> uint 1

/-- A 16-bit integer. -/
def u16 : Reader ReadError UInt16 := UInt16.ofNat <$> uint 2

/-- A 32-bit integer. -/
def u32 : Reader ReadError UInt32 := UInt32.ofNat <$> uint 4

/-- A 64-bit integer. -/
def u64 : Reader ReadError UInt64 := UInt64.ofNat <$> uint 8

/-- Reads `count` more items, the next of them being item `index`, onto `done`, which holds the
items read so far, last one first. -/
def itemsOnto (item : Nat → Reader ε α) (index : Nat) :
    (count : Nat) → (done : List α) →
      Reader ε { items : List α // items.length = done.length + count }
  | 0, done => return ⟨done.reverse, by simp⟩
  | count + 1, done => do
    let next ← item index
    let ⟨items, h⟩ ← itemsOnto item (index + 1) count (next :: done)
    return ⟨items, by rw [h, List.length_cons]; omega⟩

/-- Reads exactly `count` items in order; `item i` reads the item at position `i`. -/
def items (count : Nat) (item : Nat → Reader ε α) :
    Reader ε { items : List α // items.length = count } := do
  let ⟨items, h⟩ ← itemsOnto item 0 count []
  return ⟨items, by simpa using h⟩

end Reader

end SpvEnvelope
