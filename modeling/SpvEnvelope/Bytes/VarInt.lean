import SpvEnvelope.Bytes.Reader

/-!
# Variable-length integers

A 64-bit value takes one byte below `0xfd`; otherwise a lead byte `0xfd`, `0xfe` or `0xff` announces
two, four or eight little-endian bytes. Writing uses the shortest form that holds the value; reading
accepts any.

A value can also be written over the first bytes of a buffer (`VarInt.put`), whose bytes are
replaced where they stand, so that there are as many before as after. A write that does not fit
leaves the buffer as it was, while the writes before it have changed theirs. To write a value as a
byte string (`VarInt.toBytes`) or behind what is written so far (`VarInt.write`), it is put into a
buffer first.

| here | there |
| --- | --- |
| `VarInt.length`, `toSize` | `length`, `to_usize` of a `VarInt` (§10.1) |
| `VarInt.read`, `readSize` | `read_varint`, `read_varint_usize` |
| `VarInt.put`, `toBytes`, `write` | `put_bytes`, `to_bytes`, `write_varint` |
| `Misfit` | an index or a length out of range |
-/

namespace SpvEnvelope

namespace VarInt

/-- The number of bytes in the shortest form of a value. -/
def length (value : UInt64) : Nat :=
  if value < 0xfd then 1
  else if value < 0x10000 then 3
  else if value < 0x100000000 then 5
  else 9

/-- The shortest form of a value. -/
def encode (value : UInt64) : List UInt8 :=
  if value < 0xfd then [value.toUInt8]
  else if value < 0x10000 then 0xfd :: LittleEndian.encode 2 value.toNat
  else if value < 0x100000000 then 0xfe :: LittleEndian.encode 4 value.toNat
  else 0xff :: LittleEndian.encode 8 value.toNat

/-- The shortest form of a count of bytes or items. -/
def encodeCount (count : Nat) : List UInt8 :=
  encode (UInt64.ofNat count)

@[simp] theorem length_encode (value : UInt64) : (encode value).length = length value := by
  unfold encode length
  split
  · rfl
  · split
    · simp
    · split <;> simp

/-- Writes the shortest form over the first bytes of `buffer`, if it fits there. -/
def overwrite? (value : UInt64) (buffer : List UInt8) : Option (List UInt8) :=
  if length value ≤ buffer.length then some (encode value ++ buffer.drop (length value)) else none

/-- Reads a value in any of its forms. A failure after the lead byte leaves that byte consumed. -/
def read : Reader ReadError UInt64 := do
  let lead ← Reader.u8
  if lead = 0xff then Reader.u64
  else if lead = 0xfe then UInt32.toUInt64 <$> Reader.u32
  else if lead = 0xfd then UInt16.toUInt64 <$> Reader.u16
  else return lead.toUInt64

/-- The first value that is too large to count bytes or items. -/
def sizeLimit : Nat := 0x8000000000000000

/-- The value as a count of bytes or items. -/
def toSize (value : UInt64) : Except ReadError Nat :=
  if value.toNat < sizeLimit then .ok value.toNat else .error (.sizeTooLarge value)

/-- Reads a count of bytes or items. -/
def readSize : Reader ReadError Nat := do
  let value ← read
  match toSize value with
  | .ok size => return size
  | .error e => throw e

end VarInt

/-! ## Writing over a buffer -/

/-- Why a write over a buffer stops. -/
inductive Misfit where
  /-- There are no places from `start` to `stop` in a buffer of `length` bytes. -/
  | outside (start stop length : Nat)
  /-- There are `width` places for `given` bytes. -/
  | uneven (width given : Nat)
deriving DecidableEq

/-- A computation that writes over a buffer. -/
abbrev BufferWriter (α : Type) := EStateM Misfit (List UInt8) α

namespace BufferWriter

/-- Replaces the byte at `index`. -/
def store (index : Nat) (byte : UInt8) : BufferWriter Unit := fun buffer =>
  if index < buffer.length then .ok () (buffer.set index byte)
  else .error (.outside index (index + 1) buffer.length) buffer

/-- Replaces the bytes from `start` to `stop` by as many others. -/
def copy (start stop : Nat) (bytes : List UInt8) : BufferWriter Unit := fun buffer =>
  if ¬(start ≤ stop ∧ stop ≤ buffer.length) then .error (.outside start stop buffer.length) buffer
  else if bytes.length ≠ stop - start then .error (.uneven (stop - start) bytes.length) buffer
  else .ok () (buffer.take start ++ bytes ++ buffer.drop stop)

/-- What the writer gives, and what it makes of a buffer. -/
def runOver {α : Type} (writer : BufferWriter α) (buffer : List UInt8) :
    Except Misfit (α × List UInt8) :=
  match writer.run buffer with
  | .ok a after => .ok (a, after)
  | .error misfit _ => .error misfit

end BufferWriter

namespace VarInt

/-- Writes a marker and the bytes behind it, which end at `stop`. -/
def putMarked (marker : UInt8) (stop : Nat) (bytes : List UInt8) : BufferWriter Nat := do
  BufferWriter.store 0 marker
  BufferWriter.copy 1 stop bytes
  return stop

/-- Writes the shortest form over the first bytes of the buffer, and gives their number. -/
def put (value : UInt64) : BufferWriter Nat :=
  if value < 0xfd then do
    BufferWriter.store 0 value.toUInt8
    return 1
  else if value < 0x10000 then putMarked 0xfd 3 (LittleEndian.encode 2 value.toUInt16.toNat)
  else if value < 0x100000000 then putMarked 0xfe 5 (LittleEndian.encode 4 value.toUInt32.toNat)
  else putMarked 0xff 9 (LittleEndian.encode 8 value.toNat)

/-- The shortest form, in a buffer of its length. -/
def toBytes (value : UInt64) : Except Misfit (List UInt8) := do
  let (_, buffer) ← (put value).runOver (List.replicate (length value) 0)
  return buffer

/-- What is written so far and then the shortest form, which is first put into nine bytes. -/
def write (value : UInt64) (written : List UInt8) : Except Misfit (List UInt8) := do
  let (count, buffer) ← (put value).runOver (List.replicate 9 0)
  if count ≤ buffer.length then return written ++ buffer.take count
  else throw (.outside 0 count buffer.length)

end VarInt

end SpvEnvelope
