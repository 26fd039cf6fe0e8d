import SpvEnvelope.Bytes.VarInt
import SpvEnvelope.Tx.Basic

/-!
# Wire form of transactions

Version, inputs, outputs and lock time follow one another; lists and scripts are preceded by their
length. A count of items is refused when the bytes that remain could not hold that many of the
smallest ones, so reading never plans for more items than the input can have.

The txid is taken over the written form, in which every length is as short as it can be, and not
over the bytes that were read.

| here | there |
| --- | --- |
| `Transaction.read`, `ofBytes`, `ofText` | `read_from`, `from_bytes`, `from_hex` (§10.2) |
| `Transaction.encode`, `text`, `txid` | `to_bytes`, `to_hex`, `tx_id` |
| `TxItems.readCount` | `bounded_count` |
-/

namespace SpvEnvelope

/-! ## Writing -/

/-- A script behind its length. -/
def Script.encode (script : Script) : List UInt8 :=
  VarInt.encodeCount script.length ++ script.bytes

/-- The wire form of an input. -/
def Input.encode (input : Input) : List UInt8 :=
  input.sourceTxid.bytes ++ LittleEndian.encode 4 input.outputIndex.toNat ++ input.script.encode
    ++ LittleEndian.encode 4 input.sequence.toNat

/-- The wire form of an output. -/
def Output.encode (output : Output) : List UInt8 :=
  LittleEndian.encode 8 output.satoshis.toNat ++ output.script.encode

namespace Transaction

/-- The wire form of a transaction. -/
def encode (tx : Transaction) : List UInt8 :=
  LittleEndian.encode 4 tx.version.toNat
    ++ VarInt.encodeCount tx.inputs.length ++ tx.inputs.flatMap Input.encode
    ++ VarInt.encodeCount tx.outputs.length ++ tx.outputs.flatMap Output.encode
    ++ LittleEndian.encode 4 tx.lockTime.toNat

/-- The hex text of the wire form. -/
def text (tx : Transaction) : String :=
  Hex.encode tx.encode

/-- The identity of a transaction: the double SHA-256 of its wire form. -/
def txid (tx : Transaction) : Digest :=
  Digest.double tx.encode

end Transaction

/-! ## Reading -/

/-- Reads a field, reporting a failure under its name. -/
def TxField.read {α : Type} (field : TxField) (reader : Reader ReadError α) : Reader TxError α :=
  reader.mapError (TxError.field field)

/-- Reads a script, naming its content `field`. -/
def Script.read (field : TxField) : Reader TxError Script := do
  let length ← TxField.scriptLength.read VarInt.readSize
  let bytes ← field.read (Reader.bytes length)
  return ⟨bytes.val⟩

/-- Reads an input. -/
def Input.read : Reader TxError Input := do
  let sourceTxid ← TxField.sourceTxid.read Digest.read
  let outputIndex ← TxField.outputIndex.read Reader.u32
  let script ← Script.read .unlockingScript
  let sequence ← TxField.sequence.read Reader.u32
  return { sourceTxid, outputIndex, script, sequence }

/-- Reads an output. -/
def Output.read : Reader TxError Output := do
  let satoshis ← TxField.satoshis.read Reader.u64
  let script ← Script.read .lockingScript
  return { satoshis, script }

/-- The length of the shortest input. -/
def Input.minLength : Nat := 41

/-- The length of the shortest output. -/
def Output.minLength : Nat := 9

/-- Reads a count of items of at least `minLength` bytes each. -/
def TxItems.readCount (items : TxItems) (field : TxField) (minLength : Nat) :
    Reader TxError Nat := do
  let count ← field.read VarInt.read
  let input ← get
  if count.toNat < VarInt.sizeLimit && hasAtLeast (count.toNat * minLength) input then
    return count.toNat
  else
    throw (.implausibleCount items count input.length)

namespace Transaction

/-- Reads a transaction. -/
def read : Reader TxError Transaction := do
  let version ← TxField.version.read Reader.u32
  let inputCount ← TxItems.inputs.readCount .inputCount Input.minLength
  let inputs ← Reader.items inputCount fun _ => Input.read
  let outputCount ← TxItems.outputs.readCount .outputCount Output.minLength
  let outputs ← Reader.items outputCount fun _ => Output.read
  let lockTime ← TxField.lockTime.read Reader.u32
  return { version, inputs := inputs.val, outputs := outputs.val, lockTime }

/-- The transaction whose wire form is `bytes`, in full. -/
def ofBytes (bytes : List UInt8) : Except TxError Transaction :=
  match read.run bytes with
  | .ok tx [] => .ok tx
  | .ok _ rest => .error (.trailing rest.length)
  | .error e _ => .error e

/-- The transaction whose wire form has the hex text `text`. -/
def ofText (text : String) : Except TxError Transaction :=
  match Hex.decode text with
  | .ok bytes => ofBytes bytes
  | .error cause => .error (.hex cause)

end Transaction

end SpvEnvelope
