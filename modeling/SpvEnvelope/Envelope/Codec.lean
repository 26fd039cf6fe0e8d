import SpvEnvelope.Envelope.Basic
import SpvEnvelope.Merkle.Codec

/-!
# Wire form of envelopes

Two bytes of version and the two marker bytes are followed by the counted proofs and the counted
transaction records. A record is a transaction and a mark, which is one if a proof index follows and
zero otherwise. An envelope without proofs can be written but not read.

| here | there |
| --- | --- |
| `Envelope.encode`, `text` | `DecodedBeef.to_bytes`, `to_hex` (§11.1) |
| `Envelope.read`, `readProofs`, `readRecords` | `decode`, `read_bumps`, `read_transactions` (§4.3) |
| `Envelope.decode` | `DecodedBeef.from_bytes` |
| `Envelope.ofBytes`, `ofText` | `from_bytes_with_config`, `decode_beef_hex` |
-/

namespace SpvEnvelope

/-! ## Writing -/

/-- The wire form of a record's proof index. -/
def Record.encodeProofIndex : Option UInt64 → List UInt8
  | some index => 1 :: VarInt.encode index
  | none => [0]

/-- The wire form of a record. -/
def Record.encode (record : Record) : List UInt8 :=
  record.transaction.encode ++ encodeProofIndex record.proofIndex

namespace Envelope

/-- The two bytes that follow the version. -/
def marker : List UInt8 := [0xbe, 0xef]

/-- The wire form of an envelope. -/
def encode (envelope : Envelope) : List UInt8 :=
  LittleEndian.encode 2 envelope.version.toNat ++ marker
    ++ VarInt.encodeCount envelope.proofs.length ++ envelope.proofs.flatMap MerkleProof.encode
    ++ VarInt.encodeCount envelope.records.length ++ envelope.records.flatMap Record.encode

/-- The hex text of the wire form. -/
def text (envelope : Envelope) : String :=
  Hex.encode envelope.encode

end Envelope

/-! ## Reading -/

/-- Reads a mark and the proof index that it announces. -/
def Record.readProofIndex : Reader RecordFault (Option UInt64) := do
  let mark ← Reader.u8.mapError fun _ => .markCut
  if mark = 0 then return none
  else if mark = 1 then
    let index ← VarInt.read.mapError fun _ => .proofIndexCut
    if index.toNat < VarInt.sizeLimit then return some index
    else throw (.proofIndexTooLarge index)
  else throw (.badMark mark)

/-- Reads a record. -/
def Record.read : Reader RecordFault Record := do
  let transaction ← Transaction.read.mapError .transaction
  let proofIndex ← readProofIndex
  return .ofTransaction transaction proofIndex

/-- The length of the shortest record. -/
def Record.minLength : Nat := 11

namespace Envelope

/-- Reads the version and the marker of an envelope of `length` bytes. -/
def readHeader (length : Nat) : Reader DecodeError UInt16 := do
  let version ← Reader.u16.mapError fun _ => .tooShort length
  let first ← Reader.u8.mapError fun _ => .tooShort length
  let second ← Reader.u8.mapError fun _ => .tooShort length
  if [first, second] = marker then return version
  else throw (.badMarker first second)

/-- Reads the counted proofs, of which there must be one. -/
def readProofs : Reader DecodeError (List MerkleProof) := do
  let count ← VarInt.read.mapError fun _ => .noProofCount
  if VarInt.sizeLimit ≤ count.toNat then throw (.proofCountTooLarge count)
  else if count = 0 then throw .noProofs
  else
    let proofs ← Reader.items count.toNat fun index => MerkleProof.read.mapError (.proof index)
    return proofs.val

/-- Reads the counted records, of which there must be two. -/
def readRecords : Reader DecodeError { records : List Record // 2 ≤ records.length } := do
  let count ← VarInt.read.mapError fun _ => .txCountCut
  let input ← get
  if h : 2 ≤ count.toNat then
    if VarInt.sizeLimit ≤ count.toNat then throw (.txCountTooLarge count)
    else if hasAtLeast (count.toNat * Record.minLength) input then
      let ⟨records, hr⟩ ← Reader.items count.toNat fun index => Record.read.mapError (.record index)
      return ⟨records, by rw [hr]; exact h⟩
    else throw (.implausibleTxCount count input.length)
  else throw (.tooFewTransactions count)

/-- Reads an envelope of `length` bytes. -/
def read (length : Nat) : Reader DecodeError Envelope := do
  let version ← readHeader length
  let proofs ← readProofs
  let ⟨records, h⟩ ← readRecords
  return ⟨version, proofs, records, h⟩

/-- The envelope whose wire form is `bytes`, in full. -/
def decode (bytes : List UInt8) : Except DecodeError Envelope :=
  let length := bytes.length
  if length < 4 then .error (.tooShort length)
  else
    match (read length).run bytes with
    | .ok envelope [] => .ok envelope
    | .ok _ rest => .error (.trailing rest.length)
    | .error e _ => .error e

/-- The envelope whose wire form is `bytes`, in full, if it is within the limit of `config`. -/
def ofBytes (config : Config) (bytes : List UInt8) : Except DecodeError Envelope :=
  match config.maxLength with
  | some limit =>
    if limit < bytes.length then .error (.tooLong bytes.length limit) else decode bytes
  | none => decode bytes

/-- Without a limit, every byte string is looked at. -/
@[simp] theorem ofBytes_default (bytes : List UInt8) : ofBytes {} bytes = decode bytes := rfl

/-- The envelope whose wire form has the hex text `text`, if it is within the limit of `config`. -/
def ofText (config : Config) (text : String) : Except DecodeError Envelope :=
  match Hex.decode text with
  | .ok bytes => ofBytes config bytes
  | .error cause => .error (.hex cause)

end Envelope

end SpvEnvelope
