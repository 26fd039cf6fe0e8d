import SpvEnvelope.Hash.Digest

/-!
# Transactions

A transaction spends outputs of earlier transactions, named by txid and position, and creates
outputs of its own. A script is carried as bytes and never run here: judging it is left to a script
verifier. A transaction that cannot be read is reported with the field at which reading stopped.

| here | there |
| --- | --- |
| `Transaction`, `Input`, `Output`, `Script` | `Transaction`, `TransactionInput`, `TransactionOutput`, `Script` (§10.2) |
| `finalSequence`, `Input.isFinal` | `MAX_SEQUENCE_NUMBER`, `is_final` |
| `TxError` | `TransactionError` |
-/

namespace SpvEnvelope

/-! ## Errors -/

/-- The fields of a transaction's wire form. -/
inductive TxField where
  | version
  | inputCount
  | sourceTxid
  | outputIndex
  | scriptLength
  | unlockingScript
  | sequence
  | outputCount
  | satoshis
  | lockingScript
  | lockTime
deriving DecidableEq

/-- The name of a field. -/
def TxField.label : TxField → String
  | .version => "version"
  | .inputCount => "input count"
  | .sourceTxid => "source txid"
  | .outputIndex => "output index"
  | .scriptLength => "script length"
  | .unlockingScript => "unlocking script"
  | .sequence => "sequence number"
  | .outputCount => "output count"
  | .satoshis => "satoshis"
  | .lockingScript => "locking script"
  | .lockTime => "lock time"

/-- The two kinds of items that a transaction lists. -/
inductive TxItems where
  | inputs
  | outputs
deriving DecidableEq

/-- What one such item is called. -/
def TxItems.label : TxItems → String
  | .inputs => "input"
  | .outputs => "output"

/-- Why a text or byte string is not a transaction or a script. -/
inductive TxError where
  /-- The text of the transaction is not hex. -/
  | hex (cause : Hex.Error)
  /-- A field could not be read. -/
  | field (name : TxField) (cause : ReadError)
  /-- So many items cannot fit in the bytes that remain. -/
  | implausibleCount (items : TxItems) (count : UInt64) (remaining : Nat)
  /-- Bytes follow the end of the transaction. -/
  | trailing (count : Nat)
  /-- The text of a script is not hex. -/
  | scriptHex (cause : Hex.Error)
deriving DecidableEq

namespace TxError

/-- The wording of the error that this one wraps, if it names one. -/
def cause? : TxError → Option String
  | .scriptHex cause => some ("invalid hex: " ++ cause.message)
  | _ => none

/-- The wording of an error. -/
def message : TxError → String
  | .hex cause => "serialization error: invalid hex: " ++ cause.message
  | .field name cause => "serialization error: reading " ++ name.label ++ ": " ++ cause.message
  | .implausibleCount items count remaining =>
    items.label ++ s!" count {count} cannot fit in {remaining} remaining bytes"
  | .trailing count => s!"serialization error: trailing {count} bytes after transaction"
  | .scriptHex cause => "primitives error: invalid hex: " ++ cause.message

end TxError

/-! ## Scripts -/

/-- The bytes of a locking or unlocking script. -/
@[ext] structure Script where
  bytes : List UInt8
deriving DecidableEq

namespace Script

/-- The script without bytes. -/
def empty : Script := ⟨[]⟩

/-- The number of bytes. -/
def length (script : Script) : Nat :=
  script.bytes.length

/-- The hex text of a script. -/
def text (script : Script) : String :=
  Hex.encode script.bytes

/-- The hex text of a script, labelled as one. -/
def label (script : Script) : String :=
  "Script(" ++ script.text ++ ")"

end Script

/-- The script that a hex text denotes. -/
def Script.ofText (text : String) : Except TxError Script :=
  match Hex.decode text with
  | .ok bytes => .ok ⟨bytes⟩
  | .error cause => .error (.scriptHex cause)

/-! ## Transactions -/

/-- The sequence number that makes an input final. -/
def finalSequence : UInt32 := 0xffffffff

/-- A spend of the output at position `outputIndex` of the transaction `sourceTxid`. -/
@[ext] structure Input where
  sourceTxid : Digest
  outputIndex : UInt32
  script : Script := .empty
  sequence : UInt32 := finalSequence
deriving DecidableEq

/-- Whether the input is final. -/
def Input.isFinal (input : Input) : Bool :=
  input.sequence == finalSequence

/-- An amount, locked by a script. -/
@[ext] structure Output where
  satoshis : UInt64 := 0
  script : Script := .empty
deriving DecidableEq

/-- A transaction. -/
@[ext] structure Transaction where
  version : UInt32 := 1
  inputs : List Input := []
  outputs : List Output := []
  lockTime : UInt32 := 0
deriving DecidableEq

namespace Transaction

/-- The transaction that spends and creates nothing. -/
def empty : Transaction := {}

/-- The first input that is not final, with its position. -/
def nonFinalInput? (tx : Transaction) : Option (Input × Nat) :=
  tx.inputs.zipIdx.find? fun entry => !entry.1.isFinal

end Transaction

end SpvEnvelope
