import SpvEnvelope.Proofs.Grammar

/-!
# Where reading stops

The grammar says which byte strings start with a form of a value. Here is the other side, again said
without a reader: which byte strings do not, and what is wrong with each. A flaw is a fault together
with the input that it is found in. The input is complete up to the place that the fault names, and
what follows there is too short for the next field or holds a value that this field cannot have.

A fault that names its place by positions has that many complete items before it. The fields of a
transaction are named without a position: in which input or output the flaw lies is not reported.
-/

namespace SpvEnvelope

/-! ## Integers -/

/-- A variable-length integer is cut off before its lead byte, or inside the number that the lead
byte announces. -/
inductive VarInt.Flaw : ReadError → List UInt8 → Prop
  | lead : Flaw (.unexpectedEnd 1 0) []
  | three {rest : List UInt8} (h : rest.length < 2) :
      Flaw (.unexpectedEnd 2 rest.length) (0xfd :: rest)
  | five {rest : List UInt8} (h : rest.length < 4) :
      Flaw (.unexpectedEnd 4 rest.length) (0xfe :: rest)
  | nine {rest : List UInt8} (h : rest.length < 8) :
      Flaw (.unexpectedEnd 8 rest.length) (0xff :: rest)

/-- The input ends before a variable-length integer does. -/
def VarInt.Cut (input : List UInt8) : Prop :=
  ∃ cause, VarInt.Flaw cause input

/-! ## Transactions -/

/-- Flaws of a script whose content is named `field`. -/
inductive Script.Flaw (field : TxField) : TxError → List UInt8 → Prop
  | lengthCut {cause : ReadError} {input : List UInt8} (h : VarInt.Flaw cause input) :
      Flaw field (.field .scriptLength cause) input
  | lengthTooLarge {length : UInt64} {front rest : List UInt8} (hl : VarInt.Spelling length front)
      (h : VarInt.sizeLimit ≤ length.toNat) :
      Flaw field (.field .scriptLength (.sizeTooLarge length)) (front ++ rest)
  | cut {length : UInt64} {front rest : List UInt8} (hl : VarInt.Spelling length front)
      (hlt : length.toNat < VarInt.sizeLimit) (h : rest.length < length.toNat) :
      Flaw field (.field field (.unexpectedEnd length.toNat rest.length)) (front ++ rest)

/-- Flaws of an input. -/
inductive Input.Flaw : TxError → List UInt8 → Prop
  | sourceTxid {input : List UInt8} (h : input.length < 32) :
      Flaw (.field .sourceTxid (.unexpectedEnd 32 input.length)) input
  | outputIndex {txid : Digest} {rest : List UInt8} (h : rest.length < 4) :
      Flaw (.field .outputIndex (.unexpectedEnd 4 rest.length)) (txid.bytes ++ rest)
  | script {txid : Digest} {index : UInt32} {rest : List UInt8} {e : TxError}
      (h : Script.Flaw .unlockingScript e rest) :
      Flaw e (txid.bytes ++ LittleEndian.encode 4 index.toNat ++ rest)
  | sequence {txid : Digest} {index : UInt32} {script : Script} {front rest : List UInt8}
      (hs : script.Spelling front) (hlt : script.length < VarInt.sizeLimit) (h : rest.length < 4) :
      Flaw (.field .sequence (.unexpectedEnd 4 rest.length))
        (txid.bytes ++ LittleEndian.encode 4 index.toNat ++ front ++ rest)

/-- Flaws of an output. -/
inductive Output.Flaw : TxError → List UInt8 → Prop
  | satoshis {input : List UInt8} (h : input.length < 8) :
      Flaw (.field .satoshis (.unexpectedEnd 8 input.length)) input
  | script {satoshis : UInt64} {rest : List UInt8} {e : TxError}
      (h : Script.Flaw .lockingScript e rest) :
      Flaw e (LittleEndian.encode 8 satoshis.toNat ++ rest)

/-- Flaws of the counted items of a transaction, each of which has a form and is valid if it is
complete, and a flaw if it is not. -/
inductive TxItems.Flaw {α : Type} (items : TxItems) (field : TxField) (minLength : Nat)
    (valid : α → Prop) (form : α → List UInt8 → Prop) (flaw : TxError → List UInt8 → Prop) :
    TxError → List UInt8 → Prop
  | countCut {cause : ReadError} {input : List UInt8} (h : VarInt.Flaw cause input) :
      Flaw items field minLength valid form flaw (.field field cause) input
  | implausibleCount {count : UInt64} {front rest : List UInt8} (hc : VarInt.Spelling count front)
      (h : VarInt.sizeLimit ≤ count.toNat ∨ rest.length < count.toNat * minLength) :
      Flaw items field minLength valid form flaw (.implausibleCount items count rest.length)
        (front ++ rest)
  | item {count : UInt64} {before : List α} {front body rest : List UInt8} {e : TxError}
      (hc : VarInt.Spelling count front) (hlt : count.toNat < VarInt.sizeLimit)
      (hle : count.toNat * minLength ≤ (body ++ rest).length) (hi : before.length < count.toNat)
      (hv : ∀ item ∈ before, valid item) (hb : Sequence form before body) (h : flaw e rest) :
      Flaw items field minLength valid form flaw e (front ++ body ++ rest)

/-- Flaws of the counted inputs of a transaction. -/
def Transaction.InputsFlaw : TxError → List UInt8 → Prop :=
  TxItems.inputs.Flaw .inputCount Input.minLength Input.Sized Input.Spelling Input.Flaw

/-- Flaws of the counted outputs of a transaction. -/
def Transaction.OutputsFlaw : TxError → List UInt8 → Prop :=
  TxItems.outputs.Flaw .outputCount Output.minLength Output.Sized Output.Spelling Output.Flaw

/-- Flaws of a transaction. -/
inductive Transaction.Flaw : TxError → List UInt8 → Prop
  | version {input : List UInt8} (h : input.length < 4) :
      Flaw (.field .version (.unexpectedEnd 4 input.length)) input
  | inputs {version : UInt32} {rest : List UInt8} {e : TxError} (h : InputsFlaw e rest) :
      Flaw e (LittleEndian.encode 4 version.toNat ++ rest)
  | outputs {version : UInt32} {inputs : List Input} {front rest : List UInt8} {e : TxError}
      (hil : inputs.length < VarInt.sizeLimit) (hiv : ∀ input ∈ inputs, input.Sized)
      (hi : Counted Input.Spelling inputs front) (h : OutputsFlaw e rest) :
      Flaw e (LittleEndian.encode 4 version.toNat ++ front ++ rest)
  | lockTime {version : UInt32} {inputs : List Input} {outputs : List Output}
      {front body rest : List UInt8} (hil : inputs.length < VarInt.sizeLimit)
      (hiv : ∀ input ∈ inputs, input.Sized) (hi : Counted Input.Spelling inputs front)
      (hol : outputs.length < VarInt.sizeLimit) (hov : ∀ output ∈ outputs, output.Sized)
      (ho : Counted Output.Spelling outputs body) (h : rest.length < 4) :
      Flaw (.field .lockTime (.unexpectedEnd 4 rest.length))
        (LittleEndian.encode 4 version.toNat ++ front ++ body ++ rest)

/-! ## Proofs -/

/-- Flaws of a leaf. -/
inductive Leaf.Flaw : LeafFault → List UInt8 → Prop
  | offsetCut {input : List UInt8} (h : VarInt.Cut input) : Flaw .offsetCut input
  | flagCut {offset : UInt64} {front : List UInt8} (ho : VarInt.Spelling offset front) :
      Flaw .flagCut front
  | badFlag {offset : UInt64} {front rest : List UInt8} {flag : UInt8}
      (ho : VarInt.Spelling offset front) (h : flag ≠ 0 ∧ flag ≠ 1 ∧ flag ≠ 2) :
      Flaw (.badFlag flag) (front ++ flag :: rest)
  | hashCut {offset : UInt64} {front rest : List UInt8} {flag : UInt8}
      (ho : VarInt.Spelling offset front) (hf : flag = 0 ∨ flag = 2) (h : rest.length < 32) :
      Flaw .hashCut (front ++ flag :: rest)

namespace MerkleProof

/-- A level whose first `index` leaves are complete, with what follows them. -/
inductive AtLeaf : Nat → List UInt8 → List UInt8 → Prop
  | intro {count : UInt64} {before : List ProofLeaf} {front body rest : List UInt8}
      (hc : VarInt.Spelling count front) (hlt : count.toNat < VarInt.sizeLimit)
      (hle : count.toNat ≤ (body ++ rest).length / 2) (hi : before.length < count.toNat)
      (hb : Sequence (fun leaf => leaf.val.Spelling) before body) :
      AtLeaf before.length (front ++ body ++ rest) rest

/-- Flaws of a level. -/
inductive LevelFlaw : LevelFault → List UInt8 → Prop
  | countCut {input : List UInt8} (h : VarInt.Cut input) : LevelFlaw .countCut input
  | countTooLarge {count : UInt64} {front rest : List UInt8} (hc : VarInt.Spelling count front)
      (h : VarInt.sizeLimit ≤ count.toNat) : LevelFlaw (.countTooLarge count) (front ++ rest)
  | implausibleCount {count : UInt64} {front rest : List UInt8} (hc : VarInt.Spelling count front)
      (hlt : count.toNat < VarInt.sizeLimit) (h : rest.length / 2 < count.toNat) :
      LevelFlaw (.implausibleCount count rest.length) (front ++ rest)
  | leaf {index : Nat} {input rest : List UInt8} {fault : LeafFault} (ha : AtLeaf index input rest)
      (h : Leaf.Flaw fault rest) : LevelFlaw (.leaf index fault) input

/-- A proof whose first `index` levels are complete, with what follows them. -/
inductive AtLevel : Nat → List UInt8 → List UInt8 → Prop
  | intro {blockHeight : UInt64} {treeHeight : UInt8} {before : List (List ProofLeaf)}
      {front body rest : List UInt8} (hb : VarInt.Spelling blockHeight front)
      (hle : treeHeight.toNat ≤ 64) (hi : before.length < treeHeight.toNat)
      (hv : ∀ level ∈ before, level.length < VarInt.sizeLimit)
      (hs : Sequence LevelSpelling before body) :
      AtLevel before.length (front ++ treeHeight :: (body ++ rest)) rest

/-- Flaws of a proof. -/
inductive Flaw : ProofFault → List UInt8 → Prop
  | blockHeightCut {input : List UInt8} (h : VarInt.Cut input) : Flaw .blockHeightCut input
  | treeHeightCut {blockHeight : UInt64} {front : List UInt8}
      (hb : VarInt.Spelling blockHeight front) : Flaw .treeHeightCut front
  | treeHeightTooLarge {blockHeight : UInt64} {front rest : List UInt8} {treeHeight : UInt8}
      (hb : VarInt.Spelling blockHeight front) (h : 64 < treeHeight.toNat) :
      Flaw (.treeHeightTooLarge treeHeight) (front ++ treeHeight :: rest)
  | level {index : Nat} {input rest : List UInt8} {fault : LevelFault}
      (ha : AtLevel index input rest) (h : LevelFlaw fault rest) : Flaw (.level index fault) input

end MerkleProof

/-! ## Envelopes -/

/-- Flaws of a record. -/
inductive Record.Flaw : RecordFault → List UInt8 → Prop
  | transaction {cause : TxError} {input : List UInt8} (h : Transaction.Flaw cause input) :
      Flaw (.transaction cause) input
  | markCut {tx : Transaction} {front : List UInt8} (hs : tx.Sized) (ht : tx.Spelling front) :
      Flaw .markCut front
  | badMark {tx : Transaction} {front rest : List UInt8} {mark : UInt8} (hs : tx.Sized)
      (ht : tx.Spelling front) (h : mark ≠ 0 ∧ mark ≠ 1) :
      Flaw (.badMark mark) (front ++ mark :: rest)
  | proofIndexCut {tx : Transaction} {front rest : List UInt8} (hs : tx.Sized)
      (ht : tx.Spelling front) (h : VarInt.Cut rest) : Flaw .proofIndexCut (front ++ 1 :: rest)
  | proofIndexTooLarge {tx : Transaction} {index : UInt64} {front body rest : List UInt8}
      (hs : tx.Sized) (ht : tx.Spelling front) (hi : VarInt.Spelling index body)
      (h : VarInt.sizeLimit ≤ index.toNat) :
      Flaw (.proofIndexTooLarge index) (front ++ 1 :: (body ++ rest))

namespace Envelope

/-- Counted proofs of which the first `index` are complete, with what follows them. -/
inductive AtProof : Nat → List UInt8 → List UInt8 → Prop
  | intro {count : UInt64} {before : List MerkleProof} {front body rest : List UInt8}
      (hc : VarInt.Spelling count front) (hlt : count.toNat < VarInt.sizeLimit)
      (hi : before.length < count.toNat) (hv : ∀ proof ∈ before, proof.Sized)
      (hb : Sequence MerkleProof.Spelling before body) :
      AtProof before.length (front ++ body ++ rest) rest

/-- Flaws of the counted proofs. -/
inductive ProofsFlaw : DecodeError → List UInt8 → Prop
  | countCut {input : List UInt8} (h : VarInt.Cut input) : ProofsFlaw .noProofCount input
  | countTooLarge {count : UInt64} {front rest : List UInt8} (hc : VarInt.Spelling count front)
      (h : VarInt.sizeLimit ≤ count.toNat) : ProofsFlaw (.proofCountTooLarge count) (front ++ rest)
  | none {front rest : List UInt8} (hc : VarInt.Spelling 0 front) :
      ProofsFlaw .noProofs (front ++ rest)
  | proof {index : Nat} {input rest : List UInt8} {fault : ProofFault}
      (ha : AtProof index input rest) (h : MerkleProof.Flaw fault rest) :
      ProofsFlaw (.proof index fault) input

/-- Counted records of which the first `index` are complete, with what follows them. -/
inductive AtRecord : Nat → List UInt8 → List UInt8 → Prop
  | intro {count : UInt64} {before : List Record} {front body rest : List UInt8}
      (hc : VarInt.Spelling count front) (htwo : 2 ≤ count.toNat)
      (hlt : count.toNat < VarInt.sizeLimit)
      (hle : count.toNat * Record.minLength ≤ (body ++ rest).length)
      (hi : before.length < count.toNat) (hv : ∀ record ∈ before, record.transaction.Sized)
      (hb : Sequence Record.Spelling before body) :
      AtRecord before.length (front ++ body ++ rest) rest

/-- Flaws of the counted records. -/
inductive RecordsFlaw : DecodeError → List UInt8 → Prop
  | countCut {input : List UInt8} (h : VarInt.Cut input) : RecordsFlaw .txCountCut input
  | tooFew {count : UInt64} {front rest : List UInt8} (hc : VarInt.Spelling count front)
      (h : count.toNat < 2) : RecordsFlaw (.tooFewTransactions count) (front ++ rest)
  | countTooLarge {count : UInt64} {front rest : List UInt8} (hc : VarInt.Spelling count front)
      (h : VarInt.sizeLimit ≤ count.toNat) : RecordsFlaw (.txCountTooLarge count) (front ++ rest)
  | implausibleCount {count : UInt64} {front rest : List UInt8} (hc : VarInt.Spelling count front)
      (htwo : 2 ≤ count.toNat) (hlt : count.toNat < VarInt.sizeLimit)
      (h : rest.length < count.toNat * Record.minLength) :
      RecordsFlaw (.implausibleTxCount count rest.length) (front ++ rest)
  | record {index : Nat} {input rest : List UInt8} {fault : RecordFault}
      (ha : AtRecord index input rest) (h : Record.Flaw fault rest) :
      RecordsFlaw (.record index fault) input

/-- The forms of the version and the marker. -/
def header (version : UInt16) : List UInt8 :=
  LittleEndian.encode 2 version.toNat ++ [0xbe, 0xef]

/-- Flaws of an envelope. -/
inductive Flaw : DecodeError → List UInt8 → Prop
  | tooShort {bytes : List UInt8} (h : bytes.length < 4) : Flaw (.tooShort bytes.length) bytes
  | badMarker {version : UInt16} {first second : UInt8} {rest : List UInt8}
      (h : [first, second] ≠ [0xbe, 0xef]) :
      Flaw (.badMarker first second)
        (LittleEndian.encode 2 version.toNat ++ first :: second :: rest)
  | proofs {version : UInt16} {rest : List UInt8} {e : DecodeError} (h : ProofsFlaw e rest) :
      Flaw e (header version ++ rest)
  | records {version : UInt16} {proofs : List MerkleProof} {front rest : List UInt8}
      {e : DecodeError} (one_le : 1 ≤ proofs.length) (hlt : proofs.length < VarInt.sizeLimit)
      (hv : ∀ proof ∈ proofs, proof.Sized) (hp : Counted MerkleProof.Spelling proofs front)
      (h : RecordsFlaw e rest) : Flaw e (header version ++ front ++ rest)
  | trailing {envelope : Envelope} {front rest : List UInt8} (hs : envelope.Sized)
      (he : envelope.Spelling front) (h : rest ≠ []) : Flaw (.trailing rest.length) (front ++ rest)

end Envelope

end SpvEnvelope
