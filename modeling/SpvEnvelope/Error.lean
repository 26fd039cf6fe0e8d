import SpvEnvelope.Tx.Basic

/-!
# Errors

Decoding faults are nested the way the format is: a fault of a leaf lies in a level, in a proof, in
an envelope, and each layer adds the position at which it was found. Every error has a wording and a
category that tells which kind of trouble it is. All of them are permanent: the same input fails the
same way again.

| here | there |
| --- | --- |
| `Error`, `DecodeError` | `SpvError`, `DecodeError` its decoding variants (§12.1) |
| `ErrorCategory` | `ErrorCategory` (§7) |
-/

namespace SpvEnvelope

/-! ## Decoding faults -/

/-- What is wrong with an encoded leaf. -/
inductive LeafFault where
  /-- The offset is cut off. -/
  | offsetCut
  /-- The flag is cut off. -/
  | flagCut
  /-- The flag is none of the known ones. -/
  | badFlag (flag : UInt8)
  /-- The hash is cut off. -/
  | hashCut
deriving DecidableEq

/-- What is wrong with an encoded level. -/
inductive LevelFault where
  /-- The leaf count is cut off. -/
  | countCut
  /-- The leaf count is too large to be a count. -/
  | countTooLarge (count : UInt64)
  /-- So many leaves cannot fit in the bytes that remain. -/
  | implausibleCount (count : UInt64) (remaining : Nat)
  /-- The leaf at position `index` is at fault. -/
  | leaf (index : Nat) (fault : LeafFault)
deriving DecidableEq

/-- What is wrong with an encoded proof. -/
inductive ProofFault where
  /-- The block height is cut off. -/
  | blockHeightCut
  /-- The number of levels is cut off. -/
  | treeHeightCut
  /-- The number of levels is above the maximum. -/
  | treeHeightTooLarge (height : UInt8)
  /-- Level `index` is at fault. -/
  | level (index : Nat) (fault : LevelFault)
deriving DecidableEq

/-- What is wrong with an encoded transaction record. -/
inductive RecordFault where
  /-- The transaction cannot be read. -/
  | transaction (cause : TxError)
  /-- The mark that tells whether a proof index follows is cut off. -/
  | markCut
  /-- The mark is neither zero nor one. -/
  | badMark (mark : UInt8)
  /-- The proof index is cut off. -/
  | proofIndexCut
  /-- The proof index is too large to be an index. -/
  | proofIndexTooLarge (index : UInt64)
deriving DecidableEq

/-- Why a text or byte string is not an envelope or a proof. -/
inductive DecodeError where
  /-- The text is not hex. -/
  | hex (cause : Hex.Error)
  /-- The envelope is shorter than its header. -/
  | tooShort (length : Nat)
  /-- The envelope is longer than the configuration allows. -/
  | tooLong (length limit : Nat)
  /-- The two marker bytes are wrong. -/
  | badMarker (first second : UInt8)
  /-- The proof count is missing or cut off. -/
  | noProofCount
  /-- The proof count is too large to be a count. -/
  | proofCountTooLarge (count : UInt64)
  /-- The envelope has no proof. -/
  | noProofs
  /-- The proof at position `index` is at fault. -/
  | proof (index : Nat) (fault : ProofFault)
  /-- The transaction count is cut off. -/
  | txCountCut
  /-- There are fewer than two transactions. -/
  | tooFewTransactions (count : UInt64)
  /-- The transaction count is too large to be a count. -/
  | txCountTooLarge (count : UInt64)
  /-- So many transactions cannot fit in the bytes that remain. -/
  | implausibleTxCount (count : UInt64) (remaining : Nat)
  /-- The transaction record at position `index` is at fault. -/
  | record (index : Nat) (fault : RecordFault)
  /-- Bytes follow the last record. -/
  | trailing (count : Nat)
deriving DecidableEq

/-! ## All errors -/

/-- The kinds of trouble. -/
inductive ErrorCategory where
  /-- The bytes are corrupt, cut off or hostile. -/
  | malformedInput
  /-- The bundle can be read but does not prove what it claims. -/
  | structuralInconsistency
  /-- A transaction of the bundle is not valid. -/
  | invalidTransaction
  /-- The trusted headers refuse a Merkle root, or cannot be asked. -/
  | chainView
deriving DecidableEq

/-- Everything that can go wrong with proofs, envelopes and their certification. -/
inductive Error where
  /-- A text or byte string cannot be decoded. -/
  | decode (fault : DecodeError)
  /-- A proof is to have more levels than the maximum. -/
  | tooManyLevels (levels : Nat)
  /-- A leaf of a proof is neither a hashless duplicate nor one with a hash. -/
  | malformedLeaf (level : Nat) (offset : UInt64)
  /-- An envelope is to have fewer than two transactions. -/
  | tooFewTransactions (count : Nat)
  /-- A node is neither listed nor derivable. -/
  | childNotFound (level : Nat) (offset : UInt64)
  /-- Two leaves of one proof climb to different roots. -/
  | rootMismatch (blockHeight : UInt64) (first second : Digest)
  /-- No transaction of the bundle has the txid that an input spends. -/
  | noFundingTransaction (txid : Digest) (inputIndex : Nat) (sourceTxid : Digest)
  /-- The transaction that an input spends has no output at that position. -/
  | noFundingOutput (txid : Digest) (inputIndex : Nat) (sourceTxid : Digest) (outputIndex : UInt32)
  /-- A transaction points at a proof that the bundle does not have. -/
  | proofIndexOutOfRange (txid : Digest) (proofIndex : UInt64) (proofCount : Nat)
  /-- A transaction is not among the leaves of the proof it points at. -/
  | notInProof (txid : Digest) (proofIndex : UInt64)
  /-- A lock time is set and an input is not final. -/
  | lockTimeNotFinal (txid : Digest) (lockTime : UInt32) (inputIndex : Nat) (sequence : UInt32)
  /-- The script verifier refuses an input. -/
  | invalidScript (txid : Digest) (inputIndex : Nat) (reason : String)
  /-- The trusted headers have another root at this height, or none. -/
  | rootRejected (blockHeight : UInt64) (root : Digest)
  /-- The trusted headers cannot be asked. -/
  | headersUnavailable (reason : String)
deriving DecidableEq

/-- The category of an error. -/
def Error.category : Error → ErrorCategory
  | .decode _ | .tooManyLevels _ | .malformedLeaf .. | .tooFewTransactions _ => .malformedInput
  | .childNotFound .. | .rootMismatch .. | .noFundingTransaction .. | .noFundingOutput ..
  | .proofIndexOutOfRange .. | .notInProof .. => .structuralInconsistency
  | .lockTimeNotFinal .. | .invalidScript .. => .invalidTransaction
  | .rootRejected .. | .headersUnavailable _ => .chainView

/-! ## Wording -/

/-- The wording for a number that is too large to count or index anything. -/
def overflowMessage (what : String) (value : UInt64) : String :=
  what ++ s!" value {value} exceeds the maximum safe conversion range"

/-- The wording for a bundle with fewer than two transactions. -/
def tooFewMessage (count : Nat) : String :=
  s!"invalid BEEF: {count} transactions provided, at least 2 are required"

/-- The wording of a fault of leaf `index`; `place` names the level. -/
def LeafFault.message (place : String) (index : Nat) : LeafFault → String
  | .offsetCut => place ++ s!": insufficient bytes for offset of leaf {index}"
  | .flagCut => place ++ s!": insufficient bytes for flag of leaf {index}"
  | .badFlag flag => place ++ s!": invalid flag {flag} for leaf {index}"
  | .hashCut => place ++ s!": insufficient bytes for hash of leaf {index}"

/-- The wording of a fault of level `index`; `place` names the proof. -/
def LevelFault.message (place : String) (index : Nat) : LevelFault → String
  | .countCut => place ++ s!" level {index}: insufficient bytes for leaf count"
  | .countTooLarge count => overflowMessage "leaf count" count
  | .implausibleCount count remaining =>
    place ++ s!" level {index}: leaf count {count} cannot fit in {remaining} remaining bytes"
  | .leaf position fault => fault.message (place ++ s!" level {index}") position

/-- The wording of a fault of proof `index`. -/
def ProofFault.message (index : Nat) : ProofFault → String
  | .blockHeightCut => s!"bump {index}: insufficient bytes for block height"
  | .treeHeightCut => s!"bump {index}: insufficient bytes for tree height"
  | .treeHeightTooLarge height => s!"bump {index}: tree height {height} exceeds the maximum of 64"
  | .level position fault => fault.message s!"bump {index}" position

/-- The wording of a fault of record `index`. -/
def RecordFault.message (index : Nat) : RecordFault → String
  | .transaction cause => s!"transaction {index}: " ++ cause.message
  | .markCut => s!"transaction {index}: insufficient bytes for has-bump flag"
  | .badMark mark => s!"transaction {index}: invalid has-bump flag {mark}"
  | .proofIndexCut => s!"transaction {index}: insufficient bytes for bump index"
  | .proofIndexTooLarge value => overflowMessage "bump index" value

/-- The wording of a decoding error. -/
def DecodeError.message : DecodeError → String
  | .hex cause => "invalid BEEF hex stream: " ++ cause.message
  | .tooShort length => s!"BEEF envelope of {length} bytes is shorter than version and marker"
  | .tooLong length limit =>
    s!"BEEF envelope of {length} bytes exceeds the configured limit of {limit} bytes"
  | .badMarker first second =>
    "invalid BEEF marker [" ++ Hex.encode [first] ++ ", " ++ Hex.encode [second]
      ++ "], expected [be, ef]"
  | .noProofCount => "cannot decode BUMPs: no bytes after the BEEF marker"
  | .proofCountTooLarge count => overflowMessage "bump count" count
  | .noProofs => "invalid BEEF: bump count is zero"
  | .proof index fault => fault.message index
  | .txCountCut => "insufficient bytes for transaction count"
  | .tooFewTransactions count => tooFewMessage count.toNat
  | .txCountTooLarge count => overflowMessage "transaction count" count
  | .implausibleTxCount count remaining =>
    s!"transaction count {count} cannot fit in {remaining} remaining bytes"
  | .record index fault => fault.message index
  | .trailing count => s!"{count} trailing bytes after the last record"

/-- The wording of an error. -/
def Error.message : Error → String
  | .decode fault => fault.message
  | .tooManyLevels levels => s!"proof has {levels} levels, more than the maximum of 64"
  | .malformedLeaf level offset =>
    s!"level {level}: leaf at offset {offset} must be a hashless duplicate or carry a hash"
  | .tooFewTransactions count => tooFewMessage count
  | .childNotFound level offset => s!"child not found at level {level}, offset {offset}"
  | .rootMismatch blockHeight first second =>
    s!"bump at block {blockHeight} climbs to two different roots: " ++ first.text ++ " and "
      ++ second.text
  | .noFundingTransaction txid inputIndex sourceTxid =>
    s!"no matching transaction in the bundle for input {inputIndex} of " ++ txid.text
      ++ " (spends " ++ sourceTxid.text ++ ")"
  | .noFundingOutput txid inputIndex sourceTxid outputIndex =>
    s!"input {inputIndex} of " ++ txid.text ++ s!" spends output {outputIndex} of "
      ++ sourceTxid.text ++ ", which does not exist"
  | .proofIndexOutOfRange txid proofIndex proofCount =>
    "transaction " ++ txid.text ++ s!" refers to bump {proofIndex}, but the bundle has {proofCount}"
  | .notInProof txid proofIndex =>
    "transaction " ++ txid.text ++ s!" not found among the level-0 leaves of bump {proofIndex}"
  | .lockTimeNotFinal txid lockTime inputIndex sequence =>
    "transaction " ++ txid.text
      ++ s!" has lock time {lockTime} but input {inputIndex} has non-final sequence 0x"
      ++ Hex.encode (LittleEndian.encode 4 sequence.toNat).reverse
  | .invalidScript txid inputIndex reason =>
    s!"invalid script for input {inputIndex} of " ++ txid.text ++ ": " ++ reason
  | .rootRejected blockHeight root =>
    "merkle root " ++ root.text ++ s!" is not valid for block {blockHeight}"
  | .headersUnavailable reason => "chain tracker error: " ++ reason

/-- The wording of the error that this one wraps, if it wraps one. -/
def Error.cause? : Error → Option String
  | .decode (.record _ (.transaction cause)) => some cause.message
  | .invalidScript _ _ reason => some reason
  | _ => none

end SpvEnvelope
