import Std.Data.TreeMap
import SpvEnvelope.Merkle.Climb
import SpvEnvelope.Tx.Codec

/-!
# Envelopes

An envelope carries the transaction to be certified, its target, together with ancestors of it and
the Merkle proofs of those that are mined. The target comes last.

An envelope can be limited in length. Script flags are handed on to the script verifier.

| here | there |
| --- | --- |
| `Envelope` | `DecodedBeef`, a BRC-62 envelope (§3) |
| `Record` | `TxData` (§3) |
| `Record.isIn` | `exists_in_bumps` (§11.8) |
| `Envelope.target`, `find?`, `positions` | `target`, `find_transaction`, `txid_index` |
| `Envelope.merkleRoots` | `merkle_roots` (§11.5) |
| `Config`, `ScriptFlags` | `SpvConfig`, `ScriptFlags` (§12.3) |
-/

namespace SpvEnvelope

/-! ## Configuration -/

/-- A set of flags for the script verifier. -/
@[ext] structure ScriptFlags where
  bits : UInt32
deriving DecidableEq

namespace ScriptFlags

/-- No flag. -/
def none : ScriptFlags := ⟨0⟩

/-- Signatures commit to the fork's own form of the signed message. -/
def forkId : ScriptFlags := ⟨(1 : UInt32) <<< 11⟩

/-- The rules in force since the Genesis upgrade apply. -/
def afterGenesis : ScriptFlags := ⟨(1 : UInt32) <<< 14⟩

/-- The flags of both sets. -/
instance : OrOp ScriptFlags where
  or left right := ⟨left.bits ||| right.bits⟩

/-- The flags that both sets have. -/
instance : AndOp ScriptFlags where
  and left right := ⟨left.bits &&& right.bits⟩

/-- Whether all of `flags` are set. -/
def has (set flags : ScriptFlags) : Bool :=
  (set &&& flags) == flags

end ScriptFlags

/-- How envelopes are decoded and certified. -/
@[ext] structure Config where
  flags : ScriptFlags := ScriptFlags.forkId ||| ScriptFlags.afterGenesis
  /-- The greatest length of an envelope in bytes, if there is a limit. -/
  maxLength : Option Nat := Option.none
deriving DecidableEq

/-! ## Records and envelopes -/

/-- A transaction of an envelope, with the position of its proof if it is mined. -/
@[ext] structure Record where
  transaction : Transaction
  proofIndex : Option UInt64
  /-- The transaction's txid, computed once. -/
  txid : Digest
  txid_eq : txid = transaction.txid
deriving DecidableEq

namespace Record

/-- The record of a transaction. -/
def ofTransaction (transaction : Transaction) (proofIndex : Option UInt64) : Record :=
  ⟨transaction, proofIndex, transaction.txid, rfl⟩

@[simp] theorem ofTransaction_eq (record : Record) :
    ofTransaction record.transaction record.proofIndex = record := by
  obtain ⟨transaction, proofIndex, txid, rfl⟩ := record
  rfl

/-- Whether the transaction is mined. -/
def isMined (record : Record) : Bool :=
  record.proofIndex.isSome

/-- The proof that the record points at, if it points at one of `proofs`. -/
def proof? (record : Record) (proofs : List MerkleProof) : Option MerkleProof :=
  record.proofIndex.bind fun index => proofs[index.toNat]?

/-- Whether the record points at one of `proofs` and is listed there. -/
def isIn (record : Record) (proofs : List MerkleProof) : Bool :=
  match record.proof? proofs with
  | some proof => (proof.findTxid? record.txid).isSome
  | none => false

end Record

/-- A bundle of proofs and at least two transactions. -/
@[ext] structure Envelope where
  version : UInt16
  proofs : List MerkleProof
  records : List Record
  two_le_length_records : 2 ≤ records.length
deriving DecidableEq

namespace Envelope

/-- The version of an envelope that names none. -/
def defaultVersion : UInt16 := 1

/-- The envelope with these parts, if there are enough transactions. -/
def ofParts (version : UInt16) (proofs : List MerkleProof) (records : List Record) :
    Except Error Envelope :=
  if h : 2 ≤ records.length then .ok ⟨version, proofs, records, h⟩
  else .error (.tooFewTransactions records.length)

theorem records_ne_nil (envelope : Envelope) : envelope.records ≠ [] := by
  intro h
  have := envelope.two_le_length_records
  simp [h] at this

/-- The transaction to be certified. -/
def target (envelope : Envelope) : Record :=
  envelope.records.getLast envelope.records_ne_nil

@[simp] theorem getElem?_target (envelope : Envelope) :
    envelope.records[envelope.records.length - 1]? = some envelope.target := by
  rw [target, ← List.getLast?_eq_getElem?, List.getLast?_eq_some_getLast]

/-- The first transaction with this txid. -/
def find? (envelope : Envelope) (txid : Digest) : Option Record :=
  envelope.records.find? fun record => record.txid == txid

/-- The position of the first transaction with each txid. -/
def positions (envelope : Envelope) : Std.TreeMap Digest Nat :=
  envelope.records.zipIdx.foldl
    (fun positions (record, position) => positions.insertIfNew record.txid position) ∅

theorem getElem?_foldl_positions (records : List Record) (start : Nat)
    (positions : Std.TreeMap Digest Nat) (txid : Digest) :
    ((records.zipIdx start).foldl
        (fun positions (record, position) => positions.insertIfNew record.txid position)
        positions)[txid]? =
      positions[txid]?.or ((records.findIdx? (·.txid == txid)).map (start + ·)) := by
  induction records generalizing start positions with
  | nil => simp
  | cons record rest ih =>
    rw [List.zipIdx_cons, List.foldl_cons, ih, Std.TreeMap.getElem?_insertIfNew,
      List.findIdx?_cons]
    simp only [Std.LawfulEqCmp.compare_eq_iff_eq]
    by_cases h : record.txid = txid
    · subst h
      by_cases hm : record.txid ∈ positions <;> simp [hm]
    · simp [h, Function.comp_def, Nat.add_assoc, Nat.add_comm 1]

/-- The position found for a txid is that of the first transaction that has it. -/
theorem getElem?_positions (envelope : Envelope) (txid : Digest) :
    envelope.positions[txid]? = envelope.records.findIdx? (·.txid == txid) := by
  rw [positions, getElem?_foldl_positions]
  simp

/-- The Merkle roots that the proofs show, each with its block height, in the order of the proofs
and without repetitions. -/
def merkleRoots (envelope : Envelope) : Except Error (List (UInt64 × Digest)) := do
  let roots ← envelope.proofs.mapM fun proof => do
    let root? ← proof.root?
    return root?.map fun root => (proof.blockHeight, root)
  return (roots.filterMap id).eraseDups

end Envelope

end SpvEnvelope
