import SpvEnvelope.Certify.Walk

/-!
# The certification policy

What an envelope must satisfy for its target to be certified, said without a walk. The target's own
txid stands for the target, any other txid for the first transaction that has it. Starting from the
target, the inputs of unmined transactions reach further txids (`Reached`). The target and every
unmined transaction reached must have a harmless lock time and accepted inputs; every mined
transaction reached must be proven (`MeetsPolicy`).
-/

namespace SpvEnvelope

/-- The lock time is zero, or every input is final. -/
def Transaction.HasHarmlessLockTime (tx : Transaction) : Prop :=
  tx.lockTime = 0 ∨ ∀ input ∈ tx.inputs, input.sequence = finalSequence

/-- A mined record points at one of `proofs`, is listed there, and the climb from the first leaf that
lists it succeeds. -/
def Record.IsProven (record : Record) (proofs : List MerkleProof) : Prop :=
  ∀ index, record.proofIndex = some index → ∃ proof leaf root,
    proofs[index.toNat]? = some proof ∧ proof.ListsFirst record.txid leaf ∧
      proof.rootFrom leaf = .ok root

namespace Envelope

variable (envelope : Envelope) (verify : ScriptVerifier) (config : Config)

/-! ## Fundings -/

/-- The output that an input spends: the one at its output index of the first transaction whose wire
form hashes to its source txid. -/
def funding? (input : Input) : Option Output := do
  let parent ← envelope.records.find? fun record =>
    Digest.double record.transaction.encode == input.sourceTxid
  parent.transaction.outputs[input.outputIndex.toNat]?

/-- The script check that input `index` of `tx` calls for, if the envelope holds what it spends. -/
def scriptCheck? (tx : Transaction) (index : Nat) (input : Input) : Option ScriptCheck :=
  (envelope.funding? input).map fun funding => ⟨tx, index, funding, config.flags⟩

/-- The script checks that `inputs` call for, in order; the first of them is input `start` of `tx`. -/
def scriptChecksFrom (tx : Transaction) (start : Nat) (inputs : List Input) :
    List (Option ScriptCheck) :=
  (inputs.zipIdx start).map fun (input, index) => envelope.scriptCheck? config tx index input

/-- The script checks that the inputs of `tx` call for, one for each, in order. -/
def scriptChecks (tx : Transaction) : List (Option ScriptCheck) :=
  envelope.scriptChecksFrom config tx 0 tx.inputs

/-- The lock time of `tx` is harmless and the verifier accepts the script check of every input. -/
structure IsValid (tx : Transaction) : Prop where
  lockTime : tx.HasHarmlessLockTime
  inputs : ∀ index input, tx.inputs[index]? = some input →
    ∃ check, envelope.scriptCheck? config tx index input = some check ∧ verify check = .ok ()

/-! ## Ancestry -/

/-- The record that a txid stands for. -/
def denoted? (txid : Digest) : Option Record :=
  if txid = envelope.target.txid then some envelope.target else envelope.find? txid

/-- The txids to which the inputs of unmined transactions lead, starting from the target. -/
inductive Reached : Digest → Prop
  | target : Reached envelope.target.txid
  | input {txid : Digest} {record : Record} {input : Input} : Reached txid →
      envelope.denoted? txid = some record → record.isMined = false →
      input ∈ record.transaction.inputs → Reached input.sourceTxid

/-- The target, or an unmined record that is reached. -/
def IsToCheck (record : Record) : Prop :=
  record = envelope.target ∨
    record.isMined = false ∧ ∃ txid, envelope.Reached txid ∧ envelope.denoted? txid = some record

/-- The policy: transactions to be checked are valid, and mined ones that are reached are proven. -/
structure MeetsPolicy : Prop where
  valid : ∀ record, envelope.IsToCheck record → envelope.IsValid verify config record.transaction
  proven : ∀ txid record, envelope.Reached txid → envelope.denoted? txid = some record →
    record.IsProven envelope.proofs

/-! ## Look-ups -/

theorem find?_eq (txid : Digest) : envelope.find? txid =
    envelope.records.find? fun record => Digest.double record.transaction.encode == txid := by
  unfold find?
  congr 1
  funext record
  rw [record.txid_eq, Transaction.txid]

theorem funding?_eq (input : Input) : envelope.funding? input =
    (envelope.find? input.sourceTxid).bind (·.transaction.outputs[input.outputIndex.toNat]?) := by
  rw [find?_eq]
  rfl

variable {envelope}

theorem txid_of_find? {txid : Digest} {record : Record} (h : envelope.find? txid = some record) :
    record.txid = txid := by
  simpa using List.find?_some h

theorem txid_of_denoted? {txid : Digest} {record : Record}
    (h : envelope.denoted? txid = some record) : record.txid = txid := by
  unfold denoted? at h
  split at h
  · rename_i ht
    cases h
    exact ht.symm
  · exact txid_of_find? h

@[simp]
theorem denoted?_target : envelope.denoted? envelope.target.txid = some envelope.target := by
  simp [denoted?]

theorem denoted?_of_ne {txid : Digest} (h : txid ≠ envelope.target.txid) :
    envelope.denoted? txid = envelope.find? txid := by
  simp [denoted?, h]

/-- The position found for a txid is that of the first record that has it. -/
theorem getElem?_of_positions {txid : Digest} {position : Nat}
    (h : envelope.positions[txid]? = some position) :
    envelope.records[position]? = envelope.find? txid := by
  rw [getElem?_positions] at h
  rw [find?, List.find?_eq_bind_findIdx?_getElem?, h]
  rfl

theorem positions_eq_none_iff {txid : Digest} :
    envelope.positions[txid]? = none ↔ envelope.find? txid = none := by
  rw [getElem?_positions, find?, List.findIdx?_eq_none_iff, List.find?_eq_none]
  simp

theorem find?_of_positions {txid : Digest} {position : Nat}
    (h : envelope.positions[txid]? = some position) :
    ∃ record, envelope.find? txid = some record := by
  refine Option.ne_none_iff_exists'.mp fun hn => ?_
  rw [positions_eq_none_iff.mpr hn] at h
  cases h

end Envelope

end SpvEnvelope
