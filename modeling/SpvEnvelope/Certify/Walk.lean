import Std.Data.TreeSet
import SpvEnvelope.Envelope.Basic

/-!
# The walk to the anchors

Certification starts at the target and follows inputs from child to parent. The target and every
unmined transaction on the way are checked: the lock time must be harmless, and for every input the
envelope must hold the output that it spends and the script verifier must accept the pair. A mined
transaction must be proven, and the walk does not go on to its parents.

The transactions still to be visited form a stack, and a txid is visited only once. So the walk ends
whatever the transactions refer to: by `weight_lt_of_step`, each step lowers the number of pending
transactions and of inputs not yet followed, taken together.

| here | there |
| --- | --- |
| `Certification`, `Anchor` | `Certification`, `Anchor` (§11.6) |
| `Certification.rootsToConfirm` | `roots_to_confirm` |
| `Transaction.checkLockTime` | `validate_lock_time` (§4.4) |
| `Record.anchor` | `prove_anchor` (§11.8) |
| `ScriptVerifier`, `ScriptCheck` | `ScriptVerifier` and the arguments of its `verify` (§12.4) |
| `Ledger.checkTransaction` | `check_transaction` (§4.4) |
| `Ledger.complete` | the loop of `walk` |
| `Envelope.certify` | `certify` of an `SpvValidator` |
-/

namespace SpvEnvelope

/-! ## Certifications -/

/-- A mined transaction with the Merkle root that its proof leads to. -/
@[ext] structure Anchor where
  txid : Digest
  /-- Position of the proof in the envelope. -/
  proofIndex : UInt64
  blockHeight : UInt64
  /-- The offset at which the proof lists the transaction. -/
  offset : UInt64
  merkleRoot : Digest
deriving DecidableEq

/-- The report on a certified target. -/
@[ext] structure Certification where
  target : Digest
  /-- The transactions whose lock time and scripts were checked, in order, the target first. -/
  validated : List Digest
  /-- The proven mined transactions, in the order in which they were reached. -/
  anchors : List Anchor
deriving DecidableEq

/-- The Merkle roots to be confirmed, each with its block height, in the order of the anchors and
without repetitions. -/
def Certification.rootsToConfirm (certification : Certification) : List (UInt64 × Digest) :=
  (certification.anchors.map fun anchor => (anchor.blockHeight, anchor.merkleRoot)).eraseDups

/-- A lock time is harmless if it is zero or if every input is final. In any other case it depends
on the state of the chain and is refused. -/
def Transaction.checkLockTime (tx : Transaction) : Except Error Unit :=
  if tx.lockTime = 0 then .ok ()
  else
    match tx.nonFinalInput? with
    | none => .ok ()
    | some (input, index) => .error (.lockTimeNotFinal tx.txid tx.lockTime index input.sequence)

/-- The anchor of a record that points at the proof at position `index` of `proofs`. -/
def Record.anchor (record : Record) (index : UInt64) (proofs : List MerkleProof) :
    Except Error Anchor :=
  match proofs[index.toNat]? with
  | none => .error (.proofIndexOutOfRange record.txid index proofs.length)
  | some proof =>
    match proof.findTxid? record.txid with
    | none => .error (.notInProof record.txid index)
    | some leaf => do
      let merkleRoot ← proof.rootFrom leaf
      return {
        txid := record.txid
        proofIndex := index
        blockHeight := proof.blockHeight
        offset := leaf.offset
        merkleRoot }

/-! ## Script checks -/

/-- A question to the script verifier: does input `inputIndex` of `transaction` satisfy the output
`funding` that it spends? -/
@[ext] structure ScriptCheck where
  transaction : Transaction
  inputIndex : Nat
  funding : Output
  flags : ScriptFlags
deriving DecidableEq

/-- Judges script checks and gives a reason when it refuses. -/
abbrev ScriptVerifier := ScriptCheck → Except String Unit

/-- A computation that may fail and asks the script verifier; its state holds the questions asked so
far, also those asked before a failure. -/
abbrev Audit (α : Type) := EStateM Error (Array ScriptCheck) α

/-- The transactions of an envelope, ready to be looked up by position and by txid. -/
structure Ledger where
  records : Array Record
  /-- The position of the first record with each txid. -/
  positions : Std.TreeMap Digest Nat
  proofs : List MerkleProof
  verify : ScriptVerifier
  flags : ScriptFlags

namespace Ledger

/-- The output at `outputIndex` of the transaction at `position`. -/
def output? (ledger : Ledger) (position : Nat) (outputIndex : UInt32) : Option Output := do
  let record ← ledger.records[position]?
  record.transaction.outputs[outputIndex.toNat]?

/-- Checks input `index` of `record` and returns the position of the transaction that it spends. -/
def checkInput (ledger : Ledger) (record : Record) (index : Nat) (input : Input) : Audit Nat :=
  match ledger.positions[input.sourceTxid]? with
  | none => throw (.noFundingTransaction record.txid index input.sourceTxid)
  | some position =>
    match ledger.output? position input.outputIndex with
    | none => throw (.noFundingOutput record.txid index input.sourceTxid input.outputIndex)
    | some funding => do
      let check : ScriptCheck := ⟨record.transaction, index, funding, ledger.flags⟩
      modify (·.push check)
      match ledger.verify check with
      | .ok () => return position
      | .error reason => throw (.invalidScript record.txid index reason)

/-- Checks `inputs`, the first of which is input `index` of `record`, and puts the positions of the
transactions that they spend before `parents`, last one first. -/
def checkInputs (ledger : Ledger) (record : Record) (index : Nat) (parents : List Nat) :
    (inputs : List Input) → Audit (List Nat)
  | [] => return parents
  | input :: rest => do
    let parent ← ledger.checkInput record index input
    ledger.checkInputs record (index + 1) (parent :: parents) rest

/-- Checks the lock time and the inputs of `record` and returns the positions of the transactions
that it spends, last one first. -/
def checkTransaction (ledger : Ledger) (record : Record) : Audit (List Nat) := do
  MonadExcept.ofExcept record.transaction.checkLockTime
  ledger.checkInputs record 0 [] record.transaction.inputs

end Ledger

/-! ## Steps -/

/-- What a visit of a record brings. -/
structure Visit where
  /-- The positions at which the walk goes on, the next one first. -/
  parents : List Nat
  /-- Whether lock time and inputs were checked. -/
  isChecked : Bool
  anchor : Option Anchor

/-- The state of a walk. -/
structure Walk where
  /-- The positions still to be visited, the next one first. -/
  pending : List Nat
  visited : Std.TreeSet Digest
  validated : Array Digest
  anchors : Array Anchor

/-- The state before the first step. -/
def Walk.start (position : Nat) : Walk :=
  { pending := [position], visited := ∅, validated := #[], anchors := #[] }

/-- The state after a visit of `record`. -/
def Walk.add (walk : Walk) (record : Record) (visit : Visit) : Walk where
  pending := visit.parents ++ walk.pending
  visited := walk.visited.insert record.txid
  validated := if visit.isChecked then walk.validated.push record.txid else walk.validated
  anchors := match visit.anchor with
    | some anchor => walk.anchors.push anchor
    | none => walk.anchors

namespace Ledger

/-- Whether the transaction of a record is to be checked: the target is, and so is any unmined
transaction. -/
def isChecked (isTarget : Bool) (record : Record) : Bool :=
  isTarget || !record.isMined

/-- Checks the transaction of a record if it is to be checked. -/
def check (ledger : Ledger) (isTarget : Bool) (record : Record) : Audit (List Nat) :=
  if isChecked isTarget record then ledger.checkTransaction record else pure []

/-- The anchor of a record, if it is mined. -/
def prove (ledger : Ledger) (record : Record) : Audit (Option Anchor) :=
  match record.proofIndex with
  | some index => some <$> MonadExcept.ofExcept (record.anchor index ledger.proofs)
  | none => pure none

/-- Checks a record and proves it, as far as each is called for. -/
def visit (ledger : Ledger) (isTarget : Bool) (record : Record) : Audit Visit := do
  let spent ← ledger.check isTarget record
  let anchor ← ledger.prove record
  return {
    parents := if record.isMined then [] else spent
    isChecked := isChecked isTarget record
    anchor }

/-- Visits the record at `position` unless its txid was visited before. -/
def step (ledger : Ledger) (walk : Walk) (position : Nat) : Audit Walk :=
  match ledger.records[position]? with
  | none => return walk
  | some record =>
    if walk.visited.contains record.txid then return walk
    else do
      let visit ← ledger.visit (position + 1 == ledger.records.size) record
      return walk.add record visit

/-! ## Weight -/

/-- The number of inputs of the records that were not visited. -/
def unfollowed (ledger : Ledger) (visited : Std.TreeSet Digest) : Nat :=
  ((ledger.records.toList.filter fun record => !visited.contains record.txid).flatMap
    (·.transaction.inputs)).length

/-- The number of pending positions and of inputs not yet followed. -/
def weight (ledger : Ledger) (walk : Walk) : Nat :=
  walk.pending.length + ledger.unfollowed walk.visited

theorem length_flatMap_filter_add_le {α β : Type} (f : α → List β) (p q : α → Bool)
    (hqp : ∀ x, q x → p x) {a : α} (hp : p a) (hq : ¬q a) (xs : List α) (ha : a ∈ xs) :
    ((xs.filter q).flatMap f).length + (f a).length ≤ ((xs.filter p).flatMap f).length := by
  have mono (ys : List α) :
      ((ys.filter q).flatMap f).length ≤ ((ys.filter p).flatMap f).length := by
    induction ys with
    | nil => simp
    | cons y ys ih =>
      by_cases hy : q y
      · rw [List.filter_cons_of_pos hy, List.filter_cons_of_pos (hqp y hy)]
        simp only [List.flatMap_cons, List.length_append]
        omega
      · rw [List.filter_cons_of_neg hy]
        by_cases hy' : p y
        · rw [List.filter_cons_of_pos hy', List.flatMap_cons, List.length_append]
          omega
        · rwa [List.filter_cons_of_neg hy']
  induction xs with
  | nil => simp at ha
  | cons x xs ih =>
    rcases List.mem_cons.mp ha with rfl | ha
    · have := mono xs
      rw [List.filter_cons_of_neg hq, List.filter_cons_of_pos hp, List.flatMap_cons,
        List.length_append]
      omega
    · have := ih ha
      by_cases hx : q x
      · rw [List.filter_cons_of_pos hx, List.filter_cons_of_pos (hqp x hx)]
        simp only [List.flatMap_cons, List.length_append]
        omega
      · rw [List.filter_cons_of_neg hx]
        by_cases hx' : p x
        · rw [List.filter_cons_of_pos hx', List.flatMap_cons, List.length_append]
          omega
        · rwa [List.filter_cons_of_neg hx']

theorem unfollowed_insert_add_le (ledger : Ledger) (visited : Std.TreeSet Digest) {record : Record}
    (hr : record ∈ ledger.records.toList) (hv : ¬visited.contains record.txid) :
    ledger.unfollowed (visited.insert record.txid) + record.transaction.inputs.length
      ≤ ledger.unfollowed visited := by
  refine length_flatMap_filter_add_le (fun r : Record => r.transaction.inputs) _ _ ?_ ?_ ?_ _ hr
  · intro x hx
    simp only [Std.TreeSet.contains_insert, Bool.not_or, Bool.and_eq_true] at hx
    exact hx.2
  · rw [Bool.not_eq_true] at hv
    simp [hv]
  · simp

theorem length_of_checkInputs (ledger : Ledger) (record : Record) {inputs : List Input}
    {index : Nat} {parents result : List Nat} {checks checks' : Array ScriptCheck}
    (h : (ledger.checkInputs record index parents inputs).run checks = .ok result checks') :
    result.length = parents.length + inputs.length := by
  induction inputs generalizing index parents checks with
  | nil =>
    cases h
    rfl
  | cons input rest ih =>
    rw [checkInputs, EStateM.run_bind] at h
    split at h
    · rw [ih h, List.length_cons, List.length_cons]
      omega
    · cases h

theorem length_of_checkTransaction (ledger : Ledger) (record : Record) {result : List Nat}
    {checks checks' : Array ScriptCheck}
    (h : (ledger.checkTransaction record).run checks = .ok result checks') :
    result.length = record.transaction.inputs.length := by
  rw [checkTransaction, EStateM.run_bind] at h
  split at h
  · simpa using ledger.length_of_checkInputs record h
  · cases h

theorem length_parents_of_visit (ledger : Ledger) (isTarget : Bool) (record : Record)
    {visit : Visit} {checks checks' : Array ScriptCheck}
    (h : (ledger.visit isTarget record).run checks = .ok visit checks') :
    visit.parents.length ≤ record.transaction.inputs.length := by
  simp only [Ledger.visit, EStateM.run_bind] at h
  split at h
  · rename_i spent checks'' hs
    split at h
    · cases h
      by_cases hm : record.isMined
      · simp [hm]
      · simp only [check, isChecked, hm, Bool.not_false, Bool.or_true, if_true] at hs
        simp [hm, ledger.length_of_checkTransaction record hs]
    · cases h
  · cases h

/-- A step adds no more positions than the inputs that it is the first to follow. -/
theorem step_weight (ledger : Ledger) (walk next : Walk) (position : Nat)
    {checks checks' : Array ScriptCheck}
    (h : (ledger.step walk position).run checks = .ok next checks') :
    ledger.weight next ≤ ledger.weight walk := by
  unfold step at h
  cases hr : ledger.records[position]? with
  | none =>
    simp only [hr] at h
    cases h
    exact Nat.le_refl _
  | some record =>
    simp only [hr] at h
    by_cases hv : walk.visited.contains record.txid
    · rw [if_pos hv] at h
      cases h
      exact Nat.le_refl _
    · rw [if_neg hv] at h
      rw [EStateM.run_bind] at h
      split at h
      · rename_i visit checks'' hvisit
        cases h
        have hp := ledger.length_parents_of_visit _ record hvisit
        have hm : record ∈ ledger.records.toList := by
          rw [Array.getElem?_eq_some_iff] at hr
          obtain ⟨hi, rfl⟩ := hr
          simp
        have hu := ledger.unfollowed_insert_add_le walk.visited hm hv
        simp only [weight, Walk.add, List.length_append]
        omega
      · cases h

/-! ## The walk -/

theorem weight_lt_of_step (ledger : Ledger) (walk next : Walk) {position : Nat} {rest : List Nat}
    (hp : walk.pending = position :: rest) {checks checks' : Array ScriptCheck}
    (hs : (ledger.step { walk with pending := rest } position).run checks = .ok next checks') :
    ledger.weight next < ledger.weight walk := by
  have h := ledger.step_weight _ _ _ hs
  simp only [weight] at h ⊢
  rw [hp, List.length_cons]
  omega

/-- Visits all pending records and those reached from them. -/
def complete (ledger : Ledger) (walk : Walk) : Audit Walk := fun checks =>
  match hp : walk.pending with
  | [] => .ok walk checks
  | position :: rest =>
    match hs : (ledger.step { walk with pending := rest } position).run checks with
    | .ok next checks' =>
      have := ledger.weight_lt_of_step walk next hp hs
      (ledger.complete next).run checks'
    | .error e checks' => .error e checks'
termination_by ledger.weight walk

theorem run_complete (ledger : Ledger) (walk : Walk) (checks : Array ScriptCheck) :
    (ledger.complete walk).run checks = match walk.pending with
      | [] => .ok walk checks
      | position :: rest =>
        match (ledger.step { walk with pending := rest } position).run checks with
        | .ok next checks' => (ledger.complete next).run checks'
        | .error e checks' => .error e checks' := by
  rw [EStateM.run, complete]
  split <;> rename_i hp <;> simp [hp]
  split <;> rename_i hs <;> simp [hs]

end Ledger

/-! ## Certification -/

/-- The result of a certification and the questions that the script verifier was asked, in order. -/
structure AuditReport where
  result : Except Error Certification
  checks : List ScriptCheck

namespace Envelope

/-- The transactions of an envelope for a walk with this verifier. -/
def ledger (envelope : Envelope) (verify : ScriptVerifier) (config : Config) : Ledger where
  records := envelope.records.toArray
  positions := envelope.positions
  proofs := envelope.proofs
  verify
  flags := config.flags

/-- Certifies the target and reports the script checks made. -/
def audit (envelope : Envelope) (verify : ScriptVerifier) (config : Config) : AuditReport :=
  let walk := (envelope.ledger verify config).complete (.start (envelope.records.length - 1))
  match walk.run #[] with
  | .ok walk checks =>
    ⟨.ok ⟨envelope.target.txid, walk.validated.toList, walk.anchors.toList⟩, checks.toList⟩
  | .error e checks => ⟨.error e, checks.toList⟩

/-- Certifies the target from what the envelope holds. -/
def certify (envelope : Envelope) (verify : ScriptVerifier) (config : Config) :
    Except Error Certification :=
  (envelope.audit verify config).result

end Envelope

end SpvEnvelope
