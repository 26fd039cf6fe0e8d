import Mathlib.Data.List.Basic
import SpvEnvelope.Proofs.Inclusion

/-!
# What a certification reports

A certification lists what was checked and what was proven. The lists leave out nothing that the
policy calls for and name no transaction twice, and each anchor says what its proof says of the
first leaf that carries the transaction (`isComplete_of_certify`). All of it is read off the records
that the walk has visited when nothing is pending any more.
-/

namespace SpvEnvelope

/-! ## Anchors -/

/-- The anchor reports what the proof that `record` points at says of the record. -/
structure Anchor.Reports (anchor : Anchor) (record : Record) (proofs : List MerkleProof) : Prop where
  txid : anchor.txid = record.txid
  proofIndex : record.proofIndex = some anchor.proofIndex
  proofIndex_lt : anchor.proofIndex.toNat < proofs.length
  isIn : record.isIn proofs = true
  proof : ∃ proof leaf, proofs[anchor.proofIndex.toNat]? = some proof ∧
    proof.blockHeight = anchor.blockHeight ∧ proof.ListsFirst anchor.txid leaf ∧
    leaf.offset = anchor.offset ∧ proof.rootFrom leaf = .ok anchor.merkleRoot

theorem Record.reports_of_anchor {record : Record} {index : UInt64} {proofs : List MerkleProof}
    {anchor : Anchor} (hi : record.proofIndex = some index)
    (h : record.anchor index proofs = .ok anchor) : anchor.Reports record proofs := by
  obtain ⟨proof, leaf, root, hproof, hleaf, hroot, rfl⟩ := anchor_eq_ok_iff.mp h
  have hfound : record.proof? proofs = some proof := by
    rw [Record.proof?, hi, Option.bind_some, hproof]
  constructor
  · rfl
  · exact hi
  · exact (List.getElem?_eq_some_iff.mp hproof).1
  · rw [isIn, hfound]
    simp [hleaf]
  · exact ⟨proof, leaf, hproof, rfl, MerkleProof.findTxid?_eq_some_iff.mp hleaf, rfl, hroot⟩

namespace Envelope

variable {envelope : Envelope} {verify : ScriptVerifier} {config : Config}
  {certification : Certification}

/-- A record that passes has an anchor of its txid if it is mined, and none otherwise. -/
theorem Passes.map_txid_anchor? {record : Record} (hp : envelope.Passes verify config record) :
    (envelope.anchor? record).map (·.txid) = if record.isMined then some record.txid else none := by
  cases hi : record.proofIndex with
  | none => simp [anchor?, Record.isMined, hi]
  | some index =>
    obtain ⟨proof, leaf, root, hproof, hleaf, hroot⟩ := hp.proven index hi
    have hfound := MerkleProof.findTxid?_eq_some_iff.mpr hleaf
    have hok := Record.anchor_eq_ok_iff.mpr ⟨proof, leaf, root, hproof, hfound, hroot, rfl⟩
    rw [anchor?_eq_some_iff.mpr ⟨index, hi, hok⟩]
    simp [Record.isMined, hi]

/-! ## Reports -/

/-- The certification reports on the target and on everything reached from it, once. -/
structure IsComplete (envelope : Envelope) (certification : Certification) : Prop where
  target : certification.target = envelope.target.txid
  head_validated : certification.validated.head? = some envelope.target.txid
  nodup_validated : certification.validated.Nodup
  /-- The validated transactions are the target and the unmined ones that are reached. -/
  mem_validated : ∀ txid, txid ∈ certification.validated ↔
    txid = envelope.target.txid ∨ ∃ record, envelope.Reached txid ∧
      envelope.denoted? txid = some record ∧ record.isMined = false
  nodup_anchors : (certification.anchors.map (·.txid)).Nodup
  /-- The anchored transactions are the mined ones that are reached. -/
  mem_anchors : ∀ txid, txid ∈ certification.anchors.map (·.txid) ↔
    ∃ record, envelope.Reached txid ∧ envelope.denoted? txid = some record ∧ record.isMined = true
  anchors : ∀ anchor ∈ certification.anchors, ∃ record,
    envelope.denoted? anchor.txid = some record ∧ anchor.Reports record envelope.proofs

/-- The records to be checked that are reached are the target and the unmined ones. -/
theorem exists_isToCheck_iff {txid : Digest} :
    (∃ record, envelope.Reached txid ∧ envelope.denoted? txid = some record ∧
      envelope.isToCheck record = true) ↔
    txid = envelope.target.txid ∨ ∃ record, envelope.Reached txid ∧
      envelope.denoted? txid = some record ∧ record.isMined = false := by
  simp only [isToCheck, Ledger.isChecked, Bool.or_eq_true, decide_eq_true_eq, Bool.not_eq_true']
  constructor
  · rintro ⟨record, hr, hd, rfl | hm⟩
    · exact .inl (txid_of_denoted? hd).symm
    · exact .inr ⟨record, hr, hd, hm⟩
  · rintro (rfl | ⟨record, hr, hd, hm⟩)
    · exact ⟨envelope.target, .target, denoted?_target, .inl rfl⟩
    · exact ⟨record, hr, hd, .inr hm⟩

namespace Progress

variable {walk : Walk} {asked : List ScriptCheck} {done : List Record}

/-- When nothing is pending, the visited records of some kind are the ones of this kind that are
reached. -/
theorem mem_map_filter (hp : envelope.Progress verify config walk asked done)
    (hpend : walk.pending = []) (kind : Record → Bool) (txid : Digest) :
    txid ∈ (done.filter kind).map (·.txid) ↔ ∃ record, envelope.Reached txid ∧
      envelope.denoted? txid = some record ∧ kind record = true := by
  simp only [List.mem_map, List.mem_filter]
  constructor
  · rintro ⟨record, ⟨hm, hk⟩, rfl⟩
    have hpass := hp.passes record hm
    exact ⟨record, hpass.reached, hpass.denoted, hk⟩
  · rintro ⟨record, hr, hd, hk⟩
    exact ⟨record, ⟨(hp.passes_of_reached hpend hr hd).1, hk⟩, txid_of_denoted? hd⟩

/-- The visited records of some kind have different txids. -/
theorem nodup_map_filter (hp : envelope.Progress verify config walk asked done)
    (kind : Record → Bool) : ((done.filter kind).map (·.txid)).Nodup :=
  hp.nodup.sublist (List.filter_sublist.map _)

/-- The anchors of the visited records are those of the mined ones, in order. -/
theorem map_txid_anchors (hp : envelope.Progress verify config walk asked done) :
    (done.filterMap envelope.anchor?).map (·.txid) = (done.filter (·.isMined)).map (·.txid) := by
  rw [List.map_filterMap, ← List.filterMap_eq_filter, List.map_filterMap]
  refine List.filterMap_congr fun record hm => ?_
  rw [(hp.passes record hm).map_txid_anchor?]
  cases hmined : record.isMined <;> simp [hmined]

end Progress

/-- **The report on a certified target is complete and names no transaction twice.** -/
theorem isComplete_of_certify (h : envelope.certify verify config = .ok certification) :
    envelope.IsComplete certification := by
  obtain ⟨final, asked, done, rfl, hp, hpend⟩ := progress_of_certify h
  constructor
  case target => rfl
  case head_validated => rw [List.head?_map, hp.head?_checked hpend, Option.map_some]
  case nodup_validated => exact hp.nodup_map_filter _
  case mem_validated =>
    intro txid
    rw [hp.mem_map_filter hpend]
    exact exists_isToCheck_iff
  case nodup_anchors =>
    rw [hp.map_txid_anchors]
    exact hp.nodup_map_filter _
  case mem_anchors =>
    intro txid
    rw [hp.map_txid_anchors]
    exact hp.mem_map_filter hpend _ txid
  case anchors =>
    intro anchor hm
    obtain ⟨record, hdone, hr⟩ := List.mem_filterMap.mp hm
    obtain ⟨index, hi, hok⟩ := anchor?_eq_some_iff.mp hr
    have hreports := Record.reports_of_anchor hi hok
    refine ⟨record, ?_, hreports⟩
    rw [hreports.txid]
    exact (hp.passes record hdone).denoted

/-! ### Two ways to one ancestor -/

/-- A transaction with two outputs. -/
def twoOutputs : Transaction where
  outputs := [{ satoshis := 1000 }, { satoshis := 2000 }]

/-- A transaction that spends the first of them. -/
def spendsFirst : Transaction where
  inputs := [{ sourceTxid := twoOutputs.txid, outputIndex := 0 }]
  outputs := [{ satoshis := 900 }]

/-- A transaction that spends the second of them, and what the other one creates. -/
def spendsBoth : Transaction where
  inputs := [{ sourceTxid := twoOutputs.txid, outputIndex := 1 },
    { sourceTxid := spendsFirst.txid, outputIndex := 0 }]

/-- A proof for the first transaction of a block. -/
def forkedProof : MerkleProof where
  blockHeight := 9
  levels := [[.ofTxid 0 twoOutputs.txid, .ofHash 1 .zero]]
  length_levels := by decide

/-- An envelope whose target leads in two ways to one mined transaction. -/
def forked : Envelope where
  version := 1
  proofs := [forkedProof]
  records := [.ofTransaction twoOutputs (some 0), .ofTransaction spendsFirst none,
    .ofTransaction spendsBoth none]
  two_le_length_records := by decide

/-- The report on its target. -/
def forkedReport : Certification where
  target := spendsBoth.txid
  validated := [spendsBoth.txid, spendsFirst.txid]
  anchors := [{
    txid := twoOutputs.txid
    proofIndex := 0
    blockHeight := 9
    offset := 0
    merkleRoot := Merkle.parent twoOutputs.txid .zero }]

theorem certify_forked : forked.certify (fun _ => .ok ()) {} = .ok forkedReport := by
  have h : (forked.certify (fun _ => .ok ()) {}).toOption = some forkedReport := by decide +kernel
  cases hc : forked.certify (fun _ => .ok ()) {} with
  | error e =>
    rw [hc] at h
    cases h
  | ok certification =>
    rw [hc] at h
    exact congrArg Except.ok (Option.some.inj h)

theorem isComplete_of_certify_forked :
    forked.certify (fun _ => .ok ()) {} = .ok forkedReport ∧ forked.IsComplete forkedReport :=
  ⟨certify_forked, isComplete_of_certify certify_forked⟩

end Envelope

end SpvEnvelope
