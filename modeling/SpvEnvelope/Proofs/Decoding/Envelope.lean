import SpvEnvelope.Proofs.Decoding.Proof
import SpvEnvelope.Proofs.Decoding.Transaction

/-!
# Envelopes are decoded from the grammar

The readers of records and envelopes succeed exactly on the forms of values whose lengths are counts
(`Record.read_reads`, `Envelope.read_reads`). Decoding a byte string is reading it to its end, so it
gives an envelope exactly for the forms of that envelope (`Envelope.decode_eq_ok`).
-/

namespace SpvEnvelope

/-! ## Records -/

namespace Record

theorem readProofIndex_eq_ok {proofIndex : Option UInt64} {input rest : List UInt8} :
    readProofIndex.run input = .ok proofIndex rest ↔
      (proofIndex = none ∧ input = 0 :: rest) ∨
        ∃ index front, proofIndex = some index ∧ index.toNat < VarInt.sizeLimit ∧
          VarInt.Spelling index front ∧ input = 1 :: front ++ rest := by
  simp only [readProofIndex, Reader.run_bind_eq_ok, Reader.run_mapError_eq_ok, Reader.u8_eq_ok]
  constructor
  · rintro ⟨mark, middle, rfl, h⟩
    split at h
    · rename_i hm
      obtain ⟨rfl, rfl⟩ := Reader.run_pure_eq_ok.mp h
      exact .inl ⟨rfl, by rw [hm]⟩
    · split at h
      · rename_i hm
        simp only [Reader.run_bind_eq_ok, Reader.run_mapError_eq_ok, VarInt.read_eq_ok] at h
        obtain ⟨index, _, ⟨front, hs, rfl⟩, h⟩ := h
        split at h
        · rename_i hlt
          obtain ⟨rfl, rfl⟩ := Reader.run_pure_eq_ok.mp h
          exact .inr ⟨index, front, rfl, hlt, hs, by rw [hm]; rfl⟩
        · exact absurd h Reader.run_throw_ne_ok
      · exact absurd h Reader.run_throw_ne_ok
  · rintro (⟨rfl, rfl⟩ | ⟨index, front, rfl, hlt, hs, rfl⟩)
    · exact ⟨0, rest, rfl, rfl⟩
    · refine ⟨1, front ++ rest, rfl, ?_⟩
      rw [if_neg (by decide), if_pos rfl]
      simp only [Reader.run_bind_eq_ok, Reader.run_mapError_eq_ok, VarInt.read_eq_ok]
      refine ⟨index, rest, ⟨front, hs, rfl⟩, ?_⟩
      rw [if_pos hlt]
      rfl

theorem read_reads : Record.read.Reads (·.transaction.Sized) Record.Spelling := by
  intro input record rest
  simp only [Record.read, Reader.run_bind_eq_ok, Reader.run_mapError_eq_ok, Reader.run_pure_eq_ok,
    Transaction.read_reads _ _ _, readProofIndex_eq_ok]
  constructor
  · rintro ⟨tx, _, ⟨hv, front, ht, rfl⟩, proofIndex, _,
      ⟨rfl, rfl⟩ | ⟨index, front', rfl, hlt, hi, rfl⟩, rfl, rfl⟩
    · exact ⟨hv, _, .unmined ht rfl, by simp⟩
    · refine ⟨hv, _, .mined ht rfl ?_ hi, by simp⟩
      unfold VarInt.sizeLimit at hlt
      omega
  · rintro ⟨hv, _, hs, rfl⟩
    cases hs with
    | unmined ht hp =>
      refine ⟨record.transaction, _, ⟨hv, _, ht, List.append_assoc _ _ _⟩, record.proofIndex, rest,
        .inl ⟨hp, rfl⟩, record.ofTransaction_eq, rfl⟩
    | mined ht hp hlt hi =>
      refine ⟨record.transaction, _, ⟨hv, _, ht, List.append_assoc _ _ _⟩, record.proofIndex, rest,
        .inr ⟨_, _, hp, ?_, hi, rfl⟩, record.ofTransaction_eq, rfl⟩
      unfold VarInt.sizeLimit
      omega

end Record

/-! ## Envelopes -/

namespace Envelope

theorem readHeader_eq_ok {length : Nat} {version : UInt16} {input rest : List UInt8} :
    (readHeader length).run input = .ok version rest ↔
      input = LittleEndian.encode 2 version.toNat ++ [0xbe, 0xef] ++ rest := by
  simp only [readHeader, Reader.run_bind_eq_ok, Reader.run_mapError_eq_ok, Reader.u8_eq_ok,
    Reader.u16_eq_ok, List.append_assoc]
  constructor
  · rintro ⟨_, _, rfl, first, _, rfl, second, _, rfl, h⟩
    split at h
    · rename_i hm
      obtain ⟨rfl, rfl⟩ := Reader.run_pure_eq_ok.mp h
      cases hm
      rfl
    · exact absurd h Reader.run_throw_ne_ok
  · rintro rfl
    exact ⟨version, _, rfl, 0xbe, _, rfl, 0xef, rest, rfl, rfl⟩

theorem readProofs_reads : readProofs.Reads
    (fun proofs => 1 ≤ proofs.length ∧ proofs.length < VarInt.sizeLimit ∧
      ∀ proof ∈ proofs, proof.Sized)
    (Counted MerkleProof.Spelling) := by
  have hproof index : (MerkleProof.read.mapError (DecodeError.proof index)).Reads
      MerkleProof.Sized MerkleProof.Spelling := MerkleProof.read_reads.mapError _
  intro input proofs rest
  simp only [readProofs, Reader.run_bind_eq_ok, Reader.run_mapError_eq_ok]
  constructor
  · rintro ⟨count, middle, hc, h⟩
    split at h
    · exact absurd h Reader.run_throw_ne_ok
    · rename_i hlt
      split at h
      · exact absurd h Reader.run_throw_ne_ok
      · rename_i hne
        simp only [Reader.run_bind_eq_ok, Reader.run_pure_eq_ok] at h
        obtain ⟨result, _, hi, rfl, rfl⟩ := h
        obtain ⟨hv, hfront⟩ := Counted.of_items hproof hc hi
        rw [← UInt64.toNat_inj] at hne
        rw [result.property]
        exact ⟨⟨Nat.pos_of_ne_zero hne, by omega, hv⟩, hfront⟩
  · rintro ⟨⟨hpos, hlt, hv⟩, front, hc, rfl⟩
    obtain ⟨count, middle, hl, hcount, -, hi⟩ := hc.items hproof hv rest fun _ _ h => h.two_le_length
    refine ⟨count, middle, hcount, ?_⟩
    have hne : count ≠ 0 := by
      rintro rfl
      rw [hl] at hpos
      cases hpos
    rw [if_neg (by omega), if_neg hne]
    exact Reader.run_bind_eq_ok.mpr ⟨_, _, hi, rfl⟩

theorem readRecords_reads : readRecords.Reads
    (fun records => records.val.length < VarInt.sizeLimit ∧
      ∀ record ∈ records.val, record.transaction.Sized)
    (fun records => Counted Record.Spelling records.val) := by
  have hrecord index : (Record.read.mapError (DecodeError.record index)).Reads
      (·.transaction.Sized) Record.Spelling := Record.read_reads.mapError _
  intro input records rest
  simp only [readRecords, Reader.run_bind_eq_ok, Reader.run_mapError_eq_ok, Reader.run_get_bind,
    hasAtLeast_eq, decide_eq_true_eq]
  constructor
  · rintro ⟨count, middle, hc, h⟩
    split at h
    · split at h
      · exact absurd h Reader.run_throw_ne_ok
      · rename_i hlt
        split at h
        · obtain ⟨⟨result, hl⟩, _, hi, hp⟩ := Reader.run_bind_eq_ok.mp h
          obtain ⟨rfl, rfl⟩ := Reader.run_pure_eq_ok.mp hp
          obtain ⟨hv, hfront⟩ := Counted.of_items hrecord hc hi
          exact ⟨⟨by rw [hl]; omega, hv⟩, hfront⟩
        · exact absurd h Reader.run_throw_ne_ok
    · exact absurd h Reader.run_throw_ne_ok
  · obtain ⟨records, htwo⟩ := records
    rintro ⟨⟨hlt, hv⟩, front, hc, rfl⟩
    obtain ⟨count, middle, hl, hcount, hle, hi⟩ :=
      hc.items hrecord hv rest fun _ _ h => h.minLength_le_length
    refine ⟨count, middle, hcount, ?_⟩
    simp only at hlt hl
    rw [dif_pos (hl ▸ htwo), if_neg (by omega), if_pos hle]
    exact Reader.run_bind_eq_ok.mpr ⟨_, _, hi, rfl⟩

theorem read_reads (length : Nat) :
    (Envelope.read length).Reads Envelope.Sized Envelope.Spelling := by
  intro input envelope rest
  simp only [Envelope.read, Reader.run_bind_eq_ok, readHeader_eq_ok, readProofs_reads _ _ _,
    readRecords_reads _ _ _]
  constructor
  · rintro ⟨version, _, rfl, proofs, _, ⟨⟨hpos, hpl, hpv⟩, front, hp, rfl⟩, ⟨records, htwo⟩, _,
      ⟨⟨hrl, hrv⟩, front', hr, rfl⟩, h⟩
    obtain ⟨rfl, rfl⟩ := Reader.run_pure_eq_ok.mp h
    exact ⟨⟨hpl, hpv, hrl, hrv⟩, _, .intro hpos hp hr, by simp⟩
  · rintro ⟨⟨hpl, hpv, hrl, hrv⟩, _, ⟨hpos, hp, hr⟩, rfl⟩
    simp only [List.append_assoc]
    exact ⟨_, _, rfl, _, _, ⟨⟨hpos, hpl, hpv⟩, _, hp, rfl⟩,
      ⟨envelope.records, envelope.two_le_length_records⟩, rest, ⟨⟨hrl, hrv⟩, _, hr, rfl⟩, rfl⟩

theorem Spelling.four_le_length {envelope : Envelope} {bytes : List UInt8}
    (h : envelope.Spelling bytes) : 4 ≤ bytes.length := by
  obtain ⟨-, -, -⟩ := h
  simp only [List.length_append, LittleEndian.length_encode, List.length_cons]
  omega

theorem decode_eq_ok {bytes : List UInt8} {envelope : Envelope} :
    decode bytes = .ok envelope ↔ envelope.Sized ∧ envelope.Spelling bytes := by
  rw [← (read_reads bytes.length).run_eq_ok_nil]
  simp only [decode]
  constructor
  · intro h
    split at h
    · cases h
    · split at h
      · rename_i hr
        cases h
        exact hr
      · cases h
      · cases h
  · intro hr
    have hlen := ((read_reads bytes.length).run_eq_ok_nil.mp hr).2.four_le_length
    rw [if_neg (by omega), hr]

/-- **The decoder accepts exactly the grammar.** A byte string shorter than 2 ^ 63 is decoded as an
envelope if and only if it is one of the forms of this envelope. -/
theorem ofBytes_ok_iff_spelling (bytes : List UInt8) (hlt : bytes.length < 2 ^ 63)
    (envelope : Envelope) : ofBytes {} bytes = .ok envelope ↔ envelope.Spelling bytes := by
  rw [ofBytes_default, decode_eq_ok]
  constructor
  · rintro ⟨-, hs⟩
    exact hs
  · intro hs
    exact ⟨hs.sized hlt, hs⟩

/-- A mined transaction, a proof with leaves of all kinds, and a target that is not mined. -/
def assorted : Envelope where
  version := 1
  proofs := [.assorted]
  records := [.ofTransaction .scripted (some 0), .ofTransaction .unscripted none]
  two_le_length_records := by decide

/-- A form of it, in which the number of proofs and the index of the proof are written in three
bytes. -/
def assortedBytes : List UInt8 :=
  [1, 0] ++ [0xbe, 0xef] ++ ([0xfd, 1, 0] ++ MerkleProof.assortedBytes)
    ++ ([2] ++ (Transaction.scriptedBytes ++ [1, 0xfd, 0, 0]) ++ (Transaction.unscriptedBytes ++ [0]))

theorem assorted_spelling : assorted.Spelling assortedBytes := by
  have hzero : VarInt.Spelling 0 [0xfd, 0, 0] := .three (by decide)
  have hone : VarInt.Spelling 1 [0xfd, 1, 0] := .three (by decide)
  have htwo : VarInt.Spelling 2 [2] := .one (by decide)
  have hproofs : Counted MerkleProof.Spelling assorted.proofs _ :=
    .intro rfl hone (.cons MerkleProof.assorted_spelling .nil)
  have hmined : (Record.ofTransaction .scripted (some 0)).Spelling _ :=
    .mined Transaction.scripted_spelling rfl (by decide) hzero
  have htarget : (Record.ofTransaction .unscripted none).Spelling _ :=
    .unmined Transaction.unscripted_spelling rfl
  have hrecords : Counted Record.Spelling assorted.records _ :=
    .intro rfl htwo (.cons hmined (.cons htarget .nil))
  have hall : assorted.Spelling _ := .intro (Nat.le_refl 1) hproofs hrecords
  exact hall

theorem ofBytes_assortedBytes :
    assortedBytes.length < 2 ^ 63 ∧ ofBytes {} assortedBytes = .ok assorted := by
  have hlt : assortedBytes.length < 2 ^ 63 := by decide +kernel
  exact ⟨hlt, (ofBytes_ok_iff_spelling assortedBytes hlt assorted).mpr assorted_spelling⟩

end Envelope

end SpvEnvelope
