import SpvEnvelope.Proofs.Decoding.Envelope
import SpvEnvelope.Proofs.Failing.Proof
import SpvEnvelope.Proofs.Failing.Transaction

/-!
# Envelopes fail to be decoded by their flaws

A record, or the counted proofs or records of an envelope, cannot be read exactly if the input has
one of their flaws. Decoding a byte string fails exactly by a flaw of an envelope, and the error is
the one found there (`Envelope.decode_eq_error_iff`). So the positions that an error carries lead to
the place where decoding stopped (`Envelope.ofBytes_error_located`).
-/

namespace SpvEnvelope

/-! ## Records -/

namespace Record

/-- What can be the matter with a proof index is what can be the matter with a record behind its
transaction. -/
theorem readProofIndex_fails_iff {input : List UInt8} {fault : RecordFault} :
    readProofIndex.Fails input fault ↔
      (input = [] ∧ fault = .markCut) ∨
      (∃ mark rest, mark ≠ 0 ∧ mark ≠ 1 ∧ fault = .badMark mark ∧ input = mark :: rest) ∨
      (∃ rest, VarInt.Cut rest ∧ fault = .proofIndexCut ∧ input = 1 :: rest) ∨
      ∃ index front rest, VarInt.Spelling index front ∧ VarInt.sizeLimit ≤ index.toNat ∧
        fault = .proofIndexTooLarge index ∧ input = 1 :: (front ++ rest) := by
  unfold readProofIndex
  rw [Reader.fails_u8_bind_iff]
  refine or_congr_right ?_
  constructor
  · rintro ⟨mark, rest, h, rfl⟩
    by_cases hzero : mark = 0
    · simp [hzero] at h
    by_cases hone : mark = 1
    · subst hone
      rw [if_neg hzero, if_pos rfl, VarInt.fails_read_bind_iff] at h
      obtain ⟨cause, h, rfl⟩ | ⟨index, front, rest, hi, h, rfl⟩ := h
      · exact .inr (.inl ⟨rest, ⟨cause, h⟩, rfl, rfl⟩)
      by_cases hlt : index.toNat < VarInt.sizeLimit
      · simp [hlt] at h
      · rw [if_neg hlt, Reader.fails_throw_iff] at h
        exact .inr (.inr ⟨index, front, rest, hi, Nat.le_of_not_lt hlt, h.symm, rfl⟩)
    · rw [if_neg hzero, if_neg hone, Reader.fails_throw_iff] at h
      exact .inl ⟨mark, rest, hzero, hone, h.symm, rfl⟩
  · rintro (⟨mark, rest, hzero, hone, rfl, rfl⟩ | ⟨rest, ⟨cause, h⟩, rfl, rfl⟩ |
      ⟨index, front, rest, hi, hle, rfl, rfl⟩)
    · refine ⟨mark, rest, ?_, rfl⟩
      simp [hzero, hone]
    · refine ⟨1, rest, ?_, rfl⟩
      rw [if_neg (by decide), if_pos rfl, VarInt.fails_read_bind_iff]
      exact .inl ⟨cause, h, rfl⟩
    · refine ⟨1, front ++ rest, ?_, rfl⟩
      rw [if_neg (by decide), if_pos rfl, VarInt.fails_read_bind_iff]
      refine .inr ⟨index, front, rest, hi, ?_, rfl⟩
      rw [if_neg (Nat.not_lt.mpr hle)]
      simp

theorem read_failsBy : Record.read.FailsBy Record.Flaw := by
  intro input fault
  rw [Record.read, Reader.fails_bind_iff]
  simp only [Reader.fails_bind_pure_iff, Reader.fails_mapError_iff, Reader.run_mapError_eq_ok,
    Transaction.read_failsBy _ _, Transaction.read_reads _ _ _, readProofIndex_fails_iff]
  constructor
  · rintro (⟨cause, h, rfl⟩ | ⟨tx, _, ⟨hs, front, ht, rfl⟩, ⟨rfl, rfl⟩ |
      ⟨mark, rest, hzero, hone, rfl, rfl⟩ | ⟨rest, h, rfl, rfl⟩ |
      ⟨index, body, rest, hi, hle, rfl, rfl⟩⟩)
    · exact .transaction h
    · rw [List.append_nil]
      exact .markCut hs ht
    · exact .badMark hs ht ⟨hzero, hone⟩
    · exact .proofIndexCut hs ht h
    · exact .proofIndexTooLarge hs ht hi hle
  · intro h
    cases h with
    | transaction h => exact .inl ⟨_, h, rfl⟩
    | markCut hs ht =>
      exact .inr ⟨_, [], ⟨hs, _, ht, (List.append_nil _).symm⟩, .inl ⟨rfl, rfl⟩⟩
    | badMark hs ht h =>
      exact .inr ⟨_, _, ⟨hs, _, ht, rfl⟩, .inr (.inl ⟨_, _, h.1, h.2, rfl, rfl⟩)⟩
    | proofIndexCut hs ht h =>
      exact .inr ⟨_, _, ⟨hs, _, ht, rfl⟩, .inr (.inr (.inl ⟨_, h, rfl, rfl⟩))⟩
    | proofIndexTooLarge hs ht hi hle =>
      exact .inr ⟨_, _, ⟨hs, _, ht, rfl⟩, .inr (.inr (.inr ⟨_, _, _, hi, hle, rfl, rfl⟩))⟩

end Record

/-! ## Envelopes -/

namespace Envelope

theorem readProofs_failsBy : readProofs.FailsBy ProofsFlaw := by
  intro input e
  have hproof index : (MerkleProof.read.mapError (DecodeError.proof index)).Reads
      MerkleProof.Sized MerkleProof.Spelling := MerkleProof.read_reads.mapError _
  rw [readProofs, VarInt.fails_read_bind_iff]
  constructor
  · rintro (⟨cause, h, rfl⟩ | ⟨count, front, rest, hc, h, rfl⟩)
    · exact .countCut ⟨cause, h⟩
    by_cases hlarge : VarInt.sizeLimit ≤ count.toNat
    · rw [if_pos hlarge, Reader.fails_throw_iff] at h
      rw [← h]
      exact .countTooLarge hc hlarge
    by_cases hzero : count = 0
    · rw [if_neg hlarge, if_pos hzero, Reader.fails_throw_iff] at h
      rw [← h]
      rw [hzero] at hc
      exact .none hc
    rw [if_neg hlarge, if_neg hzero, Reader.fails_bind_pure_iff, Reader.items_fails_iff hproof] at h
    obtain ⟨before, body, rest, hi, hv, hb, hf, rfl⟩ := h
    obtain ⟨fault, h, rfl⟩ := Reader.fails_mapError_iff.mp hf
    rw [← List.append_assoc]
    exact .proof (.intro hc (Nat.lt_of_not_le hlarge) hi hv hb)
      ((MerkleProof.read_failsBy _ _).mp h)
  · intro h
    cases h with
    | countCut h =>
      obtain ⟨cause, h⟩ := h
      exact .inl ⟨cause, h, rfl⟩
    | countTooLarge hc hlarge =>
      refine .inr ⟨_, _, _, hc, ?_, rfl⟩
      simp [hlarge]
    | none hc =>
      refine .inr ⟨_, _, _, hc, ?_, rfl⟩
      rw [if_neg (by decide), if_pos rfl]
      simp
    | proof ha h =>
      obtain @⟨count, before, _, _, _, hc, hlt, hi, hv, hb⟩ := ha
      have hzero : count ≠ 0 := by
        rintro rfl
        exact Nat.not_lt_zero _ hi
      refine .inr ⟨_, _, _, hc, ?_, List.append_assoc _ _ _⟩
      rw [if_neg (Nat.not_le.mpr hlt), if_neg hzero, Reader.fails_bind_pure_iff,
        Reader.items_fails_iff hproof]
      refine ⟨before, _, _, hi, hv, hb, ?_, rfl⟩
      exact Reader.fails_mapError_iff.mpr ⟨_, (MerkleProof.read_failsBy _ _).mpr h, rfl⟩

theorem readRecords_failsBy : readRecords.FailsBy RecordsFlaw := by
  intro input e
  have hrecord index : (Record.read.mapError (DecodeError.record index)).Reads
      (·.transaction.Sized) Record.Spelling := Record.read_reads.mapError _
  rw [readRecords, VarInt.fails_read_bind_iff]
  simp only [Reader.fails_get_bind_iff, hasAtLeast_eq, decide_eq_true_eq]
  constructor
  · rintro (⟨cause, h, rfl⟩ | ⟨count, front, rest, hc, h, rfl⟩)
    · exact .countCut ⟨cause, h⟩
    by_cases htwo : 2 ≤ count.toNat
    · by_cases hlarge : VarInt.sizeLimit ≤ count.toNat
      · rw [dif_pos htwo, if_pos hlarge, Reader.fails_throw_iff] at h
        rw [← h]
        exact .countTooLarge hc hlarge
      have hlt := Nat.lt_of_not_le hlarge
      by_cases hle : count.toNat * Record.minLength ≤ rest.length
      · rw [dif_pos htwo, if_neg hlarge, if_pos hle, Reader.fails_bind_pure_iff,
          Reader.items_fails_iff hrecord] at h
        obtain ⟨before, body, rest, hi, hv, hb, hf, rfl⟩ := h
        obtain ⟨fault, h, rfl⟩ := Reader.fails_mapError_iff.mp hf
        rw [← List.append_assoc]
        exact .record (.intro hc htwo hlt hle hi hv hb) ((Record.read_failsBy _ _).mp h)
      · rw [dif_pos htwo, if_neg hlarge, if_neg hle, Reader.fails_throw_iff] at h
        rw [← h]
        exact .implausibleCount hc htwo hlt (Nat.lt_of_not_le hle)
    · rw [dif_neg htwo, Reader.fails_throw_iff] at h
      rw [← h]
      exact .tooFew hc (Nat.lt_of_not_le htwo)
  · intro h
    cases h with
    | countCut h =>
      obtain ⟨cause, h⟩ := h
      exact .inl ⟨cause, h, rfl⟩
    | tooFew hc h =>
      refine .inr ⟨_, _, _, hc, ?_, rfl⟩
      rw [dif_neg (Nat.not_le.mpr h)]
      simp
    | countTooLarge hc hlarge =>
      refine .inr ⟨_, _, _, hc, ?_, rfl⟩
      rw [dif_pos (by unfold VarInt.sizeLimit at hlarge; omega), if_pos hlarge]
      simp
    | implausibleCount hc htwo hlt h =>
      refine .inr ⟨_, _, _, hc, ?_, rfl⟩
      rw [dif_pos htwo, if_neg (Nat.not_le.mpr hlt), if_neg (Nat.not_le.mpr h)]
      simp
    | record ha h =>
      obtain @⟨_, before, _, _, _, hc, htwo, hlt, hle, hi, hv, hb⟩ := ha
      refine .inr ⟨_, _, _, hc, ?_, List.append_assoc _ _ _⟩
      rw [dif_pos htwo, if_neg (Nat.not_le.mpr hlt), if_pos hle, Reader.fails_bind_pure_iff,
        Reader.items_fails_iff hrecord]
      refine ⟨before, _, _, hi, hv, hb, ?_, rfl⟩
      exact Reader.fails_mapError_iff.mpr ⟨_, (Record.read_failsBy _ _).mpr h, rfl⟩

/-- An input that is long enough for a header has a wrong one only if the marker is wrong. -/
theorem readHeader_fails_iff {length : Nat} {input : List UInt8} {e : DecodeError}
    (hlen : 4 ≤ input.length) : (readHeader length).Fails input e ↔
      ∃ version : UInt16, ∃ first second rest, [first, second] ≠ [0xbe, 0xef] ∧
        e = .badMarker first second ∧
        input = LittleEndian.encode 2 version.toNat ++ first :: second :: rest := by
  have hversion (version : UInt16) := LittleEndian.length_encode 2 version.toNat
  unfold readHeader
  rw [Reader.fails_bind_iff]
  simp only [Reader.fails_mapError_iff, Reader.run_mapError_eq_ok, Reader.u16_fails_iff,
    Reader.u16_eq_ok]
  constructor
  · rintro (⟨_, ⟨h, -⟩, -⟩ | ⟨version, rest, rfl, h⟩)
    · omega
    -- four bytes are there, so neither byte of the marker is missing
    rw [List.length_append, hversion] at hlen
    rw [Reader.fails_u8_bind_iff] at h
    obtain ⟨rfl, -⟩ | ⟨first, rest, h, rfl⟩ := h
    · simp at hlen
    rw [List.length_cons] at hlen
    rw [Reader.fails_u8_bind_iff] at h
    obtain ⟨rfl, -⟩ | ⟨second, rest, h, rfl⟩ := h
    · simp at hlen
    by_cases hmarker : [first, second] = marker
    · simp [hmarker] at h
    · rw [if_neg hmarker, Reader.fails_throw_iff] at h
      exact ⟨version, first, second, rest, hmarker, h.symm, rfl⟩
  · rintro ⟨version, first, second, rest, hmarker, rfl, rfl⟩
    have hmarker' : [first, second] ≠ marker := hmarker
    refine .inr ⟨version, _, rfl,
      Reader.fails_u8_bind_iff.mpr (.inr ⟨first, second :: rest, ?_, rfl⟩)⟩
    refine Reader.fails_u8_bind_iff.mpr (.inr ⟨second, rest, ?_, rfl⟩)
    rw [if_neg hmarker']
    simp

/-- An input that is long enough for a header cannot be read for a wrong marker, or for a flaw of its
proofs or of its records. -/
theorem read_fails_iff {length : Nat} {input : List UInt8} {e : DecodeError}
    (hlen : 4 ≤ input.length) : (Envelope.read length).Fails input e ↔
      (∃ version : UInt16, ∃ first second rest, [first, second] ≠ [0xbe, 0xef] ∧
        e = .badMarker first second ∧
        input = LittleEndian.encode 2 version.toNat ++ first :: second :: rest) ∨
      (∃ version rest, ProofsFlaw e rest ∧ input = header version ++ rest) ∨
      ∃ version proofs front rest, (1 ≤ proofs.length ∧ proofs.length < VarInt.sizeLimit ∧
        ∀ proof ∈ proofs, proof.Sized) ∧ Counted MerkleProof.Spelling proofs front ∧
        RecordsFlaw e rest ∧ input = header version ++ front ++ rest := by
  rw [Envelope.read, Reader.fails_bind_iff, readHeader_fails_iff hlen]
  refine or_congr_right ?_
  constructor
  · rintro ⟨version, rest, hr, h⟩
    obtain rfl := readHeader_eq_ok.mp hr
    rw [Reader.fails_bind_iff, readProofs_failsBy _ _] at h
    obtain h | ⟨proofs, _, hr, h⟩ := h
    · exact .inl ⟨version, rest, h, rfl⟩
    obtain ⟨hv, front, hp, rfl⟩ := (readProofs_reads _ _ _).mp hr
    rw [Reader.fails_bind_pure_iff, readRecords_failsBy _ _] at h
    exact .inr ⟨version, proofs, front, _, hv, hp, h, (List.append_assoc _ _ _).symm⟩
  · rintro (⟨version, rest, h, rfl⟩ | ⟨version, proofs, front, rest, hv, hp, h, rfl⟩)
    · refine ⟨version, rest, readHeader_eq_ok.mpr rfl, ?_⟩
      simpa [readProofs_failsBy _ _] using .inl h
    · refine ⟨version, front ++ rest, readHeader_eq_ok.mpr (List.append_assoc _ _ _), ?_⟩
      rw [Reader.fails_bind_iff]
      refine .inr ⟨proofs, rest, (readProofs_reads _ _ _).mpr ⟨hv, front, hp, rfl⟩, ?_⟩
      rw [Reader.fails_bind_pure_iff, readRecords_failsBy _ _]
      exact h

/-- What is long enough for a header is refused if it cannot be read, or not to its end. -/
theorem decode_eq_error_iff_of_four_le {bytes : List UInt8} {e : DecodeError}
    (hlen : 4 ≤ bytes.length) : decode bytes = .error e ↔
      (Envelope.read bytes.length).Fails bytes e ∨
        ∃ envelope rest, (Envelope.read bytes.length).run bytes = .ok envelope rest ∧
          rest ≠ [] ∧ e = .trailing rest.length := by
  simp only [decode]
  rw [if_neg (Nat.not_lt.mpr hlen)]
  unfold Reader.Fails
  cases (Envelope.read bytes.length).run bytes with
  | ok envelope rest =>
    cases rest with
    | nil =>
      simp only [reduceCtorEq, exists_false, EStateM.Result.ok.injEq, false_or, false_iff]
      rintro ⟨_, _, ⟨-, rfl⟩, hne, -⟩
      exact hne rfl
    | cons byte rest =>
      simp only [Except.error.injEq, reduceCtorEq, exists_false, EStateM.Result.ok.injEq, false_or]
      constructor
      · rintro rfl
        exact ⟨envelope, byte :: rest, ⟨rfl, rfl⟩, List.cons_ne_nil _ _, rfl⟩
      · rintro ⟨_, _, ⟨-, rfl⟩, -, rfl⟩
        rfl
  | error e' rest => simp

@[simp] theorem length_header (version : UInt16) : (header version).length = 4 := by
  rw [header, List.length_append, LittleEndian.length_encode]
  rfl

/-- The only flaw of an input that is too short for a header is that it is. -/
theorem Flaw.eq_tooShort {bytes : List UInt8} {e : DecodeError} (h : Flaw e bytes)
    (hlen : bytes.length < 4) : e = .tooShort bytes.length := by
  cases h with
  | tooShort => rfl
  | @badMarker version =>
    have := LittleEndian.length_encode 2 version.toNat
    simp only [List.length_append, List.length_cons] at hlen
    omega
  | @proofs version =>
    rw [List.length_append, length_header] at hlen
    omega
  | @records version =>
    rw [List.append_assoc, List.length_append, length_header] at hlen
    omega
  | trailing _ he =>
    have := he.four_le_length
    rw [List.length_append] at hlen
    omega

/-- **Decoding fails exactly by a flaw**, and with the error that is the matter there. -/
theorem decode_eq_error_iff {bytes : List UInt8} {e : DecodeError} :
    decode bytes = .error e ↔ Flaw e bytes := by
  -- what is shorter than a header is refused before anything is read
  by_cases hlen : bytes.length < 4
  · have hdecode : decode bytes = .error (.tooShort bytes.length) := if_pos hlen
    rw [hdecode]
    constructor
    · intro h
      cases h
      exact .tooShort hlen
    · intro h
      rw [h.eq_tooShort hlen]
  have hfour := Nat.le_of_not_lt hlen
  rw [decode_eq_error_iff_of_four_le hfour, read_fails_iff hfour]
  simp only [read_reads _ _ _ _]
  constructor
  · rintro ((⟨version, first, second, rest, hmarker, rfl, rfl⟩ | ⟨version, rest, h, rfl⟩ |
      ⟨version, proofs, front, rest, ⟨hone, hlt, hv⟩, hp, h, rfl⟩) |
      ⟨envelope, rest, ⟨hs, front, he, rfl⟩, hne, rfl⟩)
    · exact .badMarker hmarker
    · exact .proofs h
    · exact .records hone hlt hv hp h
    · exact .trailing hs he hne
  · intro h
    cases h with
    | tooShort h => exact absurd h hlen
    | badMarker h => exact .inl (.inl ⟨_, _, _, _, h, rfl, rfl⟩)
    | proofs h => exact .inl (.inr (.inl ⟨_, _, h, rfl⟩))
    | records hone hlt hv hp h =>
      exact .inl (.inr (.inr ⟨_, _, _, _, ⟨hone, hlt, hv⟩, hp, h, rfl⟩))
    | trailing hs he hne => exact .inr ⟨_, _, ⟨hs, _, he, rfl⟩, hne, rfl⟩

end Envelope

/-! ## Where decoding stops -/

theorem MerkleProof.flaw_level_iff {index : Nat} {fault : LevelFault} {input : List UInt8} :
    Flaw (.level index fault) input ↔
      ∃ rest, AtLevel index input rest ∧ LevelFlaw fault rest := by
  constructor
  · intro h
    cases h with
    | level ha h => exact ⟨_, ha, h⟩
  · rintro ⟨rest, ha, h⟩
    exact .level ha h

theorem MerkleProof.levelFlaw_leaf_iff {index : Nat} {fault : LeafFault} {input : List UInt8} :
    LevelFlaw (.leaf index fault) input ↔ ∃ rest, AtLeaf index input rest ∧ Leaf.Flaw fault rest := by
  constructor
  · intro h
    cases h with
    | leaf ha h => exact ⟨_, ha, h⟩
  · rintro ⟨rest, ha, h⟩
    exact .leaf ha h

namespace Envelope

theorem decode_eq_proof_error_iff {bytes : List UInt8} {index : Nat} {fault : ProofFault} :
    decode bytes = .error (.proof index fault) ↔
      ∃ version input rest, bytes = header version ++ input ∧ AtProof index input rest ∧
        MerkleProof.Flaw fault rest := by
  rw [decode_eq_error_iff]
  constructor
  · intro h
    cases h with
    | proofs h =>
      cases h with
      | proof ha h => exact ⟨_, _, _, rfl, ha, h⟩
    | records _ _ _ _ h => cases h
  · rintro ⟨version, input, rest, rfl, ha, h⟩
    exact .proofs (.proof ha h)

theorem decode_eq_record_error_iff {bytes : List UInt8} {index : Nat} {fault : RecordFault} :
    decode bytes = .error (.record index fault) ↔
      ∃ version proofs front input rest, bytes = header version ++ front ++ input ∧
        (1 ≤ proofs.length ∧ proofs.length < VarInt.sizeLimit ∧ ∀ proof ∈ proofs, proof.Sized) ∧
        Counted MerkleProof.Spelling proofs front ∧ AtRecord index input rest ∧
        Record.Flaw fault rest := by
  rw [decode_eq_error_iff]
  constructor
  · intro h
    cases h with
    | proofs h => cases h
    | records hone hlt hv hp h =>
      cases h with
      | record ha h => exact ⟨_, _, _, _, _, rfl, ⟨hone, hlt, hv⟩, hp, ha, h⟩
  · rintro ⟨version, proofs, front, input, rest, rfl, ⟨hone, hlt, hv⟩, hp, ha, h⟩
    exact .records hone hlt hv hp (.record ha h)

/-- **Errors say where decoding stopped.** A fault is reported for the proof at position `index`
exactly if a header and a greater number of proofs are followed by `index` complete proofs and then by
what is at fault; the same goes for its level at position `level` and the leaf of this level at
position `leaf`. A fault is reported for the record at position `index` exactly if all proofs are
complete and a greater number of records is followed by `index` complete records and then by what is
at fault. -/
theorem ofBytes_error_located (bytes : List UInt8) :
    (∀ index fault, ofBytes {} bytes = .error (.proof index fault) ↔
      ∃ version input rest, bytes = header version ++ input ∧ AtProof index input rest ∧
        MerkleProof.Flaw fault rest) ∧
    (∀ index level fault, ofBytes {} bytes = .error (.proof index (.level level fault)) ↔
      ∃ version input proof rest, bytes = header version ++ input ∧ AtProof index input proof ∧
        MerkleProof.AtLevel level proof rest ∧ MerkleProof.LevelFlaw fault rest) ∧
    (∀ index level leaf fault,
      ofBytes {} bytes = .error (.proof index (.level level (.leaf leaf fault))) ↔
        ∃ version input proof leaves rest, bytes = header version ++ input ∧
          AtProof index input proof ∧ MerkleProof.AtLevel level proof leaves ∧
          MerkleProof.AtLeaf leaf leaves rest ∧ Leaf.Flaw fault rest) ∧
    (∀ index fault, ofBytes {} bytes = .error (.record index fault) ↔
      ∃ version proofs front input rest, bytes = header version ++ front ++ input ∧
        (1 ≤ proofs.length ∧ proofs.length < VarInt.sizeLimit ∧ ∀ proof ∈ proofs, proof.Sized) ∧
        Counted MerkleProof.Spelling proofs front ∧ AtRecord index input rest ∧
        Record.Flaw fault rest) := by
  simp only [ofBytes_default]
  have hlevel : ∀ index level fault, decode bytes = .error (.proof index (.level level fault)) ↔
      ∃ version input proof rest, bytes = header version ++ input ∧ AtProof index input proof ∧
        MerkleProof.AtLevel level proof rest ∧ MerkleProof.LevelFlaw fault rest := by
    intro index level fault
    rw [decode_eq_proof_error_iff]
    constructor
    · rintro ⟨version, input, proof, hb, ha, h⟩
      obtain ⟨rest, hl, h⟩ := MerkleProof.flaw_level_iff.mp h
      exact ⟨version, input, proof, rest, hb, ha, hl, h⟩
    · rintro ⟨version, input, proof, rest, hb, ha, hl, h⟩
      exact ⟨version, input, proof, hb, ha, .level hl h⟩
  refine ⟨fun _ _ => decode_eq_proof_error_iff, hlevel, ?_, fun _ _ => decode_eq_record_error_iff⟩
  intro index level leaf fault
  rw [hlevel]
  constructor
  · rintro ⟨version, input, proof, leaves, hb, ha, hl, h⟩
    obtain ⟨rest, hf, h⟩ := MerkleProof.levelFlaw_leaf_iff.mp h
    exact ⟨version, input, proof, leaves, rest, hb, ha, hl, hf, h⟩
  · rintro ⟨version, input, proof, leaves, rest, hb, ha, hl, hf, h⟩
    exact ⟨version, input, proof, leaves, hb, ha, hl, .leaf hf h⟩

/-- The hash of the only leaf is cut off. -/
example : ofBytes {} [1, 0, 0xbe, 0xef, 1, 0, 1, 1, 0, 0] =
    .error (.proof 0 (.level 0 (.leaf 0 .hashCut))) := rfl

end Envelope

end SpvEnvelope
