import SpvEnvelope.Proofs.Failing.Envelope
import SpvEnvelope.Proofs.Shape
import SpvEnvelope.Proofs.Writing

/-!
# Reading back what was written

A proof or a transaction is read back from what is written for it, whatever follows, and the reader
stops where that begins. The guards on counts have no part in this: they look at all the bytes that
remain, and those are never fewer than the items need. So the constructor and the decoder of proofs
have the same results (`ofBytes_encode_of_ofLevels`), and a transaction is identified by its bytes,
and by its txid but for collisions of the hash (`read_encode_append`).

An envelope is read back from its own wire form unless it breaks one of the two limits that the
writer does not check (`ofBytes_encode`). The reader then stops at the first thing that breaks a
limit: at the number of proofs if there is none, else at the first record whose proof index is too
large. What is written for it is a flaw, and decoding fails by flaws.
-/

namespace SpvEnvelope

/-! ## Readers of forms -/

namespace Reader.Reads

variable {ε α : Type} {reader : Reader ε α} {valid : α → Prop} {form : α → List UInt8 → Prop}
  {a a' : α} {bytes : List UInt8}

/-- A form is read, and what follows it is left. -/
theorem run_append (h : reader.Reads valid form) (hv : valid a) (hf : form a bytes)
    (rest : List UInt8) : reader.run (bytes ++ rest) = .ok a rest :=
  (h _ _ _).mpr ⟨hv, bytes, hf, rfl⟩

/-- No bytes are forms of two values. -/
theorem unique (h : reader.Reads valid form) (hv : valid a) (hf : form a bytes) (hv' : valid a')
    (hf' : form a' bytes) : a = a' := by
  have hrun := h.run_append hv hf []
  rw [h.run_append hv' hf' []] at hrun
  cases hrun
  rfl

end Reader.Reads

/-! ## Proofs -/

namespace MerkleProof

theorem ofBytes_encode_of_sized {proof : MerkleProof} (h : proof.Sized) :
    ofBytes proof.encode = .ok proof :=
  ofBytes_eq_ok.mpr ⟨h, spelling_encode h⟩

theorem ofText_text_of_sized {proof : MerkleProof} (h : proof.Sized) :
    ofText proof.text = .ok proof := by
  simpa [ofText, text] using ofBytes_encode_of_sized h

/-- **Levels that are accepted are read back, and what is decoded is accepted.** -/
theorem ofBytes_encode_of_ofLevels :
    (∀ blockHeight levels proof, ofLevels blockHeight levels = .ok proof → proof.Sized →
      proof.blockHeight = blockHeight ∧ proof.leaves = levels ∧
      ofBytes proof.encode = .ok proof ∧ ofText proof.text = .ok proof ∧
      ∀ rest, MerkleProof.read.run (proof.encode ++ rest) = .ok proof rest) ∧
    (∀ bytes proof, ofBytes bytes = .ok proof →
      ofLevels proof.blockHeight proof.leaves = .ok proof ∧ proof.Sized) := by
  constructor
  · intro blockHeight levels proof h hs
    obtain ⟨hheight, hleaves⟩ := leaves_of_ofLevels h
    exact ⟨hheight, hleaves, ofBytes_encode_of_sized hs, ofText_text_of_sized hs,
      read_reads.run_append hs (spelling_encode hs)⟩
  · intro bytes proof h
    exact ⟨proof.ofLevels_leaves, (ofBytes_eq_ok.mp h).1⟩

end MerkleProof

theorem Merkle.sized_turnedProof : turnedProof.Sized := by
  intro level hm
  simp only [turnedProof, List.mem_cons, List.not_mem_nil, or_false] at hm
  rcases hm with rfl | rfl <;> decide

/-- A proof with leaves of all kinds, alone and with bytes after it. -/
theorem Merkle.ofBytes_encode_turnedProof :
    MerkleProof.ofLevels 7 turnedProof.leaves = .ok turnedProof ∧ turnedProof.Sized ∧
      MerkleProof.ofBytes turnedProof.encode = .ok turnedProof ∧
      MerkleProof.ofText turnedProof.text = .ok turnedProof ∧
      MerkleProof.read.run (turnedProof.encode ++ [0xbe, 0xef]) = .ok turnedProof [0xbe, 0xef] ∧
      MerkleProof.ofLevels turnedProof.blockHeight turnedProof.leaves = .ok turnedProof := by
  have hlevels : MerkleProof.ofLevels 7 turnedProof.leaves = .ok turnedProof := by rfl
  obtain ⟨-, -, hbytes, htext, hread⟩ :=
    MerkleProof.ofBytes_encode_of_ofLevels.1 7 _ _ hlevels sized_turnedProof
  exact ⟨hlevels, sized_turnedProof, hbytes, htext, hread _,
    (MerkleProof.ofBytes_encode_of_ofLevels.2 _ _ hbytes).1⟩

/-! ## Transactions -/

namespace Transaction

variable {tx tx' : Transaction} {rest : List UInt8}

theorem run_read_encode_append (h : tx.Sized) (rest : List UInt8) :
    Transaction.read.run (tx.encode ++ rest) = .ok tx rest :=
  read_reads.run_append h (spelling_encode h) rest

/-- Bytes after a transaction are counted as left over. -/
theorem ofBytes_encode_append (h : tx.Sized) (hne : rest ≠ []) :
    ofBytes (tx.encode ++ rest) = .error (.trailing rest.length) := by
  obtain ⟨byte, more, rfl⟩ := List.exists_cons_of_ne_nil hne
  rw [ofBytes, run_read_encode_append h]

/-- Different transactions are written differently. -/
theorem eq_of_encode_eq (h : tx.Sized) (h' : tx'.Sized) (he : tx.encode = tx'.encode) :
    tx = tx' :=
  read_reads.unique h (spelling_encode h) h' (he ▸ spelling_encode h')

/-- **A transaction is read back from its wire form**, whatever follows it, and has the txid of
another one only if their wire forms collide. -/
theorem read_encode_append :
    (∀ tx : Transaction, tx.Sized →
      (∀ rest, Transaction.read.run (tx.encode ++ rest) = .ok tx rest) ∧
      ofBytes tx.encode = .ok tx ∧
      ∀ rest, rest ≠ [] → ofBytes (tx.encode ++ rest) = .error (.trailing rest.length)) ∧
    (∀ tx tx' : Transaction, tx.Sized → tx'.Sized → tx.encode = tx'.encode → tx = tx') ∧
    (∀ tx tx' : Transaction, tx.Sized → tx'.Sized → tx.txid = tx'.txid → tx = tx' ∨
      tx.encode ≠ tx'.encode ∧ Digest.double tx.encode = Digest.double tx'.encode) := by
  refine ⟨?_, fun _ _ => eq_of_encode_eq, ?_⟩
  · intro tx h
    exact ⟨run_read_encode_append h, ofBytes_eq_ok.mpr ⟨h, spelling_encode h⟩,
      fun rest hne => ofBytes_encode_append h hne⟩
  · intro tx tx' h h' ht
    by_cases he : tx.encode = tx'.encode
    · exact .inl (eq_of_encode_eq h h' he)
    · exact .inr ⟨he, ht⟩

theorem read_encode_append_scripted :
    scripted.Sized ∧
      Transaction.read.run (scripted.encode ++ [0, 1]) = .ok scripted [0, 1] ∧
      ofBytes scripted.encode = .ok scripted ∧
      ofBytes (scripted.encode ++ [0, 1]) = .error (.trailing 2) ∧
      scripted = scripted ∧
      (scripted = scripted ∨ scripted.encode ≠ scripted.encode ∧
        Digest.double scripted.encode = Digest.double scripted.encode) := by
  have hsized : scripted.Sized := scripted_spelling.sized (by decide +kernel)
  obtain ⟨hread, hencode, htxid⟩ := read_encode_append
  obtain ⟨hrun, hbytes, htrailing⟩ := hread scripted hsized
  exact ⟨hsized, hrun _, hbytes, htrailing _ (List.cons_ne_nil _ _),
    hencode _ _ hsized hsized rfl, htxid _ _ hsized hsized rfl⟩

end Transaction

/-! ## Records -/

namespace Record

variable {record : Record} {index : UInt64}

/-- What is written for a record is a flaw if its proof index is too large. -/
theorem flaw_encode (hs : record.transaction.Sized) (hp : record.proofIndex = some index)
    (h : 2 ^ 63 - 1 < index.toNat) (rest : List UInt8) :
    Record.Flaw (.proofIndexTooLarge index) (record.encode ++ rest) := by
  have hbytes : record.encode ++ rest =
      record.transaction.encode ++ 1 :: (VarInt.encode index ++ rest) := by
    rw [encode, hp, encodeProofIndex, List.append_assoc, List.cons_append]
  have hle : VarInt.sizeLimit ≤ index.toNat := by
    unfold VarInt.sizeLimit
    omega
  rw [hbytes]
  exact .proofIndexTooLarge hs (Transaction.spelling_encode hs) (VarInt.spelling_encode index) hle

theorem minLength_le_length_encode (h : record.transaction.Sized) :
    minLength ≤ record.encode.length := by
  have htx := (Transaction.spelling_encode h).ten_le_length
  have hproof : 1 ≤ (encodeProofIndex record.proofIndex).length := by
    cases record.proofIndex <;> simp [encodeProofIndex]
  rw [encode, List.length_append, minLength]
  omega

end Record

/-! ## Envelopes -/

namespace Envelope

variable {envelope : Envelope}

theorem encode_eq (envelope : Envelope) : envelope.encode =
    header envelope.version
      ++ (VarInt.encodeCount envelope.proofs.length ++ envelope.proofs.flatMap MerkleProof.encode)
      ++ (VarInt.encodeCount envelope.records.length ++ envelope.records.flatMap Record.encode) := by
  simp [encode, marker, header]

/-- What is written for records is a flaw if a proof index is too large, and the first one that is
says so. -/
theorem recordsFlaw_encode {records before after : List Record} {record : Record} {index : UInt64}
    (htwo : 2 ≤ records.length) (hlt : records.length < VarInt.sizeLimit)
    (hs : ∀ record ∈ records, record.transaction.Sized)
    (hsplit : records = before ++ record :: after) (hp : record.proofIndex = some index)
    (h : 2 ^ 63 - 1 < index.toNat) (hfirst : ∀ earlier ∈ before, earlier.IndexFits) :
    RecordsFlaw (.record before.length (.proofIndexTooLarge index))
      (VarInt.encodeCount records.length ++ records.flatMap Record.encode) := by
  have hlength : records.length * Record.minLength ≤ (records.flatMap Record.encode).length := by
    have hall : Sequence (fun record bytes => record.transaction.Sized ∧ bytes = record.encode)
        records (records.flatMap Record.encode) := .of_flatMap fun record hm => ⟨hs record hm, rfl⟩
    refine hall.mul_le_length fun record front hform => ?_
    rw [hform.2]
    exact Record.minLength_le_length_encode hform.1
  have hnat := VarInt.toNat_ofNat_of_lt_sizeLimit hlt
  have hi : before.length < records.length := by
    rw [hsplit, List.length_append, List.length_cons]
    omega
  have hbytes : records.flatMap Record.encode =
      before.flatMap Record.encode ++ (record.encode ++ after.flatMap Record.encode) := by
    rw [hsplit, List.flatMap_append, List.flatMap_cons]
  rw [hsplit, List.forall_mem_append, List.forall_mem_cons] at hs
  have hbefore : Sequence Record.Spelling before (before.flatMap Record.encode) :=
    .of_flatMap fun earlier hm => Record.spelling_encode (hs.1 earlier hm) (hfirst earlier hm)
  have hat : AtRecord before.length (VarInt.encodeCount records.length
      ++ before.flatMap Record.encode ++ (record.encode ++ after.flatMap Record.encode))
      (record.encode ++ after.flatMap Record.encode) :=
    .intro (VarInt.spelling_encode _) (by rw [hnat]; exact htwo) (by rw [hnat]; exact hlt)
      (by rw [hnat, ← hbytes]; exact hlength) (by rw [hnat]; exact hi) hs.1 hbefore
  rw [hbytes, ← List.append_assoc]
  exact .record hat (Record.flaw_encode hs.2.1 hp h _)

theorem decode_encode_of_proofs_eq_nil (h : envelope.proofs = []) :
    decode envelope.encode = .error .noProofs := by
  have hzero : VarInt.Spelling 0 (VarInt.encodeCount 0) := VarInt.spelling_encode 0
  rw [decode_eq_error_iff, encode_eq, h, List.flatMap_nil, List.append_nil, List.length_nil,
    List.append_assoc]
  exact .proofs (.none hzero)

theorem decode_encode_of_index {before after : List Record} {record : Record} {index : UInt64}
    (hs : envelope.Sized) (hne : envelope.proofs ≠ [])
    (hsplit : envelope.records = before ++ record :: after) (hp : record.proofIndex = some index)
    (h : 2 ^ 63 - 1 < index.toNat) (hfirst : ∀ earlier ∈ before, earlier.IndexFits) :
    decode envelope.encode = .error (.record before.length (.proofIndexTooLarge index)) := by
  have hproofs : Counted MerkleProof.Spelling envelope.proofs
      (VarInt.encodeCount envelope.proofs.length ++ envelope.proofs.flatMap MerkleProof.encode) :=
    .of_flatMap hs.length_proofs fun proof hm => MerkleProof.spelling_encode (hs.proofs proof hm)
  rw [decode_eq_error_iff, encode_eq]
  exact .records (List.length_pos_iff.mpr hne) hs.length_proofs hs.proofs hproofs
    (recordsFlaw_encode envelope.two_le_length_records hs.length_records hs.records hsplit hp h
      hfirst)

/-- **An envelope is read back from its wire form** exactly if it has a proof and all its proof
indices are below 2 ^ 63. One without a proof is refused as such, and of all others the first record
with a larger index is named. -/
theorem ofBytes_encode (envelope : Envelope) (h : envelope.Sized) :
    (ofBytes {} envelope.encode = .ok envelope ↔
      1 ≤ envelope.proofs.length ∧ ∀ record ∈ envelope.records, record.IndexFits) ∧
    (envelope.proofs = [] → ofBytes {} envelope.encode = .error .noProofs) ∧
    (∀ before record after index, envelope.proofs ≠ [] →
      envelope.records = before ++ record :: after → record.proofIndex = some index →
      2 ^ 63 - 1 < index.toNat → (∀ earlier ∈ before, earlier.IndexFits) →
      ofBytes {} envelope.encode = .error (.record before.length (.proofIndexTooLarge index)) ∧
        (DecodeError.record before.length (.proofIndexTooLarge index)).message =
          overflowMessage "bump index" index) := by
  simp only [ofBytes_default]
  refine ⟨?_, decode_encode_of_proofs_eq_nil, ?_⟩
  · rw [decode_eq_ok, spelling_encode_iff h]
    exact ⟨fun hb => hb.2, fun hb => ⟨h, hb⟩⟩
  · intro before record after index hne hsplit hp hlarge hfirst
    exact ⟨decode_encode_of_index h hne hsplit hp hlarge hfirst, rfl⟩

/-- The assorted envelope with a target that points at this proof. -/
def pointing (index : UInt64) : Envelope :=
  { assorted with
    records := [.ofTransaction .scripted (some 0), .ofTransaction .unscripted (some index)] }

theorem eq_of_mem_pointing {index : UInt64} {record : Record}
    (h : record ∈ (pointing index).records) :
    record = .ofTransaction .scripted (some 0) ∨
      record = .ofTransaction .unscripted (some index) := by
  simpa [pointing] using h

theorem sized_pointing (index : UInt64) : (pointing index).Sized where
  length_proofs := show 1 < VarInt.sizeLimit by decide
  proofs := (assorted_spelling.sized (by decide +kernel)).proofs
  length_records := show 2 < VarInt.sizeLimit by decide
  records record hm := by
    rcases eq_of_mem_pointing hm with rfl | rfl
    · exact Transaction.scripted_spelling.sized (by decide +kernel)
    · exact Transaction.unscripted_spelling.sized (by decide +kernel)

/-- The last index that is read back, and the first that is not. -/
theorem ofBytes_encode_pointing :
    ofBytes {} (pointing 0x7fffffffffffffff).encode = .ok (pointing 0x7fffffffffffffff) ∧
      ofBytes {} (pointing 0x8000000000000000).encode =
        .error (.record 1 (.proofIndexTooLarge 0x8000000000000000)) := by
  constructor
  · refine (ofBytes_encode _ (sized_pointing _)).1.mpr ⟨Nat.le_refl 1, fun record hm index hi => ?_⟩
    rcases eq_of_mem_pointing hm with rfl | rfl
    · cases hi
      decide
    · cases hi
      decide
  · have hboundary := (ofBytes_encode _ (sized_pointing 0x8000000000000000)).2.2
      [.ofTransaction .scripted (some 0)] (.ofTransaction .unscripted (some 0x8000000000000000)) []
      0x8000000000000000 (List.cons_ne_nil _ _) rfl rfl (by decide)
    refine (hboundary fun earlier hm index hi => ?_).1
    rw [List.mem_singleton.mp hm] at hi
    cases hi
    decide

end Envelope

end SpvEnvelope
