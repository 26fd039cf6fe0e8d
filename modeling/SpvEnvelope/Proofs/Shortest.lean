import SpvEnvelope.Proofs.Decoding.Envelope

/-!
# No form is shorter than the written one

All forms of a value agree on everything but the variable-length integers, and of an integer the
written form is the only one of its length and the shortest. Both facts survive concatenation
(`Undercuts.append`), so they hold of a whole envelope: to write what was read never takes more
bytes, and where it takes as many, the same bytes come out (`encode_undercuts`).
-/

namespace SpvEnvelope

variable {α : Type} {form : α → List UInt8 → Prop}

/-- The bytes `written` are the bytes `given`, or there are fewer of them. -/
def Undercuts (written given : List UInt8) : Prop :=
  written = given ∨ written.length < given.length

namespace Undercuts

variable {written given written' given' : List UInt8}

protected theorem refl (bytes : List UInt8) : Undercuts bytes bytes := .inl rfl

theorem append (h : Undercuts written given) (h' : Undercuts written' given') :
    Undercuts (written ++ written') (given ++ given') := by
  rcases h with rfl | h
  · rcases h' with rfl | h'
    · exact .refl _
    · right
      simp only [List.length_append]
      omega
  · have hle : written'.length ≤ given'.length := by
      rcases h' with rfl | h'
      · exact Nat.le_refl _
      · exact Nat.le_of_lt h'
    right
    simp only [List.length_append]
    omega

theorem length_le (h : Undercuts written given) : written.length ≤ given.length := by
  rcases h with rfl | h
  · exact Nat.le_refl _
  · exact Nat.le_of_lt h

theorem eq_of_length_eq (h : Undercuts written given) (hlen : written.length = given.length) :
    written = given := by
  rcases h with rfl | h
  · rfl
  · omega

end Undercuts

/-! ## Integers, sequences and counts -/

theorem VarInt.Spelling.undercuts {value : UInt64} {bytes : List UInt8}
    (h : VarInt.Spelling value bytes) : Undercuts (VarInt.encode value) bytes := by
  -- one case for each form; the value may allow a form that is shorter still
  unfold VarInt.encode
  cases h with
  | one h1 =>
    rw [if_pos h1]
    exact .refl _
  | three h3 =>
    rw [if_pos h3]
    split
    · exact .inr (by simp)
    · exact .refl _
  | five h5 =>
    rw [if_pos h5]
    split
    · exact .inr (by simp)
    split
    · exact .inr (by simp)
    · exact .refl _
  | nine =>
    split
    · exact .inr (by simp)
    split
    · exact .inr (by simp)
    split
    · exact .inr (by simp)
    · exact .refl _

theorem VarInt.Spelling.undercuts_count {value : UInt64} {count : Nat} {bytes : List UInt8}
    (h : VarInt.Spelling value bytes) (hcount : value.toNat = count) :
    Undercuts (VarInt.encodeCount count) bytes := by
  rw [VarInt.encodeCount, ← hcount, UInt64.ofNat_toNat]
  exact h.undercuts

theorem Sequence.undercuts {encode : α → List UInt8} {items : List α} {bytes : List UInt8}
    (hs : Sequence form items bytes)
    (h : ∀ item front, form item front → Undercuts (encode item) front) :
    Undercuts (items.flatMap encode) bytes := by
  induction hs with
  | nil => exact .refl []
  | cons head tail ih =>
    rw [List.flatMap_cons]
    exact (h _ _ head).append ih

theorem Counted.undercuts {encode : α → List UInt8} {items : List α} {bytes : List UInt8}
    (hc : Counted form items bytes)
    (h : ∀ item front, form item front → Undercuts (encode item) front) :
    Undercuts (VarInt.encodeCount items.length ++ items.flatMap encode) bytes := by
  obtain ⟨hcount, head, tail⟩ := hc
  exact (head.undercuts_count hcount).append (tail.undercuts h)

/-! ## Transactions -/

theorem Script.Spelling.undercuts {script : Script} {bytes : List UInt8}
    (h : script.Spelling bytes) : Undercuts script.encode bytes := by
  obtain ⟨hlength, head⟩ := h
  exact (head.undercuts_count hlength).append (.refl _)

theorem Input.Spelling.undercuts {input : Input} {bytes : List UInt8}
    (h : input.Spelling bytes) : Undercuts input.encode bytes := by
  obtain ⟨hs⟩ := h
  exact ((Undercuts.refl _).append hs.undercuts).append (.refl _)

theorem Output.Spelling.undercuts {output : Output} {bytes : List UInt8}
    (h : output.Spelling bytes) : Undercuts output.encode bytes := by
  obtain ⟨hs⟩ := h
  exact (Undercuts.refl _).append hs.undercuts

theorem Transaction.Spelling.undercuts {tx : Transaction} {bytes : List UInt8}
    (h : tx.Spelling bytes) : Undercuts tx.encode bytes := by
  obtain ⟨hi, ho⟩ := h
  have hinputs := hi.undercuts fun _ _ h => h.undercuts
  have houtputs := ho.undercuts fun _ _ h => h.undercuts
  have hall := (((Undercuts.refl (LittleEndian.encode 4 tx.version.toNat)).append hinputs).append
    houtputs).append (.refl (LittleEndian.encode 4 tx.lockTime.toNat))
  simpa [Transaction.encode] using hall

/-! ## Proofs -/

theorem Leaf.Spelling.undercuts {leaf : Leaf} {bytes : List UInt8} (h : leaf.Spelling bytes) :
    Undercuts leaf.encode bytes := by
  cases h with
  | data h =>
    simpa [Leaf.encode, Leaf.flag, Leaf.ofHash, dataFlag] using h.undercuts.append (.refl _)
  | duplicate h =>
    simpa [Leaf.encode, Leaf.flag, Leaf.duplicate, duplicateFlag] using h.undercuts.append (.refl _)
  | txid h =>
    simpa [Leaf.encode, Leaf.flag, Leaf.ofTxid, txidFlag] using h.undercuts.append (.refl _)

namespace MerkleProof

theorem LevelSpelling.undercuts {level : List ProofLeaf} {bytes : List UInt8}
    (h : LevelSpelling level bytes) : Undercuts (encodeLevel level) bytes :=
  Counted.undercuts h fun _ _ h => h.undercuts

theorem Spelling.undercuts {proof : MerkleProof} {bytes : List UInt8} (h : proof.Spelling bytes) :
    Undercuts proof.encode bytes := by
  obtain ⟨hh, hl⟩ := h
  exact (hh.undercuts.append (.refl _)).append (hl.undercuts fun _ _ h => h.undercuts)

end MerkleProof

/-! ## Envelopes -/

theorem Record.Spelling.undercuts {record : Record} {bytes : List UInt8}
    (h : record.Spelling bytes) : Undercuts record.encode bytes := by
  unfold Record.encode
  cases h with
  | unmined ht hp =>
    rw [hp]
    exact ht.undercuts.append (.refl [0])
  | mined ht hp _ hi =>
    rw [hp]
    exact ht.undercuts.append ((Undercuts.refl [1]).append hi.undercuts)

namespace Envelope

theorem Spelling.undercuts {envelope : Envelope} {bytes : List UInt8}
    (h : envelope.Spelling bytes) : Undercuts envelope.encode bytes := by
  obtain ⟨-, hp, hr⟩ := h
  have hproofs := hp.undercuts fun _ _ h => h.undercuts
  have hrecords := hr.undercuts fun _ _ h => h.undercuts
  have hheader := Undercuts.refl (LittleEndian.encode 2 envelope.version.toNat ++ [0xbe, 0xef])
  have hall := (hheader.append hproofs).append hrecords
  simpa [encode, marker] using hall

/-- **The written form is the shortest, and the only one of its length.** Whatever is decoded from a
byte string is written in no more bytes, and if in as many, then in the same ones. This holds of
envelopes, of proofs and of transactions. -/
theorem encode_undercuts :
    (∀ (bytes : List UInt8) (envelope : Envelope), ofBytes {} bytes = .ok envelope →
      envelope.encode.length ≤ bytes.length ∧
        (envelope.encode.length = bytes.length → envelope.encode = bytes)) ∧
    (∀ (bytes : List UInt8) (proof : MerkleProof), MerkleProof.ofBytes bytes = .ok proof →
      proof.encode.length ≤ bytes.length ∧
        (proof.encode.length = bytes.length → proof.encode = bytes)) ∧
    (∀ (bytes : List UInt8) (tx : Transaction), Transaction.ofBytes bytes = .ok tx →
      tx.encode.length ≤ bytes.length ∧ (tx.encode.length = bytes.length → tx.encode = bytes)) := by
  refine ⟨?_, ?_, ?_⟩
  · intro bytes envelope h
    rw [ofBytes_default, decode_eq_ok] at h
    have hu := h.2.undercuts
    exact ⟨hu.length_le, hu.eq_of_length_eq⟩
  · intro bytes proof h
    have hu := (MerkleProof.ofBytes_eq_ok.mp h).2.undercuts
    exact ⟨hu.length_le, hu.eq_of_length_eq⟩
  · intro bytes tx h
    have hu := (Transaction.ofBytes_eq_ok.mp h).2.undercuts
    exact ⟨hu.length_le, hu.eq_of_length_eq⟩

/-- Two bytes are saved wherever a number below 253 was written in three bytes, and eight where one
was written in nine. -/
theorem encode_undercuts_assorted :
    (ofBytes {} assortedBytes = .ok assorted ∧
      assorted.encode.length ≤ assortedBytes.length ∧
      assortedBytes.length = 239 ∧ assorted.encode.length = 219) ∧
    (MerkleProof.ofBytes MerkleProof.assortedBytes = .ok .assorted ∧
      MerkleProof.assorted.encode.length ≤ MerkleProof.assortedBytes.length) ∧
    Transaction.ofBytes Transaction.scriptedBytes = .ok .scripted ∧
      Transaction.scripted.encode.length ≤ Transaction.scriptedBytes.length := by
  have hsized := assorted_spelling.sized (by decide +kernel)
  have henvelope : ofBytes {} assortedBytes = .ok assorted := by
    simpa [decode_eq_ok] using ⟨hsized, assorted_spelling⟩
  have hproof : MerkleProof.ofBytes MerkleProof.assortedBytes = .ok .assorted :=
    MerkleProof.ofBytes_eq_ok.mpr
      ⟨hsized.proofs _ (by simp [assorted]), MerkleProof.assorted_spelling⟩
  have htx : Transaction.ofBytes Transaction.scriptedBytes = .ok .scripted :=
    Transaction.ofBytes_eq_ok.mpr
      ⟨Transaction.scripted_spelling.sized (by decide +kernel), Transaction.scripted_spelling⟩
  obtain ⟨henvelopes, hproofs, htxs⟩ := encode_undercuts
  exact ⟨⟨henvelope, (henvelopes _ _ henvelope).1, by decide +kernel, by decide +kernel⟩,
    ⟨hproof, (hproofs _ _ hproof).1⟩, htx, (htxs _ _ htx).1⟩

end Envelope

end SpvEnvelope
