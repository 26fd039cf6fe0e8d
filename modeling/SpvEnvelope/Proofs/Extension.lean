import SpvEnvelope.Proofs.Failing.Envelope

/-!
# Bytes that follow

What more bytes at the end of an input change depends on how decoding stopped. If a value was wrong,
it is still wrong, and the error is the same. If the input was cut off, or could not hold what a count
promised, anything can happen. If decoding came to the end of an envelope, the new bytes are left over.

So no envelope's form is the beginning of another's, and an envelope that is cut off is never mistaken
for one with a wrong value.
-/

namespace SpvEnvelope

/-! ## Two kinds of errors -/

/-- Whether an error says that the input ended too soon. -/
def LeafFault.isCut : LeafFault → Bool
  | .offsetCut | .flagCut | .hashCut => true
  | .badFlag _ => false

/-- Whether an error says that the input ended too soon, or is too short for a count. -/
def LevelFault.isCut : LevelFault → Bool
  | .countCut | .implausibleCount .. => true
  | .countTooLarge _ => false
  | .leaf _ fault => fault.isCut

/-- Whether an error says that the input ended too soon, or is too short for a count. -/
def ProofFault.isCut : ProofFault → Bool
  | .blockHeightCut | .treeHeightCut => true
  | .treeHeightTooLarge _ => false
  | .level _ fault => fault.isCut

/-- Whether an error says that the input ended too soon, or is too short for a count. The errors of
transactions all count as such. -/
def RecordFault.isCut : RecordFault → Bool
  | .transaction _ | .markCut | .proofIndexCut => true
  | .badMark _ | .proofIndexTooLarge _ => false

namespace DecodeError

/-- Whether an error says that the input ended too soon, or is too short for a count. -/
def isCut : DecodeError → Bool
  | .tooShort _ | .noProofCount | .txCountCut | .implausibleTxCount .. => true
  | .proof _ fault => fault.isCut
  | .record _ fault => fault.isCut
  | .badMarker .. | .proofCountTooLarge _ | .noProofs | .tooFewTransactions _ | .txCountTooLarge _ =>
    false
  | .hex _ | .tooLong .. | .trailing _ => false

/-- Whether an error says that a value in the input is wrong. -/
def isContent : DecodeError → Bool
  | .badMarker .. | .proofCountTooLarge _ | .noProofs | .tooFewTransactions _ | .txCountTooLarge _ =>
    true
  | .proof _ fault => !fault.isCut
  | .record _ fault => !fault.isCut
  | .tooShort _ | .noProofCount | .txCountCut | .implausibleTxCount .. => false
  | .hex _ | .tooLong .. | .trailing _ => false

variable {e : DecodeError} {index : Nat}

@[simp] theorem isContent_proof {fault : ProofFault} :
    (DecodeError.proof index fault).isContent = true ↔ fault.isCut = false := by
  simp [isContent]

@[simp] theorem isContent_record {fault : RecordFault} :
    (DecodeError.record index fault).isContent = true ↔ fault.isCut = false := by
  simp [isContent]

/-- No error is of both kinds. -/
theorem isContent_eq_false (h : e.isCut = true) : e.isContent = false := by
  cases e <;> simp_all [isCut, isContent]

end DecodeError

/-! ## Flaws of a longer input -/

variable {input rest : List UInt8} {index : Nat}

theorem Leaf.Flaw.append {fault : LeafFault} (h : Leaf.Flaw fault input)
    (hf : fault.isCut = false) (more : List UInt8) : Leaf.Flaw fault (input ++ more) := by
  cases h with
  | offsetCut => cases hf
  | flagCut => cases hf
  | hashCut => cases hf
  | badFlag ho h =>
    rw [List.append_assoc, List.cons_append]
    exact .badFlag ho h

namespace MerkleProof

theorem AtLeaf.append (h : AtLeaf index input rest) (more : List UInt8) :
    AtLeaf index (input ++ more) (rest ++ more) := by
  obtain @⟨count, before, front, body, rest, hc, hlt, hle, hi, hb⟩ := h
  rw [List.append_assoc]
  refine .intro hc hlt ?_ hi hb
  simp only [List.length_append] at hle ⊢
  omega

theorem LevelFlaw.append {fault : LevelFault} (h : LevelFlaw fault input)
    (hf : fault.isCut = false) (more : List UInt8) : LevelFlaw fault (input ++ more) := by
  cases h with
  | countCut => cases hf
  | implausibleCount => cases hf
  | countTooLarge hc h =>
    rw [List.append_assoc]
    exact .countTooLarge hc h
  | leaf ha h => exact .leaf (ha.append more) (h.append hf more)

theorem AtLevel.append (h : AtLevel index input rest) (more : List UInt8) :
    AtLevel index (input ++ more) (rest ++ more) := by
  obtain ⟨hb, hle, hi, hv, hs⟩ := h
  rw [List.append_assoc, List.cons_append, List.append_assoc]
  exact .intro hb hle hi hv hs

theorem Flaw.append {fault : ProofFault} (h : Flaw fault input) (hf : fault.isCut = false)
    (more : List UInt8) : Flaw fault (input ++ more) := by
  cases h with
  | blockHeightCut => cases hf
  | treeHeightCut => cases hf
  | treeHeightTooLarge hb h =>
    rw [List.append_assoc, List.cons_append]
    exact .treeHeightTooLarge hb h
  | level ha h => exact .level (ha.append more) (h.append hf more)

end MerkleProof

theorem Record.Flaw.append {fault : RecordFault} (h : Record.Flaw fault input)
    (hf : fault.isCut = false) (more : List UInt8) : Record.Flaw fault (input ++ more) := by
  cases h with
  | transaction => cases hf
  | markCut => cases hf
  | proofIndexCut => cases hf
  | badMark hs ht h =>
    rw [List.append_assoc, List.cons_append]
    exact .badMark hs ht h
  | proofIndexTooLarge hs ht hi h =>
    rw [List.append_assoc, List.cons_append, List.append_assoc]
    exact .proofIndexTooLarge hs ht hi h

namespace Envelope

variable {bytes : List UInt8} {e : DecodeError}

theorem AtProof.append (h : AtProof index input rest) (more : List UInt8) :
    AtProof index (input ++ more) (rest ++ more) := by
  obtain ⟨hc, hlt, hi, hv, hb⟩ := h
  rw [List.append_assoc]
  exact .intro hc hlt hi hv hb

theorem ProofsFlaw.append (h : ProofsFlaw e input) (he : e.isContent = true) (more : List UInt8) :
    ProofsFlaw e (input ++ more) := by
  cases h with
  | countCut => cases he
  | countTooLarge hc h =>
    rw [List.append_assoc]
    exact .countTooLarge hc h
  | none hc =>
    rw [List.append_assoc]
    exact .none hc
  | proof ha h =>
    exact .proof (ha.append more) (h.append (DecodeError.isContent_proof.mp he) more)

theorem AtRecord.append (h : AtRecord index input rest) (more : List UInt8) :
    AtRecord index (input ++ more) (rest ++ more) := by
  obtain @⟨count, before, front, body, rest, hc, htwo, hlt, hle, hi, hv, hb⟩ := h
  rw [List.append_assoc]
  refine .intro hc htwo hlt ?_ hi hv hb
  simp only [List.length_append] at hle ⊢
  omega

theorem RecordsFlaw.append (h : RecordsFlaw e input) (he : e.isContent = true)
    (more : List UInt8) : RecordsFlaw e (input ++ more) := by
  cases h with
  | countCut => cases he
  | implausibleCount => cases he
  | tooFew hc h =>
    rw [List.append_assoc]
    exact .tooFew hc h
  | countTooLarge hc h =>
    rw [List.append_assoc]
    exact .countTooLarge hc h
  | record ha h =>
    exact .record (ha.append more) (h.append (DecodeError.isContent_record.mp he) more)

/-- A value that is wrong stays wrong. -/
theorem Flaw.append (h : Flaw e bytes) (he : e.isContent = true) (more : List UInt8) :
    Flaw e (bytes ++ more) := by
  cases h with
  | tooShort => cases he
  | trailing => cases he
  | badMarker h =>
    rw [List.append_assoc]
    exact .badMarker h
  | proofs h =>
    rw [List.append_assoc]
    exact .proofs (h.append he more)
  | records hone hlt hv hp h =>
    rw [List.append_assoc]
    exact .records hone hlt hv hp (h.append he more)

/-- The errors of a hex text and of a size limit are not among those of an envelope's bytes. -/
theorem Flaw.isCut_or_isContent_or_trailing (h : Flaw e bytes) :
    e.isCut = true ∨ e.isContent = true ∨ ∃ count, e = .trailing count := by
  cases e with
  | tooShort | noProofCount | txCountCut | implausibleTxCount => exact .inl rfl
  | badMarker | proofCountTooLarge | noProofs | tooFewTransactions | txCountTooLarge =>
    exact .inr (.inl rfl)
  | trailing count => exact .inr (.inr ⟨count, rfl⟩)
  | proof index fault =>
    cases hf : fault.isCut with
    | true => exact .inl hf
    | false => exact .inr (.inl (DecodeError.isContent_proof.mpr hf))
  | record index fault =>
    cases hf : fault.isCut with
    | true => exact .inl hf
    | false => exact .inr (.inl (DecodeError.isContent_record.mpr hf))
  | hex cause =>
    cases h with
    | proofs h => cases h
    | records _ _ _ _ h => cases h
  | tooLong length limit =>
    cases h with
    | proofs h => cases h
    | records _ _ _ _ h => cases h

/-! ## Decoding a longer input -/

theorem decode_append_of_ok {envelope : Envelope} (h : decode bytes = .ok envelope)
    {more : List UInt8} (hne : more ≠ []) :
    decode (bytes ++ more) = .error (.trailing more.length) := by
  obtain ⟨hs, he⟩ := decode_eq_ok.mp h
  exact decode_eq_error_iff.mpr (.trailing hs he hne)

theorem decode_append_of_trailing {count : Nat} (h : decode bytes = .error (.trailing count))
    (more : List UInt8) : decode (bytes ++ more) = .error (.trailing (count + more.length)) := by
  rw [decode_eq_error_iff] at h ⊢
  cases h with
  | proofs h => cases h
  | records _ _ _ _ h => cases h
  | trailing hs he hne =>
    rw [List.append_assoc, ← List.length_append]
    exact .trailing hs he (List.append_ne_nil_of_left_ne_nil hne more)

theorem decode_append_of_isContent (h : decode bytes = .error e) (he : e.isContent = true)
    (more : List UInt8) : decode (bytes ++ more) = .error e :=
  decode_eq_error_iff.mpr ((decode_eq_error_iff.mp h).append he more)

/-- A part of an envelope's form that lacks bytes at the end is refused for that. -/
theorem decode_of_append_ok {envelope : Envelope} {more : List UInt8}
    (h : decode (bytes ++ more) = .ok envelope) (hne : more ≠ []) :
    ∃ e, decode bytes = .error e ∧ e.isCut = true := by
  cases hd : decode bytes with
  | ok other =>
    rw [decode_append_of_ok hd hne] at h
    cases h
  | error e =>
    refine ⟨e, rfl, ?_⟩
    obtain hcut | hcontent | ⟨count, rfl⟩ :=
      (decode_eq_error_iff.mp hd).isCut_or_isContent_or_trailing
    · exact hcut
    · rw [decode_append_of_isContent hd hcontent] at h
      cases h
    · rw [decode_append_of_trailing hd] at h
      cases h

/-- **What more bytes change.** Bytes that follow an envelope are counted as left over, and so are
those that follow bytes left over; a wrong value stays the error that it was. So of two forms of
envelopes neither is the beginning of the other, and an envelope that lacks bytes at its end is
refused for that, and never for a wrong value. -/
theorem ofBytes_append (bytes more : List UInt8) (hne : more ≠ []) :
    (∀ envelope, ofBytes {} bytes = .ok envelope →
      ofBytes {} (bytes ++ more) = .error (.trailing more.length)) ∧
    (∀ count, ofBytes {} bytes = .error (.trailing count) →
      ofBytes {} (bytes ++ more) = .error (.trailing (count + more.length))) ∧
    (∀ e, e.isContent = true → ofBytes {} bytes = .error e →
      ofBytes {} (bytes ++ more) = .error e) ∧
    (∀ envelope other, ofBytes {} bytes = .ok envelope → ofBytes {} (bytes ++ more) ≠ .ok other) ∧
    ∀ envelope, ofBytes {} (bytes ++ more) = .ok envelope →
      ∃ e, ofBytes {} bytes = .error e ∧ e.isCut = true ∧ e.isContent = false := by
  simp only [ofBytes_default]
  refine ⟨fun _ h => decode_append_of_ok h hne, fun _ h => decode_append_of_trailing h more,
    fun _ he h => decode_append_of_isContent h he more, ?_, ?_⟩
  · intro envelope other h hmore
    rw [decode_append_of_ok h hne] at hmore
    cases hmore
  · intro envelope h
    obtain ⟨e, he, hcut⟩ := decode_of_append_ok h hne
    exact ⟨e, he, hcut, DecodeError.isContent_eq_false hcut⟩

/-- An envelope with a byte too many, and without its last byte. -/
theorem ofBytes_append_assorted :
    ofBytes {} (assortedBytes ++ [7]) = .error (.trailing 1) ∧
      ∃ e, ofBytes {} (assortedBytes.take 238) = .error e ∧ e.isCut = true ∧
        e.isContent = false := by
  have hassorted : ofBytes {} assortedBytes = .ok assorted := by
    simpa [decode_eq_ok] using ⟨assorted_spelling.sized (by decide +kernel), assorted_spelling⟩
  have hlast : assortedBytes.take 238 ++ [0] = assortedBytes := by decide +kernel
  constructor
  · exact (ofBytes_append assortedBytes [7] (List.cons_ne_nil _ _)).1 assorted hassorted
  · refine (ofBytes_append (assortedBytes.take 238) [0] (List.cons_ne_nil _ _)).2.2.2.2 assorted ?_
    rw [hlast]
    exact hassorted

end Envelope

end SpvEnvelope
