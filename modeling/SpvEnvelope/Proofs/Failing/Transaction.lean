import SpvEnvelope.Proofs.Decoding.Transaction
import SpvEnvelope.Proofs.Failing

/-!
# The readers of transactions fail by their flaws

A script, an input, an output or a transaction cannot be read exactly if the input has one of its
flaws, and the error is the one found there. Lists of inputs and of outputs are read alike, so what
is said of them is said once, of items whose own reader fails by a flaw.
-/

namespace SpvEnvelope

/-! ## Scripts, inputs and outputs -/

theorem Script.read_failsBy (field : TxField) :
    (Script.read field).FailsBy (Script.Flaw field) := by
  intro input e
  rw [Script.read, Reader.fails_bind_iff]
  simp only [TxField.read, Reader.fails_bind_pure_iff, Reader.fails_mapError_iff,
    Reader.run_mapError_eq_ok, VarInt.readSize_fails_iff, VarInt.readSize_eq_ok,
    Reader.bytes_fails_iff]
  constructor
  · rintro (⟨cause, h | ⟨length, front, rest, hl, hle, rfl, rfl⟩, rfl⟩ |
      ⟨_, rest, ⟨hlt, length, front, rfl, hl, rfl⟩, _, ⟨h, rfl⟩, rfl⟩)
    · exact .lengthCut h
    · exact .lengthTooLarge hl hle
    · exact .cut hl hlt h
  · intro h
    cases h with
    | lengthCut h => exact .inl ⟨_, .inl h, rfl⟩
    | lengthTooLarge hl hle => exact .inl ⟨_, .inr ⟨_, _, _, hl, hle, rfl, rfl⟩, rfl⟩
    | cut hl hlt h => exact .inr ⟨_, _, ⟨hlt, _, _, rfl, hl, rfl⟩, _, ⟨h, rfl⟩, rfl⟩

theorem Input.read_failsBy : Input.read.FailsBy Input.Flaw := by
  intro input e
  rw [Input.read, Reader.fails_bind_iff]
  simp only [TxField.read, Reader.fails_mapError_iff, Reader.run_mapError_eq_ok,
    Digest.read_fails_iff, Digest.read_eq_ok]
  constructor
  · rintro (⟨_, ⟨h, rfl⟩, rfl⟩ | ⟨txid, _, rfl, h⟩)
    · exact .sourceTxid h
    rw [Reader.fails_bind_iff] at h
    simp only [Reader.fails_mapError_iff, Reader.run_mapError_eq_ok, Reader.u32_fails_iff,
      Reader.u32_eq_ok] at h
    obtain ⟨_, ⟨h, rfl⟩, rfl⟩ | ⟨index, _, rfl, h⟩ := h
    · exact .outputIndex h
    rw [Reader.fails_bind_iff, Script.read_failsBy _ _ _] at h
    rw [← List.append_assoc]
    obtain h | ⟨script, _, hr, h⟩ := h
    · exact .script h
    obtain ⟨hlt, front, hs, rfl⟩ := (Script.read_reads _ _ _ _).mp hr
    simp only [Reader.fails_bind_pure_iff, Reader.fails_mapError_iff, Reader.u32_fails_iff] at h
    obtain ⟨_, ⟨h, rfl⟩, rfl⟩ := h
    rw [← List.append_assoc]
    exact .sequence hs hlt h
  · intro h
    cases h with
    | sourceTxid h => exact .inl ⟨_, ⟨h, rfl⟩, rfl⟩
    | outputIndex h =>
      refine .inr ⟨_, _, rfl, ?_⟩
      simpa using .inl h
    | script h =>
      refine .inr ⟨_, _, List.append_assoc _ _ _, ?_⟩
      rw [Reader.fails_bind_iff]
      refine .inr ⟨_, _, Reader.run_mapError_eq_ok.mpr (Reader.u32_eq_ok.mpr rfl), ?_⟩
      simpa [Script.read_failsBy _ _ _] using .inl h
    | sequence hs hlt h =>
      refine .inr ⟨_, _, by rw [List.append_assoc, List.append_assoc], ?_⟩
      rw [Reader.fails_bind_iff]
      refine .inr ⟨_, _, Reader.run_mapError_eq_ok.mpr (Reader.u32_eq_ok.mpr rfl), ?_⟩
      rw [Reader.fails_bind_iff]
      refine .inr ⟨_, _, (Script.read_reads _ _ _ _).mpr ⟨hlt, _, hs, rfl⟩, ?_⟩
      simpa using h

theorem Output.read_failsBy : Output.read.FailsBy Output.Flaw := by
  intro input e
  rw [Output.read, Reader.fails_bind_iff]
  simp only [TxField.read, Reader.fails_bind_pure_iff, Reader.fails_mapError_iff,
    Reader.run_mapError_eq_ok, Reader.u64_fails_iff, Reader.u64_eq_ok, Script.read_failsBy _ _ _]
  constructor
  · rintro (⟨_, ⟨h, rfl⟩, rfl⟩ | ⟨satoshis, rest, rfl, h⟩)
    · exact .satoshis h
    · exact .script h
  · intro h
    cases h with
    | satoshis h => exact .inl ⟨_, ⟨h, rfl⟩, rfl⟩
    | script h => exact .inr ⟨_, _, rfl, h⟩

/-! ## Lists -/

theorem TxItems.readCount_fails_iff {items : TxItems} {field : TxField} {minLength : Nat}
    {input : List UInt8} {e : TxError} :
    (items.readCount field minLength).Fails input e ↔
      (∃ cause, VarInt.Flaw cause input ∧ e = .field field cause) ∨
        ∃ count front rest, VarInt.Spelling count front ∧
          (VarInt.sizeLimit ≤ count.toNat ∨ rest.length < count.toNat * minLength) ∧
          e = .implausibleCount items count rest.length ∧ input = front ++ rest := by
  unfold readCount TxField.read
  rw [VarInt.fails_read_bind_iff]
  simp only [Reader.fails_get_bind_iff, hasAtLeast_eq, Bool.and_eq_true, decide_eq_true_eq]
  refine or_congr_right ?_
  constructor
  · rintro ⟨count, front, rest, hc, h, rfl⟩
    by_cases hg : count.toNat < VarInt.sizeLimit ∧ count.toNat * minLength ≤ rest.length
    · simp [hg] at h
    · rw [if_neg hg, Reader.fails_throw_iff] at h
      exact ⟨count, front, rest, hc, by omega, h.symm, rfl⟩
  · rintro ⟨count, front, rest, hc, h, rfl, rfl⟩
    refine ⟨count, front, rest, hc, ?_, rfl⟩
    rw [if_neg (by omega)]
    simp

section Items

variable {α : Type} {item : Reader TxError α} {valid : α → Prop} {form : α → List UInt8 → Prop}
  {flaw : TxError → List UInt8 → Prop}

theorem TxItems.read_failsBy (hr : item.Reads valid form) (hf : item.FailsBy flaw)
    (items : TxItems) (field : TxField) (minLength : Nat) :
    (items.read field minLength item).FailsBy
      (items.Flaw field minLength valid form flaw) := by
  intro input e
  rw [TxItems.read, Reader.fails_bind_iff, readCount_fails_iff]
  simp only [readCount_eq_ok, VarInt.read_eq_ok, Reader.fails_bind_pure_iff,
    Reader.items_fails_iff fun _ => hr, hf _ _]
  constructor
  · rintro ((⟨cause, h, rfl⟩ | ⟨count, front, rest, hc, h, rfl, rfl⟩) |
      ⟨_, _, ⟨count, ⟨front, hc, rfl⟩, rfl, hlt, hle⟩, before, body, rest, hi, hv, hb, h, rfl⟩)
    · exact .countCut h
    · exact .implausibleCount hc h
    · rw [← List.append_assoc]
      exact .item hc hlt hle hi hv hb h
  · intro h
    cases h with
    | countCut h => exact .inl (.inl ⟨_, h, rfl⟩)
    | implausibleCount hc h => exact .inl (.inr ⟨_, _, _, hc, h, rfl, rfl⟩)
    | item hc hlt hle hi hv hb h =>
      exact .inr ⟨_, _, ⟨_, ⟨_, hc, List.append_assoc _ _ _⟩, rfl, hlt, hle⟩, _, _, _, hi, hv, hb,
        h, rfl⟩

end Items

/-! ## Transactions -/

namespace Transaction

theorem read_failsBy : Transaction.read.FailsBy Transaction.Flaw := by
  have hinputs := TxItems.read_failsBy Input.read_reads Input.read_failsBy .inputs .inputCount
    Input.minLength
  have houtputs := TxItems.read_failsBy Output.read_reads Output.read_failsBy .outputs
    .outputCount Output.minLength
  intro input e
  rw [Transaction.read_eq, Reader.fails_bind_iff]
  simp only [TxField.read, Reader.fails_mapError_iff, Reader.run_mapError_eq_ok,
    Reader.u32_fails_iff, Reader.u32_eq_ok]
  constructor
  · rintro (⟨_, ⟨h, rfl⟩, rfl⟩ | ⟨version, _, rfl, h⟩)
    · exact .version h
    rw [Reader.fails_bind_iff, hinputs _ _] at h
    obtain h | ⟨inputs, _, hr, h⟩ := h
    · exact .inputs h
    obtain ⟨⟨hil, hiv⟩, front, hi, rfl⟩ := (readInputs_reads _ _ _).mp hr
    rw [Reader.fails_bind_iff, houtputs _ _] at h
    rw [← List.append_assoc]
    obtain h | ⟨outputs, _, hr, h⟩ := h
    · exact .outputs hil hiv hi h
    obtain ⟨⟨hol, hov⟩, body, ho, rfl⟩ := (readOutputs_reads _ _ _).mp hr
    simp only [Reader.fails_bind_pure_iff, Reader.fails_mapError_iff, Reader.u32_fails_iff] at h
    obtain ⟨_, ⟨h, rfl⟩, rfl⟩ := h
    rw [← List.append_assoc]
    exact .lockTime hil hiv hi hol hov ho h
  · intro h
    cases h with
    | version h => exact .inl ⟨_, ⟨h, rfl⟩, rfl⟩
    | inputs h =>
      refine .inr ⟨_, _, rfl, ?_⟩
      simpa [hinputs _ _] using .inl h
    | outputs hil hiv hi h =>
      refine .inr ⟨_, _, List.append_assoc _ _ _, ?_⟩
      rw [Reader.fails_bind_iff]
      refine .inr ⟨_, _, (readInputs_reads _ _ _).mpr ⟨⟨hil, hiv⟩, _, hi, rfl⟩, ?_⟩
      simpa [houtputs _ _] using .inl h
    | lockTime hil hiv hi hol hov ho h =>
      refine .inr ⟨_, _, by rw [List.append_assoc, List.append_assoc], ?_⟩
      rw [Reader.fails_bind_iff]
      refine .inr ⟨_, _, (readInputs_reads _ _ _).mpr ⟨⟨hil, hiv⟩, _, hi, rfl⟩, ?_⟩
      rw [Reader.fails_bind_iff]
      refine .inr ⟨_, _, (readOutputs_reads _ _ _).mpr ⟨⟨hol, hov⟩, _, ho, rfl⟩, ?_⟩
      simpa using h

end Transaction

end SpvEnvelope
