import SpvEnvelope.Proofs.Grammar

/-!
# What writers write is in the grammar

A value whose lengths are counts is written as one of its forms, the one in which all integers are
as short as they can be. A record is only if its proof index is small enough to be read again
(`Record.IndexFits`), and an envelope only if there is a proof: these two are limits of the grammar
that no writer checks (`Envelope.spelling_encode_iff`).
-/

namespace SpvEnvelope

variable {α : Type} {form : α → List UInt8 → Prop}

/-! ## Integers, sequences and counts -/

theorem VarInt.spelling_encode (value : UInt64) : VarInt.Spelling value (VarInt.encode value) := by
  unfold VarInt.encode
  split
  · rename_i h
    exact .one h
  · split
    · rename_i h
      exact .three h
    · split
      · rename_i h
        exact .five h
      · exact .nine

theorem VarInt.toNat_ofNat_of_lt_sizeLimit {count : Nat} (h : count < sizeLimit) :
    (UInt64.ofNat count).toNat = count := by
  unfold sizeLimit at h
  exact UInt64.toNat_ofNat_of_lt' (by rw [UInt64.size]; omega)

theorem Sequence.of_flatMap {encode : α → List UInt8} {items : List α}
    (h : ∀ item ∈ items, form item (encode item)) : Sequence form items (items.flatMap encode) := by
  induction items with
  | nil => exact .nil
  | cons item rest ih =>
    obtain ⟨hitem, hrest⟩ := List.forall_mem_cons.mp h
    rw [List.flatMap_cons]
    exact .cons hitem (ih hrest)

theorem Sequence.exists_form {items : List α} {bytes : List UInt8} (h : Sequence form items bytes) :
    ∀ item ∈ items, ∃ front, form item front := by
  induction h with
  | nil => simp
  | cons head _ ih => exact List.forall_mem_cons.mpr ⟨⟨_, head⟩, ih⟩

theorem Counted.of_flatMap {encode : α → List UInt8} {items : List α}
    (hlt : items.length < VarInt.sizeLimit) (h : ∀ item ∈ items, form item (encode item)) :
    Counted form items (VarInt.encodeCount items.length ++ items.flatMap encode) :=
  .intro (VarInt.toNat_ofNat_of_lt_sizeLimit hlt) (VarInt.spelling_encode _) (.of_flatMap h)

/-! ## Transactions -/

theorem Script.spelling_encode {script : Script} (h : script.length < VarInt.sizeLimit) :
    script.Spelling script.encode :=
  .intro (VarInt.toNat_ofNat_of_lt_sizeLimit h) (VarInt.spelling_encode _)

theorem Input.spelling_encode {input : Input} (h : input.Sized) : input.Spelling input.encode :=
  .intro (Script.spelling_encode h)

theorem Output.spelling_encode {output : Output} (h : output.Sized) :
    output.Spelling output.encode :=
  .intro (Script.spelling_encode h)

theorem Transaction.spelling_encode {tx : Transaction} (h : tx.Sized) : tx.Spelling tx.encode := by
  have hi := Counted.of_flatMap h.length_inputs fun input hm =>
    Input.spelling_encode (h.inputs input hm)
  have ho := Counted.of_flatMap h.length_outputs fun output hm =>
    Output.spelling_encode (h.outputs output hm)
  have hform := Transaction.Spelling.intro hi ho
  simp only [← List.append_assoc] at hform
  exact hform

/-! ## Proofs -/

theorem Leaf.spelling_encode (leaf : ProofLeaf) : leaf.val.Spelling leaf.val.encode := by
  obtain ⟨⟨offset, hash, isTxid, isDuplicate⟩, hw⟩ := leaf
  have hs := VarInt.spelling_encode offset
  cases isDuplicate with
  | true =>
    obtain ⟨rfl, rfl⟩ : hash = none ∧ isTxid = false := by simpa [isWellFormed] using hw
    have hencode : (duplicate offset).encode = VarInt.encode offset ++ [1] := List.append_nil _
    exact hencode ▸ .duplicate hs
  | false =>
    obtain ⟨hash, rfl⟩ : ∃ value, hash = some value := by
      simpa [isWellFormed, Option.isSome_iff_exists] using hw
    cases isTxid with
    | true =>
      have hencode : (ofTxid offset hash).encode = VarInt.encode offset ++ 2 :: hash.bytes :=
        List.append_assoc _ _ _
      exact hencode ▸ .txid hs
    | false =>
      have hencode : (ofHash offset hash).encode = VarInt.encode offset ++ 0 :: hash.bytes :=
        List.append_assoc _ _ _
      exact hencode ▸ .data hs

namespace MerkleProof

theorem levelSpelling_encodeLevel {level : List ProofLeaf} (h : level.length < VarInt.sizeLimit) :
    LevelSpelling level (encodeLevel level) :=
  .of_flatMap h fun leaf _ => Leaf.spelling_encode leaf

theorem spelling_encode {proof : MerkleProof} (h : proof.Sized) : proof.Spelling proof.encode :=
  .intro (VarInt.spelling_encode _) <| .of_flatMap fun level hm =>
    levelSpelling_encodeLevel (h level hm)

end MerkleProof

/-! ## Envelopes -/

/-- The record's proof index, if it has one, is small enough to be read. -/
def Record.IndexFits (record : Record) : Prop :=
  ∀ index, record.proofIndex = some index → index.toNat ≤ 2 ^ 63 - 1

theorem Record.spelling_encode {record : Record} (h : record.transaction.Sized)
    (hi : record.IndexFits) : record.Spelling record.encode := by
  have ht := Transaction.spelling_encode h
  unfold Record.encode
  cases hp : record.proofIndex with
  | none => exact .unmined ht hp
  | some index => exact .mined ht hp (hi index hp) (VarInt.spelling_encode index)

theorem Record.Spelling.indexFits {record : Record} {bytes : List UInt8}
    (h : record.Spelling bytes) : record.IndexFits := by
  intro index hi
  cases h with
  | unmined _ hp =>
    rw [hi] at hp
    cases hp
  | mined _ hp hlt _ =>
    rw [hi] at hp
    cases hp
    exact hlt

/-- The written form of an envelope is one of its forms exactly if the envelope has a proof and all
proof indices fit. -/
theorem Envelope.spelling_encode_iff {envelope : Envelope} (h : envelope.Sized) :
    envelope.Spelling envelope.encode ↔
      1 ≤ envelope.proofs.length ∧ ∀ record ∈ envelope.records, record.IndexFits := by
  constructor
  · intro hs
    generalize envelope.encode = bytes at hs
    obtain ⟨one_le, -, -, -, hr⟩ := hs
    refine ⟨one_le, fun record hm => ?_⟩
    obtain ⟨_, hform⟩ := hr.exists_form record hm
    exact hform.indexFits
  · rintro ⟨one_le, hi⟩
    have hp := Counted.of_flatMap h.length_proofs fun proof hm =>
      MerkleProof.spelling_encode (h.proofs proof hm)
    have hr := Counted.of_flatMap h.length_records fun record hm =>
      Record.spelling_encode (h.records record hm) (hi record hm)
    have hform := Envelope.Spelling.intro one_le hp hr
    simp only [← List.append_assoc] at hform
    exact hform

end SpvEnvelope
