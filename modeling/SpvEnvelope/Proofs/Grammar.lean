import Mathlib.Algebra.Group.Nat.Defs
import SpvEnvelope.Envelope.Codec

/-!
# The grammar of the wire forms

Which byte strings are a form of a value, said without a reader. A value has many forms, because a
variable-length integer may be written in each of its four forms that can hold it (`VarInt.Spelling`)
and each count, length, offset, height and index is one; everything else is written in one way only.

Counts are not limited here. That a form is shorter than `VarInt.sizeLimit` limits all of them
(`Envelope.Spelling.sized`), since no item is without bytes.
-/

namespace SpvEnvelope

variable {α : Type} {form : α → List UInt8 → Prop}

/-! ## Integers, sequences and counts -/

/-- The forms of a variable-length integer that can hold its value. -/
inductive VarInt.Spelling (value : UInt64) : List UInt8 → Prop
  | one (h : value < 0xfd) : Spelling value [value.toUInt8]
  | three (h : value < 0x10000) : Spelling value (0xfd :: LittleEndian.encode 2 value.toNat)
  | five (h : value < 0x100000000) : Spelling value (0xfe :: LittleEndian.encode 4 value.toNat)
  | nine : Spelling value (0xff :: LittleEndian.encode 8 value.toNat)

/-- Forms of the items, one after the other. -/
inductive Sequence (form : α → List UInt8 → Prop) : List α → List UInt8 → Prop
  | nil : Sequence form [] []
  | cons {item : α} {items : List α} {front rest : List UInt8} (head : form item front)
      (tail : Sequence form items rest) : Sequence form (item :: items) (front ++ rest)

/-- The number of items, then their forms. -/
inductive Counted (form : α → List UInt8 → Prop) (items : List α) : List UInt8 → Prop
  | intro {count : UInt64} {front rest : List UInt8} (count_eq : count.toNat = items.length)
      (head : VarInt.Spelling count front) (tail : Sequence form items rest) :
      Counted form items (front ++ rest)

/-! ## Transactions -/

/-- The forms of a script: its length, then its bytes. -/
inductive Script.Spelling (script : Script) : List UInt8 → Prop
  | intro {length : UInt64} {front : List UInt8} (length_eq : length.toNat = script.length)
      (head : VarInt.Spelling length front) : Spelling script (front ++ script.bytes)

/-- The forms of an input. -/
inductive Input.Spelling (input : Input) : List UInt8 → Prop
  | intro {script : List UInt8} (hs : input.script.Spelling script) :
      Spelling input (input.sourceTxid.bytes ++ LittleEndian.encode 4 input.outputIndex.toNat
        ++ script ++ LittleEndian.encode 4 input.sequence.toNat)

/-- The forms of an output. -/
inductive Output.Spelling (output : Output) : List UInt8 → Prop
  | intro {script : List UInt8} (hs : output.script.Spelling script) :
      Spelling output (LittleEndian.encode 8 output.satoshis.toNat ++ script)

/-- The forms of a transaction. -/
inductive Transaction.Spelling (tx : Transaction) : List UInt8 → Prop
  | intro {inputs outputs : List UInt8} (hi : Counted Input.Spelling tx.inputs inputs)
      (ho : Counted Output.Spelling tx.outputs outputs) :
      Spelling tx (LittleEndian.encode 4 tx.version.toNat ++ inputs ++ outputs
        ++ LittleEndian.encode 4 tx.lockTime.toNat)

/-! ## Proofs -/

/-- The forms of a leaf: the offset and a flag, and for a leaf with a hash the 32 bytes of it. -/
inductive Leaf.Spelling : Leaf → List UInt8 → Prop
  | data {offset : UInt64} {hash : Digest} {front : List UInt8} (h : VarInt.Spelling offset front) :
      Spelling (.ofHash offset hash) (front ++ 0 :: hash.bytes)
  | duplicate {offset : UInt64} {front : List UInt8} (h : VarInt.Spelling offset front) :
      Spelling (.duplicate offset) (front ++ [1])
  | txid {offset : UInt64} {txid : Digest} {front : List UInt8} (h : VarInt.Spelling offset front) :
      Spelling (.ofTxid offset txid) (front ++ 2 :: txid.bytes)

/-- The forms of a level: the number of leaves, then the leaves. -/
def MerkleProof.LevelSpelling : List ProofLeaf → List UInt8 → Prop :=
  Counted fun leaf => leaf.val.Spelling

/-- The forms of a proof: the block height, one byte with the number of levels, which is at most 64
for any proof, and the levels. -/
inductive MerkleProof.Spelling (proof : MerkleProof) : List UInt8 → Prop
  | intro {height levels : List UInt8} (hh : VarInt.Spelling proof.blockHeight height)
      (hl : Sequence LevelSpelling proof.levels levels) :
      Spelling proof (height ++ [UInt8.ofNat proof.treeHeight] ++ levels)

/-! ## Envelopes -/

/-- The forms of a record: the transaction, then zero, or one and the index of its proof. -/
inductive Record.Spelling (record : Record) : List UInt8 → Prop
  | unmined {tx : List UInt8} (ht : record.transaction.Spelling tx)
      (hp : record.proofIndex = none) : Spelling record (tx ++ [0])
  | mined {tx front : List UInt8} {index : UInt64} (ht : record.transaction.Spelling tx)
      (hp : record.proofIndex = some index) (hlt : index.toNat ≤ 2 ^ 63 - 1)
      (hi : VarInt.Spelling index front) : Spelling record (tx ++ 1 :: front)

/-- The forms of an envelope: the version and the marker, the counted proofs, of which there is at
least one, and the counted records, of which any envelope has at least two. -/
inductive Envelope.Spelling (envelope : Envelope) : List UInt8 → Prop
  | intro {proofs records : List UInt8} (one_le : 1 ≤ envelope.proofs.length)
      (hp : Counted MerkleProof.Spelling envelope.proofs proofs)
      (hr : Counted Record.Spelling envelope.records records) :
      Spelling envelope (LittleEndian.encode 2 envelope.version.toNat ++ [0xbe, 0xef]
        ++ proofs ++ records)

/-! ## Values that can be counted -/

/-- The length of the script is a count. -/
def Input.Sized (input : Input) : Prop :=
  input.script.length < VarInt.sizeLimit

/-- The length of the script is a count. -/
def Output.Sized (output : Output) : Prop :=
  output.script.length < VarInt.sizeLimit

/-- The numbers of inputs and outputs and the lengths of the scripts are counts. -/
structure Transaction.Sized (tx : Transaction) : Prop where
  length_inputs : tx.inputs.length < VarInt.sizeLimit
  inputs : ∀ input ∈ tx.inputs, input.Sized
  length_outputs : tx.outputs.length < VarInt.sizeLimit
  outputs : ∀ output ∈ tx.outputs, output.Sized

/-- The number of leaves of each level is a count. -/
def MerkleProof.Sized (proof : MerkleProof) : Prop :=
  ∀ level ∈ proof.levels, level.length < VarInt.sizeLimit

/-- The numbers of proofs and records are counts, and so are the lengths of all their parts. -/
structure Envelope.Sized (envelope : Envelope) : Prop where
  length_proofs : envelope.proofs.length < VarInt.sizeLimit
  proofs : ∀ proof ∈ envelope.proofs, proof.Sized
  length_records : envelope.records.length < VarInt.sizeLimit
  records : ∀ record ∈ envelope.records, record.transaction.Sized

/-! ## Lengths -/

/-- What holds of every item with a short form holds of all items of a short sequence. -/
theorem Sequence.forall_mem {P : α → Prop} {items : List α} {bytes : List UInt8}
    (h : Sequence form items bytes) (hlt : bytes.length < VarInt.sizeLimit)
    (hitem : ∀ item front, form item front → front.length < VarInt.sizeLimit → P item) :
    ∀ item ∈ items, P item := by
  induction h with
  | nil => simp
  | cons head tail ih =>
    rw [List.length_append] at hlt
    intro item hmem
    rcases List.mem_cons.mp hmem with rfl | hmem
    · exact hitem _ _ head (by omega)
    · exact ih (by omega) item hmem

/-- Items of at least `minLength` bytes each are that much longer together. -/
theorem Sequence.mul_le_length {items : List α} {bytes : List UInt8} {minLength : Nat}
    (h : Sequence form items bytes) (hmin : ∀ item front, form item front → minLength ≤ front.length) :
    items.length * minLength ≤ bytes.length := by
  induction h with
  | nil => simp
  | cons head tail ih =>
    have := hmin _ _ head
    rw [List.length_cons, List.length_append, Nat.succ_mul]
    omega

theorem VarInt.Spelling.one_le_length {value : UInt64} {bytes : List UInt8}
    (h : VarInt.Spelling value bytes) : 1 ≤ bytes.length := by
  cases h <;> simp

theorem Script.Spelling.one_add_le_length {script : Script} {bytes : List UInt8}
    (h : script.Spelling bytes) : 1 + script.length ≤ bytes.length := by
  obtain ⟨-, head⟩ := h
  have := head.one_le_length
  rw [List.length_append, Script.length]
  omega

theorem Input.Spelling.minLength_add_le_length {input : Input} {bytes : List UInt8}
    (h : input.Spelling bytes) : Input.minLength + input.script.length ≤ bytes.length := by
  obtain ⟨hs⟩ := h
  have := hs.one_add_le_length
  simp only [List.length_append, LittleEndian.length_encode, input.sourceTxid.length_bytes,
    Input.minLength]
  omega

theorem Output.Spelling.minLength_add_le_length {output : Output} {bytes : List UInt8}
    (h : output.Spelling bytes) : Output.minLength + output.script.length ≤ bytes.length := by
  obtain ⟨hs⟩ := h
  have := hs.one_add_le_length
  simp only [List.length_append, LittleEndian.length_encode, Output.minLength]
  omega

theorem Counted.one_le_length {items : List α} {bytes : List UInt8} (h : Counted form items bytes) :
    1 ≤ bytes.length := by
  obtain ⟨-, head, -⟩ := h
  have := head.one_le_length
  rw [List.length_append]
  omega

/-- Counted items without an empty form are fewer than the bytes. -/
theorem Counted.length_lt {items : List α} {bytes : List UInt8} {minLength : Nat}
    (h : Counted form items bytes) (hpos : 1 ≤ minLength)
    (hmin : ∀ item front, form item front → minLength ≤ front.length) :
    items.length < bytes.length := by
  obtain ⟨-, head, tail⟩ := h
  have hhead := head.one_le_length
  have htail := tail.mul_le_length hmin
  have := Nat.le_mul_of_pos_right items.length hpos
  rw [List.length_append]
  omega

/-- What holds of every item with a short form holds of all items if these are short together. -/
theorem Counted.forall_mem {P : α → Prop} {items : List α} {bytes : List UInt8}
    (h : Counted form items bytes) (hlt : bytes.length < VarInt.sizeLimit)
    (hitem : ∀ item front, form item front → front.length < VarInt.sizeLimit → P item) :
    ∀ item ∈ items, P item := by
  obtain ⟨-, -, tail⟩ := h
  rw [List.length_append] at hlt
  exact tail.forall_mem (by omega) hitem

theorem Transaction.Spelling.ten_le_length {tx : Transaction} {bytes : List UInt8}
    (h : tx.Spelling bytes) : 10 ≤ bytes.length := by
  obtain ⟨hi, ho⟩ := h
  have := hi.one_le_length
  have := ho.one_le_length
  simp only [List.length_append, LittleEndian.length_encode]
  omega

theorem Leaf.Spelling.minLength_le_length {leaf : Leaf} {bytes : List UInt8}
    (h : leaf.Spelling bytes) : Leaf.minLength ≤ bytes.length := by
  unfold Leaf.minLength
  cases h with
  | data h | duplicate h | txid h =>
    have := h.one_le_length
    simp only [List.length_append, List.length_cons]
    omega

theorem MerkleProof.Spelling.two_le_length {proof : MerkleProof} {bytes : List UInt8}
    (h : proof.Spelling bytes) : 2 ≤ bytes.length := by
  obtain ⟨hh, -⟩ := h
  have := hh.one_le_length
  simp only [List.length_append, List.length_cons]
  omega

theorem Record.Spelling.minLength_le_length {record : Record} {bytes : List UInt8}
    (h : record.Spelling bytes) : Record.minLength ≤ bytes.length := by
  unfold Record.minLength
  cases h with
  | unmined ht | mined ht =>
    have := ht.ten_le_length
    simp only [List.length_append, List.length_cons]
    omega

/-! ## Short forms -/

theorem Transaction.Spelling.sized {tx : Transaction} {bytes : List UInt8} (h : tx.Spelling bytes)
    (hlt : bytes.length < VarInt.sizeLimit) : tx.Sized := by
  obtain ⟨hi, ho⟩ := h
  simp only [List.length_append, LittleEndian.length_encode] at hlt
  constructor
  · have := hi.length_lt (by decide) fun _ _ h => Nat.le_of_add_right_le h.minLength_add_le_length
    omega
  · refine hi.forall_mem (by omega) fun input front h hf => ?_
    have := h.minLength_add_le_length
    unfold Input.Sized
    omega
  · have := ho.length_lt (by decide) fun _ _ h => Nat.le_of_add_right_le h.minLength_add_le_length
    omega
  · refine ho.forall_mem (by omega) fun output front h hf => ?_
    have := h.minLength_add_le_length
    unfold Output.Sized
    omega

theorem MerkleProof.Spelling.sized {proof : MerkleProof} {bytes : List UInt8}
    (h : proof.Spelling bytes) (hlt : bytes.length < VarInt.sizeLimit) : proof.Sized := by
  obtain ⟨-, hl⟩ := h
  simp only [List.length_append] at hlt
  refine hl.forall_mem (by omega) fun level front h hf => ?_
  have := h.length_lt (by decide) fun _ _ h => h.minLength_le_length
  omega

theorem Record.Spelling.sized {record : Record} {bytes : List UInt8} (h : record.Spelling bytes)
    (hlt : bytes.length < VarInt.sizeLimit) : record.transaction.Sized := by
  cases h with
  | unmined ht | mined ht =>
    rw [List.length_append] at hlt
    exact ht.sized (by omega)

/-- All counts of an envelope with a short form are in range. -/
theorem Envelope.Spelling.sized {envelope : Envelope} {bytes : List UInt8}
    (h : envelope.Spelling bytes) (hlt : bytes.length < VarInt.sizeLimit) : envelope.Sized := by
  obtain ⟨-, hp, hr⟩ := h
  simp only [List.length_append] at hlt
  constructor
  · have := hp.length_lt (by decide) fun _ _ h => h.two_le_length
    omega
  · exact hp.forall_mem (by omega) fun _ _ h => h.sized
  · have := hr.length_lt (by decide) fun _ _ h => h.minLength_le_length
    omega
  · exact hr.forall_mem (by omega) fun _ _ h => h.sized

end SpvEnvelope
