import SpvEnvelope.Proofs.Reading

/-!
# The readers of transactions read the grammar

The reader of a transaction, and of each of its parts, succeeds exactly on the forms of the values
whose lengths are counts. The guard on the number of inputs or outputs refuses no form, because its
length of the smallest item is a lower bound in the grammar.
-/

namespace SpvEnvelope

/-! ## Scripts, inputs and outputs -/

theorem Script.read_reads (field : TxField) :
    (Script.read field).Reads (·.length < VarInt.sizeLimit) Script.Spelling := by
  intro input script rest
  simp only [Script.read, TxField.read, Reader.run_bind_eq_ok, Reader.run_mapError_eq_ok,
    Reader.run_pure_eq_ok, VarInt.readSize_eq_ok, Reader.bytes_eq_ok]
  constructor
  · rintro ⟨_, _, ⟨hlt, length, front, rfl, hs, rfl⟩, ⟨bytes, hb⟩, _, rfl, rfl, rfl⟩
    refine ⟨?_, _, .intro hb.symm hs, by rw [List.append_assoc]⟩
    rw [Script.length, hb]
    exact hlt
  · rintro ⟨hlt, _, ⟨hl, hs⟩, rfl⟩
    rw [List.append_assoc]
    exact ⟨script.length, _, ⟨hlt, _, _, hl, hs, rfl⟩, ⟨script.bytes, rfl⟩, rest, rfl, rfl, rfl⟩

theorem Input.read_reads : Input.read.Reads Input.Sized Input.Spelling := by
  intro input value rest
  simp only [Input.read, TxField.read, Reader.run_bind_eq_ok, Reader.run_mapError_eq_ok,
    Reader.run_pure_eq_ok, Digest.read_eq_ok, Reader.u32_eq_ok, Script.read_reads _ _ _ _]
  constructor
  · rintro ⟨_, _, rfl, _, _, rfl, _, _, ⟨hlt, script, hs, rfl⟩, _, _, rfl, rfl, rfl⟩
    exact ⟨hlt, _, .intro hs, by simp⟩
  · rintro ⟨hlt, _, ⟨hs⟩, rfl⟩
    simp only [List.append_assoc]
    exact ⟨_, _, rfl, _, _, rfl, value.script, _, ⟨hlt, _, hs, rfl⟩, _, _, rfl, rfl, rfl⟩

theorem Output.read_reads : Output.read.Reads Output.Sized Output.Spelling := by
  intro input value rest
  simp only [Output.read, TxField.read, Reader.run_bind_eq_ok, Reader.run_mapError_eq_ok,
    Reader.run_pure_eq_ok, Reader.u64_eq_ok, Script.read_reads _ _ _ _]
  constructor
  · rintro ⟨_, _, rfl, _, _, ⟨hlt, script, hs, rfl⟩, rfl, rfl⟩
    exact ⟨hlt, _, .intro hs, by simp⟩
  · rintro ⟨hlt, _, ⟨hs⟩, rfl⟩
    simp only [List.append_assoc]
    exact ⟨_, _, rfl, value.script, _, ⟨hlt, _, hs, rfl⟩, rfl, rfl⟩

/-! ## Lists -/

/-- Reads counted items of a transaction. -/
def TxItems.read {α : Type} (items : TxItems) (field : TxField) (minLength : Nat)
    (item : Reader TxError α) : Reader TxError (List α) := do
  let count ← items.readCount field minLength
  let items ← Reader.items count fun _ => item
  return items.val

theorem TxItems.readCount_eq_ok {items : TxItems} {field : TxField} {minLength count : Nat}
    {input rest : List UInt8} :
    (items.readCount field minLength).run input = .ok count rest ↔
      ∃ value, VarInt.read.run input = .ok value rest ∧ value.toNat = count ∧
        count < VarInt.sizeLimit ∧ count * minLength ≤ rest.length := by
  unfold readCount TxField.read
  rw [Reader.run_bind_eq_ok]
  simp only [Reader.run_mapError_eq_ok, Reader.run_get_bind, hasAtLeast_eq, Bool.and_eq_true,
    decide_eq_true_eq]
  constructor
  · rintro ⟨value, middle, hv, h⟩
    split at h
    · rename_i hg
      obtain ⟨rfl, rfl⟩ := Reader.run_pure_eq_ok.mp h
      exact ⟨value, hv, rfl, hg⟩
    · exact absurd h Reader.run_throw_ne_ok
  · rintro ⟨value, hv, rfl, hg⟩
    refine ⟨value, rest, hv, ?_⟩
    rw [if_pos hg]
    rfl

theorem TxItems.read_reads {α : Type} {item : Reader TxError α} {valid : α → Prop}
    {form : α → List UInt8 → Prop} (h : item.Reads valid form) (items : TxItems) (field : TxField)
    {minLength : Nat} (hmin : ∀ item front, form item front → minLength ≤ front.length) :
    (items.read field minLength item).Reads
      (fun values => values.length < VarInt.sizeLimit ∧ ∀ value ∈ values, valid value)
      (Counted form) := by
  intro input values rest
  simp only [TxItems.read, Reader.run_bind_eq_ok, Reader.run_pure_eq_ok, readCount_eq_ok]
  constructor
  · rintro ⟨_, _, ⟨count, hc, rfl, hlt, -⟩, result, _, hi, rfl, rfl⟩
    obtain ⟨hv, hfront⟩ := Counted.of_items (fun _ => h) hc hi
    exact ⟨⟨by rw [result.property]; exact hlt, hv⟩, hfront⟩
  · rintro ⟨⟨hlt, hv⟩, front, hc, rfl⟩
    obtain ⟨count, middle, hl, hcount, hle, hi⟩ := hc.items (fun _ => h) hv rest hmin
    exact ⟨_, _, ⟨count, hcount, rfl, by rw [← hl]; exact hlt, hle⟩, _, _, hi, rfl, rfl⟩

/-! ## Transactions -/

theorem Transaction.read_eq : Transaction.read = (do
    let version ← TxField.version.read Reader.u32
    let inputs ← TxItems.inputs.read .inputCount Input.minLength Input.read
    let outputs ← TxItems.outputs.read .outputCount Output.minLength Output.read
    let lockTime ← TxField.lockTime.read Reader.u32
    return { version, inputs, outputs, lockTime }) := by
  simp only [Transaction.read, TxItems.read, bind_assoc, pure_bind]

theorem Transaction.readInputs_reads :
    (TxItems.inputs.read .inputCount Input.minLength Input.read).Reads
      (fun inputs => inputs.length < VarInt.sizeLimit ∧ ∀ input ∈ inputs, input.Sized)
      (Counted Input.Spelling) :=
  TxItems.read_reads Input.read_reads .inputs .inputCount
    fun _ _ h => Nat.le_of_add_right_le h.minLength_add_le_length

theorem Transaction.readOutputs_reads :
    (TxItems.outputs.read .outputCount Output.minLength Output.read).Reads
      (fun outputs => outputs.length < VarInt.sizeLimit ∧ ∀ output ∈ outputs, output.Sized)
      (Counted Output.Spelling) :=
  TxItems.read_reads Output.read_reads .outputs .outputCount
    fun _ _ h => Nat.le_of_add_right_le h.minLength_add_le_length

theorem Transaction.read_reads :
    Transaction.read.Reads Transaction.Sized Transaction.Spelling := by
  intro input tx rest
  simp only [Transaction.read_eq, TxField.read, Reader.run_bind_eq_ok, Reader.run_mapError_eq_ok,
    Reader.run_pure_eq_ok, Reader.u32_eq_ok, readInputs_reads _ _ _, readOutputs_reads _ _ _]
  constructor
  · rintro ⟨_, _, rfl, _, _, ⟨⟨hil, hiv⟩, inputs, hi, rfl⟩, _, _, ⟨⟨hol, hov⟩, outputs, ho, rfl⟩,
      _, _, rfl, rfl, rfl⟩
    exact ⟨⟨hil, hiv, hol, hov⟩, _, .intro hi ho, by simp⟩
  · rintro ⟨⟨hil, hiv, hol, hov⟩, _, ⟨hi, ho⟩, rfl⟩
    simp only [List.append_assoc]
    exact ⟨_, _, rfl, _, _, ⟨⟨hil, hiv⟩, _, hi, rfl⟩, _, _, ⟨⟨hol, hov⟩, _, ho, rfl⟩, _, _, rfl,
      rfl, rfl⟩

/-- A byte string is decoded as a transaction exactly if it is a form of it and all lengths are
counts. -/
theorem Transaction.ofBytes_eq_ok {tx : Transaction} {bytes : List UInt8} :
    ofBytes bytes = .ok tx ↔ tx.Sized ∧ tx.Spelling bytes := by
  rw [← read_reads.run_eq_ok_nil]
  unfold ofBytes
  constructor
  · intro h
    split at h
    · rename_i hr
      cases h
      exact hr
    · cases h
    · cases h
  · intro hr
    rw [hr]

namespace Transaction

/-- A transaction with scripts and a lock time. -/
def scripted : Transaction where
  inputs := [{ sourceTxid := .zero, outputIndex := 1, script := ⟨[0x51, 0x52]⟩, sequence := 7 }]
  outputs := [{ satoshis := 1000, script := ⟨[0x6a]⟩ }, {}]
  lockTime := 500000

/-- A form of it, in which the number of inputs and the length of an output's script are written in
three bytes. -/
def scriptedBytes : List UInt8 :=
  [1, 0, 0, 0]
    ++ ([0xfd, 1, 0] ++ (List.replicate 32 0 ++ [1, 0, 0, 0] ++ [2, 0x51, 0x52] ++ [7, 0, 0, 0]))
    ++ ([2] ++ ([0xe8, 3, 0, 0, 0, 0, 0, 0] ++ [0xfd, 1, 0, 0x6a]) ++ List.replicate 9 0)
    ++ [0x20, 0xa1, 7, 0]

theorem scripted_spelling : scripted.Spelling scriptedBytes := by
  have hzero : VarInt.Spelling 0 [0] := .one (by decide)
  have hone : VarInt.Spelling 1 [0xfd, 1, 0] := .three (by decide)
  have htwo : VarInt.Spelling 2 [2] := .one (by decide)
  have hunlocking : Script.Spelling ⟨[0x51, 0x52]⟩ _ := .intro rfl htwo
  have hinputs : Counted Input.Spelling scripted.inputs _ :=
    .intro rfl hone (.cons (.intro hunlocking) .nil)
  have hlocking : Script.Spelling ⟨[0x6a]⟩ _ := .intro rfl hone
  have hempty : Script.Spelling .empty _ := .intro rfl hzero
  have houtputs : Counted Output.Spelling scripted.outputs _ :=
    .intro rfl htwo (.cons (.intro hlocking) (.cons (.intro hempty) .nil))
  have hall : scripted.Spelling _ := .intro hinputs houtputs
  exact hall

/-- A transaction without scripts that has an input and an output. -/
def unscripted : Transaction where
  inputs := [{ sourceTxid := ⟨List.replicate 32 0xcc, rfl⟩, outputIndex := 0 }]
  outputs := [{ satoshis := 999 }]

/-- Its shortest form. -/
def unscriptedBytes : List UInt8 :=
  [1, 0, 0, 0]
    ++ ([1] ++ (List.replicate 32 0xcc ++ [0, 0, 0, 0] ++ [0] ++ [0xff, 0xff, 0xff, 0xff]))
    ++ ([1] ++ ([0xe7, 3, 0, 0, 0, 0, 0, 0] ++ [0])) ++ [0, 0, 0, 0]

theorem unscripted_spelling : unscripted.Spelling unscriptedBytes := by
  have hzero : VarInt.Spelling 0 [0] := .one (by decide)
  have hone : VarInt.Spelling 1 [1] := .one (by decide)
  have hscript : Script.Spelling .empty _ := .intro rfl hzero
  have hinputs : Counted Input.Spelling unscripted.inputs _ :=
    .intro rfl hone (.cons (.intro hscript) .nil)
  have houtputs : Counted Output.Spelling unscripted.outputs _ :=
    .intro rfl hone (.cons (.intro hscript) .nil)
  have hall : unscripted.Spelling _ := .intro hinputs houtputs
  exact hall

end Transaction

end SpvEnvelope
