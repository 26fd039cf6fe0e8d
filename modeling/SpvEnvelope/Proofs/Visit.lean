import SpvEnvelope.Proofs.Policy

/-!
# What a visit asks and answers

One lemma for each outcome of each operation of the ledger of an envelope: what it found true, which
questions it put to the script verifier, and, if it failed, which check failed (`InputFails`,
`Fails`). Callers use these and do not look into the operations.
-/

namespace SpvEnvelope

/-! ## Lock times and anchors -/

theorem Transaction.checkLockTime_ok {tx : Transaction} (h : tx.checkLockTime = .ok ()) :
    tx.HasHarmlessLockTime := by
  unfold checkLockTime at h
  split at h
  · rename_i h0
    exact .inl h0
  · split at h
    · rename_i hn
      refine .inr fun input hi => ?_
      obtain ⟨index, hindex⟩ := List.mem_iff_getElem?.mp hi
      have hm : (input, index) ∈ tx.inputs.zipIdx := List.mk_mem_zipIdx_iff_getElem?.mpr hindex
      simpa [Input.isFinal] using List.find?_eq_none.mp hn _ hm
    · cases h

theorem Transaction.checkLockTime_error {tx : Transaction} {e : Error}
    (h : tx.checkLockTime = .error e) : ∃ index input,
      tx.lockTime ≠ 0 ∧ tx.inputs[index]? = some input ∧ input.sequence ≠ finalSequence ∧
      (∀ earlier ∈ tx.inputs.take index, earlier.sequence = finalSequence) ∧
      e = .lockTimeNotFinal tx.txid tx.lockTime index input.sequence := by
  unfold checkLockTime at h
  split at h
  · cases h
  · rename_i hl
    split at h
    · cases h
    · rename_i input index hn
      cases h
      obtain ⟨hf, i, hi, he, hbefore⟩ := List.find?_eq_some_iff_getElem.mp hn
      simp only [List.getElem_zipIdx, Nat.zero_add, Prod.mk.injEq] at he
      obtain ⟨rfl, rfl⟩ := he
      simp only [List.length_zipIdx] at hi
      refine ⟨i, tx.inputs[i], hl, List.getElem?_eq_getElem hi, by simpa [Input.isFinal] using hf,
        fun earlier he => ?_, rfl⟩
      obtain ⟨j, hj, rfl⟩ := List.mem_take_iff_getElem.mp he
      simpa [Input.isFinal] using hbefore j (by omega)

theorem Record.anchor_eq_ok_iff {record : Record} {index : UInt64} {proofs : List MerkleProof}
    {anchor : Anchor} : record.anchor index proofs = .ok anchor ↔ ∃ proof leaf root,
      proofs[index.toNat]? = some proof ∧ proof.findTxid? record.txid = some leaf ∧
      proof.rootFrom leaf = .ok root ∧
      anchor = ⟨record.txid, index, proof.blockHeight, leaf.offset, root⟩ := by
  unfold Record.anchor
  cases hp : proofs[index.toNat]? with
  | none => simp
  | some proof =>
    cases hl : proof.findTxid? record.txid with
    | none => simp [hl]
    | some leaf =>
      cases hr : proof.rootFrom leaf with
      | error e => simp [hl, hr]
      | ok root => simp [hl, hr, eq_comm]

theorem Record.isProven_of_anchor {record : Record} {proofs : List MerkleProof}
    (h : ∀ index, record.proofIndex = some index →
      ∃ anchor, record.anchor index proofs = .ok anchor) : record.IsProven proofs := by
  intro index hi
  obtain ⟨anchor, ha⟩ := h index hi
  obtain ⟨proof, leaf, root, hp, hl, hr, -⟩ := anchor_eq_ok_iff.mp ha
  exact ⟨proof, leaf, root, hp, MerkleProof.findTxid?_eq_some_iff.mp hl, hr⟩

namespace Envelope

variable (envelope : Envelope) (verify : ScriptVerifier) (config : Config)

/-- The positions of the transactions that `record` spends, last one first. -/
def parents (record : Record) : List Nat :=
  (record.transaction.inputs.filterMap fun input => envelope.positions[input.sourceTxid]?).reverse

/-- The anchor of a mined record, if it is proven. -/
def anchor? (record : Record) : Option Anchor :=
  record.proofIndex.bind fun index => (record.anchor index envelope.proofs).toOption

variable {envelope} in
theorem anchor?_eq_some_iff {record : Record} {anchor : Anchor} :
    envelope.anchor? record = some anchor ↔ ∃ index, record.proofIndex = some index ∧
      record.anchor index envelope.proofs = .ok anchor := by
  rw [anchor?, Option.bind_eq_some_iff]
  refine exists_congr fun index => and_congr_right fun _ => ?_
  cases record.anchor index envelope.proofs <;> simp [Except.toOption]

/-! ## Failures -/

/-- The check of input `index` of `record` fails, with the error and the questions asked. -/
inductive InputFails (record : Record) (index : Nat) (input : Input) :
    Error → List ScriptCheck → Prop
  | noTransaction (h : envelope.find? input.sourceTxid = none) :
      InputFails record index input (.noFundingTransaction record.txid index input.sourceTxid) []
  | noOutput {parent : Record} (h : envelope.find? input.sourceTxid = some parent)
      (ho : parent.transaction.outputs[input.outputIndex.toNat]? = none) :
      InputFails record index input
        (.noFundingOutput record.txid index input.sourceTxid input.outputIndex) []
  | refused {check : ScriptCheck} {reason : String}
      (h : envelope.scriptCheck? config record.transaction index input = some check)
      (hv : verify check = .error reason) :
      InputFails record index input (.invalidScript record.txid index reason) [check]

/-- A visit of `record`, whose lock time and inputs are checked if `checked` holds, fails with the
error and the questions asked. -/
inductive Fails (checked : Prop) (record : Record) : Error → List ScriptCheck → Prop
  | lockTime {index : Nat} {input : Input} (hc : checked)
      (hl : record.transaction.lockTime ≠ 0)
      (hi : record.transaction.inputs[index]? = some input)
      (hn : input.sequence ≠ finalSequence)
      (before : ∀ earlier ∈ record.transaction.inputs.take index,
        earlier.sequence = finalSequence) :
      Fails checked record
        (.lockTimeNotFinal record.txid record.transaction.lockTime index input.sequence) []
  | input {index : Nat} {input : Input} {e : Error} {asked last : List ScriptCheck} (hc : checked)
      (hl : record.transaction.HasHarmlessLockTime)
      (hi : record.transaction.inputs[index]? = some input)
      (before : asked.map some = (envelope.scriptChecks config record.transaction).take index)
      (accepted : ∀ check ∈ asked, verify check = .ok ())
      (h : envelope.InputFails verify config record index input e last) :
      Fails checked record e (asked ++ last)
  | proof {index : UInt64} {e : Error} {asked : List ScriptCheck}
      (hc : checked → envelope.IsValid verify config record.transaction)
      (before : checked → asked.map some = envelope.scriptChecks config record.transaction)
      (unasked : ¬checked → asked = [])
      (accepted : ∀ check ∈ asked, verify check = .ok ())
      (hi : record.proofIndex = some index)
      (h : record.anchor index envelope.proofs = .error e) : Fails checked record e asked

/-! ## Inputs -/

@[simp]
theorem scriptChecksFrom_cons (tx : Transaction) (start : Nat) (input : Input) (rest : List Input) :
    envelope.scriptChecksFrom config tx start (input :: rest) =
      envelope.scriptCheck? config tx start input ::
        envelope.scriptChecksFrom config tx (start + 1) rest := rfl

@[simp]
theorem ledger_positions : (envelope.ledger verify config).positions = envelope.positions := rfl

variable {envelope} in
theorem ledger_output? {txid : Digest} {position : Nat} (outputIndex : UInt32)
    (h : envelope.positions[txid]? = some position) :
    (envelope.ledger verify config).output? position outputIndex =
      (envelope.find? txid).bind (·.transaction.outputs[outputIndex.toNat]?) := by
  rw [← getElem?_of_positions h]
  simp only [Ledger.output?, ledger, List.getElem?_toArray]
  rfl

/-- Checking an input asks at most one question. -/
theorem checkInput_cases (record : Record) (index : Nat) (input : Input)
    (checks : Array ScriptCheck) :
    (∃ position check, ((envelope.ledger verify config).checkInput record index input).run checks =
        .ok position (checks ++ [check].toArray) ∧
      envelope.positions[input.sourceTxid]? = some position ∧
      envelope.scriptCheck? config record.transaction index input = some check ∧
      verify check = .ok ()) ∨
    (∃ e asked, ((envelope.ledger verify config).checkInput record index input).run checks =
        .error e (checks ++ asked.toArray) ∧
      envelope.InputFails verify config record index input e asked) := by
  unfold Ledger.checkInput
  rw [ledger_positions]
  cases hp : envelope.positions[input.sourceTxid]? with
  | none => exact .inr ⟨_, [], by simp; rfl, .noTransaction (positions_eq_none_iff.mp hp)⟩
  | some position =>
    obtain ⟨parent, hparent⟩ := find?_of_positions hp
    have hf := ledger_output? verify config input.outputIndex hp
    rw [hparent, Option.bind_some] at hf
    simp only [hf]
    cases ho : parent.transaction.outputs[input.outputIndex.toNat]? with
    | none => exact .inr ⟨_, [], by simp; rfl, .noOutput hparent ho⟩
    | some funding =>
      have hc : envelope.scriptCheck? config record.transaction index input =
          some ⟨record.transaction, index, funding, config.flags⟩ := by
        rw [scriptCheck?, funding?_eq, hparent, Option.bind_some, ho, Option.map_some]
      have hflags : (envelope.ledger verify config).flags = config.flags := rfl
      have hverify : (envelope.ledger verify config).verify = verify := rfl
      simp only [EStateM.run_bind, EStateM.run_modify, hflags, hverify]
      cases hv : verify ⟨record.transaction, index, funding, config.flags⟩ with
      | ok _ => exact .inl ⟨position, _, by simp, rfl, hc, hv⟩
      | error reason => exact .inr ⟨_, [_], by simp; rfl, .refused hc hv⟩

/-- Checking inputs asks one question for each, in order, up to the first that fails. -/
theorem checkInputs_cases (record : Record) (inputs : List Input) (start : Nat)
    (parents : List Nat) (checks : Array ScriptCheck) :
    (∃ asked : List ScriptCheck,
      ((envelope.ledger verify config).checkInputs record start parents inputs).run checks =
        .ok ((inputs.filterMap fun input => envelope.positions[input.sourceTxid]?).reverse ++ parents)
          (checks ++ asked.toArray) ∧
      asked.map some = envelope.scriptChecksFrom config record.transaction start inputs ∧
      ∀ check ∈ asked, verify check = .ok ()) ∨
    (∃ index input e asked last,
      ((envelope.ledger verify config).checkInputs record start parents inputs).run checks =
        .error e (checks ++ (asked ++ last).toArray) ∧
      inputs[index]? = some input ∧
      asked.map some =
        (envelope.scriptChecksFrom config record.transaction start inputs).take index ∧
      (∀ check ∈ asked, verify check = .ok ()) ∧
      envelope.InputFails verify config record (start + index) input e last) := by
  induction inputs generalizing start parents checks with
  | nil => exact .inl ⟨[], by simp [Ledger.checkInputs], rfl, by simp⟩
  | cons input rest ih =>
    simp only [Ledger.checkInputs, EStateM.run_bind]
    rcases checkInput_cases envelope verify config record start input checks with
      ⟨position, check, hr, hp, hc, hv⟩ | ⟨e, last, hr, hfail⟩
    · rw [hr]
      dsimp only
      rcases ih (start + 1) (position :: parents) (checks ++ [check].toArray) with
        ⟨asked, hrun, hasked, hok⟩ | ⟨index, failing, e, asked, last, hrun, hi, hasked, hok, hfail⟩
      · refine .inl ⟨check :: asked, ?_, ?_, ?_⟩
        · rw [hrun]; simp [hp]
        · simp [hasked, hc]
        · simpa [hv] using hok
      · refine .inr ⟨index + 1, failing, e, check :: asked, last, ?_, by simpa using hi, ?_, ?_, ?_⟩
        · rw [hrun]; simp
        · simp [hasked, hc]
        · simpa [hv] using hok
        · rwa [Nat.add_right_comm, Nat.add_assoc] at hfail
    · exact .inr ⟨0, input, e, [], last, by simp only [hr]; rfl, rfl, rfl, by simp, hfail⟩

/-! ## Transactions -/

@[simp] theorem getElem?_scriptChecks (tx : Transaction) (index : Nat) :
    (envelope.scriptChecks config tx)[index]? =
      tx.inputs[index]?.map (envelope.scriptCheck? config tx index) := by
  simp [scriptChecks, scriptChecksFrom, Function.comp_def]

variable {envelope verify config} in
/-- Accepted answers to all questions of a transaction make it valid. -/
theorem isValid_of_asked {tx : Transaction} {asked : List ScriptCheck}
    (hl : tx.HasHarmlessLockTime) (hasked : asked.map some = envelope.scriptChecks config tx)
    (hok : ∀ check ∈ asked, verify check = .ok ()) : envelope.IsValid verify config tx := by
  refine ⟨hl, fun index input hi => ?_⟩
  have h := getElem?_scriptChecks envelope config tx index
  rw [← hasked, List.getElem?_map, hi, Option.map_some] at h
  obtain ⟨check, hc, hs⟩ := Option.map_eq_some_iff.mp h
  exact ⟨check, hs.symm, hok check (List.mem_of_getElem? hc)⟩

/-- Checking a transaction asks one question for each input, up to the first that fails. -/
theorem checkTransaction_cases (record : Record) (checks : Array ScriptCheck) :
    (∃ asked : List ScriptCheck,
      ((envelope.ledger verify config).checkTransaction record).run checks =
        .ok (envelope.parents record) (checks ++ asked.toArray) ∧
      asked.map some = envelope.scriptChecks config record.transaction ∧
      (∀ check ∈ asked, verify check = .ok ()) ∧
      envelope.IsValid verify config record.transaction) ∨
    (∃ e asked, ((envelope.ledger verify config).checkTransaction record).run checks =
        .error e (checks ++ asked.toArray) ∧
      ∀ checked, checked → envelope.Fails verify config checked record e asked) := by
  simp only [Ledger.checkTransaction, EStateM.run_bind]
  cases hl : record.transaction.checkLockTime with
  | error e =>
    obtain ⟨index, input, h0, hi, hn, hbefore, rfl⟩ := Transaction.checkLockTime_error hl
    refine .inr ⟨_, [], by simp; rfl, fun checked hc => ?_⟩
    rw [← record.txid_eq]
    exact .lockTime hc h0 hi hn hbefore
  | ok _ =>
    have hl := Transaction.checkLockTime_ok hl
    rcases checkInputs_cases envelope verify config record
      record.transaction.inputs 0 [] checks with
      ⟨asked, hrun, hasked, hok⟩ | ⟨index, input, e, asked, last, hrun, hi, hasked, hok, hfail⟩
    · refine .inl ⟨asked, ?_, hasked, hok, isValid_of_asked hl hasked hok⟩
      rw [List.append_nil] at hrun
      exact hrun
    · rw [Nat.zero_add] at hfail
      exact .inr ⟨e, asked ++ last, hrun, fun checked hc => .input hc hl hi hasked hok hfail⟩

/-! ## Visits -/

theorem check_cases (isTarget : Bool) (record : Record) (checks : Array ScriptCheck) :
    (∃ (spent : List Nat) (asked : List ScriptCheck),
      ((envelope.ledger verify config).check isTarget record).run checks =
        .ok spent (checks ++ asked.toArray) ∧
      (record.isMined = false → spent = envelope.parents record) ∧
      asked.map some = (if Ledger.isChecked isTarget record then
        envelope.scriptChecks config record.transaction else []) ∧
      (∀ check ∈ asked, verify check = .ok ()) ∧
      (Ledger.isChecked isTarget record → envelope.IsValid verify config record.transaction)) ∨
    (∃ e asked, ((envelope.ledger verify config).check isTarget record).run checks =
        .error e (checks ++ asked.toArray) ∧
      envelope.Fails verify config (Ledger.isChecked isTarget record) record e asked) := by
  unfold Ledger.check
  by_cases hc : Ledger.isChecked isTarget record = true
  · rw [if_pos hc]
    rcases checkTransaction_cases envelope verify config record checks with
      ⟨asked, hrun, hasked, hok, hvalid⟩ | ⟨e, asked, hrun, hfail⟩
    · exact .inl ⟨_, asked, hrun, fun _ => rfl, by rw [if_pos hc]; exact hasked, hok,
        fun _ => hvalid⟩
    · exact .inr ⟨e, asked, hrun, hfail _ hc⟩
  · rw [if_neg hc]
    refine .inl ⟨[], [], by simp, fun hm => absurd ?_ hc, by rw [if_neg hc]; rfl, by simp,
      fun h => absurd h hc⟩
    simp [Ledger.isChecked, hm]

theorem prove_cases (record : Record) (checks : Array ScriptCheck) :
    (((envelope.ledger verify config).prove record).run checks =
        .ok (envelope.anchor? record) checks ∧ record.IsProven envelope.proofs) ∨
    (∃ index e, ((envelope.ledger verify config).prove record).run checks = .error e checks ∧
      record.proofIndex = some index ∧ record.anchor index envelope.proofs = .error e) := by
  have hproofs : (envelope.ledger verify config).proofs = envelope.proofs := rfl
  unfold Ledger.prove
  rw [hproofs]
  cases hi : record.proofIndex with
  | none => exact .inl ⟨by simp [anchor?, hi], by simp [Record.IsProven, hi]⟩
  | some index =>
    cases ha : record.anchor index envelope.proofs with
    | error e =>
      refine .inr ⟨index, e, ?_, rfl, ha⟩
      simp only [ha]
      rfl
    | ok anchor =>
      have hanchor : envelope.anchor? record = some anchor := by
        rw [anchor?, hi, Option.bind_some, ha]
        rfl
      refine .inl ⟨?_, Record.isProven_of_anchor fun i h => ?_⟩
      · simp only [ha, hanchor]
        rfl
      · rw [hi] at h
        cases h
        exact ⟨anchor, ha⟩

/-- A visit asks the questions of a record that is to be checked, and brings its parents if it is
unmined and its anchor if it is mined. -/
theorem visit_cases (isTarget : Bool) (record : Record) (checks : Array ScriptCheck) :
    (∃ asked : List ScriptCheck,
      ((envelope.ledger verify config).visit isTarget record).run checks =
        .ok ⟨if record.isMined then [] else envelope.parents record,
          Ledger.isChecked isTarget record, envelope.anchor? record⟩ (checks ++ asked.toArray) ∧
      asked.map some = (if Ledger.isChecked isTarget record then
        envelope.scriptChecks config record.transaction else []) ∧
      (∀ check ∈ asked, verify check = .ok ()) ∧
      (Ledger.isChecked isTarget record → envelope.IsValid verify config record.transaction) ∧
      record.IsProven envelope.proofs) ∨
    (∃ e asked, ((envelope.ledger verify config).visit isTarget record).run checks =
        .error e (checks ++ asked.toArray) ∧
      envelope.Fails verify config (Ledger.isChecked isTarget record) record e asked) := by
  simp only [Ledger.visit, EStateM.run_bind]
  rcases check_cases envelope verify config isTarget record checks with
    ⟨spent, asked, hrun, hspent, hasked, hok, hvalid⟩ | ⟨e, asked, hrun, hfail⟩
  · rw [hrun]
    dsimp only
    rcases prove_cases envelope verify config record (checks ++ asked.toArray) with
      ⟨hrun', hproven⟩ | ⟨index, e, hrun', hi, ha⟩
    · refine .inl ⟨asked, ?_, hasked, hok, hvalid, hproven⟩
      rw [hrun']
      cases hm : record.isMined with
      | true => rfl
      | false => rw [hspent hm]; rfl
    · refine .inr ⟨e, asked, by rw [hrun'], .proof hvalid (fun hc => ?_) (fun hc => ?_) hok hi ha⟩
      · rwa [if_pos hc] at hasked
      · rw [if_neg hc] at hasked
        exact List.map_eq_nil_iff.mp hasked
  · exact .inr ⟨e, asked, by rw [hrun], hfail⟩

end Envelope

end SpvEnvelope
