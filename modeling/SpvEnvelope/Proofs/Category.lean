import SpvEnvelope.Proofs.Gaps
import SpvEnvelope.Proofs.HeaderRoots
import SpvEnvelope.Proofs.Refusal

/-!
# Categories tell where a bundle was refused

Each part of a certification has errors of its own kind. What cannot be decoded is malformed; a
bundle that was decoded is inconsistent, or has a transaction that is not valid; and only what was
certified can be refused by the trusted headers. So the category of an error tells how far the bundle
got (`Envelope.category_tells_phase`).
-/

namespace SpvEnvelope

/-! ## Errors of a bundle -/

theorem Error.category_eq_invalidTransaction_iff {e : Error} :
    e.category = .invalidTransaction ↔
      (∃ txid lockTime inputIndex sequence,
        e = .lockTimeNotFinal txid lockTime inputIndex sequence) ∨
      ∃ txid inputIndex reason, e = .invalidScript txid inputIndex reason := by
  cases e <;> simp [category]

/-- Climbs fail with a missing node. -/
theorem MerkleProof.category_of_rootFrom {proof : MerkleProof} {leaf : Leaf} {e : Error}
    (h : proof.rootFrom leaf = .error e) : e.category = .structuralInconsistency := by
  obtain ⟨place, rfl, -⟩ := lacksTransaction_of_rootFrom h
  rfl

theorem MerkleProof.category_of_root? {proof : MerkleProof} {e : Error}
    (h : proof.root? = .error e) : e.category = .structuralInconsistency := by
  obtain ⟨target, -, ht | ⟨_, -, _, _, -, -, -, rfl⟩⟩ := root?_eq_error h
  · exact category_of_rootFrom ht
  · rfl

theorem Record.category_of_anchor {record : Record} {index : UInt64} {proofs : List MerkleProof}
    {e : Error} (h : record.anchor index proofs = .error e) :
    e.category = .structuralInconsistency := by
  unfold anchor at h
  cases hp : proofs[index.toNat]? with
  | none =>
    rw [hp] at h
    cases h
    rfl
  | some proof =>
    cases hl : proof.findTxid? record.txid with
    | none =>
      simp only [hp, hl] at h
      cases h
      rfl
    | some leaf =>
      cases hr : proof.rootFrom leaf with
      | error e' =>
        simp only [hp, hl, hr] at h
        cases h
        exact MerkleProof.category_of_rootFrom hr
      | ok root =>
        simp only [hp, hl, hr] at h
        cases h

namespace Envelope

variable {envelope : Envelope} {verify : ScriptVerifier} {config : Config} {e : Error}

theorem InputFails.category {record : Record} {index : Nat} {input : Input}
    {asked : List ScriptCheck} (h : envelope.InputFails verify config record index input e asked) :
    e.category = .structuralInconsistency ∨ e.category = .invalidTransaction := by
  cases h with
  | noTransaction => exact .inl rfl
  | noOutput => exact .inl rfl
  | refused => exact .inr rfl

theorem Fails.category {checked : Prop} {record : Record} {asked : List ScriptCheck}
    (h : envelope.Fails verify config checked record e asked) :
    e.category = .structuralInconsistency ∨ e.category = .invalidTransaction := by
  cases h with
  | lockTime => exact .inr rfl
  | input _ _ _ _ _ h => exact h.category
  | proof _ _ _ _ _ h => exact .inl (Record.category_of_anchor h)

/-- A certification fails at one record, for what is the matter with it. -/
theorem category_of_certify (h : envelope.certify verify config = .error e) :
    e.category = .structuralInconsistency ∨ e.category = .invalidTransaction := by
  unfold certify at h
  obtain ⟨_, _, _, haudit, -, -⟩ | ⟨_, _, _, _, _, _, haudit, -, hstop⟩ :=
    audit_cases envelope verify config
  · rw [haudit] at h
    cases h
  · rw [haudit] at h
    cases h
    exact hstop.fails.category

/-- A text is malformed exactly if it cannot be decoded: what is decoded has errors of other kinds. -/
theorem certifyText_malformedInput_iff (text : String) :
    (∃ e, certifyText text verify config = .error e ∧ e.category = .malformedInput) ↔
      ∃ fault, ofText config text = .error fault := by
  unfold certifyText auditText
  cases hd : ofText config text with
  | error fault =>
    constructor
    · intro _
      exact ⟨fault, rfl⟩
    · intro _
      exact ⟨.decode fault, rfl, rfl⟩
  | ok envelope =>
    constructor
    · rintro ⟨e, he, hmalformed⟩
      have hcategory : e.category = .structuralInconsistency ∨ e.category = .invalidTransaction :=
        category_of_certify he
      rw [hmalformed] at hcategory
      simp at hcategory
    · rintro ⟨fault, h⟩
      cases h

/-- The roots of the proofs are not found because of one proof that does not show its root. -/
theorem category_of_merkleRoots (h : envelope.merkleRoots = .error e) :
    e.category = .structuralInconsistency := by
  rw [merkleRoots_eq] at h
  cases hm : envelope.proofs.mapM shown? with
  | ok shown =>
    rw [hm] at h
    cases h
  | error e' =>
    rw [hm] at h
    cases h
    obtain ⟨proof, -, hs⟩ := Except.exists_of_mapM_eq_error hm
    unfold shown? at hs
    cases hr : proof.root? with
    | error e' =>
      rw [hr] at hs
      cases hs
      exact MerkleProof.category_of_root? hr
    | ok root? =>
      rw [hr] at hs
      cases hs

end Envelope

/-! ## Errors of a judge -/

namespace RootJudge

variable {judge : RootJudge} {roots : List (UInt64 × Digest)}

/-- All that keeps the judge from judging is that it cannot be asked. -/
def OnlyUnavailable (judge : RootJudge) : Prop :=
  ∀ blockHeight root e, judge blockHeight root = .error e → ∃ reason, e = .headersUnavailable reason

@[simp] theorem confirmAll_eq_ok_iff :
    judge.confirmAll roots = .ok () ↔ ∀ pair ∈ roots, judge pair.1 pair.2 = .ok true := by
  induction roots with
  | nil => simp [confirmAll]
  | cons first rest ih =>
    obtain ⟨blockHeight, root⟩ := first
    rw [confirmAll, List.forall_mem_cons]
    cases hj : judge blockHeight root with
    | error e => simp
    | ok confirmed =>
      cases confirmed with
      | true => simpa using ih
      | false => simp

theorem category_of_confirmAll (hjudge : judge.OnlyUnavailable) {e : Error}
    (h : judge.confirmAll roots = .error e) : e.category = .chainView := by
  induction roots with
  | nil => cases h
  | cons first rest ih =>
    obtain ⟨blockHeight, root⟩ := first
    rw [confirmAll] at h
    cases hj : judge blockHeight root with
    | error e' =>
      rw [hj] at h
      cases h
      obtain ⟨reason, rfl⟩ := hjudge _ _ _ hj
      rfl
    | ok confirmed =>
      rw [hj] at h
      cases confirmed with
      | true => exact ih h
      | false =>
        cases h
        rfl

end RootJudge

namespace HeaderSource

variable {headers : HeaderSource}

/-- Headers confirm roots as a judge does. -/
theorem run_confirmAll (roots : List (UInt64 × Digest)) (heights : Array UInt64) :
    (match (headers.confirmAll roots).run heights with
      | .ok _ _ => .ok ()
      | .error e _ => .error e) = RootJudge.confirmAll headers.confirms roots := by
  induction roots generalizing heights with
  | nil => rfl
  | cons first rest ih =>
    obtain ⟨blockHeight, root⟩ := first
    rw [RootJudge.confirmAll]
    cases hc : headers.confirms blockHeight root with
    | error e =>
      rw [confirmAll, hc]
      rfl
    | ok confirmed =>
      cases confirmed with
      | false =>
        rw [confirmAll, hc]
        rfl
      | true =>
        have hrun : (headers.confirmAll ((blockHeight, root) :: rest)).run heights =
            (headers.confirmAll rest).run (heights.push blockHeight) := by
          rw [confirmAll, hc]
          rfl
        rw [hrun, ih]
        rfl

end HeaderSource

namespace Envelope

variable {envelope : Envelope} {verify : ScriptVerifier} {config : Config} {judge : RootJudge}

/-- Confirmation by headers is the case in which these are the judge. -/
theorem certifyConfirmed_eq_certifyJudged (headers : HeaderSource) :
    envelope.certifyConfirmed verify config headers =
      envelope.certifyJudged verify config headers.confirms := by
  unfold certifyJudged
  cases hc : envelope.certify verify config with
  | error e => rw [certifyConfirmed_of_error hc]; rfl
  | ok certification =>
    have hrun := headers.run_confirmAll certification.rootsToConfirm #[]
    rw [certifyConfirmed_of_ok hc]
    simp only [Except.ok_bind, ← hrun]
    cases (headers.confirmAll certification.rootsToConfirm).run #[] <;> rfl

/-- A judge that can only be unavailable refuses exactly what was certified and rests on a root that
it does not confirm. -/
theorem certifyJudged_chainView_iff (hjudge : judge.OnlyUnavailable) :
    (∃ e, envelope.certifyJudged verify config judge = .error e ∧ e.category = .chainView) ↔
      ∃ certification, envelope.certify verify config = .ok certification ∧
        ∃ anchor ∈ certification.anchors,
          judge anchor.blockHeight anchor.merkleRoot ≠ .ok true := by
  unfold certifyJudged
  cases hc : envelope.certify verify config with
  | error e =>
    have hcategory := category_of_certify hc
    simp only [Except.error_bind, Except.error.injEq, exists_eq_left', reduceCtorEq, false_and,
      exists_false, iff_false]
    intro hview
    rw [hview] at hcategory
    simp at hcategory
  | ok certification =>
    have hroots : judge.confirmAll certification.rootsToConfirm = .ok () ↔
        ∀ anchor ∈ certification.anchors,
          judge anchor.blockHeight anchor.merkleRoot = .ok true := by
      rw [RootJudge.confirmAll_eq_ok_iff]
      simp [Certification.rootsToConfirm]
    simp only [Except.ok_bind, Except.ok.injEq, exists_eq_left']
    cases hall : judge.confirmAll certification.rootsToConfirm with
    | ok _ =>
      have hconfirmed := hroots.mp hall
      constructor
      · rintro ⟨e, h, -⟩
        cases h
      · rintro ⟨anchor, ha, hne⟩
        exact absurd (hconfirmed anchor ha) hne
    | error e =>
      rw [hall] at hroots
      simp only [reduceCtorEq, false_iff, not_forall] at hroots
      obtain ⟨anchor, ha, hne⟩ := hroots
      constructor
      · intro _
        exact ⟨anchor, ha, hne⟩
      · intro _
        exact ⟨e, rfl, RootJudge.category_of_confirmAll hjudge hall⟩

/-- **The category of an error tells which phase refused the bundle.** A text is malformed exactly if
it cannot be decoded; certification finds an envelope inconsistent or one of its transactions not
valid, the latter exactly for a lock time or a script; finding the roots of an envelope's proofs can
only show it to be inconsistent; and a judge that can only be unavailable is named exactly if the
envelope was certified and the judge did not confirm an anchor. So it is with headers as the judge. -/
theorem category_tells_phase (config : Config) (verify : ScriptVerifier) (judge : RootJudge)
    (hjudge : judge.OnlyUnavailable) :
    (∀ text, (∃ e, certifyText text verify config = .error e ∧ e.category = .malformedInput) ↔
      ∃ fault, ofText config text = .error fault) ∧
    (∀ envelope : Envelope, ∀ e, envelope.certify verify config = .error e →
      (e.category = .structuralInconsistency ∨ e.category = .invalidTransaction) ∧
      (e.category = .invalidTransaction ↔
        (∃ txid lockTime inputIndex sequence,
          e = .lockTimeNotFinal txid lockTime inputIndex sequence) ∨
        ∃ txid inputIndex reason, e = .invalidScript txid inputIndex reason)) ∧
    (∀ envelope : Envelope, ∀ e, envelope.merkleRoots = .error e →
      e.category = .structuralInconsistency) ∧
    (∀ envelope : Envelope,
      (∃ e, envelope.certifyJudged verify config judge = .error e ∧ e.category = .chainView) ↔
        ∃ certification, envelope.certify verify config = .ok certification ∧
          ∃ anchor ∈ certification.anchors,
            judge anchor.blockHeight anchor.merkleRoot ≠ .ok true) ∧
    ∀ envelope : Envelope, ∀ headers : HeaderSource, headers.confirms = judge →
      envelope.certifyConfirmed verify config headers =
        envelope.certifyJudged verify config judge := by
  refine ⟨fun text => ?_, fun envelope e h => ⟨category_of_certify h, ?_⟩,
    fun envelope e h => category_of_merkleRoots h, fun envelope => ?_, ?_⟩
  · exact certifyText_malformedInput_iff text
  · exact Error.category_eq_invalidTransaction_iff
  · exact certifyJudged_chainView_iff hjudge
  · rintro envelope headers rfl
    exact certifyConfirmed_eq_certifyJudged headers

/-- A bundle that is certified, before a judge that cannot be asked, and a text that is not hex. -/
theorem category_tells_phase_forked :
    RootJudge.OnlyUnavailable (fun _ _ => .error (.headersUnavailable "no answer")) ∧
      (∃ e, forked.certifyJudged (fun _ => .ok ()) {}
        (fun _ _ => .error (.headersUnavailable "no answer")) = .error e ∧
          e.category = .chainView) ∧
      ∃ e, certifyText "no hex" (fun _ => .ok ()) {} = .error e ∧ e.category = .malformedInput := by
  have hjudge : RootJudge.OnlyUnavailable (fun _ _ => .error (.headersUnavailable "no answer")) := by
    intro _ _ e he
    cases he
    exact ⟨_, rfl⟩
  have hphase := category_tells_phase {} (fun _ => .ok ()) _ hjudge
  refine ⟨hjudge, (hphase.2.2.2.1 forked).mpr ⟨_, certify_forked, _, List.mem_singleton_self _, ?_⟩,
    (hphase.1 "no hex").mpr ?_⟩
  · simp
  · exact ⟨_, rfl⟩

end Envelope

end SpvEnvelope
