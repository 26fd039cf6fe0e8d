import SpvEnvelope.Certify.ChainView
import SpvEnvelope.Proofs.Acceptance

/-!
# What a confirmed certification rests on

Each anchor of a certification was reached by a climb of one of the envelope's proofs
(`climb_of_anchor`), and in a confirmed certification the headers know the root that the climb ended
at (`certifyConfirmed_eq_ok_iff`) and were asked for its height (`heights_of_certifyConfirmed`).
-/

namespace SpvEnvelope

namespace HeaderSource

variable {headers : HeaderSource} {blockHeight : UInt64} {root : Digest}
  {roots : List (UInt64 × Digest)}

/-- A root that the headers know is confirmed, and the next one is asked for. -/
theorem run_confirmAll_of_known (h : headers blockHeight = .ok (some root))
    (heights : Array UInt64) :
    (headers.confirmAll ((blockHeight, root) :: roots)).run heights =
      (headers.confirmAll roots).run (heights.push blockHeight) := by
  have hc : headers.confirms blockHeight root = .ok true := by
    simp [confirms, h]
  rw [confirmAll, hc]
  rfl

/-- The headers do not know `root` at this height: they cannot be asked, or they know none there or
another one. -/
inductive Refuses (headers : HeaderSource) (blockHeight : UInt64) (root : Digest) : Error → Prop
  | unavailable {e : Error} (h : headers blockHeight = .error e) : Refuses headers blockHeight root e
  | rejected {known : Option Digest} (h : headers blockHeight = .ok known) (hne : known ≠ some root) :
      Refuses headers blockHeight root (.rootRejected blockHeight root)

theorem refuses_of_unknown (h : headers blockHeight ≠ .ok (some root)) :
    ∃ e, headers.Refuses blockHeight root e := by
  cases hk : headers blockHeight with
  | error e => exact ⟨e, .unavailable hk⟩
  | ok known =>
    refine ⟨_, .rejected hk ?_⟩
    rintro rfl
    exact h hk

/-- A root that the headers refuse ends the run. -/
theorem run_confirmAll_of_refuses {e : Error} (h : headers.Refuses blockHeight root e)
    (roots : List (UInt64 × Digest)) (heights : Array UInt64) :
    (headers.confirmAll ((blockHeight, root) :: roots)).run heights =
      .error e (heights.push blockHeight) := by
  cases h with
  | unavailable h =>
    have hc : headers.confirms blockHeight root = .error e := by
      simp [confirms, h]
    rw [confirmAll, hc]
    rfl
  | rejected h hne =>
    have hc : headers.confirms blockHeight root = .ok false := by
      simp [confirms, h, hne]
    rw [confirmAll, hc]
    rfl

/-- A run of confirmations succeeds exactly if the headers know each root at its height. -/
theorem confirmAll_eq_ok_iff (heights : Array UInt64) :
    (∃ heights', (headers.confirmAll roots).run heights = .ok () heights') ↔
      ∀ root ∈ roots, headers root.1 = .ok (some root.2) := by
  induction roots generalizing heights with
  | nil => simp [confirmAll]
  | cons first rest ih =>
    obtain ⟨blockHeight, root⟩ := first
    by_cases hk : headers blockHeight = .ok (some root)
    · rw [run_confirmAll_of_known hk, ih]
      simp [hk]
    · obtain ⟨e, he⟩ := refuses_of_unknown hk
      simp [run_confirmAll_of_refuses he, hk]

/-- A run of confirmations that succeeds has asked for the height of each root. -/
theorem heights_of_confirmAll {heights heights' : Array UInt64}
    (h : (headers.confirmAll roots).run heights = .ok () heights') :
    heights'.toList = heights.toList ++ roots.map (·.1) := by
  induction roots generalizing heights with
  | nil =>
    cases h
    simp
  | cons first rest ih =>
    obtain ⟨blockHeight, root⟩ := first
    by_cases hk : headers blockHeight = .ok (some root)
    · rw [run_confirmAll_of_known hk] at h
      rw [ih h, Array.toList_push, List.append_assoc]
      rfl
    · obtain ⟨e, he⟩ := refuses_of_unknown hk
      rw [run_confirmAll_of_refuses he] at h
      cases h

end HeaderSource

namespace Envelope

variable {envelope : Envelope} {verify : ScriptVerifier} {config : Config}

/-- Each anchor of a certification comes from a climb of the proof that it names. -/
theorem climb_of_anchor {certification : Certification} {anchor : Anchor}
    (h : envelope.certify verify config = .ok certification) (ha : anchor ∈ certification.anchors) :
    ∃ proof leaf, envelope.proofs[anchor.proofIndex.toNat]? = some proof ∧
      proof.findTxid? anchor.txid = some leaf ∧ leaf.offset = anchor.offset ∧
      proof.blockHeight = anchor.blockHeight ∧ proof.rootFrom leaf = .ok anchor.merkleRoot := by
  obtain ⟨_, _, done, rfl, -, -⟩ := progress_of_certify h
  obtain ⟨record, -, hr⟩ := List.mem_filterMap.mp ha
  obtain ⟨_, -, hok⟩ := anchor?_eq_some_iff.mp hr
  obtain ⟨proof, leaf, root, hp, hl, hroot, rfl⟩ := Record.anchor_eq_ok_iff.mp hok
  exact ⟨proof, leaf, hp, hl, rfl, rfl, hroot⟩

/-- A certification that fails is not put to the headers. -/
theorem certifyConfirmed_of_error {e : Error} (h : envelope.certify verify config = .error e)
    (headers : HeaderSource) : envelope.certifyConfirmed verify config headers = .error e := by
  unfold certify at h
  simp [certifyConfirmed, auditConfirmed, h]

/-- A certification that succeeds is put to the headers, which leave it as it is or refuse it. -/
theorem certifyConfirmed_of_ok {certification : Certification}
    (h : envelope.certify verify config = .ok certification) (headers : HeaderSource) :
    envelope.certifyConfirmed verify config headers =
      match (headers.confirmAll certification.rootsToConfirm).run #[] with
      | .ok _ _ => .ok certification
      | .error e _ => .error e := by
  unfold certify at h
  simp only [certifyConfirmed, auditConfirmed, h]
  cases (headers.confirmAll certification.rootsToConfirm).run #[] <;> rfl

/-- A confirmed certification is one whose anchors' roots the headers know. -/
theorem certifyConfirmed_eq_ok_iff {headers : HeaderSource} {certification : Certification} :
    envelope.certifyConfirmed verify config headers = .ok certification ↔
      envelope.certify verify config = .ok certification ∧
        ∀ anchor ∈ certification.anchors,
          headers anchor.blockHeight = .ok (some anchor.merkleRoot) := by
  cases hr : envelope.certify verify config with
  | error e => simp [certifyConfirmed_of_error hr]
  | ok certified =>
    have hroots : (∃ heights, (headers.confirmAll certified.rootsToConfirm).run #[] =
        .ok () heights) ↔ ∀ anchor ∈ certified.anchors,
          headers anchor.blockHeight = .ok (some anchor.merkleRoot) := by
      rw [HeaderSource.confirmAll_eq_ok_iff]
      simp [Certification.rootsToConfirm]
    rw [certifyConfirmed_of_ok hr]
    cases hc : (headers.confirmAll certified.rootsToConfirm).run #[] with
    | error e heights =>
      simp only [hc, reduceCtorEq, exists_false, false_iff] at hroots
      simp only [reduceCtorEq, Except.ok.injEq, false_iff, not_and]
      rintro rfl
      exact hroots
    | ok _ heights =>
      have hall := hroots.mp ⟨heights, hc⟩
      simp only [Except.ok.injEq]
      constructor
      · rintro rfl
        exact ⟨rfl, hall⟩
      · exact And.left

/-- A confirmed certification has asked the headers for the height of each root that it rests on. -/
theorem heights_of_certifyConfirmed {headers : HeaderSource} {certification : Certification}
    (h : envelope.certifyConfirmed verify config headers = .ok certification) :
    (envelope.auditConfirmed verify config headers).heights =
      certification.rootsToConfirm.map (·.1) := by
  unfold certifyConfirmed auditConfirmed at h
  unfold auditConfirmed
  cases hr : (envelope.audit verify config).result with
  | error e =>
    simp only [hr] at h
    cases h
  | ok certified =>
    simp only [hr] at h ⊢
    cases hc : (headers.confirmAll certified.rootsToConfirm).run #[] with
    | error e heights =>
      rw [hc] at h
      cases h
    | ok _ heights =>
      rw [hc] at h
      cases h
      simpa using HeaderSource.heights_of_confirmAll hc

end Envelope

end SpvEnvelope
