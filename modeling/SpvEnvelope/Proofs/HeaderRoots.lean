import SpvEnvelope.Proofs.Inclusion
import SpvEnvelope.Proofs.SameNodes

/-!
# The roots of an envelope's proofs and the roots of a certification

There are two lists of roots to be confirmed. That of a certification comes from its anchors, whose
leaves were found by their hash, marked as txids or not. That of an envelope comes from its proofs,
and of these only from the leaves marked as txids. The mark makes no difference to a climb
(`rootFrom_mark`), so anchors with a marked leaf are in both lists (`merkleRoots_cover`); an anchor
without one need not be in the second.
-/

namespace SpvEnvelope

/-- A list that is mapped without a failure holds what each element is mapped to. -/
theorem Except.mem_of_mapM {α β ε : Type} {f : α → Except ε β} {xs : List α} {ys : List β}
    (h : xs.mapM f = .ok ys) :
    (∀ x ∈ xs, ∃ y ∈ ys, f x = .ok y) ∧ ∀ y ∈ ys, ∃ x ∈ xs, f x = .ok y := by
  induction xs generalizing ys with
  | nil =>
    cases h
    simp
  | cons x rest ih =>
    rw [List.mapM_cons] at h
    cases hx : f x with
    | error e =>
      rw [hx] at h
      cases h
    | ok y =>
      cases hrest : rest.mapM f with
      | error e =>
        rw [hx, hrest] at h
        cases h
      | ok more =>
        rw [hx, hrest] at h
        cases h
        obtain ⟨hto, hfrom⟩ := ih hrest
        constructor
        · rintro x' (_ | ⟨_, hm⟩)
          · exact ⟨y, List.mem_cons_self, hx⟩
          · obtain ⟨y', hm', hy⟩ := hto x' hm
            exact ⟨y', List.mem_cons_of_mem _ hm', hy⟩
        · rintro y' (_ | ⟨_, hm⟩)
          · exact ⟨x, List.mem_cons_self, hx⟩
          · obtain ⟨x', hm', hy⟩ := hfrom y' hm
            exact ⟨x', List.mem_cons_of_mem _ hm', hy⟩

/-- A list that is mapped with a failure has an element that is. -/
theorem Except.exists_of_mapM_eq_error {α β ε : Type} {f : α → Except ε β} {xs : List α} {e : ε}
    (h : xs.mapM f = .error e) : ∃ x ∈ xs, f x = .error e := by
  induction xs with
  | nil => cases h
  | cons x rest ih =>
    rw [List.mapM_cons] at h
    cases hx : f x with
    | error e' =>
      rw [hx] at h
      cases h
      exact ⟨x, List.mem_cons_self, hx⟩
    | ok y =>
      cases hrest : rest.mapM f with
      | error e' =>
        rw [hx, hrest] at h
        cases h
        obtain ⟨x', hm, hx'⟩ := ih hrest
        exact ⟨x', List.mem_cons_of_mem _ hm, hx'⟩
      | ok more =>
        rw [hx, hrest] at h
        cases h

/-! ## Marks -/

/-- The mark of a leaf makes no difference to the root that it leads to. -/
@[simp] theorem MerkleProof.rootFrom_mark {proof : MerkleProof} {leaf : Leaf} (mark : Bool) :
    proof.rootFrom { leaf with isTxid := mark } = proof.rootFrom leaf :=
  (SameNodes.refl proof).rootFrom rfl

namespace Envelope

variable {envelope : Envelope} {verify : ScriptVerifier} {config : Config}
  {certification : Certification} {roots : List (UInt64 × Digest)}

/-- The anchor's proof lists the transaction, at the anchor's offset, with the mark of a txid. -/
def Marks (envelope : Envelope) (anchor : Anchor) : Prop :=
  ∃ proof, envelope.proofs[anchor.proofIndex.toNat]? = some proof ∧
    .ofTxid anchor.offset anchor.txid ∈ proof.targets

/-- A marked leaf of an anchor leads to the anchor's root. -/
theorem rootFrom_of_marks (h : envelope.certify verify config = .ok certification) {anchor : Anchor}
    (ha : anchor ∈ certification.anchors) (hm : envelope.Marks anchor) :
    ∃ proof ∈ envelope.proofs, proof.blockHeight = anchor.blockHeight ∧
      ∃ target ∈ proof.targets, proof.rootFrom target = .ok anchor.merkleRoot := by
  obtain ⟨proof, leaf, hproof, hleaf, hoffset, hheight, hroot⟩ := climb_of_anchor h ha
  obtain ⟨proof', hproof', htarget⟩ := hm
  rw [hproof] at hproof'
  cases hproof'
  have hcarries := MerkleProof.carries_of_findTxid? hleaf
  have hmarked : .ofTxid anchor.offset anchor.txid = { leaf with isTxid := true } := by
    ext1
    · exact hoffset.symm
    · exact hcarries.hash.symm
    · rfl
    · exact hcarries.isDuplicate.symm
  refine ⟨proof, List.mem_of_getElem? hproof, hheight, _, htarget, ?_⟩
  simpa [hmarked] using hroot

/-! ## Lists of roots -/

/-- The root that a proof shows, with its block height. -/
def shown? (proof : MerkleProof) : Except Error (Option (UInt64 × Digest)) := do
  let root? ← proof.root?
  return root?.map fun root => (proof.blockHeight, root)

theorem shown?_eq_ok_iff {proof : MerkleProof} {pair? : Option (UInt64 × Digest)} :
    shown? proof = .ok pair? ↔
      ∃ root?, proof.root? = .ok root? ∧ pair? = root?.map fun root => (proof.blockHeight, root) := by
  unfold shown?
  cases proof.root? <;> simp [eq_comm]

theorem merkleRoots_eq (envelope : Envelope) : envelope.merkleRoots =
    (envelope.proofs.mapM shown?).map fun shown => (shown.filterMap id).eraseDups := rfl

/-- If the roots of an envelope are found, then each proof has a root or no target, and the roots
found are those of the proofs. -/
theorem merkleRoots_eq_ok (h : envelope.merkleRoots = .ok roots) :
    (∀ proof ∈ envelope.proofs, ∃ root?, proof.root? = .ok root?) ∧
    ∀ pair, pair ∈ roots ↔ ∃ proof ∈ envelope.proofs,
      proof.blockHeight = pair.1 ∧ proof.root? = .ok (some pair.2) := by
  rw [merkleRoots_eq] at h
  cases hm : envelope.proofs.mapM shown? with
  | error e =>
    rw [hm] at h
    cases h
  | ok shown =>
    rw [hm] at h
    cases h
    obtain ⟨hto, hfrom⟩ := Except.mem_of_mapM hm
    constructor
    · intro proof hp
      obtain ⟨_, -, hs⟩ := hto proof hp
      obtain ⟨root?, hr, -⟩ := shown?_eq_ok_iff.mp hs
      exact ⟨root?, hr⟩
    · rintro ⟨blockHeight, root⟩
      simp only [List.mem_eraseDups, List.mem_filterMap, id, exists_eq_right]
      constructor
      · intro hmem
        obtain ⟨proof, hp, hs⟩ := hfrom _ hmem
        obtain ⟨root?, hr, hpair⟩ := shown?_eq_ok_iff.mp hs
        cases root? with
        | none => cases hpair
        | some root =>
          cases hpair
          exact ⟨proof, hp, rfl, hr⟩
      · rintro ⟨proof, hp, rfl, hr⟩
        obtain ⟨pair?, hmem, hs⟩ := hto proof hp
        rw [shown?_eq_ok_iff.mpr ⟨_, hr, rfl⟩] at hs
        cases hs
        exact hmem

/-- The root of a marked anchor is among the roots of the envelope. -/
theorem mem_merkleRoots_of_marks (h : envelope.certify verify config = .ok certification)
    (hr : envelope.merkleRoots = .ok roots) {anchor : Anchor} (ha : anchor ∈ certification.anchors)
    (hm : envelope.Marks anchor) : (anchor.blockHeight, anchor.merkleRoot) ∈ roots := by
  obtain ⟨proof, hp, hheight, target, htarget, hroot⟩ := rootFrom_of_marks h ha hm
  obtain ⟨hfound, hmem⟩ := merkleRoots_eq_ok hr
  obtain ⟨root?, hroot?⟩ := hfound proof hp
  refine (hmem _).mpr ⟨proof, hp, hheight, ?_⟩
  cases root? with
  | none =>
    rw [MerkleProof.root?_eq_ok_none_iff.mp hroot?] at htarget
    cases htarget
  | some root =>
    have hagree := (MerkleProof.root?_eq_ok_some_iff.mp hroot?).2 target htarget
    rw [hroot] at hagree
    cases hagree
    exact hroot?

/-- **Roots of marked anchors are among the roots of the envelope.** So whoever checks the latter
against headers has confirmed a certification whose anchors are all marked. -/
theorem merkleRoots_cover (envelope : Envelope) (verify : ScriptVerifier) (config : Config)
    (certification : Certification) (roots : List (UInt64 × Digest))
    (h : envelope.certify verify config = .ok certification)
    (hr : envelope.merkleRoots = .ok roots) :
    (∀ anchor ∈ certification.anchors, envelope.Marks anchor →
      (anchor.blockHeight, anchor.merkleRoot) ∈ roots) ∧
    ((∀ anchor ∈ certification.anchors, envelope.Marks anchor) →
      (∀ pair ∈ certification.rootsToConfirm, pair ∈ roots) ∧
      ∀ headers : HeaderSource, (∀ pair ∈ roots, headers pair.1 = .ok (some pair.2)) →
        envelope.certifyConfirmed verify config headers = .ok certification) := by
  refine ⟨fun anchor ha hm => mem_merkleRoots_of_marks h hr ha hm, fun hall => ⟨?_, ?_⟩⟩
  · intro pair hp
    obtain ⟨anchor, ha, rfl⟩ := List.mem_map.mp (List.mem_eraseDups.mp hp)
    exact mem_merkleRoots_of_marks h hr ha (hall anchor ha)
  · intro headers hknown
    exact certifyConfirmed_eq_ok_iff.mpr ⟨h, fun anchor ha =>
      hknown _ (mem_merkleRoots_of_marks h hr ha (hall anchor ha))⟩

/-- The roots of an envelope with one proof. -/
theorem merkleRoots_of_proofs_eq_singleton {proof : MerkleProof} {pair? : Option (UInt64 × Digest)}
    (hp : envelope.proofs = [proof]) (hs : shown? proof = .ok pair?) :
    envelope.merkleRoots = .ok pair?.toList := by
  rw [merkleRoots_eq, hp, List.mapM_cons, hs]
  cases pair? <;> rfl

theorem targets_threeProof :
    Merkle.threeProof.targets = [.ofTxid 2 Transaction.empty.txid] := rfl

theorem merkleRoots_threeEnvelope :
    Merkle.threeEnvelope.merkleRoots = .ok [(7, Merkle.threeAnchor.merkleRoot)] := by
  have hroot : Merkle.threeProof.root? = .ok (some Merkle.threeAnchor.merkleRoot) := by
    rw [MerkleProof.root?_eq_ok_some_iff, targets_threeProof, List.forall_mem_singleton]
    exact ⟨List.cons_ne_nil _ _, Merkle.rootFrom_threeProof⟩
  exact merkleRoots_of_proofs_eq_singleton rfl (shown?_eq_ok_iff.mpr ⟨_, hroot, rfl⟩)

theorem merkleRoots_cover_three :
    Merkle.threeEnvelope.merkleRoots = .ok [(7, Merkle.threeAnchor.merkleRoot)] ∧
      Merkle.threeEnvelope.Marks Merkle.threeAnchor ∧
      (Merkle.threeAnchor.blockHeight, Merkle.threeAnchor.merkleRoot) ∈
        [((7 : UInt64), Merkle.threeAnchor.merkleRoot)] ∧
      Merkle.threeEnvelope.certifyConfirmed (fun _ => .ok ()) {}
          (fun _ => .ok (some Merkle.threeAnchor.merkleRoot)) =
        .ok ⟨Merkle.threeAnchor.txid, [Merkle.threeAnchor.txid], [Merkle.threeAnchor]⟩ := by
  have hmarks : Merkle.threeEnvelope.Marks Merkle.threeAnchor :=
    ⟨Merkle.threeProof, rfl, List.mem_singleton_self _⟩
  have hcover := merkleRoots_cover _ _ _ _ _
    (Merkle.certify_threeEnvelope (fun _ => .ok ()) {}) merkleRoots_threeEnvelope
  refine ⟨merkleRoots_threeEnvelope, hmarks, hcover.1 _ (List.mem_singleton_self _) hmarks,
    (hcover.2 (List.forall_mem_singleton.mpr hmarks)).2 _ ?_⟩
  exact List.forall_mem_singleton.mpr rfl

/-- A proof that lists a transaction without the mark of a txid. -/
def unmarkedProof : MerkleProof where
  blockHeight := 7
  levels := [[.ofHash 0 Transaction.empty.txid, .duplicate 1]]
  length_levels := by decide

/-- An envelope with this transaction as its target. -/
def unmarked : Envelope where
  version := 1
  proofs := [unmarkedProof]
  records := [.ofTransaction { lockTime := 1 } none, .ofTransaction .empty (some 0)]
  two_le_length_records := by decide

/-- The anchor of the target. -/
def unmarkedAnchor : Anchor where
  txid := Transaction.empty.txid
  proofIndex := 0
  blockHeight := 7
  offset := 0
  merkleRoot := Merkle.parent Transaction.empty.txid Transaction.empty.txid

theorem anchor_unmarked : unmarked.target.anchor 0 unmarked.proofs = .ok unmarkedAnchor := by
  refine Record.anchor_eq_ok_iff.mpr
    ⟨unmarkedProof, .ofHash 0 Transaction.empty.txid, _, rfl, ?_, ?_, rfl⟩
  · rw [show unmarked.target.txid = Transaction.empty.txid from rfl]
    simp [MerkleProof.findTxid?, MerkleProof.bottom, MerkleProof.leaves, unmarkedProof, Leaf.ofHash]
  · rw [MerkleProof.rootFrom_eq]
    rfl

/-- The certification rests on a root that is not among the roots of the envelope. -/
theorem certify_unmarked :
    unmarked.certify (fun _ => .ok ()) {} =
        .ok ⟨unmarkedAnchor.txid, [unmarkedAnchor.txid], [unmarkedAnchor]⟩ ∧
      (⟨unmarkedAnchor.txid, [unmarkedAnchor.txid], [unmarkedAnchor]⟩ :
        Certification).rootsToConfirm = [(7, unmarkedAnchor.merkleRoot)] ∧
      unmarked.merkleRoots = .ok [] := by
  have hp : unmarked.target.IsProven unmarked.proofs :=
    Record.isProven_of_anchor fun
      | _, rfl => ⟨_, anchor_unmarked⟩
  have ha : unmarked.anchor? unmarked.target = some unmarkedAnchor :=
    anchor?_eq_some_iff.mpr ⟨0, rfl, anchor_unmarked⟩
  have hroot : unmarkedProof.root? = .ok none := MerkleProof.root?_eq_ok_none_iff.mpr rfl
  refine ⟨?_, rfl, merkleRoots_of_proofs_eq_singleton rfl (shown?_eq_ok_iff.mpr ⟨_, hroot, rfl⟩)⟩
  rw [certify, audit_of_inputs_eq_nil rfl hp, ha]
  rfl

end Envelope

end SpvEnvelope
