import SpvEnvelope.Proofs.Inclusion

/-!
# A root binds the hash at each position

Two proofs of the same height need not have anything in common. But if climbs of both end at the same
root, and their leaves stand at the same position of the tree, then both climbs started at the same
hash, or on some level they hashed two messages that collide (`MerkleProof.ClimbsCollide`).

The descent compares the two climbs with each other, from the root down (`hash_eq_or_collide`). On
each level the hashed messages are equal, so both climbs came from the same half of the message:
positions that agree in their last `height` bits agree in the bit that tells the half.
-/

namespace SpvEnvelope

@[simp] theorem Leaf.length_message (base sibling : Leaf) : (base.message sibling).length = 64 :=
  Merkle.length_append_bytes _ _

/-- Nodes that are hashed in equal messages have equal hashes if they are in the same half. -/
theorem Leaf.Carries.eq_of_message_eq {base sibling base' sibling' : Leaf} {hash hash' : Digest}
    (h : base.Carries hash) (h' : base'.Carries hash')
    (hpar : base.offset.toNat % 2 = base'.offset.toNat % 2)
    (hm : base.message sibling = base'.message sibling') : hash = hash' := by
  obtain ⟨hleft, hright⟩ := Merkle.append_bytes_inj hm
  rw [← h.pairHashes sibling, ← h'.pairHashes sibling', hpar, hleft, hright]

namespace MerkleProof

/-- On some level, what the climb from `leaf` hashes collides with what the climb from `leaf'`
hashes. -/
def ClimbsCollide (proof : MerkleProof) (leaf : Leaf) (proof' : MerkleProof) (leaf' : Leaf) : Prop :=
  ∃ height message message', height < proof.treeHeight ∧ proof.message leaf height = .ok message ∧
    proof'.message leaf' height = .ok message' ∧ Merkle.Collides message message'

variable {proof proof' : MerkleProof} {leaf leaf' node node' : Leaf} {hash hash' top root : Digest}
  {height : Nat}

/-- **The descent.** Two climbs that meet in one hash started at one hash, or they collide. -/
theorem hash_eq_or_collide (hle : height ≤ proof.treeHeight)
    (hl : leaf.Carries hash) (hl' : leaf'.Carries hash')
    (ho : leaf.offset.toNat % 2 ^ height = leaf'.offset.toNat % 2 ^ height)
    (hr : proof.reach leaf height = .ok node) (hr' : proof'.reach leaf' height = .ok node')
    (hn : node.Carries top) (hn' : node'.Carries top) :
    hash = hash' ∨ ClimbsCollide proof leaf proof' leaf' := by
  induction height generalizing node node' top with
  | zero =>
    cases hr
    cases hr'
    left
    exact Option.some.inj (by rw [← hl.hash, hn.hash, ← hn'.hash, hl'.hash])
  | succ height ih =>
    obtain ⟨base, sibling, hb, rfl, hmessage⟩ := reach_succ_eq_ok hr
    obtain ⟨base', sibling', hb', rfl, hmessage'⟩ := reach_succ_eq_ok hr'
    obtain ⟨baseHash, hc⟩ := carries_of_reach hl hb
    obtain ⟨baseHash', hc'⟩ := carries_of_reach hl' hb'
    cases hn.hash.symm.trans (base.parent_carries sibling).hash
    have hdouble : Digest.double (base.message sibling) = Digest.double (base'.message sibling') :=
      Option.some.inj (hn'.hash.symm.trans (base'.parent_carries sibling').hash)
    by_cases hm : base.message sibling = base'.message sibling'
    · have hpar : base.offset.toNat % 2 = base'.offset.toNat % 2 := by
        rw [offset_of_reach hb, offset_of_reach hb']
        exact shiftRight_mod_two_eq ho
      have heq := hc.eq_of_message_eq hc' hpar hm
      exact ih (by omega) (mod_two_pow_eq_of_succ ho) hb hb' hc (heq ▸ hc')
    · refine .inr ⟨height, _, _, hle, hmessage, hmessage', ?_⟩
      exact ⟨base.length_message sibling, base'.length_message sibling', hm, hdouble⟩

/-- Two climbs of proofs of one height that end at one root started at one hash, or they collide. -/
theorem hash_eq_of_rootFrom (hheight : proof.treeHeight = proof'.treeHeight)
    (hl : leaf.Carries hash) (hl' : leaf'.Carries hash')
    (ho : leaf.offset.toNat % 2 ^ proof.treeHeight = leaf'.offset.toNat % 2 ^ proof.treeHeight)
    (hr : proof.rootFrom leaf = .ok root) (hr' : proof'.rootFrom leaf' = .ok root) :
    hash = hash' ∨ ClimbsCollide proof leaf proof' leaf' := by
  obtain ⟨node, hnode, hn⟩ := carries_of_rootFrom hl hr
  obtain ⟨node', hnode', hn'⟩ := carries_of_rootFrom hl' hr'
  rw [← hheight] at hnode'
  exact hash_eq_or_collide (Nat.le_refl _) hl hl' ho hnode hnode' hn hn'

end MerkleProof

/-! ## Binding -/

/-- **Merkle proofs are binding.** Climbs of two proofs of one height that end at one root, from
leaves at one position of the tree, start at one hash, or they collide. So it is with any two anchors
that two certifications report under one root. -/
theorem Merkle.root_binds_hash :
    (∀ (proof proof' : MerkleProof) (leaf leaf' : Leaf) (hash hash' root : Digest),
      proof.treeHeight = proof'.treeHeight → leaf.Carries hash → leaf'.Carries hash' →
      leaf.offset.toNat % 2 ^ proof.treeHeight = leaf'.offset.toNat % 2 ^ proof.treeHeight →
      proof.rootFrom leaf = .ok root → proof'.rootFrom leaf' = .ok root →
      hash = hash' ∨ proof.ClimbsCollide leaf proof' leaf') ∧
    (∀ (envelope envelope' : Envelope) (verify verify' : ScriptVerifier) (config config' : Config)
      (certification certification' : Certification),
      envelope.certify verify config = .ok certification →
      envelope'.certify verify' config' = .ok certification' →
      ∀ anchor ∈ certification.anchors, ∀ anchor' ∈ certification'.anchors,
        anchor.merkleRoot = anchor'.merkleRoot → ∃ proof proof' leaf leaf',
          envelope.proofs[anchor.proofIndex.toNat]? = some proof ∧
          envelope'.proofs[anchor'.proofIndex.toNat]? = some proof' ∧
          proof.findTxid? anchor.txid = some leaf ∧ proof'.findTxid? anchor'.txid = some leaf' ∧
          (proof.treeHeight = proof'.treeHeight →
            anchor.offset.toNat % 2 ^ proof.treeHeight =
              anchor'.offset.toNat % 2 ^ proof.treeHeight →
            anchor.txid = anchor'.txid ∨ proof.ClimbsCollide leaf proof' leaf')) := by
  constructor
  · intro proof proof' leaf leaf' hash hash' root hheight hl hl' ho hr hr'
    exact MerkleProof.hash_eq_of_rootFrom hheight hl hl' ho hr hr'
  · intro envelope envelope' verify verify' config config' certification certification' h h'
      anchor ha anchor' ha' hroot
    obtain ⟨proof, leaf, hproof, hleaf, hoffset, -, hr⟩ := Envelope.climb_of_anchor h ha
    obtain ⟨proof', leaf', hproof', hleaf', hoffset', -, hr'⟩ := Envelope.climb_of_anchor h' ha'
    refine ⟨proof, proof', leaf, leaf', hproof, hproof', hleaf, hleaf', fun hheight ho => ?_⟩
    rw [← hoffset, ← hoffset'] at ho
    rw [← hroot] at hr'
    exact MerkleProof.hash_eq_of_rootFrom hheight (MerkleProof.carries_of_findTxid? hleaf)
      (MerkleProof.carries_of_findTxid? hleaf') ho hr hr'

/-- A proof that lists the same transaction four positions later, and nothing left of it but the node
that its climb is paired with. -/
def Merkle.laterProof : MerkleProof where
  blockHeight := 8
  levels :=
    [[.ofHash 7 Transaction.empty.txid, .ofTxid 6 Transaction.empty.txid],
      [.ofHash 2 (parent .zero (.double []))]]
  length_levels := by decide

theorem Merkle.rootFrom_laterProof :
    laterProof.rootFrom (.ofTxid 6 Transaction.empty.txid) = .ok threeAnchor.merkleRoot := by
  rw [MerkleProof.rootFrom_eq]
  rfl

/-- Positions 2 and 6 are the same one in a tree of height 2. -/
theorem Merkle.root_binds_hash_three :
    threeProof.treeHeight = laterProof.treeHeight ∧
      (2 : UInt64).toNat % 2 ^ threeProof.treeHeight =
        (6 : UInt64).toNat % 2 ^ threeProof.treeHeight ∧
      threeProof.rootFrom (.ofTxid 2 Transaction.empty.txid) = .ok threeAnchor.merkleRoot ∧
      laterProof.rootFrom (.ofTxid 6 Transaction.empty.txid) = .ok threeAnchor.merkleRoot ∧
      (Transaction.empty.txid = Transaction.empty.txid ∨
        threeProof.ClimbsCollide (.ofTxid 2 Transaction.empty.txid) laterProof
          (.ofTxid 6 Transaction.empty.txid)) ∧
      ∃ leaf leaf', threeProof.findTxid? threeAnchor.txid = some leaf ∧
        threeProof.findTxid? threeAnchor.txid = some leaf' ∧
        (threeAnchor.txid = threeAnchor.txid ∨ threeProof.ClimbsCollide leaf threeProof leaf') := by
  have hh : threeProof.treeHeight = laterProof.treeHeight := rfl
  have ho : (2 : UInt64).toNat % 2 ^ threeProof.treeHeight =
      (6 : UInt64).toNat % 2 ^ threeProof.treeHeight := by decide
  have hbinds := root_binds_hash.1 _ _ _ _ _ _ _ hh ⟨rfl, rfl⟩ ⟨rfl, rfl⟩ ho rootFrom_threeProof
    rootFrom_laterProof
  refine ⟨hh, ho, rootFrom_threeProof, rootFrom_laterProof, hbinds, ?_⟩
  have hmem : threeAnchor ∈ [threeAnchor] := List.mem_singleton_self _
  obtain ⟨proof, proof', leaf, leaf', hproof, hproof', hleaf, hleaf', hanchors⟩ :=
    root_binds_hash.2 _ _ _ _ _ _ _ _ (certify_threeEnvelope (fun _ => .ok ()) {})
      (certify_threeEnvelope (fun _ => .error "refused") {}) _ hmem _ hmem rfl
  cases hproof
  cases hproof'
  exact ⟨leaf, leaf', hleaf, hleaf', hanchors rfl rfl⟩

end SpvEnvelope
