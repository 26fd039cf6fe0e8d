import SpvEnvelope.Merkle.Memory
import SpvEnvelope.Proofs.Availability
import SpvEnvelope.Proofs.BlockTree
import SpvEnvelope.Proofs.Confirmation

/-!
# A proof that reaches a block's root is about a transaction of the block

Nothing is assumed of the nodes that a proof lists. The argument goes down from the root: the climb's
last node is the root of the block's tree, and where a node of the climb is one of the tree
(`Merkle.Stands`), so is the node below it, or else what the climb hashed and what the tree hashed
are two messages that collide. `stands_of_reach` is the whole descent.

Only the place within a level matters for this and not how a paired node was found, listed, copied
or derived. Of a place only the last bits matter, one for each level of the climb: the descent leads to
any position that has them in common with the leaf's offset.
-/

namespace SpvEnvelope

/-! ## Messages of a climb -/

namespace Leaf

/-- What is hashed for the node above a pair. -/
def message (base sibling : Leaf) : List UInt8 :=
  (base.pairHashes base.offset sibling).1.bytes ++ (base.pairHashes base.offset sibling).2.bytes

theorem parent_carries (base sibling : Leaf) :
    (base.parent sibling).Carries (Digest.double (base.message sibling)) := ⟨rfl, rfl⟩

/-- The hash of a node with a hash is on the side of the pair that its offset says. -/
theorem Carries.pairHashes {base : Leaf} {hash : Digest} (h : base.Carries hash) (sibling : Leaf) :
    (if base.offset.toNat % 2 = 0 then (base.pairHashes base.offset sibling).1
      else (base.pairHashes base.offset sibling).2) = hash := by
  have hpar := mod_two_eq_zero_iff base.offset
  unfold Leaf.pairHashes
  by_cases hp : base.offset.toNat % 2 = 0
  · simp [hp, hpar.mpr hp, h.isDuplicate, h.hash]
  · simp [hp, mt hpar.mp hp, h.isDuplicate, h.hash]

end Leaf

namespace MerkleProof

/-- What a climb from `leaf` hashes for the node that it reaches after `height + 1` levels. -/
def message (proof : MerkleProof) (leaf : Leaf) (height : Nat) : Except Error (List UInt8) := do
  let base ← proof.reach leaf height
  let sibling ← proof.node height (Leaf.pairOffset base.offset)
  return base.message sibling

/-- On some level, what a climb from `leaf` hashes collides with what is hashed for a node of the
block's tree. -/
def CollidesWith (proof : MerkleProof) (leaf : Leaf) (txids : List Digest) : Prop :=
  ∃ height message message', height < proof.treeHeight ∧
    proof.message leaf height = .ok message ∧
    message' ∈ Merkle.messages (Merkle.level txids height) ∧ Merkle.Collides message message'

theorem reach_succ_eq_ok {proof : MerkleProof} {leaf node : Leaf} {height : Nat}
    (h : proof.reach leaf (height + 1) = .ok node) : ∃ base sibling,
      proof.reach leaf height = .ok base ∧ node = base.parent sibling ∧
      proof.message leaf height = .ok (base.message sibling) := by
  obtain ⟨base, sibling, hb, hs, rfl⟩ := reach_succ_eq_ok_iff.mp h
  refine ⟨base, sibling, hb, rfl, ?_⟩
  simp [message, hb, hs]

theorem rootFrom_eq_ok_iff {proof : MerkleProof} {leaf : Leaf} {root : Digest} :
    proof.rootFrom leaf = .ok root ↔
      ∃ top, proof.reach leaf proof.treeHeight = .ok top ∧ top.hash.getD .zero = root := by
  rw [rootFrom_eq]
  cases proof.reach leaf proof.treeHeight <;> simp

/-- A climb from a leaf with a hash only meets nodes with a hash. -/
theorem carries_of_reach {proof : MerkleProof} {leaf node : Leaf} {hash : Digest} {height : Nat}
    (hl : leaf.Carries hash) (h : proof.reach leaf height = .ok node) :
    ∃ hash', node.Carries hash' := by
  cases height with
  | zero =>
    cases h
    exact ⟨hash, hl⟩
  | succ height =>
    obtain ⟨base, sibling, -, rfl, -⟩ := reach_succ_eq_ok h
    exact ⟨_, base.parent_carries sibling⟩

/-- A climb from a leaf with a hash ends at a node with the root as its hash. -/
theorem carries_of_rootFrom {proof : MerkleProof} {leaf : Leaf} {hash root : Digest}
    (hl : leaf.Carries hash) (h : proof.rootFrom leaf = .ok root) :
    ∃ top, proof.reach leaf proof.treeHeight = .ok top ∧ top.Carries root := by
  obtain ⟨top, htop, hroot⟩ := rootFrom_eq_ok_iff.mp h
  obtain ⟨topHash, hc⟩ := carries_of_reach hl htop
  rw [hc.hash, Option.getD_some] at hroot
  exact ⟨top, htop, hroot ▸ hc⟩

/-! ## The descent -/

/-- The bit of a position that tells the half on level `height`. -/
theorem shiftRight_mod_two_eq {offset offset' height : Nat}
    (h : offset % 2 ^ (height + 1) = offset' % 2 ^ (height + 1)) :
    (offset >>> height) % 2 = (offset' >>> height) % 2 := by
  rw [Nat.shiftRight_eq_div_pow, Nat.shiftRight_eq_div_pow, ← Nat.mod_mul_right_div_self,
    ← Nat.mod_mul_right_div_self, ← Nat.pow_succ, h]

/-- Positions that are the same one in a tree are the same one in its lower levels. -/
theorem mod_two_pow_eq_of_succ {offset offset' height : Nat}
    (h : offset % 2 ^ (height + 1) = offset' % 2 ^ (height + 1)) :
    offset % 2 ^ height = offset' % 2 ^ height := by
  have hdvd : 2 ^ height ∣ 2 ^ (height + 1) := Nat.pow_dvd_pow 2 (Nat.le_succ height)
  rw [← Nat.mod_mod_of_dvd _ hdvd, h, Nat.mod_mod_of_dvd _ hdvd]

/-- One level of the descent, to any position in the node's half of a pair. -/
theorem stands_of_parent {base sibling : Leaf} {hash : Digest} {level : List Digest}
    {position : Nat} (hb : base.Carries hash) (hpar : position % 2 = base.offset.toNat % 2)
    (h : Merkle.Stands (Merkle.levelAbove level) (position / 2)
      (Digest.double (base.message sibling))) :
    Merkle.Stands level position hash ∨
      ∃ message ∈ Merkle.messages level, Merkle.Collides (base.message sibling) message := by
  rw [← hb.pairHashes sibling, ← hpar]
  exact h.children

/-- **The descent.** If the node that a climb reaches is one of the block's tree, then the leaf that
it started from is one of the transactions, or the climb met a collision. -/
theorem stands_of_reach {proof : MerkleProof} {leaf node : Leaf} {txid hash : Digest}
    {txids : List Digest} {height position : Nat} (hle : height ≤ proof.treeHeight)
    (hp : position % 2 ^ height = leaf.offset.toNat % 2 ^ height)
    (hl : leaf.Carries txid) (hr : proof.reach leaf height = .ok node) (hn : node.Carries hash)
    (hs : Merkle.Stands (Merkle.level txids height) (position >>> height) hash) :
    Merkle.Stands txids position txid ∨ proof.CollidesWith leaf txids := by
  induction height generalizing node hash with
  | zero =>
    cases hr
    cases hl.hash.symm.trans hn.hash
    exact .inl hs
  | succ height ih =>
    obtain ⟨base, sibling, hbase, rfl, hmessage⟩ := reach_succ_eq_ok hr
    obtain ⟨baseHash, hb⟩ := carries_of_reach hl hbase
    cases hn.hash.symm.trans (base.parent_carries sibling).hash
    have hpar : (position >>> height) % 2 = base.offset.toNat % 2 := by
      rw [offset_of_reach hbase]
      exact shiftRight_mod_two_eq hp
    rw [Nat.shiftRight_succ] at hs
    rcases stands_of_parent hb hpar hs with hs' | ⟨message', hmem, hc⟩
    · exact ih (by omega) (mod_two_pow_eq_of_succ hp) hbase hb hs'
    · exact .inr ⟨height, _, message', hle, hmessage, hmem, hc⟩

/-- A climb that ends at the root of a block as high as the proof started at a transaction of it, at
any position that the tree does not tell from the leaf's offset. -/
theorem stands_of_rootFrom_of_mod {proof : MerkleProof} {leaf : Leaf} {txid : Digest}
    {txids : List Digest} {position : Nat} (hne : txids ≠ [])
    (hh : proof.treeHeight = Merkle.height txids)
    (hp : position % 2 ^ proof.treeHeight = leaf.offset.toNat % 2 ^ proof.treeHeight)
    (hl : leaf.Carries txid) (hr : proof.rootFrom leaf = .ok (Merkle.root txids)) :
    Merkle.Stands txids position txid ∨ proof.CollidesWith leaf txids := by
  obtain ⟨top, htop, ht⟩ := carries_of_rootFrom hl hr
  refine stands_of_reach (Nat.le_refl _) hp hl htop ht ?_
  rw [hh, Merkle.level_height txids hne]
  constructor
  · exact List.mem_singleton_self _
  · intro hlt
    rw [List.length_singleton, Nat.lt_one_iff] at hlt
    rw [hlt]
    rfl

/-- A climb that ends at the root of a block as high as the proof started at a transaction of it. -/
theorem stands_of_rootFrom {proof : MerkleProof} {leaf : Leaf} {txid : Digest} {txids : List Digest}
    (hne : txids ≠ []) (hh : proof.treeHeight = Merkle.height txids) (hl : leaf.Carries txid)
    (hr : proof.rootFrom leaf = .ok (Merkle.root txids)) :
    Merkle.Stands txids leaf.offset.toNat txid ∨ proof.CollidesWith leaf txids :=
  stands_of_rootFrom_of_mod hne hh rfl hl hr

end MerkleProof

/-! ## Inclusion -/

/-- **A proof that reaches a block's root is about a transaction of the block.** A proof as high as
the block's tree, whatever nodes it lists, leads from a leaf with a hash to the root only if the hash
is one of the block's txids, and the one at the leaf's offset if the block goes that far; or else the
climb shows a collision. So it is with each anchor of a confirmed certification and the block whose
root the headers know. -/
theorem Merkle.inclusion_sound (txids : List Digest) (hne : txids ≠ []) :
    (∀ (proof : MerkleProof) (leaf : Leaf) (txid : Digest),
      proof.treeHeight = height txids → leaf.isDuplicate = false → leaf.hash = some txid →
      proof.rootFrom leaf = .ok (root txids) →
      (txid ∈ txids ∧
        (leaf.offset.toNat < txids.length → txids[leaf.offset.toNat]? = some txid)) ∨
      proof.CollidesWith leaf txids) ∧
    (∀ (envelope : Envelope) (verify : ScriptVerifier) (config : Config) (headers : HeaderSource)
      (certification : Certification),
      envelope.certifyConfirmed verify config headers = .ok certification →
      ∀ anchor ∈ certification.anchors, ∃ proof leaf,
        envelope.proofs[anchor.proofIndex.toNat]? = some proof ∧
        proof.findTxid? anchor.txid = some leaf ∧
        headers anchor.blockHeight = .ok (some anchor.merkleRoot) ∧
        (anchor.merkleRoot = root txids → proof.treeHeight = height txids →
          (anchor.txid ∈ txids ∧ (anchor.offset.toNat < txids.length →
            txids[anchor.offset.toNat]? = some anchor.txid)) ∨
          proof.CollidesWith leaf txids)) := by
  constructor
  · intro proof leaf txid hh hd hhash hr
    rcases MerkleProof.stands_of_rootFrom hne hh ⟨hd, hhash⟩ hr with hs | hc
    · exact .inl ⟨hs.mem, hs.getElem?⟩
    · exact .inr hc
  · intro envelope verify config headers certification h anchor ha
    obtain ⟨hcertify, hheaders⟩ := Envelope.certifyConfirmed_eq_ok_iff.mp h
    obtain ⟨proof, leaf, hproof, hleaf, hoffset, -, hr⟩ := Envelope.climb_of_anchor hcertify ha
    refine ⟨proof, leaf, hproof, hleaf, hheaders anchor ha, fun hroot hh => ?_⟩
    rw [hroot] at hr
    have hcarries := MerkleProof.carries_of_findTxid? hleaf
    rcases MerkleProof.stands_of_rootFrom hne hh hcarries hr with hs | hc
    · rw [hoffset] at hs
      exact .inl ⟨hs.mem, hs.getElem?⟩
    · exact .inr hc

/-- A block of three transactions. -/
def Merkle.threeTxids : List Digest :=
  [.zero, .double [], Transaction.empty.txid]

/-- A proof for the last of them, which is paired with a copy of itself. -/
def Merkle.threeProof : MerkleProof where
  blockHeight := 7
  levels :=
    [[.ofTxid 2 Transaction.empty.txid, .duplicate 3], [.ofHash 0 (parent .zero (.double []))]]
  length_levels := by decide

/-- The record of the transaction that the proof is for. -/
def Merkle.threeTarget : Record :=
  .ofTransaction .empty (some 0)

/-- An envelope with this target. -/
def Merkle.threeEnvelope : Envelope where
  version := 1
  proofs := [threeProof]
  records := [.ofTransaction { lockTime := 1 } none, threeTarget]
  two_le_length_records := by decide

/-- The anchor of the target. -/
def Merkle.threeAnchor : Anchor where
  txid := Transaction.empty.txid
  proofIndex := 0
  blockHeight := 7
  offset := 2
  merkleRoot := parent (parent .zero (.double []))
    (parent Transaction.empty.txid Transaction.empty.txid)

theorem Merkle.height_threeTxids : height threeTxids = 2 := by
  simp [height, threeTxids]

theorem Merkle.root_threeTxids : root threeTxids = threeAnchor.merkleRoot := by
  rw [root, height_threeTxids]
  rfl

theorem Merkle.rootFrom_threeProof :
    threeProof.rootFrom (.ofTxid 2 Transaction.empty.txid) = .ok threeAnchor.merkleRoot := by
  rw [MerkleProof.rootFrom_eq]
  rfl

theorem Merkle.anchor_threeTarget : threeTarget.anchor 0 [threeProof] = .ok threeAnchor := by
  refine Record.anchor_eq_ok_iff.mpr
    ⟨threeProof, .ofTxid 2 Transaction.empty.txid, _, rfl, ?_, rootFrom_threeProof, rfl⟩
  simp [MerkleProof.findTxid?, MerkleProof.bottom, MerkleProof.leaves, threeProof, threeTarget,
    Leaf.ofTxid, Record.ofTransaction]

theorem Merkle.certify_threeEnvelope (verify : ScriptVerifier) (config : Config) :
    threeEnvelope.certify verify config =
      .ok ⟨threeAnchor.txid, [threeAnchor.txid], [threeAnchor]⟩ :=
  Envelope.certify_of_anchor rfl rfl anchor_threeTarget

theorem Merkle.certifyConfirmed_threeEnvelope :
    threeEnvelope.certifyConfirmed (fun _ => .ok ()) {} (.ofList [(7, root threeTxids)]) =
      .ok ⟨threeAnchor.txid, [threeAnchor.txid], [threeAnchor]⟩ := by
  refine Envelope.certifyConfirmed_eq_ok_iff.mpr ⟨certify_threeEnvelope _ _, ?_⟩
  simp [HeaderSource.ofList, root_threeTxids, threeAnchor]

theorem Merkle.inclusion_sound_three :
    threeTxids ≠ [] ∧ threeProof.treeHeight = height threeTxids ∧
      threeProof.rootFrom (.ofTxid 2 Transaction.empty.txid) = .ok (root threeTxids) ∧
      ((Transaction.empty.txid ∈ threeTxids ∧
        ((2 : UInt64).toNat < threeTxids.length →
          threeTxids[(2 : UInt64).toNat]? = some Transaction.empty.txid)) ∨
        threeProof.CollidesWith (.ofTxid 2 Transaction.empty.txid) threeTxids) ∧
      threeEnvelope.certifyConfirmed (fun _ => .ok ()) {} (.ofList [(7, root threeTxids)]) =
        .ok ⟨threeAnchor.txid, [threeAnchor.txid], [threeAnchor]⟩ ∧
      threeAnchor.merkleRoot = root threeTxids ∧
      ∃ proof leaf, threeEnvelope.proofs[threeAnchor.proofIndex.toNat]? = some proof ∧
        ((threeAnchor.txid ∈ threeTxids ∧ (threeAnchor.offset.toNat < threeTxids.length →
          threeTxids[threeAnchor.offset.toNat]? = some threeAnchor.txid)) ∨
          proof.CollidesWith leaf threeTxids) := by
  have hne : threeTxids ≠ [] := by simp [threeTxids]
  have hh : threeProof.treeHeight = height threeTxids := height_threeTxids.symm
  have hr : threeProof.rootFrom (.ofTxid 2 Transaction.empty.txid) = .ok (root threeTxids) := by
    rw [root_threeTxids]
    exact rootFrom_threeProof
  have hsound := inclusion_sound threeTxids hne
  refine ⟨hne, hh, hr, hsound.1 _ _ _ hh rfl rfl hr, certifyConfirmed_threeEnvelope,
    root_threeTxids.symm, ?_⟩
  obtain ⟨proof, leaf, hproof, -, -, hincluded⟩ :=
    hsound.2 _ _ _ _ _ certifyConfirmed_threeEnvelope threeAnchor (List.mem_singleton_self _)
  cases hproof
  exact ⟨threeProof, leaf, rfl, hincluded root_threeTxids.symm hh⟩

end SpvEnvelope
