import SpvEnvelope.Proofs.Availability
import SpvEnvelope.Proofs.Inclusion

/-!
# Both members of a pair climb to the same place

To climb from a node is to find the node that it is paired with and to take the parent of the two.
Which of the two came first does not matter: the left one is known by its offset, and what a
duplicate copies is the other one (`Leaf.parent_comm`). So a climb of one level succeeds from both
members of a pair or from neither, and leads to the same node (`climb_pair`), and two listed
transactions that are paired lead to the same root or fail in the same way.

An error of a single step is not the same on both sides: it names the member of the pair that was
looked up first.
-/

namespace SpvEnvelope

/-! ## Pairs of offsets -/

namespace Leaf

/-- The left member of a pair is at an even offset and the right one next to it. -/
theorem pairOffset_cases (offset : UInt64) :
    (offset.toNat % 2 = 0 ∧ (pairOffset offset).toNat = offset.toNat + 1) ∨
      (offset.toNat % 2 = 1 ∧ (pairOffset offset).toNat + 1 = offset.toNat) := by
  rw [toNat_pairOffset]
  rcases Nat.mod_two_eq_zero_or_one offset.toNat with h | h
  · exact .inl ⟨h, Nat.xor_one_of_even (Nat.even_iff.mpr h)⟩
  · refine .inr ⟨h, ?_⟩
    have := Nat.xor_one_of_odd (Nat.odd_iff.mpr h)
    omega

/-! ## Parents of a pair -/

/-- The hashes of a pair, left one first, are the same from both of its members. -/
theorem pairHashes_comm {base sibling : Leaf} (h : sibling.offset = pairOffset base.offset) :
    base.pairHashes base.offset sibling = sibling.pairHashes sibling.offset base := by
  have hbase := mod_two_eq_zero_iff base.offset
  have hsibling := mod_two_eq_zero_iff sibling.offset
  have hcases := pairOffset_cases base.offset
  rw [← h] at hcases
  unfold pairHashes
  rcases hcases with ⟨hb, hs⟩ | ⟨hb, hs⟩
  · have hs : ¬sibling.offset.toNat % 2 = 0 := by omega
    simp [hbase.mpr hb, mt hsibling.mp hs]
  · have hb : ¬base.offset.toNat % 2 = 0 := by omega
    have hs : sibling.offset.toNat % 2 = 0 := by omega
    simp [mt hbase.mp hb, hsibling.mpr hs]

/-- The parent of a pair is the same from both of its members. -/
theorem parent_comm {base sibling : Leaf} (h : sibling.offset = pairOffset base.offset) :
    base.parent sibling = sibling.parent base := by
  unfold Leaf.parent
  simp [pairHashes_comm h, h]

end Leaf

namespace MerkleProof

variable {proof : MerkleProof} {height : Nat} {offset : UInt64} {leaf other node : Leaf}

/-! ## Climbs from a pair -/

/-- A climb of one level finds both members of the pair. -/
theorem climb_eq_ok_iff : proof.climb offset height = .ok node ↔ ∃ base sibling,
    proof.node height offset = .ok base ∧
      proof.node height (Leaf.pairOffset offset) = .ok sibling ∧ node = base.parent sibling := by
  rw [climb_eq]
  cases hb : proof.node height offset with
  | error e => simp
  | ok base => simp [above_eq_ok_iff, offset_of_node hb]

theorem climb_pairOffset (h : proof.climb offset height = .ok node) :
    proof.climb (Leaf.pairOffset offset) height = .ok node := by
  obtain ⟨base, sibling, hb, hs, rfl⟩ := climb_eq_ok_iff.mp h
  refine climb_eq_ok_iff.mpr ⟨sibling, base, hs, ?_, ?_⟩
  · rwa [Leaf.pairOffset_pairOffset]
  · apply Leaf.parent_comm
    rw [offset_of_node hs, offset_of_node hb]

/-- Climbs from two nodes that are paired at the transactions' level meet at the next level and stay
together. -/
theorem reach_pair (hl : proof.node 0 leaf.offset = .ok leaf)
    (ho : proof.node 0 (Leaf.pairOffset leaf.offset) = .ok other) (height : Nat) :
    proof.reach leaf (height + 1) = proof.reach other (height + 1) := by
  induction height with
  | zero =>
    have hoffset : other.offset = Leaf.pairOffset leaf.offset := offset_of_node ho
    have hback : proof.node 0 (Leaf.pairOffset other.offset) = .ok leaf := by
      simpa [hoffset] using hl
    have hleaf : proof.reach leaf 1 = .ok (leaf.parent other) :=
      reach_succ_eq_ok_iff.mpr ⟨leaf, other, rfl, ho, rfl⟩
    have hother : proof.reach other 1 = .ok (other.parent leaf) :=
      reach_succ_eq_ok_iff.mpr ⟨other, leaf, rfl, hback, rfl⟩
    rw [hleaf, hother, Leaf.parent_comm hoffset]
  | succ height ih =>
    rw [reach, ih]
    rfl

/-- Two transactions that are paired lead to the same root or fail in the same way. -/
theorem rootFrom_pair (hl : Leaf.find? leaf.offset proof.bottom = some leaf)
    (ho : Leaf.find? (Leaf.pairOffset leaf.offset) proof.bottom = some other) :
    proof.rootFrom leaf = proof.rootFrom other := by
  have hlevels : 0 < proof.treeHeight := by
    cases h : proof.levels with
    | nil => simp [bottom, leaves, h, Leaf.find?] at hl
    | cons level rest => simp [treeHeight, h]
  obtain ⟨height, hheight⟩ := Nat.exists_eq_succ_of_ne_zero (Nat.ne_of_gt hlevels)
  rw [rootFrom_eq, rootFrom_eq, hheight,
    reach_pair (node_zero_of_find? hl) (node_zero_of_find? ho)]

/-- **Both members of a pair climb to the same place**: one level up to the same node, and, as the
first transactions listed at their offsets, to the same root or the same error. -/
theorem climb_pair (proof : MerkleProof) :
    (∀ (height : Nat) (offset : UInt64) (node : Leaf),
      (proof.climb offset height = .ok node ↔
        proof.climb (Leaf.pairOffset offset) height = .ok node) ∧
      (proof.climb offset height = .ok node → node.offset = offset / 2)) ∧
    (∀ leaf other : Leaf, Leaf.find? leaf.offset proof.bottom = some leaf →
      Leaf.find? (Leaf.pairOffset leaf.offset) proof.bottom = some other →
      proof.rootFrom leaf = proof.rootFrom other) := by
  refine ⟨fun height offset node => ⟨⟨climb_pairOffset, ?_⟩, ?_⟩, ?_⟩
  · intro h
    have hback := climb_pairOffset h
    rwa [Leaf.pairOffset_pairOffset] at hback
  · intro h
    obtain ⟨base, sibling, hb, -, rfl⟩ := climb_eq_ok_iff.mp h
    show base.offset / 2 = offset / 2
    rw [offset_of_node hb]
  · intro leaf other hl ho
    exact rootFrom_pair hl ho

end MerkleProof

/-- The last of three transactions is paired with a copy of itself, which leads to the same root. -/
theorem Merkle.climb_pair_three :
    Leaf.find? 2 threeProof.bottom = some (.ofTxid 2 Transaction.empty.txid) ∧
      Leaf.find? (Leaf.pairOffset 2) threeProof.bottom = some (.duplicate 3) ∧
      threeProof.rootFrom (.duplicate 3) = .ok threeAnchor.merkleRoot ∧
      ∃ node, threeProof.climb 2 0 = .ok node ∧ threeProof.climb (Leaf.pairOffset 2) 0 = .ok node ∧
        node.offset = 1 := by
  obtain ⟨hstep, hroot⟩ := MerkleProof.climb_pair threeProof
  have hleaf : Leaf.find? 2 threeProof.bottom = some (.ofTxid 2 Transaction.empty.txid) := rfl
  have hcopy : Leaf.find? (Leaf.pairOffset 2) threeProof.bottom = some (.duplicate 3) := rfl
  refine ⟨hleaf, hcopy, ?_, ?_⟩
  · rw [← hroot (.ofTxid 2 Transaction.empty.txid) _ hleaf hcopy]
    exact rootFrom_threeProof
  · obtain ⟨node, hnode⟩ : ∃ node, threeProof.climb 2 0 = .ok node := by
      rw [MerkleProof.climb_eq]
      exact ⟨_, rfl⟩
    obtain ⟨hpair, hoffset⟩ := hstep 0 2 node
    exact ⟨node, hnode, hpair.mp hnode, hoffset hnode⟩

end SpvEnvelope
