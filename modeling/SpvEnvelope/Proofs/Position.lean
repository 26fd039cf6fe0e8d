import SpvEnvelope.Proofs.Gaps
import SpvEnvelope.Proofs.Pairs

/-!
# Where in its block an anchor says that its transaction is

A climb halves its offset on each level and takes the side of each pair from the last bit. A proof of
`treeHeight` levels thus looks at that many bits of the offset that it starts from. What they leave is
the offset that the climb ends at, which is 0 exactly if the offset is one of the `2 ^ treeHeight`
positions of the tree. Neither a proof nor an audit is checked for this.

So a root vouches for a position modulo `2 ^ treeHeight` (`Envelope.position_of_anchor`), and for no
more of it: the nodes of a proof can be moved on by any number of trees, which changes the offset of
each anchor and not its root (`Record.anchor_moved`).
-/

namespace SpvEnvelope

/-! ## Where a climb ends -/

namespace MerkleProof

variable {proof : MerkleProof} {leaf node : Leaf} {height : Nat}

/-- The bits of an offset that a climb does not look at are the offset that it ends at. -/
theorem offset_eq_div_of_reach (h : proof.reach leaf height = .ok node) :
    node.offset.toNat = leaf.offset.toNat / 2 ^ height := by
  rw [offset_of_reach h, Nat.shiftRight_eq_div_pow]

/-- A climb ends at the only node of a tree exactly if it started at a position of the tree. -/
theorem offset_eq_zero_iff_of_reach (h : proof.reach leaf height = .ok node) :
    node.offset = 0 ↔ leaf.offset.toNat < 2 ^ height := by
  rw [← UInt64.toNat_inj, offset_eq_div_of_reach h, UInt64.toNat_zero, Nat.div_eq_zero_iff_lt]
  exact Nat.two_pow_pos height

end MerkleProof

/-! ## Nodes moved on -/

namespace Leaf

/-- The leaf a number of places further on. -/
def moved (leaf : Leaf) (places : UInt64) : Leaf :=
  { leaf with offset := leaf.offset + places }

variable {base sibling : Leaf} {offset places : UInt64}

theorem toNat_add_two_mul (h : offset.toNat + 2 * places.toNat < 2 ^ 64) :
    (offset + 2 * places).toNat = offset.toNat + 2 * places.toNat := by
  have htwice : (2 * places).toNat = 2 * places.toNat := by
    rw [UInt64.toNat_mul]
    exact Nat.mod_eq_of_lt (show 2 * places.toNat < 2 ^ 64 by omega)
  rw [UInt64.toNat_add, htwice, Nat.mod_eq_of_lt h]

/-- A pair that is moved on by whole pairs stays a pair. -/
theorem pairOffset_add (h : offset.toNat + 2 * places.toNat < 2 ^ 64) :
    pairOffset (offset + 2 * places) = pairOffset offset + 2 * places := by
  have hsum := toNat_add_two_mul h
  have hcases := pairOffset_cases offset
  have hcases' := pairOffset_cases (offset + 2 * places)
  have hpair : (pairOffset offset + 2 * places).toNat =
      (pairOffset offset).toNat + 2 * places.toNat := toNat_add_two_mul (by omega)
  rw [← UInt64.toNat_inj]
  omega

/-- The node above a pair moves by half as much. -/
theorem parent_moved (h : base.offset.toNat + 2 * places.toNat < 2 ^ 64) :
    (base.moved (2 * places)).parent (sibling.moved (2 * places)) =
      (base.parent sibling).moved places := by
  have hsum := toNat_add_two_mul h
  have hparity : (base.offset + 2 * places) % 2 = 0 ↔ base.offset % 2 = 0 := by
    rw [mod_two_eq_zero_iff, mod_two_eq_zero_iff, hsum]
    omega
  have hhalf : (base.offset + 2 * places) / 2 = base.offset / 2 + places := by
    have hlt := base.offset.toNat_lt
    rw [← UInt64.toNat_inj, UInt64.toNat_add, UInt64.toNat_div, UInt64.toNat_div, hsum]
    show (base.offset.toNat + 2 * places.toNat) / 2 =
      (base.offset.toNat / 2 + places.toNat) % 2 ^ 64
    omega
  simp only [parent, moved, pairHashes, hparity, hhalf]
  rfl

end Leaf

namespace MerkleProof

/-- How many nodes of level `height` there are in a number of trees side by side. -/
def width (proof : MerkleProof) (trees height : Nat) : UInt64 :=
  .ofNat (trees * 2 ^ (proof.treeHeight - height))

/-- The proof with its nodes moved on past a number of trees as high as its own. -/
def moved (proof : MerkleProof) (trees : Nat) : MerkleProof where
  blockHeight := proof.blockHeight
  levels := proof.levels.mapIdx fun height level =>
    level.map fun leaf => ⟨leaf.val.moved (proof.width trees height), leaf.property⟩
  length_levels := by
    rw [List.length_mapIdx]
    exact proof.length_levels

/-- The listed nodes are at positions of the tree, and there are offsets for the trees before it. -/
structure Movable (proof : MerkleProof) (trees : Nat) : Prop where
  lt : ∀ height offset, proof.Lists height offset → offset < 2 ^ (proof.treeHeight - height)
  le : (trees + 1) * 2 ^ proof.treeHeight ≤ 2 ^ 64

variable {proof : MerkleProof} {leaf node : Leaf} {root : Digest} {trees height : Nat}
  {offset : UInt64}

@[simp] theorem treeHeight_moved (proof : MerkleProof) (trees : Nat) :
    (proof.moved trees).treeHeight = proof.treeHeight := List.length_mapIdx

@[simp] theorem getElem?_leaves_moved (proof : MerkleProof) (trees height : Nat) :
    (proof.moved trees).leaves[height]? =
      proof.leaves[height]?.map (List.map (Leaf.moved · (proof.width trees height))) := by
  unfold leaves moved
  rw [List.getElem?_map, List.getElem?_mapIdx, List.getElem?_map, Option.map_map, Option.map_map]
  refine congrArg (Option.map · _) (funext fun level => ?_)
  simp only [Function.comp_apply, List.map_map]
  rfl

theorem listed?_moved {leaf? : Option Leaf} (h : proof.listed? height offset = .ok leaf?) :
    (proof.moved trees).listed? height (offset + proof.width trees height) =
      .ok (leaf?.map (Leaf.moved · (proof.width trees height))) := by
  have hoffset (leaf : Leaf) : ((leaf.moved (proof.width trees height)).offset ==
      offset + proof.width trees height) = (leaf.offset == offset) := by
    simp [Leaf.moved]
  unfold listed? at h ⊢
  rw [getElem?_leaves_moved]
  cases hl : proof.leaves[height]? with
  | none =>
    rw [hl] at h
    cases h
  | some level =>
    rw [hl] at h
    cases h
    simp only [Option.map_some, Leaf.find?, List.find?_map, Function.comp_def, hoffset]

theorem findTxid?_moved {txid : Digest} (h : proof.findTxid? txid = some leaf) :
    (proof.moved trees).findTxid? txid = some (leaf.moved (proof.width trees 0)) := by
  have hleaf (leaf : Leaf) : (!(leaf.moved (proof.width trees 0)).isDuplicate &&
      (leaf.moved (proof.width trees 0)).hash == some txid) =
        (!leaf.isDuplicate && leaf.hash == some txid) := rfl
  rw [findTxid?, bottom_eq] at h ⊢
  rw [getElem?_leaves_moved]
  cases hl : proof.leaves[0]? with
  | none =>
    rw [hl] at h
    cases h
  | some level =>
    rw [hl, Option.getD_some] at h
    simp only [Option.map_some, Option.getD_some, List.find?_map, Function.comp_def, hleaf, h]

theorem lists_of_findTxid? {txid : Digest} (h : proof.findTxid? txid = some leaf) :
    proof.Lists 0 leaf.offset.toNat := by
  have hm : leaf ∈ proof.bottom := List.mem_of_find?_eq_some h
  rw [bottom_eq] at hm
  cases hl : proof.leaves[0]? with
  | none =>
    rw [hl] at hm
    cases hm
  | some level =>
    rw [hl] at hm
    exact ⟨level, hl, leaf, hm, rfl⟩

/-- A level has twice as many positions as the one above. -/
theorem two_pow_sub_eq (h : height < proof.treeHeight) :
    2 ^ (proof.treeHeight - height) = 2 * 2 ^ (proof.treeHeight - (height + 1)) := by
  rw [← Nat.pow_succ']
  congr 1
  omega

namespace Movable

theorem toNat_width (h : proof.Movable trees) (height : Nat) :
    (proof.width trees height).toNat = trees * 2 ^ (proof.treeHeight - height) ∧
      (trees + 1) * 2 ^ (proof.treeHeight - height) ≤ 2 ^ 64 := by
  have hpow : 2 ^ (proof.treeHeight - height) ≤ 2 ^ proof.treeHeight :=
    Nat.pow_le_pow_right (by decide) (Nat.sub_le _ _)
  have hle := (Nat.mul_le_mul_left (trees + 1) hpow).trans h.le
  have hpos := Nat.two_pow_pos (proof.treeHeight - height)
  have hlt : trees * 2 ^ (proof.treeHeight - height) < 2 ^ 64 := by
    rw [Nat.add_mul, Nat.one_mul] at hle
    omega
  exact ⟨UInt64.toNat_ofNat_of_lt' hlt, hle⟩

/-- A position of the tree can be moved on. -/
theorem add_width_lt (h : proof.Movable trees)
    (ho : offset.toNat < 2 ^ (proof.treeHeight - height)) :
    offset.toNat + (proof.width trees height).toNat < 2 ^ 64 := by
  obtain ⟨hwidth, hfits⟩ := h.toNat_width height
  rw [Nat.add_mul, Nat.one_mul] at hfits
  omega

/-- There are twice as many nodes on the level below. -/
theorem width_eq_two_mul (h : proof.Movable trees) (hlt : height < proof.treeHeight) :
    proof.width trees height = 2 * proof.width trees (height + 1) ∧
      (proof.width trees height).toNat = 2 * (proof.width trees (height + 1)).toNat := by
  have hpow : trees * 2 ^ (proof.treeHeight - height) =
      2 * (trees * 2 ^ (proof.treeHeight - (height + 1))) := by
    rw [two_pow_sub_eq hlt, Nat.mul_left_comm]
  constructor
  · rw [width, hpow, UInt64.ofNat_mul]
    rfl
  · rw [(h.toNat_width height).1, (h.toNat_width (height + 1)).1, hpow]

/-- What a proof knows in its tree, it knows of the nodes moved on. -/
theorem node_moved (h : proof.Movable trees)
    (ho : offset.toNat < 2 ^ (proof.treeHeight - height))
    (hn : proof.node height offset = .ok node) :
    (proof.moved trees).node height (offset + proof.width trees height) =
      .ok (node.moved (proof.width trees height)) := by
  induction height generalizing offset node with
  | zero =>
    rcases node_eq_ok_iff.mp hn with hl | ⟨below, left, right, hzero, -⟩
    · exact node_eq_ok_iff.mpr (.inl (listed?_moved hl))
    · cases hzero
  | succ below ih =>
    rcases node_eq_ok_iff.mp hn with hl | ⟨below, left, right, hsucc, hl, hhalf, hleft, hright, rfl⟩
    · exact node_eq_ok_iff.mpr (.inl (listed?_moved hl))
    · cases hsucc
      have hlt := Nat.lt_of_succ_lt (lt_treeHeight_of_omitted hl)
      obtain ⟨hwidth, hwidthNat⟩ := h.width_eq_two_mul hlt
      have hpow := two_pow_sub_eq hlt
      have hdouble := toNat_double hhalf
      have hdouble' := toNat_double_add_one hhalf
      have hleft' := ih (by omega) hleft
      have hright' := ih (by omega) hright
      have hsum : (2 * offset).toNat + 2 * (proof.width trees (below + 1)).toNat < 2 ^ 64 := by
        rw [← hwidthNat]
        exact h.add_width_lt (by omega)
      rw [hwidth, ← UInt64.mul_add] at hleft'
      rw [hwidth, UInt64.add_assoc, UInt64.add_comm 1, ← UInt64.add_assoc, ← UInt64.mul_add]
        at hright'
      refine node_eq_ok_iff.mpr
        (.inr ⟨below, _, _, rfl, listed?_moved hl, ?_, hleft', hright', ?_⟩)
      · rw [lt_halfRange_iff, UInt64.toNat_add]
        omega
      · exact (Leaf.parent_moved (by rwa [offset_of_node hleft])).symm

/-- A climb from a position of the tree has a climb beside it from where that is moved to. -/
theorem reach_moved (h : proof.Movable trees) (ho : leaf.offset.toNat < 2 ^ proof.treeHeight)
    (hle : height ≤ proof.treeHeight) (hr : proof.reach leaf height = .ok node) :
    (proof.moved trees).reach (leaf.moved (proof.width trees 0)) height =
      .ok (node.moved (proof.width trees height)) := by
  induction height generalizing node with
  | zero =>
    cases hr
    rfl
  | succ height ih =>
    obtain ⟨base, sibling, hb, hs, rfl⟩ := reach_succ_eq_ok_iff.mp hr
    obtain ⟨hwidth, hwidthNat⟩ := h.width_eq_two_mul hle
    have hbase : base.offset.toNat < 2 ^ (proof.treeHeight - height) := by
      rw [offset_eq_div_of_reach hb, Nat.div_lt_iff_lt_mul (Nat.two_pow_pos _), ← Nat.pow_add,
        Nat.sub_add_cancel (by omega)]
      exact ho
    have hsibling : (Leaf.pairOffset base.offset).toNat < 2 ^ (proof.treeHeight - height) := by
      have hpow := two_pow_sub_eq hle
      have hcases := Leaf.pairOffset_cases base.offset
      omega
    have hsum : base.offset.toNat + 2 * (proof.width trees (height + 1)).toNat < 2 ^ 64 := by
      rw [← hwidthNat]
      exact h.add_width_lt hbase
    have hb' := ih (by omega) hb
    have hs' := h.node_moved hsibling hs
    rw [hwidth, ← Leaf.pairOffset_add hsum] at hs'
    rw [hwidth] at hb'
    exact reach_succ_eq_ok_iff.mpr ⟨_, _, hb', hs', (Leaf.parent_moved hsum).symm⟩

/-- Climbs from the leaves that are moved on end at the same root. -/
theorem rootFrom_moved (h : proof.Movable trees) (ho : leaf.offset.toNat < 2 ^ proof.treeHeight)
    (hr : proof.rootFrom leaf = .ok root) :
    (proof.moved trees).rootFrom (leaf.moved (proof.width trees 0)) = .ok root ∧
      (leaf.moved (proof.width trees 0)).offset.toNat =
        leaf.offset.toNat + trees * 2 ^ proof.treeHeight := by
  obtain ⟨top, htop, hroot⟩ := rootFrom_eq_ok_iff.mp hr
  constructor
  · refine rootFrom_eq_ok_iff.mpr ⟨top.moved (proof.width trees proof.treeHeight), ?_, hroot⟩
    simpa using h.reach_moved ho (Nat.le_refl _) htop
  · have hlt : leaf.offset.toNat + (proof.width trees 0).toNat < 2 ^ 64 := h.add_width_lt ho
    rw [Leaf.moved, UInt64.toNat_add, Nat.mod_eq_of_lt hlt, (h.toNat_width 0).1, Nat.sub_zero]

end Movable

end MerkleProof

/-! ## Anchors -/

/-- **A root does not tell trees side by side apart.** Where a proof is moved on, so are its anchors,
and they have the same root. -/
theorem Record.anchor_moved {record : Record} {index : UInt64} {proofs : List MerkleProof}
    {proof : MerkleProof} {anchor : Anchor} {trees : Nat} (hm : proof.Movable trees)
    (hp : proofs[index.toNat]? = some proof) (ha : record.anchor index proofs = .ok anchor) :
    record.anchor index (proofs.set index.toNat (proof.moved trees)) =
        .ok { anchor with offset := anchor.offset + proof.width trees 0 } ∧
      (anchor.offset + proof.width trees 0).toNat =
        anchor.offset.toNat + trees * 2 ^ proof.treeHeight := by
  obtain ⟨found, leaf, root, hfound, hleaf, hr, rfl⟩ := anchor_eq_ok_iff.mp ha
  cases hp.symm.trans hfound
  have ho := hm.lt 0 _ (MerkleProof.lists_of_findTxid? hleaf)
  obtain ⟨hr', hoffset⟩ := hm.rootFrom_moved ho hr
  refine ⟨anchor_eq_ok_iff.mpr ⟨proof.moved trees, leaf.moved (proof.width trees 0), root, ?_,
    MerkleProof.findTxid?_moved hleaf, hr', rfl⟩, hoffset⟩
  rw [List.getElem?_set_self (List.getElem?_eq_some_iff.mp hp).1]

/-- **An anchor's offset is a position of the tree exactly if its climb ended at node 0.** The climb
ends at what is left of the offset above the levels of the proof, and at the anchor's root in any case.
In a block with this root, whose tree is as high as the proof, the transaction stands at the offset's
remainder, or else the climb shows a collision. -/
theorem Envelope.position_of_anchor {envelope : Envelope} {verify : ScriptVerifier} {config : Config}
    {certification : Certification} {anchor : Anchor}
    (h : envelope.certify verify config = .ok certification) (ha : anchor ∈ certification.anchors) :
    ∃ proof leaf top,
      envelope.proofs[anchor.proofIndex.toNat]? = some proof ∧
      proof.findTxid? anchor.txid = some leaf ∧ leaf.offset = anchor.offset ∧
      proof.reach leaf proof.treeHeight = .ok top ∧ top.hash = some anchor.merkleRoot ∧
      top.offset.toNat = anchor.offset.toNat / 2 ^ proof.treeHeight ∧
      (top.offset = 0 ↔ anchor.offset.toNat < 2 ^ proof.treeHeight) ∧
      ∀ txids : List Digest, txids ≠ [] → proof.treeHeight = Merkle.height txids →
        anchor.merkleRoot = Merkle.root txids →
        (anchor.txid ∈ txids ∧
          (anchor.offset.toNat % 2 ^ proof.treeHeight < txids.length →
            txids[anchor.offset.toNat % 2 ^ proof.treeHeight]? = some anchor.txid)) ∨
        proof.CollidesWith leaf txids := by
  obtain ⟨proof, leaf, hproof, hleaf, hoffset, -, hr⟩ := climb_of_anchor h ha
  have hcarries := MerkleProof.carries_of_findTxid? hleaf
  obtain ⟨top, htop, ht⟩ := MerkleProof.carries_of_rootFrom hcarries hr
  have hdiv := MerkleProof.offset_eq_div_of_reach htop
  have hzero := MerkleProof.offset_eq_zero_iff_of_reach htop
  rw [hoffset] at hdiv hzero
  refine ⟨proof, leaf, top, hproof, hleaf, hoffset, htop, ht.hash, hdiv, hzero,
    fun txids hne hh hroot => ?_⟩
  rw [hroot] at hr
  have hmod : anchor.offset.toNat % 2 ^ proof.treeHeight % 2 ^ proof.treeHeight =
      leaf.offset.toNat % 2 ^ proof.treeHeight := by
    rw [Nat.mod_mod, hoffset]
  rcases MerkleProof.stands_of_rootFrom_of_mod hne hh hmod hcarries hr with hs | hc
  · exact .inl ⟨hs.mem, hs.getElem?⟩
  · exact .inr hc

/-! ## A position beyond the tree -/

/-- `threeProof` with its offsets moved on by the width of its tree. -/
def Merkle.movedProof : MerkleProof where
  blockHeight := 7
  levels :=
    [[.ofTxid 6 Transaction.empty.txid, .duplicate 7], [.ofHash 2 (parent .zero (.double []))]]
  length_levels := by decide

theorem Merkle.movable_threeProof : threeProof.Movable 1 where
  lt := by
    rintro height _ ⟨level, hl, leaf, hm, rfl⟩
    match height with
    | 0 =>
      cases hl
      rcases List.mem_cons.mp hm with rfl | hm
      · decide
      · cases List.mem_singleton.mp hm
        decide
    | 1 =>
      cases hl
      cases List.mem_singleton.mp hm
      decide
    | height + 2 => cases hl
  le := by decide

/-- `threeEnvelope` with this proof. -/
def Merkle.movedEnvelope : Envelope :=
  { threeEnvelope with proofs := [movedProof] }

/-- The anchor of the target. -/
def Merkle.movedAnchor : Anchor :=
  { threeAnchor with offset := 6 }

theorem Merkle.certify_movedEnvelope (verify : ScriptVerifier) (config : Config) :
    movedEnvelope.certify verify config =
      .ok ⟨movedAnchor.txid, [movedAnchor.txid], [movedAnchor]⟩ :=
  Envelope.certify_of_anchor rfl rfl
    (Record.anchor_moved movable_threeProof rfl anchor_threeTarget).1

/-- The last of three transactions is certified to stand at position 6, which is 2 modulo 4. -/
theorem Merkle.position_of_anchor_moved :
    movedEnvelope.certify (fun _ => .ok ()) {} =
        .ok ⟨movedAnchor.txid, [movedAnchor.txid], [movedAnchor]⟩ ∧
      movedAnchor ∈ [movedAnchor] ∧
      ∃ leaf top,
        movedProof.reach leaf movedProof.treeHeight = .ok top ∧
        top.hash = some (root threeTxids) ∧ top.offset.toNat = 1 ∧
        ((movedAnchor.txid ∈ threeTxids ∧
          (2 < threeTxids.length → threeTxids[2]? = some movedAnchor.txid)) ∨
          movedProof.CollidesWith leaf threeTxids) := by
  have hcertify := certify_movedEnvelope (fun _ => .ok ()) {}
  have hmem : movedAnchor ∈ [movedAnchor] := List.mem_singleton_self _
  obtain ⟨proof, leaf, top, hproof, -, -, htop, hhash, hdiv, -, hblock⟩ :=
    Envelope.position_of_anchor hcertify hmem
  cases hproof
  have hroot : movedAnchor.merkleRoot = root threeTxids := root_threeTxids.symm
  have hh : movedProof.treeHeight = height threeTxids := height_threeTxids.symm
  rw [hroot] at hhash
  exact ⟨hcertify, hmem, leaf, top, htop, hhash, hdiv,
    hblock threeTxids (by simp [threeTxids]) hh hroot⟩

/-- A tree of two levels has no position 6, and the climb from there ends at node 1. -/
theorem Merkle.anchor_beyond_tree :
    movedEnvelope.certify (fun _ => .ok ()) {} =
        .ok ⟨movedAnchor.txid, [movedAnchor.txid], [movedAnchor]⟩ ∧
      movedEnvelope.proofs[movedAnchor.proofIndex.toNat]? = some movedProof ∧
      ¬movedAnchor.offset.toNat < 2 ^ movedProof.treeHeight ∧
      movedProof.reach (.ofTxid 6 Transaction.empty.txid) movedProof.treeHeight =
        .ok (.ofHash 1 (root threeTxids)) := by
  refine ⟨certify_movedEnvelope _ _, rfl, by decide, ?_⟩
  rw [root_threeTxids]
  rfl

end SpvEnvelope
