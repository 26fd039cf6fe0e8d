import SpvEnvelope.Proofs.Gaps
import SpvEnvelope.Proofs.Inclusion

/-!
# Compound proofs of a block

A proof describes a block (`MerkleProof.Describes`) if it is as high as the block's tree and lists
nothing but nodes of the tree and copies of odd last nodes. Whatever it leaves out, the nodes that it
knows are then such nodes and copies too (`Describes.fits_of_node`): the parent of two nodes that fit
their level fits the level above, and no copy is ever the left node of a pair. So a climb that is not
stopped by a missing node ends at the block's root (`Describes.rootFrom_eq_root`), and targets never
disagree.
-/

namespace SpvEnvelope

/-! ## Nodes of a level -/

namespace Leaf

/-- A leaf with a hash carries the node of `level` at its offset, and a duplicate copies a last node
without a neighbour. -/
structure Fits (leaf : Leaf) (level : List Digest) : Prop where
  node : leaf.isDuplicate = false →
    ∃ hash, leaf.hash = some hash ∧ level[leaf.offset.toNat]? = some hash
  copy : leaf.isDuplicate = true → leaf.offset.toNat = level.length ∧ level.length % 2 = 1

/-- The parent of a node with a hash and of one that has, or copies, the hash `other`. -/
theorem Carries.parent_eq {base sibling : Leaf} {hash other : Digest} (hb : base.Carries hash)
    (hs : (if sibling.isDuplicate then some hash else sibling.hash) = some other) :
    base.parent sibling = .ofHash (base.offset / 2)
      (if base.offset.toNat % 2 = 0 then Merkle.parent hash other else Merkle.parent other hash) := by
  have hpar := mod_two_eq_zero_iff base.offset
  have hd := hb.isDuplicate
  have hh := hb.hash
  unfold Leaf.parent Leaf.pairHashes
  by_cases hp : base.offset.toNat % 2 = 0
  · simp [hp, hpar.mpr hp, hd, hh, hs]
  · simp [hp, mt hpar.mp hp, hd, hh, hs]

/-- The parent of a pair that fits a level fits the level above. -/
theorem Fits.parent {base sibling : Leaf} {level : List Digest} (hb : base.Fits level)
    (hd : base.isDuplicate = false) (hs : sibling.Fits level)
    (ho : sibling.offset.toNat = base.offset.toNat ^^^ 1) :
    (base.parent sibling).Fits (Merkle.levelAbove level) := by
  obtain ⟨hash, hh, hi⟩ := hb.node hd
  have hlt := (List.getElem?_eq_some_iff.mp hi).1
  have hcarries : base.Carries hash := ⟨hd, hh⟩
  have hhalf : (base.offset / 2).toNat = base.offset.toNat / 2 := UInt64.toNat_div _ _
  rcases Nat.mod_two_eq_zero_or_one base.offset.toNat with hpar | hpar
  · -- on the left: the right node is the next one of the level, or a copy if there is none
    rw [Nat.xor_one_of_even (Nat.even_iff.mpr hpar)] at ho
    obtain ⟨other, hother, hnext⟩ : ∃ other,
        (if sibling.isDuplicate then some hash else sibling.hash) = some other ∧
          level[base.offset.toNat + 1]?.getD hash = other := by
      cases hc : sibling.isDuplicate with
      | true =>
        refine ⟨hash, rfl, ?_⟩
        rw [← ho, (hs.copy hc).1, List.getElem?_eq_none (Nat.le_refl _), Option.getD_none]
      | false =>
        obtain ⟨other, hsh, hsi⟩ := hs.node hc
        refine ⟨other, hsh, ?_⟩
        rw [← ho, hsi, Option.getD_some]
    rw [hcarries.parent_eq hother, if_pos hpar]
    refine ⟨fun _ => ⟨_, rfl, ?_⟩, fun h => by cases h⟩
    rw [ofHash, hhalf, Merkle.getElem?_levelAbove,
      show 2 * (base.offset.toNat / 2) = base.offset.toNat by omega, hi, Option.map_some, hnext]
  · -- on the right: the left node is in the level, so it is no copy
    rw [Nat.xor_one_of_odd (Nat.odd_iff.mpr hpar)] at ho
    have hc : sibling.isDuplicate = false := by
      cases hc : sibling.isDuplicate with
      | false => rfl
      | true =>
        have := (hs.copy hc).1
        omega
    obtain ⟨other, hsh, hsi⟩ := hs.node hc
    have hother : (if sibling.isDuplicate then some hash else sibling.hash) = some other := by
      rw [hc]
      exact hsh
    rw [hcarries.parent_eq hother, if_neg (by omega)]
    refine ⟨fun _ => ⟨_, rfl, ?_⟩, fun h => by cases h⟩
    rw [ofHash, hhalf, Merkle.getElem?_levelAbove,
      show 2 * (base.offset.toNat / 2) = sibling.offset.toNat by omega, hsi, Option.map_some,
      show sibling.offset.toNat + 1 = base.offset.toNat by omega, hi, Option.getD_some]

end Leaf

namespace MerkleProof

variable {proof : MerkleProof} {txids : List Digest} {leaf node : Leaf} {height : Nat}
  {offset : UInt64} {root : Digest}

/-- The proof is as high as the tree of a block and lists only nodes that fit the tree. -/
structure Describes (proof : MerkleProof) (txids : List Digest) : Prop where
  treeHeight : proof.treeHeight = Merkle.height txids
  fits : ∀ (height : Nat) (level : List Leaf), proof.leaves[height]? = some level →
    ∀ leaf ∈ level, leaf.Fits (Merkle.level txids height)

namespace Describes

/-! ## Nodes of the block's tree -/

/-- Every node that is found fits its level, listed or derived. -/
theorem fits_of_node (h : proof.Describes txids) (hn : proof.node height offset = .ok node) :
    node.Fits (Merkle.level txids height) := by
  refine node_induction (motive := fun height _ node => node.Fits (Merkle.level txids height))
    (fun height level leaf hl hm => h.fits height level hl leaf hm)
    (fun below offset left right hlt hleft hright hl hr => ?_) hn
  have hlo : left.offset.toNat = 2 * offset.toNat := by
    rw [offset_of_node hleft, toNat_double hlt]
  have hro : right.offset.toNat = 2 * offset.toNat + 1 := by
    rw [offset_of_node hright, toNat_double_add_one hlt]
  refine hl.parent ?_ hr ?_
  · cases hd : left.isDuplicate with
    | false => rfl
    | true =>
      have := hl.copy hd
      omega
  · rw [hlo, hro, Nat.xor_one_of_even (even_two_mul _)]

/-- A climb that starts at a transaction stays in the block's tree. -/
theorem fits_of_reach (h : proof.Describes txids) (hl : leaf.Fits txids)
    (hd : leaf.isDuplicate = false) (hr : proof.reach leaf height = .ok node) :
    node.Fits (Merkle.level txids height) ∧ node.isDuplicate = false := by
  induction height generalizing node with
  | zero =>
    cases hr
    exact ⟨hl, hd⟩
  | succ height ih =>
    obtain ⟨base, sibling, hb, hs, rfl⟩ := reach_succ_eq_ok_iff.mp hr
    obtain ⟨hfits, hbase⟩ := ih hb
    refine ⟨hfits.parent hbase (h.fits_of_node hs) ?_, rfl⟩
    simp [offset_of_node hs]

theorem fits_of_mem_bottom (h : proof.Describes txids) (hm : leaf ∈ proof.bottom) :
    leaf.Fits txids := by
  unfold bottom at hm
  cases hl : proof.leaves with
  | nil =>
    rw [hl] at hm
    cases hm
  | cons level rest =>
    rw [hl] at hm
    exact h.fits 0 level (by rw [hl]; rfl) leaf hm

/-! ## Roots -/

/-- A climb from a transaction ends at no root but the block's. -/
theorem rootFrom_eq_root (h : proof.Describes txids) (hm : leaf ∈ proof.bottom)
    (hd : leaf.isDuplicate = false) (hr : proof.rootFrom leaf = .ok root) :
    root = Merkle.root txids := by
  have hfits := h.fits_of_mem_bottom hm
  have hne : txids ≠ [] := by
    rintro rfl
    obtain ⟨_, -, hi⟩ := hfits.node hd
    cases hi
  obtain ⟨top, htop, rfl⟩ := rootFrom_eq_ok_iff.mp hr
  obtain ⟨hft, hdt⟩ := h.fits_of_reach hfits hd htop
  obtain ⟨hash, hhash, hi⟩ := hft.node hdt
  rw [h.treeHeight, Merkle.level_height txids hne] at hi
  obtain ⟨hlt, rfl⟩ := List.getElem?_eq_some_iff.mp hi
  rw [hhash, Option.getD_some, List.getElem_singleton]

/-- A climb from a transaction succeeds exactly if the nodes it is paired with are available. -/
theorem rootFrom_cases (h : proof.Describes txids) (hm : leaf ∈ proof.bottom)
    (hd : leaf.isDuplicate = false) :
    (proof.CanClimb leaf proof.treeHeight ∧ proof.rootFrom leaf = .ok (Merkle.root txids)) ∨
      (¬proof.CanClimb leaf proof.treeHeight ∧
        ∃ level offset, proof.rootFrom leaf = .error (.childNotFound level offset)) := by
  have hclimb : (∃ top, proof.reach leaf proof.treeHeight = .ok top) ↔
      proof.CanClimb leaf proof.treeHeight := reach_isOk_iff (Nat.le_refl _)
  cases hr : proof.reach leaf proof.treeHeight with
  | ok top =>
    have hroot := rootFrom_eq_ok_iff.mpr ⟨top, hr, rfl⟩
    rw [h.rootFrom_eq_root hm hd hroot] at hroot
    exact .inl ⟨hclimb.mp ⟨top, hr⟩, hroot⟩
  | error e =>
    have herror := rootFrom_eq_error_iff.mpr hr
    obtain ⟨place, rfl, -⟩ := lacksTransaction_of_rootFrom herror
    refine .inr ⟨fun hc => ?_, 0, place, herror⟩
    obtain ⟨top, htop⟩ := hclimb.mpr hc
    rw [hr] at htop
    cases htop

end Describes

theorem isWellFormed_of_mem_bottom (hm : leaf ∈ proof.bottom) : leaf.isWellFormed = true := by
  unfold bottom leaves at hm
  cases hl : proof.levels with
  | nil =>
    rw [hl] at hm
    cases hm
  | cons level rest =>
    rw [hl] at hm
    obtain ⟨listed, -, rfl⟩ := List.mem_map.mp hm
    exact listed.property

/-- A target is no duplicate. -/
theorem isDuplicate_of_mem_targets (hm : leaf ∈ proof.targets) :
    leaf ∈ proof.bottom ∧ leaf.isDuplicate = false := by
  obtain ⟨hb, ht⟩ := List.mem_filter.mp hm
  refine ⟨hb, ?_⟩
  have hw := isWellFormed_of_mem_bottom hb
  cases hd : leaf.isDuplicate with
  | false => rfl
  | true =>
    rw [Leaf.isWellFormed, hd, if_pos rfl, ht] at hw
    simp at hw

/-- **Whatever a proof of a block leaves out, it leads to the block's root or to a missing node.** -/
theorem root_of_describes (txids : List Digest) (proof : MerkleProof)
    (h : proof.Describes txids) :
    (∀ leaf ∈ proof.bottom, leaf.isDuplicate = false →
      (proof.CanClimb leaf proof.treeHeight → proof.rootFrom leaf = .ok (Merkle.root txids)) ∧
      (¬proof.CanClimb leaf proof.treeHeight →
        ∃ level offset, proof.rootFrom leaf = .error (.childNotFound level offset))) ∧
    (proof.root? = .ok none ∨ proof.root? = .ok (some (Merkle.root txids)) ∨
      ∃ level offset, proof.root? = .error (.childNotFound level offset)) := by
  constructor
  · intro leaf hm hd
    rcases h.rootFrom_cases hm hd with ⟨hc, hr⟩ | ⟨hc, hr⟩
    · exact ⟨fun _ => hr, fun hn => absurd hc hn⟩
    · exact ⟨fun hc' => absurd hc' hc, fun _ => hr⟩
  · have htarget {target : Leaf} (hm : target ∈ proof.targets) :=
      h.rootFrom_cases (isDuplicate_of_mem_targets hm).1 (isDuplicate_of_mem_targets hm).2
    have hroot {target : Leaf} {root : Digest} (hm : target ∈ proof.targets)
        (hr : proof.rootFrom target = .ok root) : root = Merkle.root txids :=
      h.rootFrom_eq_root (isDuplicate_of_mem_targets hm).1 (isDuplicate_of_mem_targets hm).2 hr
    cases hr : proof.root? with
    | ok root? =>
      cases root? with
      | none => exact .inl rfl
      | some root =>
        obtain ⟨hne, hall⟩ := root?_eq_ok_some_iff.mp hr
        obtain ⟨target, hm⟩ := List.exists_mem_of_ne_nil _ hne
        rw [hroot hm (hall target hm)]
        exact .inr (.inl rfl)
    | error e =>
      refine .inr (.inr ?_)
      obtain ⟨target, hm, he | ⟨other, hm', first, second, hf, hs, hne, -⟩⟩ := root?_eq_error hr
      · rcases htarget hm with ⟨-, hok⟩ | ⟨-, level, offset, hmissing⟩
        · rw [hok] at he
          cases he
        · rw [hmissing] at he
          cases he
          exact ⟨level, offset, rfl⟩
      · rw [hroot hm' hf, hroot hm hs] at hne
        exact absurd rfl hne

end MerkleProof

/-- A proof for the second of three transactions that lists the whole block instead of the node that
its pair is paired with, with or without a copy of the last transaction. -/
def Merkle.compoundProof (copies : List ProofLeaf) : MerkleProof where
  blockHeight := 7
  levels :=
    [[.ofHash 0 .zero, .ofTxid 1 (.double []), .ofHash 2 Transaction.empty.txid] ++ copies, []]
  length_levels := by simp [maxLevels]

theorem Merkle.describes_compoundProof {copies : List ProofLeaf}
    (h : ∀ copy ∈ copies, copy.val = .duplicate 3) :
    (compoundProof copies).Describes threeTxids where
  treeHeight := height_threeTxids.symm
  fits
    | 0, _, rfl, leaf, hm => by
      obtain ⟨listed, hmem, rfl⟩ := List.mem_map.mp hm
      simp only [List.cons_append, List.nil_append, List.mem_cons] at hmem
      rcases hmem with rfl | rfl | rfl | hmem
      · exact ⟨fun _ => ⟨_, rfl, rfl⟩, fun h => by cases h⟩
      · exact ⟨fun _ => ⟨_, rfl, rfl⟩, fun h => by cases h⟩
      · exact ⟨fun _ => ⟨_, rfl, rfl⟩, fun h => by cases h⟩
      · rw [h listed hmem]
        refine ⟨fun h => ?_, fun _ => ⟨rfl, rfl⟩⟩
        cases h
    | 1, _, rfl, _, hm => by cases hm
    | _ + 2, _, h, _, _ => by cases h

theorem Merkle.canClimb_compoundProof :
    (compoundProof [⟨.duplicate 3, rfl⟩]).CanClimb (.ofTxid 1 (.double [])) 2
  | 0, _ => .listed ⟨_, rfl, .ofHash 0 .zero, by simp, rfl⟩
  | 1, _ => .derived (.listed ⟨_, rfl, .ofHash 2 Transaction.empty.txid, by simp, rfl⟩)
      (.listed ⟨_, rfl, .duplicate 3, by simp, rfl⟩)

/-- Without the copy, the node above the last transaction cannot be derived. -/
theorem Merkle.not_canClimb_compoundProof :
    ¬(compoundProof []).CanClimb (.ofTxid 1 (.double [])) 2 := by
  intro h
  cases h 1 (by decide) with
  | listed h =>
    obtain ⟨_, hl, _, hm, -⟩ := h
    cases hl
    cases hm
  | derived _ right =>
    obtain ⟨_, hl, leaf, hm, ho⟩ := right
    cases hl
    simp only [List.append_nil, List.map_cons, List.map_nil, List.mem_cons, List.not_mem_nil,
      or_false] at hm
    rcases hm with rfl | rfl | rfl <;> cases ho

theorem Merkle.root_of_describes_three :
    (compoundProof [⟨.duplicate 3, rfl⟩]).Describes threeTxids ∧
      (compoundProof [⟨.duplicate 3, rfl⟩]).rootFrom (.ofTxid 1 (.double [])) =
        .ok (root threeTxids) ∧
      (compoundProof []).Describes threeTxids ∧
      ∃ level offset, (compoundProof []).rootFrom (.ofTxid 1 (.double [])) =
        .error (.childNotFound level offset) := by
  have hmem (copies : List ProofLeaf) : .ofTxid 1 (.double []) ∈ (compoundProof copies).bottom := by
    simp [MerkleProof.bottom, MerkleProof.leaves, compoundProof]
  have hcopied : (compoundProof [⟨.duplicate 3, rfl⟩]).Describes threeTxids :=
    describes_compoundProof (by simp)
  have hbare : (compoundProof []).Describes threeTxids := describes_compoundProof (by simp)
  have hfound := (MerkleProof.root_of_describes _ _ hcopied).1 _ (hmem _) rfl
  have hmissing := (MerkleProof.root_of_describes _ _ hbare).1 _ (hmem _) rfl
  exact ⟨hcopied, hfound.1 canClimb_compoundProof, hbare, hmissing.2 not_canClimb_compoundProof⟩

end SpvEnvelope
