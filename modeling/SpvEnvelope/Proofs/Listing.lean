import Mathlib.Data.List.Find
import Mathlib.Data.List.Forall2
import Mathlib.Data.List.Nodup
import SpvEnvelope.Proofs.Availability
import SpvEnvelope.Proofs.Inclusion
import SpvEnvelope.Proofs.SameNodes

/-!
# Leaving out and reordering leaves

A proof may list a node above the transactions or leave it to be derived from its children. If what
is derived is what was listed, nothing changes (`root_of_without`): the shorter proof knows the same
nodes as before. Below the place in question both proofs list the same, at the place itself the
derived node stands for the listed one, and all other nodes are listed or derived as before.

A level is listed leaf by leaf but means a set of nodes: if no two of its leaves stand at one offset,
then the first leaf listed at an offset is the only one, whatever the order. So proofs that list the
same leaves in different orders know the same nodes, their climbs lead to the same places and fail in
the same way, and they show the same root (`climb_of_reorders`). The order of the targets decides
only which of them is to blame if they do not all climb to one root.
-/

namespace SpvEnvelope

namespace MerkleProof

variable {proof : MerkleProof} {height : Nat} {offset : UInt64} {leaf derived : Leaf}

/-- The proof without the leaves that it lists at this place. -/
def without (proof : MerkleProof) (height : Nat) (offset : UInt64) : MerkleProof where
  blockHeight := proof.blockHeight
  levels := proof.levels.modify height fun level => level.filter (·.val.offset != offset)
  length_levels := by
    rw [List.length_modify]
    exact proof.length_levels

/-- The first leaf that the proof lists at this place has a hash of its own, and without the leaves
listed there a node with this hash is derived. -/
structure Redundant (proof : MerkleProof) (height : Nat) (offset : UInt64) (leaf derived : Leaf) :
    Prop where
  listed : proof.listed? height offset = .ok (some leaf)
  isDuplicate : leaf.isDuplicate = false
  found : (proof.without height offset).node height offset = .ok derived
  hash : derived.hash = leaf.hash

/-! ## What is still listed -/

@[simp] theorem getElem?_leaves_without (height' : Nat) :
    (proof.without height offset).leaves[height']? = proof.leaves[height']?.map fun level =>
      if height = height' then level.filter (·.offset != offset) else level := by
  simp only [leaves, without, List.getElem?_map, List.getElem?_modify]
  cases proof.levels[height']? with
  | none => rfl
  | some level =>
    by_cases hh : height = height' <;> simp [hh]

/-- A leaf at another place is listed as before. -/
theorem listed?_without_of_ne {height' : Nat} {offset' : UInt64}
    (hne : height = height' → offset ≠ offset') :
    (proof.without height offset).listed? height' offset' = proof.listed? height' offset' := by
  unfold listed?
  rw [getElem?_leaves_without]
  cases proof.leaves[height']? with
  | none => rfl
  | some level =>
    by_cases hh : height = height'
    · have hfind : Leaf.find? offset' (level.filter (·.offset != offset)) =
          Leaf.find? offset' level := by
        unfold Leaf.find?
        rw [List.find?_filter]
        congr 1
        funext leaf
        by_cases ho : leaf.offset = offset'
        · have := hne hh
          simp [ho, Ne.symm this]
        · simp [ho]
      simp [hh, hfind]
    · simp [hh]

/-- At the place itself nothing is listed any more. -/
theorem listed?_without_self (h : proof.listed? height offset = .ok (some leaf)) :
    (proof.without height offset).listed? height offset = .ok none := by
  obtain ⟨level, hl, -, -⟩ := listed?_eq_ok_some h
  unfold listed?
  rw [getElem?_leaves_without, hl]
  simp [Leaf.find?]

theorem bottom_without (hpos : 0 < height) :
    (proof.without height offset).bottom = proof.bottom := by
  have hne : height ≠ 0 := by omega
  rw [bottom_eq, bottom_eq, getElem?_leaves_without]
  simp [hne]

/-! ## What is still known -/

/-- A node that is found where nothing is listed is the parent of two nodes, and no duplicate. -/
theorem isDuplicate_of_derived (hl : proof.listed? height offset = .ok none)
    (hn : proof.node height offset = .ok derived) : derived.isDuplicate = false := by
  rcases node_eq_ok_iff.mp hn with hlisted | ⟨below, left, right, -, -, -, -, -, rfl⟩
  · rw [hl] at hlisted
    cases hlisted
  · rfl

namespace Redundant

/-- The derived node stands for the listed one. -/
theorem alike (h : proof.Redundant height offset leaf derived) :
    Alike ((proof.without height offset).node height offset) (proof.node height offset) := by
  have hfound : proof.node height offset = .ok leaf := node_eq_ok_iff.mpr (.inl h.listed)
  have hduplicate := isDuplicate_of_derived (listed?_without_self h.listed) h.found
  rw [hfound, h.found]
  apply Alike.found
  unfold Leaf.unmarked
  rw [h.hash, hduplicate, h.isDuplicate, offset_of_node h.found, offset_of_node hfound]

/-- The proof knows the same nodes without the leaves listed at this place. -/
theorem sameNodes (h : proof.Redundant height offset leaf derived) :
    SameNodes (proof.without height offset) proof where
  treeHeight := by simp [treeHeight, without]
  node height' := by
    induction height' with
    | zero =>
      intro offset'
      by_cases hplace : height = 0 ∧ offset = offset'
      · obtain ⟨rfl, rfl⟩ := hplace
        exact h.alike
      · apply node_alike (listed?_without_of_ne fun hz ho => hplace ⟨hz, ho⟩)
        intro below hbelow
        cases hbelow
    | succ below ih =>
      intro offset'
      by_cases hplace : height = below + 1 ∧ offset = offset'
      · obtain ⟨rfl, rfl⟩ := hplace
        exact h.alike
      · apply node_alike (listed?_without_of_ne fun hz ho => hplace ⟨hz, ho⟩)
        intro below' hbelow
        cases hbelow
        exact ih

end Redundant

/-! ## Roots -/

/-- **Leaving out a node that can be derived changes nothing**: neither the root that a leaf leads to,
nor the error where there is none, nor the root that the proof shows. -/
theorem root_of_without (hpos : 0 < height) (h : proof.Redundant height offset leaf derived) :
    (∀ start, (proof.without height offset).rootFrom start = proof.rootFrom start) ∧
      (proof.without height offset).root? = proof.root? ∧
      ∀ place, (proof.without height offset).rootAt place = proof.rootAt place := by
  have hsame := h.sameNodes
  refine ⟨fun start => hsame.rootFrom rfl, ?_, hsame.rootAt⟩
  apply hsame.root? rfl
  rw [targets, targets, bottom_without hpos]

end MerkleProof

/-- A proof for the second of three transactions that lists the whole block and the node above the
last one, which follows from it. -/
def Merkle.redundantProof : MerkleProof where
  blockHeight := 7
  levels :=
    [[.ofHash 0 .zero, .ofTxid 1 (.double []), .ofHash 2 Transaction.empty.txid, .duplicate 3],
      [.ofHash 1 (parent Transaction.empty.txid Transaction.empty.txid)]]
  length_levels := by decide

theorem Merkle.redundant_redundantProof :
    redundantProof.Redundant 1 1
      (.ofHash 1 (parent Transaction.empty.txid Transaction.empty.txid))
      (.ofHash 1 (parent Transaction.empty.txid Transaction.empty.txid)) := by
  constructor <;> rfl

/-- Without that node it shows the same root, which is the block's. -/
theorem Merkle.root_of_without_node :
    redundantProof.Redundant 1 1
        (.ofHash 1 (parent Transaction.empty.txid Transaction.empty.txid))
        (.ofHash 1 (parent Transaction.empty.txid Transaction.empty.txid)) ∧
      (redundantProof.without 1 1).levels[1]? = some [] ∧
      (redundantProof.without 1 1).rootFrom (.ofTxid 1 (.double [])) =
        .ok threeAnchor.merkleRoot ∧
      (redundantProof.without 1 1).root? = redundantProof.root? := by
  obtain ⟨hfrom, hshown, -⟩ :=
    MerkleProof.root_of_without Nat.one_pos redundant_redundantProof
  refine ⟨redundant_redundantProof, rfl, ?_, hshown⟩
  rw [hfrom, MerkleProof.rootFrom_eq]
  rfl

/-! ## The order of leaves -/

/-- Among leaves at distinct offsets, the one at an offset is found in any order. -/
theorem Leaf.find?_perm {level level' : List Leaf} (hp : level.Perm level')
    (hd : (level.map (·.offset)).Nodup) (offset : UInt64) :
    find? offset level = find? offset level' := by
  refine List.find?_eq_find?_of_perm hp ?_
  rintro leaf ⟨hl, ho⟩ leaf' ⟨hl', ho'⟩
  refine List.inj_on_of_nodup_map hd hl hl' ?_
  rw [eq_of_beq ho, eq_of_beq ho']

namespace MerkleProof

variable {proof other : MerkleProof}

/-- No level lists two leaves at one offset. -/
def HasDistinctOffsets (proof : MerkleProof) : Prop :=
  ∀ level ∈ proof.leaves, (level.map (·.offset)).Nodup

/-- Both proofs list the same leaves on each level, in any order. -/
def Reorders (proof other : MerkleProof) : Prop :=
  List.Forall₂ List.Perm proof.leaves other.leaves

namespace Reorders

theorem treeHeight (h : proof.Reorders other) : proof.treeHeight = other.treeHeight := by
  rw [← length_leaves, ← length_leaves]
  exact h.length_eq

theorem listed? (h : proof.Reorders other) (hd : proof.HasDistinctOffsets) (height : Nat)
    (offset : UInt64) : proof.listed? height offset = other.listed? height offset := by
  unfold MerkleProof.listed?
  by_cases hlt : height < proof.leaves.length
  · have hlt' : height < other.leaves.length := h.length_eq ▸ hlt
    rw [List.getElem?_eq_getElem hlt, List.getElem?_eq_getElem hlt']
    have hp : (proof.leaves[height]).Perm other.leaves[height] := h.get hlt hlt'
    exact congrArg Except.ok (Leaf.find?_perm hp (hd _ (List.getElem_mem hlt)) offset)
  · have hle : proof.leaves.length ≤ height := Nat.le_of_not_lt hlt
    rw [List.getElem?_eq_none hle, List.getElem?_eq_none (h.length_eq ▸ hle)]

/-- At distinct offsets, reordered leaves are the same nodes. -/
theorem sameNodes (h : proof.Reorders other) (hd : proof.HasDistinctOffsets) :
    SameNodes proof other :=
  .of_listed? h.treeHeight (h.listed? hd)

theorem targets (h : proof.Reorders other) : proof.targets.Perm other.targets := by
  have hbottom : proof.bottom.Perm other.bottom := by
    unfold bottom
    unfold Reorders at h
    generalize proof.leaves = levels, other.leaves = levels' at h ⊢
    cases h with
    | nil => exact .nil
    | cons hp _ => exact hp
  exact hbottom.filter _

end Reorders

/-- **The order of leaves does not matter.** If no level lists two leaves at one offset, then with the
leaves of each level in any other order every climb has the same result, error or not, and the root
shown is the same. -/
theorem climb_of_reorders (h : proof.Reorders other) (hd : proof.HasDistinctOffsets) :
    (∀ offset, proof.rootAt offset = other.rootAt offset) ∧
    (∀ offset height, proof.climb offset height = other.climb offset height) ∧
    (∀ leaf, proof.rootFrom leaf = other.rootFrom leaf) ∧
    ∀ root?, proof.root? = .ok root? ↔ other.root? = .ok root? := by
  have hsame := h.sameNodes hd
  have hfrom (leaf : Leaf) : proof.rootFrom leaf = other.rootFrom leaf := hsame.rootFrom rfl
  refine ⟨hsame.rootAt, hsame.climb, hfrom, ?_⟩
  have htargets := h.targets
  have hnil : proof.targets = [] ↔ other.targets = [] := by
    rw [← List.length_eq_zero_iff, htargets.length_eq, List.length_eq_zero_iff]
  intro root?
  cases root? with
  | none => rw [root?_eq_ok_none_iff, root?_eq_ok_none_iff, hnil]
  | some root =>
    rw [root?_eq_ok_some_iff, root?_eq_ok_some_iff]
    simp [hnil, htargets.mem_iff, hfrom]

end MerkleProof

/-- The same proof with the transactions' level from right to left. -/
def Merkle.turnedProof : MerkleProof where
  blockHeight := 7
  levels :=
    [[.duplicate 3, .ofHash 2 Transaction.empty.txid, .ofTxid 1 (.double []), .ofHash 0 .zero],
      [.ofHash 1 (parent Transaction.empty.txid Transaction.empty.txid)]]
  length_levels := by decide

theorem Merkle.reorders_turnedProof : redundantProof.Reorders turnedProof := by
  refine .cons ?_ (.cons (.refl _) .nil)
  exact (List.reverse_perm _).symm

theorem Merkle.hasDistinctOffsets_redundantProof : redundantProof.HasDistinctOffsets := by
  intro level hm
  simp only [MerkleProof.leaves, redundantProof, List.map_cons, List.map_nil, List.mem_cons,
    List.not_mem_nil, or_false] at hm
  rcases hm with rfl | rfl <;> decide

theorem Merkle.climb_of_turnedProof :
    redundantProof.Reorders turnedProof ∧ redundantProof.HasDistinctOffsets ∧
      turnedProof.rootAt 1 = .ok threeAnchor.merkleRoot ∧
      turnedProof.root? = .ok (some threeAnchor.merkleRoot) := by
  obtain ⟨hat, -, -, hshown⟩ :=
    MerkleProof.climb_of_reorders reorders_turnedProof hasDistinctOffsets_redundantProof
  have hfrom : redundantProof.rootFrom (.ofTxid 1 (.double [])) = .ok threeAnchor.merkleRoot := by
    rw [MerkleProof.rootFrom_eq]
    rfl
  have htargets : redundantProof.targets = [.ofTxid 1 (.double [])] := rfl
  have hfirst : Leaf.find? (Leaf.ofTxid 1 (.double [])).offset redundantProof.bottom =
    some (.ofTxid 1 (.double [])) := rfl
  refine ⟨reorders_turnedProof, hasDistinctOffsets_redundantProof, ?_, ?_⟩
  · rw [← hat, ← hfrom]
    exact MerkleProof.rootAt_eq_rootFrom hfirst
  · apply (hshown _).mp
    rw [MerkleProof.root?_eq_ok_some_iff, htargets]
    exact ⟨List.cons_ne_nil _ _, by simpa using hfrom⟩

end SpvEnvelope
