import Mathlib.Data.Set.List
import SpvEnvelope.Json.Proof
import SpvEnvelope.Proofs.Decoding.Proof
import SpvEnvelope.Proofs.Listing
import SpvEnvelope.Proofs.Writing

/-!
# What a proof can list

However a proof comes about, it has at most 64 levels, and each of its leaves is a duplicate without
hash and mark or has a hash. Nothing else is asked of levels (`ofLevels_eq_ok_iff`); in particular, a
level may list several leaves at one offset. A look-up finds the first of them, so such a proof has
the same climbs as one that lists no others (`sameNodes_withoutRepeats`). The others can still be
found by their hash, and be targets.
-/

namespace SpvEnvelope

/-! ## The shape of levels -/

theorem Leaf.isWellFormed_iff {leaf : Leaf} : leaf.isWellFormed = true ↔
    leaf = .duplicate leaf.offset ∨
      ∃ hash, leaf = .ofHash leaf.offset hash ∨ leaf = .ofTxid leaf.offset hash := by
  obtain ⟨offset, hash, isTxid, isDuplicate⟩ := leaf
  cases isDuplicate <;> cases isTxid <;> cases hash <;>
    simp [isWellFormed, duplicate, ofHash, ofTxid]

/-- There are at most 64 levels, and every leaf is a duplicate without hash and mark or has a hash. -/
structure IsShaped (levels : List (List Leaf)) : Prop where
  length_le : levels.length ≤ 64
  leaf : ∀ level ∈ levels, ∀ leaf ∈ level, leaf = .duplicate leaf.offset ∨
    ∃ hash, leaf = .ofHash leaf.offset hash ∨ leaf = .ofTxid leaf.offset hash

namespace MerkleProof

variable {proof : MerkleProof} {index : Nat} {blockHeight : UInt64} {leaves : List Leaf}
  {levels : List (List Leaf)}

theorem isShaped_leaves (proof : MerkleProof) : IsShaped proof.leaves where
  length_le := by
    rw [length_leaves]
    exact proof.length_levels
  leaf := by
    intro level hlevel leaf hleaf
    obtain ⟨checked, -, rfl⟩ := List.mem_map.mp hlevel
    obtain ⟨⟨leaf, hw⟩, -, rfl⟩ := List.mem_map.mp hleaf
    exact Leaf.isWellFormed_iff.mp hw

/-- Levels of this shape are the leaves of a proof. -/
theorem exists_leaves_eq (blockHeight : UInt64) (h : IsShaped levels) :
    ∃ proof : MerkleProof, proof.blockHeight = blockHeight ∧ proof.leaves = levels := by
  have hw : ∀ level ∈ levels, ∀ leaf ∈ level, leaf.isWellFormed = true := by
    intro level hlevel leaf hleaf
    exact Leaf.isWellFormed_iff.mpr (h.leaf level hlevel leaf hleaf)
  have hle := h.length_le
  clear h
  lift levels to List (List ProofLeaf) using hw
  rw [List.length_map] at hle
  exact ⟨⟨blockHeight, levels, hle⟩, rfl, rfl⟩

/-! ## Checks -/

theorem checkLevel_map_val (index : Nat) (checked : List ProofLeaf) :
    checkLevel index (checked.map (·.val)) = .ok checked := by
  unfold checkLevel
  induction checked with
  | nil => rfl
  | cons leaf rest ih =>
    rw [List.map_cons, List.mapM_cons, ih]
    simp only [dif_pos leaf.property]
    rfl

theorem map_val_of_checkLevel {checked : List ProofLeaf}
    (h : checkLevel index leaves = .ok checked) : checked.map (·.val) = leaves := by
  induction leaves generalizing checked with
  | nil =>
    cases h
    rfl
  | cons leaf rest ih =>
    rw [checkLevel, List.mapM_cons, ← checkLevel] at h
    obtain ⟨first, hfirst, h⟩ := Except.bind_eq_ok_iff.mp h
    obtain ⟨others, hrest, h⟩ := Except.bind_eq_ok_iff.mp h
    cases h
    rw [List.map_cons, ih hrest]
    split at hfirst
    · cases hfirst
      rfl
    · cases hfirst

@[simp] theorem checkLevels_map_val (index : Nat) (checked : List (List ProofLeaf)) :
    checkLevels index (checked.map fun level => level.map (·.val)) =
      .ok ⟨checked, (List.length_map _).symm⟩ := by
  induction checked generalizing index with
  | nil => rfl
  | cons level rest ih =>
    change checkLevels index (level.map (·.val) :: rest.map _) = _
    rw [checkLevels, checkLevel_map_val, ih]
    rfl

theorem map_val_of_checkLevels
    {checked : { checked : List (List ProofLeaf) // checked.length = levels.length }}
    (h : checkLevels index levels = .ok checked) :
    checked.val.map (fun level => level.map (·.val)) = levels := by
  induction levels generalizing index with
  | nil =>
    cases h
    rfl
  | cons leaves rest ih =>
    rw [checkLevels] at h
    obtain ⟨first, hfirst, h⟩ := Except.bind_eq_ok_iff.mp h
    obtain ⟨others, hrest, h⟩ := Except.bind_eq_ok_iff.mp h
    cases h
    rw [List.map_cons, map_val_of_checkLevel hfirst, ih hrest]

@[simp] theorem ofLevels_leaves (proof : MerkleProof) :
    ofLevels proof.blockHeight proof.leaves = .ok proof := by
  have hle : proof.leaves.length ≤ maxLevels := by
    rw [length_leaves]
    exact proof.length_levels
  have hchecked : checkLevels 0 proof.leaves = .ok ⟨proof.levels, _⟩ :=
    checkLevels_map_val 0 proof.levels
  rw [ofLevels, dif_pos hle, hchecked]
  rfl

theorem leaves_of_ofLevels (h : ofLevels blockHeight levels = .ok proof) :
    proof.blockHeight = blockHeight ∧ proof.leaves = levels := by
  unfold ofLevels at h
  split at h
  · obtain ⟨checked, hchecked, h⟩ := Except.bind_eq_ok_iff.mp h
    cases h
    exact ⟨rfl, map_val_of_checkLevels hchecked⟩
  · cases h

/-- Levels are accepted exactly if they have the shape, and are listed as they are. -/
theorem ofLevels_eq_ok_iff : ofLevels blockHeight levels = .ok proof ↔
    IsShaped levels ∧ proof.blockHeight = blockHeight ∧ proof.leaves = levels := by
  constructor
  · intro h
    obtain ⟨hheight, hleaves⟩ := leaves_of_ofLevels h
    exact ⟨hleaves ▸ proof.isShaped_leaves, hheight, hleaves⟩
  · rintro ⟨-, rfl, rfl⟩
    exact proof.ofLevels_leaves

/-! ## Repeated offsets -/

/-- The leaves of a level without those at the offset of an earlier one. -/
def firsts : List ProofLeaf → List ProofLeaf
  | [] => []
  | leaf :: rest => leaf :: (firsts rest).filter (·.val.offset != leaf.val.offset)

/-- The proof with only the first of the leaves that a level lists at one offset. -/
def withoutRepeats (proof : MerkleProof) : MerkleProof where
  blockHeight := proof.blockHeight
  levels := proof.levels.map firsts
  length_levels := by
    rw [List.length_map]
    exact proof.length_levels

theorem find?_firsts (offset : UInt64) (level : List ProofLeaf) :
    Leaf.find? offset ((firsts level).map (·.val)) = Leaf.find? offset (level.map (·.val)) := by
  unfold Leaf.find?
  rw [List.find?_map, List.find?_map]
  congr 1
  induction level with
  | nil => rfl
  | cons leaf rest ih =>
    rw [firsts]
    by_cases ho : leaf.val.offset = offset
    · rw [List.find?_cons_of_pos (by simpa using ho), List.find?_cons_of_pos (by simpa using ho)]
    · rw [List.find?_cons_of_neg (by simpa using ho), List.find?_cons_of_neg (by simpa using ho),
        List.find?_filter, ← ih]
      -- what is looked for is at another offset than `leaf`, so it is still there
      congr 1
      funext other
      by_cases he : other.val.offset = offset
      · simp [he, Ne.symm ho]
      · simp [he]

theorem nodup_firsts (level : List ProofLeaf) :
    (((firsts level).map (·.val)).map (·.offset)).Nodup := by
  rw [List.map_map]
  induction level with
  | nil => exact List.nodup_nil
  | cons leaf rest ih =>
    rw [firsts, List.map_cons, List.nodup_cons]
    constructor
    · intro hm
      obtain ⟨other, ho, he⟩ := List.mem_map.mp hm
      have hne := (List.mem_filter.mp ho).2
      simp only [Function.comp_apply] at he
      simp [he] at hne
    · exact ih.sublist (List.filter_sublist.map _)

@[simp] theorem leaves_withoutRepeats (proof : MerkleProof) :
    proof.withoutRepeats.leaves =
      proof.levels.map fun level => (firsts level).map (·.val) := by
  rw [leaves, withoutRepeats, List.map_map]
  rfl

theorem hasDistinctOffsets_withoutRepeats (proof : MerkleProof) :
    proof.withoutRepeats.HasDistinctOffsets := by
  intro level hm
  rw [leaves_withoutRepeats] at hm
  obtain ⟨listed, -, rfl⟩ := List.mem_map.mp hm
  exact nodup_firsts listed

@[simp] theorem listed?_withoutRepeats (proof : MerkleProof) (height : Nat) (offset : UInt64) :
    proof.withoutRepeats.listed? height offset = proof.listed? height offset := by
  unfold listed?
  rw [leaves_withoutRepeats, leaves, List.getElem?_map, List.getElem?_map]
  cases proof.levels[height]? with
  | none => rfl
  | some level => exact congrArg Except.ok (find?_firsts offset level)

/-- Leaves at the offset of an earlier one are no nodes of the proof. -/
theorem sameNodes_withoutRepeats (proof : MerkleProof) : SameNodes proof.withoutRepeats proof := by
  refine .of_listed? ?_ proof.listed?_withoutRepeats
  exact List.length_map _

/-! ## Every proof -/

/-- Some constructor gives the proof: from levels, from bytes or a text, from JSON, or as the first
thing read from bytes that go on. -/
inductive IsConstructed (proof : MerkleProof) : Prop
  | ofLevels (blockHeight : UInt64) (levels : List (List Leaf))
      (h : MerkleProof.ofLevels blockHeight levels = .ok proof)
  | ofBytes (bytes : List UInt8) (h : MerkleProof.ofBytes bytes = .ok proof)
  | ofText (text : String) (h : MerkleProof.ofText text = .ok proof)
  | read (input rest : List UInt8) (h : MerkleProof.read.run input = .ok proof rest)
  | ofJson (json : Json) (h : MerkleProof.ofJson json = .ok proof)

/-- **What proofs list.** The levels of the proofs that can be constructed are those of the shape.
All of them are accepted as levels, and all that can be counted are decoded from some bytes. Offsets
may repeat, but the first leaf at an offset is the only one that matters to a climb. -/
theorem shape_of_isConstructed :
    (∀ blockHeight levels, (∃ proof : MerkleProof, proof.IsConstructed ∧
      proof.blockHeight = blockHeight ∧ proof.leaves = levels) ↔ IsShaped levels) ∧
    (∀ blockHeight levels proof, ofLevels blockHeight levels = .ok proof ↔
      IsShaped levels ∧ proof.blockHeight = blockHeight ∧ proof.leaves = levels) ∧
    (∀ proof : MerkleProof, (∃ bytes, ofBytes bytes = .ok proof) ↔ proof.Sized) ∧
    (∀ proof : MerkleProof, proof.withoutRepeats.HasDistinctOffsets ∧
      (∀ height offset,
        proof.withoutRepeats.listed? height offset = proof.listed? height offset) ∧
      (∀ offset height, proof.withoutRepeats.climb offset height = proof.climb offset height) ∧
      (∀ offset, proof.withoutRepeats.rootAt offset = proof.rootAt offset) ∧
      ∀ leaf, proof.withoutRepeats.rootFrom leaf = proof.rootFrom leaf) := by
  refine ⟨?_, ?_, ?_, ?_⟩
  · intro blockHeight levels
    constructor
    · rintro ⟨proof, -, -, rfl⟩
      exact proof.isShaped_leaves
    · intro h
      obtain ⟨proof, rfl, rfl⟩ := exists_leaves_eq blockHeight h
      exact ⟨proof, .ofLevels _ _ proof.ofLevels_leaves, rfl, rfl⟩
  · intro blockHeight levels proof
    exact ofLevels_eq_ok_iff
  · intro proof
    constructor
    · rintro ⟨bytes, h⟩
      exact (ofBytes_eq_ok.mp h).1
    · intro h
      exact ⟨proof.encode, ofBytes_eq_ok.mpr ⟨h, spelling_encode h⟩⟩
  · intro proof
    have hsame := proof.sameNodes_withoutRepeats
    exact ⟨proof.hasDistinctOffsets_withoutRepeats, proof.listed?_withoutRepeats, hsame.climb,
      hsame.rootAt, fun leaf => hsame.rootFrom rfl⟩

end MerkleProof

/-- A proof of one level that lists two duplicates at one offset. -/
def Merkle.repeatingProof : MerkleProof where
  blockHeight := 7
  levels := [[.duplicate 0, .duplicate 0]]
  length_levels := by decide

/-- Neither its bytes nor its levels are refused. -/
theorem Merkle.ofBytes_repeatingProof :
    MerkleProof.ofBytes [7, 1, 2, 0, 1, 0, 1] = .ok repeatingProof ∧
      MerkleProof.ofLevels 7 [[.duplicate 0, .duplicate 0]] = .ok repeatingProof ∧
      ¬repeatingProof.HasDistinctOffsets := by
  refine ⟨by rfl, by rfl, ?_⟩
  intro h
  exact absurd (h _ (List.mem_singleton_self _)) (by decide)

end SpvEnvelope
