import SpvEnvelope.Proofs.Reading

/-!
# The readers of Merkle proofs read the grammar

The reader of a leaf succeeds exactly on the forms of well-formed leaves. The readers of levels and
proofs do so on the forms of those whose leaves can be counted, and the guard on the number of leaves
refuses no form.
-/

namespace SpvEnvelope

theorem Leaf.read_reads :
    Leaf.read.Reads (fun _ => True) (fun leaf => leaf.val.Spelling) := by
  intro input leaf rest
  simp only [Leaf.read, Reader.run_bind_eq_ok, Reader.run_mapError_eq_ok, VarInt.read_eq_ok,
    Reader.u8_eq_ok]
  constructor
  · rintro ⟨offset, _, ⟨front, hs, rfl⟩, flag, _, rfl, h⟩
    refine ⟨trivial, ?_⟩
    split at h
    · rename_i hf
      obtain ⟨rfl, rfl⟩ := Reader.run_pure_eq_ok.mp h
      exact ⟨_, .duplicate hs, by simp [hf, duplicateFlag]⟩
    · split at h
      · rename_i hf
        simp only [Reader.run_bind_eq_ok, Reader.run_mapError_eq_ok, Reader.run_pure_eq_ok,
          Digest.read_eq_ok] at h
        obtain ⟨hash, _, rfl, rfl, rfl⟩ := h
        exact ⟨_, .data hs, by simp [hf, dataFlag]⟩
      · split at h
        · rename_i hf
          simp only [Reader.run_bind_eq_ok, Reader.run_mapError_eq_ok, Reader.run_pure_eq_ok,
            Digest.read_eq_ok] at h
          obtain ⟨txid, _, rfl, rfl, rfl⟩ := h
          exact ⟨_, .txid hs, by simp [hf, txidFlag]⟩
        · exact absurd h Reader.run_throw_ne_ok
  · obtain ⟨leaf, hwf⟩ := leaf
    rintro ⟨-, front, hl, rfl⟩
    cases hl with
    | @data offset hash front hs =>
      refine ⟨offset, _, ⟨front, hs, List.append_assoc _ _ _⟩, dataFlag, _, rfl, ?_⟩
      rw [if_neg (by decide), if_pos rfl]
      simp only [Reader.run_bind_eq_ok, Reader.run_mapError_eq_ok, Reader.run_pure_eq_ok,
        Digest.read_eq_ok]
      exact ⟨hash, _, rfl, rfl, rfl⟩
    | @duplicate offset front hs =>
      refine ⟨offset, _, ⟨front, hs, List.append_assoc _ _ _⟩, duplicateFlag, _, rfl, ?_⟩
      rw [if_pos rfl]
      rfl
    | @txid offset txid front hs =>
      refine ⟨offset, _, ⟨front, hs, List.append_assoc _ _ _⟩, txidFlag, _, rfl, ?_⟩
      rw [if_neg (by decide), if_neg (by decide), if_pos rfl]
      simp only [Reader.run_bind_eq_ok, Reader.run_mapError_eq_ok, Reader.run_pure_eq_ok,
        Digest.read_eq_ok]
      exact ⟨txid, _, rfl, rfl, rfl⟩

namespace MerkleProof

theorem readLevel_reads :
    readLevel.Reads (fun level => level.length < VarInt.sizeLimit) LevelSpelling := by
  have hleaf index : (Leaf.read.mapError (LevelFault.leaf index)).Reads (fun _ => True)
      (fun leaf => leaf.val.Spelling) := Leaf.read_reads.mapError _
  intro input level rest
  simp only [readLevel, Reader.run_bind_eq_ok, Reader.run_mapError_eq_ok, Reader.run_get_bind,
    hasAtLeast_eq, decide_eq_true_eq]
  constructor
  · rintro ⟨count, middle, hc, h⟩
    split at h
    · exact absurd h Reader.run_throw_ne_ok
    · rename_i hlt
      split at h
      · simp only [Reader.run_bind_eq_ok, Reader.run_pure_eq_ok] at h
        obtain ⟨leaves, _, hi, rfl, rfl⟩ := h
        rw [leaves.property]
        exact ⟨by omega, (Counted.of_items hleaf hc hi).2⟩
      · exact absurd h Reader.run_throw_ne_ok
  · rintro ⟨hlt, front, hc, rfl⟩
    obtain ⟨count, middle, hl, hcount, hle, hi⟩ :=
      hc.items hleaf (fun _ _ => trivial) rest fun _ _ h => h.minLength_le_length
    refine ⟨count, middle, hcount, ?_⟩
    rw [if_neg (by omega), if_pos hle]
    exact Reader.run_bind_eq_ok.mpr ⟨_, _, hi, rfl⟩

theorem read_reads : MerkleProof.read.Reads MerkleProof.Sized MerkleProof.Spelling := by
  have hlevel index : (readLevel.mapError (ProofFault.level index)).Reads
      (fun level => level.length < VarInt.sizeLimit) LevelSpelling := readLevel_reads.mapError _
  intro input proof rest
  simp only [MerkleProof.read, Reader.run_bind_eq_ok, Reader.run_mapError_eq_ok, VarInt.read_eq_ok,
    Reader.u8_eq_ok]
  constructor
  · rintro ⟨blockHeight, _, ⟨height, hh, rfl⟩, count, middle, rfl, h⟩
    split at h
    · obtain ⟨⟨levels, hl⟩, _, hi, hp⟩ := Reader.run_bind_eq_ok.mp h
      obtain ⟨rfl, rfl⟩ := Reader.run_pure_eq_ok.mp hp
      obtain ⟨hv, front, hs, rfl⟩ := (Reader.items_eq_ok hlevel).mp hi
      have hcount : UInt8.ofNat levels.length = count := by rw [hl, UInt8.ofNat_toNat]
      exact ⟨hv, _, .intro hh hs, by simp [treeHeight, hcount]⟩
    · exact absurd h Reader.run_throw_ne_ok
  · rintro ⟨hv, _, @⟨height, levels, hh, hs⟩, rfl⟩
    have hmax := proof.length_levels
    have ht : proof.levels.length = (UInt8.ofNat proof.treeHeight).toNat := by
      unfold maxLevels at hmax
      rw [UInt8.toNat_ofNat_of_lt' (by rw [treeHeight, UInt8.size]; omega), treeHeight]
    refine ⟨proof.blockHeight, UInt8.ofNat proof.treeHeight :: (levels ++ rest),
      ⟨height, hh, by simp⟩, _, _, rfl, ?_⟩
    rw [dif_pos (ht ▸ hmax)]
    exact Reader.run_bind_eq_ok.mpr
      ⟨⟨proof.levels, ht⟩, rest, (Reader.items_eq_ok hlevel).mpr ⟨hv, _, hs, rfl⟩, rfl⟩

/-- A byte string is decoded as a proof exactly if it is a form of it and the leaves can be
counted. -/
theorem ofBytes_eq_ok {proof : MerkleProof} {bytes : List UInt8} :
    ofBytes bytes = .ok proof ↔ proof.Sized ∧ proof.Spelling bytes := by
  rw [← read_reads.run_eq_ok_nil]
  unfold ofBytes
  constructor
  · intro h
    split at h
    · rename_i hr
      cases h
      exact hr
    · cases h
    · cases h
  · intro hr
    rw [hr]

/-- A proof with a leaf of each kind. -/
def assorted : MerkleProof where
  blockHeight := 814435
  levels := [
    [.ofHash 20 ⟨List.replicate 32 0xaa, rfl⟩, .ofTxid 21 ⟨List.replicate 32 0xbb, rfl⟩],
    [.duplicate 11]]
  length_levels := by decide

/-- A form of it, in which a number of leaves is written in three bytes, one offset in three and
another in nine. -/
def assortedBytes : List UInt8 :=
  [0xfe, 0x63, 0x6d, 0x0c, 0] ++ [2]
    ++ ([0xfd, 2, 0] ++ ([20, 0] ++ List.replicate 32 0xaa)
      ++ ([0xfd, 21, 0, 2] ++ List.replicate 32 0xbb))
    ++ ([1] ++ [0xff, 11, 0, 0, 0, 0, 0, 0, 0, 1])

theorem assorted_spelling : assorted.Spelling assortedBytes := by
  have hheight : VarInt.Spelling 814435 [0xfe, 0x63, 0x6d, 0x0c, 0] := .five (by decide)
  have hone : VarInt.Spelling 1 [1] := .one (by decide)
  have htwo : VarInt.Spelling 2 [0xfd, 2, 0] := .three (by decide)
  have hdata : Leaf.Spelling (.ofHash 20 ⟨List.replicate 32 0xaa, rfl⟩) ([20] ++ 0 :: _) :=
    .data (.one (by decide))
  have htxid : Leaf.Spelling (.ofTxid 21 ⟨List.replicate 32 0xbb, rfl⟩) ([0xfd, 21, 0] ++ 2 :: _) :=
    .txid (.three (by decide))
  have hduplicate : Leaf.Spelling (.duplicate 11) ([0xff, 11, 0, 0, 0, 0, 0, 0, 0] ++ [1]) :=
    .duplicate .nine
  have hbottom : LevelSpelling [.ofHash 20 _, .ofTxid 21 _] _ :=
    .intro rfl htwo (.cons hdata (.cons htxid .nil))
  have hnext : LevelSpelling [.duplicate 11] _ := .intro rfl hone (.cons hduplicate .nil)
  have hall : assorted.Spelling _ := .intro hheight (.cons hbottom (.cons hnext .nil))
  exact hall

end MerkleProof

end SpvEnvelope
