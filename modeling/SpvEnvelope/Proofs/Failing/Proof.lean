import SpvEnvelope.Proofs.Decoding.Proof
import SpvEnvelope.Proofs.Failing

/-!
# The readers of Merkle proofs fail by their flaws

A leaf, a level or a proof cannot be read exactly if the input has one of its flaws, and the fault is
the one found there.
-/

namespace SpvEnvelope

namespace Leaf

theorem readHash_fails_iff {make : Digest → ProofLeaf} {input : List UInt8} {fault : LeafFault} :
    ((Digest.read.mapError fun _ => LeafFault.hashCut) >>= fun hash => pure (make hash)).Fails
        input fault ↔ input.length < 32 ∧ fault = .hashCut := by
  simp [eq_comm]

theorem read_failsBy : Leaf.read.FailsBy Leaf.Flaw := by
  intro input fault
  rw [Leaf.read, VarInt.fails_read_bind_iff]
  constructor
  · rintro (⟨cause, h, rfl⟩ | ⟨offset, front, rest, ho, h, rfl⟩)
    · exact .offsetCut ⟨cause, h⟩
    rw [Reader.fails_u8_bind_iff] at h
    obtain ⟨rfl, rfl⟩ | ⟨flag, rest, h, rfl⟩ := h
    · rw [List.append_nil]
      exact .flagCut ho
    -- the cases come in the order in which the reader compares the flag
    by_cases hdup : flag = duplicateFlag
    · simp [hdup] at h
    by_cases hdata : flag = dataFlag
    · rw [if_neg hdup, if_pos hdata, readHash_fails_iff] at h
      obtain ⟨hlt, rfl⟩ := h
      exact .hashCut ho (.inl hdata) hlt
    by_cases htxid : flag = txidFlag
    · rw [if_neg hdup, if_neg hdata, if_pos htxid, readHash_fails_iff] at h
      obtain ⟨hlt, rfl⟩ := h
      exact .hashCut ho (.inr htxid) hlt
    · rw [if_neg hdup, if_neg hdata, if_neg htxid, Reader.fails_throw_iff] at h
      rw [← h]
      exact .badFlag ho ⟨hdata, hdup, htxid⟩
  · intro h
    cases h with
    | offsetCut h =>
      obtain ⟨cause, h⟩ := h
      exact .inl ⟨cause, h, rfl⟩
    | flagCut ho =>
      refine .inr ⟨_, _, [], ho, ?_, (List.append_nil _).symm⟩
      exact Reader.fails_u8_bind_iff.mpr (.inl ⟨rfl, rfl⟩)
    | @badFlag _ _ rest flag ho hflag =>
      obtain ⟨hdata, hdup, htxid⟩ :
        flag ≠ dataFlag ∧ flag ≠ duplicateFlag ∧ flag ≠ txidFlag := hflag
      refine .inr ⟨_, _, _, ho, Reader.fails_u8_bind_iff.mpr (.inr ⟨flag, rest, ?_, rfl⟩), rfl⟩
      simp [hdup, hdata, htxid]
    | @hashCut _ _ rest flag ho hflag hlt =>
      refine .inr ⟨_, _, _, ho, Reader.fails_u8_bind_iff.mpr (.inr ⟨flag, rest, ?_, rfl⟩), rfl⟩
      rcases hflag with rfl | rfl
      · exact readHash_fails_iff.mpr ⟨hlt, rfl⟩
      · exact readHash_fails_iff.mpr ⟨hlt, rfl⟩

end Leaf

namespace MerkleProof

/-- Reading leaves fails at the first leaf with a flaw. -/
theorem readLeaves_fails_iff {count : Nat} {input : List UInt8} {e : LevelFault} :
    (Reader.items count fun index => Leaf.read.mapError (LevelFault.leaf index)).Fails input e ↔
      ∃ before front rest fault, before.length < count ∧
        Sequence (fun leaf : ProofLeaf => leaf.val.Spelling) before front ∧ Leaf.Flaw fault rest ∧
        e = .leaf before.length fault ∧ input = front ++ rest := by
  rw [Reader.items_fails_iff fun index => Leaf.read_reads.mapError _]
  simp only [Reader.fails_mapError_iff, Leaf.read_failsBy _ _]
  constructor
  · rintro ⟨before, front, rest, hi, -, hs, ⟨fault, hf, rfl⟩, rfl⟩
    exact ⟨before, front, rest, fault, hi, hs, hf, rfl, rfl⟩
  · rintro ⟨before, front, rest, fault, hi, hs, hf, rfl, rfl⟩
    exact ⟨before, front, rest, hi, by simp, hs, ⟨fault, hf, rfl⟩, rfl⟩

theorem readLevel_failsBy : readLevel.FailsBy LevelFlaw := by
  intro input e
  rw [readLevel, VarInt.fails_read_bind_iff]
  simp only [Reader.fails_get_bind_iff, hasAtLeast_eq, decide_eq_true_eq]
  constructor
  · rintro (⟨cause, h, rfl⟩ | ⟨count, front, rest, hc, h, rfl⟩)
    · exact .countCut ⟨cause, h⟩
    by_cases hlarge : VarInt.sizeLimit ≤ count.toNat
    · rw [if_pos hlarge, Reader.fails_throw_iff] at h
      rw [← h]
      exact .countTooLarge hc hlarge
    have hlt := Nat.lt_of_not_le hlarge
    by_cases hle : count.toNat * Leaf.minLength ≤ rest.length
    · rw [if_neg hlarge, if_pos hle, Reader.fails_bind_pure_iff, readLeaves_fails_iff] at h
      obtain ⟨before, body, rest, fault, hi, hb, hf, rfl, rfl⟩ := h
      rw [← List.append_assoc]
      exact .leaf (.intro hc hlt ((Nat.le_div_iff_mul_le Nat.two_pos).mpr hle) hi hb) hf
    · rw [if_neg hlarge, if_neg hle, Reader.fails_throw_iff] at h
      have hr := (Nat.div_lt_iff_lt_mul Nat.two_pos).mpr (Nat.lt_of_not_le hle)
      rw [← h]
      exact .implausibleCount hc hlt hr
  · intro h
    cases h with
    | countCut h =>
      obtain ⟨cause, h⟩ := h
      exact .inl ⟨cause, h, rfl⟩
    | countTooLarge hc hlarge =>
      refine .inr ⟨_, _, _, hc, ?_, rfl⟩
      simp [hlarge]
    | @implausibleCount count _ rest hc hlt hr =>
      have hle : ¬count.toNat * Leaf.minLength ≤ rest.length :=
        Nat.not_le.mpr ((Nat.div_lt_iff_lt_mul Nat.two_pos).mp hr)
      refine .inr ⟨_, _, _, hc, ?_, rfl⟩
      rw [if_neg (Nat.not_le.mpr hlt), if_neg hle]
      simp
    | @leaf _ _ rest _ ha hf =>
      obtain @⟨count, _, _, body, _, hc, hlt, hle, hi, hb⟩ := ha
      have hle' : count.toNat * Leaf.minLength ≤ (body ++ rest).length :=
        (Nat.le_div_iff_mul_le Nat.two_pos).mp hle
      refine .inr ⟨_, _, _, hc, ?_, List.append_assoc _ _ _⟩
      rw [if_neg (Nat.not_le.mpr hlt), if_pos hle', Reader.fails_bind_pure_iff,
        readLeaves_fails_iff]
      exact ⟨_, _, _, _, hi, hb, hf, rfl, rfl⟩

/-- Reading levels fails at the first level with a flaw. -/
theorem readLevels_fails_iff {count : Nat} {input : List UInt8} {e : ProofFault} :
    (Reader.items count fun index => readLevel.mapError (ProofFault.level index)).Fails input e ↔
      ∃ before front rest fault, before.length < count ∧
        (∀ level ∈ before, level.length < VarInt.sizeLimit) ∧
        Sequence LevelSpelling before front ∧ LevelFlaw fault rest ∧
        e = .level before.length fault ∧ input = front ++ rest := by
  rw [Reader.items_fails_iff fun index => readLevel_reads.mapError _]
  simp only [Reader.fails_mapError_iff, readLevel_failsBy _ _]
  constructor
  · rintro ⟨before, front, rest, hi, hv, hs, ⟨fault, hf, rfl⟩, rfl⟩
    exact ⟨before, front, rest, fault, hi, hv, hs, hf, rfl, rfl⟩
  · rintro ⟨before, front, rest, fault, hi, hv, hs, hf, rfl, rfl⟩
    exact ⟨before, front, rest, hi, hv, hs, ⟨fault, hf, rfl⟩, rfl⟩

theorem read_failsBy : MerkleProof.read.FailsBy Flaw := by
  intro input e
  rw [MerkleProof.read, VarInt.fails_read_bind_iff]
  constructor
  · rintro (⟨cause, h, rfl⟩ | ⟨blockHeight, front, rest, hh, h, rfl⟩)
    · exact .blockHeightCut ⟨cause, h⟩
    rw [Reader.fails_u8_bind_iff] at h
    obtain ⟨rfl, rfl⟩ | ⟨treeHeight, rest, h, rfl⟩ := h
    · rw [List.append_nil]
      exact .treeHeightCut hh
    by_cases hle : treeHeight.toNat ≤ maxLevels
    · rw [dif_pos hle, Reader.fails_bind_pure_iff, readLevels_fails_iff] at h
      obtain ⟨before, body, rest, fault, hi, hv, hs, hf, rfl, rfl⟩ := h
      exact .level (.intro hh hle hi hv hs) hf
    · rw [dif_neg hle, Reader.fails_throw_iff] at h
      rw [← h]
      exact .treeHeightTooLarge hh (Nat.lt_of_not_le hle)
  · intro h
    cases h with
    | blockHeightCut h =>
      obtain ⟨cause, h⟩ := h
      exact .inl ⟨cause, h, rfl⟩
    | treeHeightCut hh =>
      refine .inr ⟨_, _, [], hh, ?_, (List.append_nil _).symm⟩
      exact Reader.fails_u8_bind_iff.mpr (.inl ⟨rfl, rfl⟩)
    | @treeHeightTooLarge _ _ rest treeHeight hh hlt =>
      have hle : ¬treeHeight.toNat ≤ maxLevels := Nat.not_le.mpr hlt
      refine .inr ⟨_, _, _, hh, Reader.fails_u8_bind_iff.mpr (.inr ⟨treeHeight, rest, ?_, rfl⟩), rfl⟩
      rw [dif_neg hle]
      simp
    | @level _ _ rest _ ha hf =>
      obtain @⟨_, treeHeight, _, _, body, _, hh, hle, hi, hv, hs⟩ := ha
      have hle' : treeHeight.toNat ≤ maxLevels := hle
      refine .inr ⟨_, _, _, hh,
        Reader.fails_u8_bind_iff.mpr (.inr ⟨treeHeight, body ++ rest, ?_, rfl⟩), rfl⟩
      rw [dif_pos hle', Reader.fails_bind_pure_iff, readLevels_fails_iff]
      exact ⟨_, _, _, _, hi, hv, hs, hf, rfl, rfl⟩

end MerkleProof

end SpvEnvelope
