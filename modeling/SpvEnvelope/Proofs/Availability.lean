import Mathlib.Data.Nat.Bitwise
import SpvEnvelope.Merkle.Proof

/-!
# Which nodes a Merkle proof knows

A node is available if the proof lists a leaf at its place, or if both of its children are available
(`MerkleProof.Available`). On the levels that a proof has, a lookup finds exactly the available nodes
(`node_isOk_iff`), and a climb gets past a level exactly if the node it is paired with there is
available (`reach_isOk_iff`). `SpvEnvelope.Proofs.Gaps` says what is missing otherwise.

Offsets are natural numbers here, so that twice an offset is never out of range.
-/

namespace SpvEnvelope.MerkleProof

variable {proof : MerkleProof} {height below : Nat} {offset : UInt64} {leaf node : Leaf} {e : Error}

/-- The proof lists a leaf at this place. -/
def Lists (proof : MerkleProof) (height offset : Nat) : Prop :=
  ∃ level, proof.leaves[height]? = some level ∧ ∃ leaf ∈ level, leaf.offset.toNat = offset

/-- The node at this place is listed, or both of its children are available. -/
inductive Available (proof : MerkleProof) : (height offset : Nat) → Prop
  | listed {height offset : Nat} (h : proof.Lists height offset) : Available proof height offset
  | derived {below offset : Nat} (left : Available proof below (2 * offset))
      (right : Available proof below (2 * offset + 1)) : Available proof (below + 1) offset

theorem Available.lt {offset : Nat} (h : proof.Available height offset) : offset < 2 ^ 64 := by
  induction h with
  | listed h =>
    obtain ⟨_, _, leaf, _, rfl⟩ := h
    exact leaf.offset.toNat_lt
  | derived _ _ ihl _ => omega

/-! ## Halves and doubles of offsets -/

theorem lt_halfRange_iff : offset < halfRange ↔ offset.toNat < 2 ^ 63 := UInt64.lt_iff_toNat_lt

theorem toNat_double (h : offset < halfRange) : (2 * offset).toNat = 2 * offset.toNat := by
  rw [lt_halfRange_iff] at h
  rw [UInt64.toNat_mul]
  exact Nat.mod_eq_of_lt (show 2 * offset.toNat < 2 ^ 64 by omega)

theorem toNat_double_add_one (h : offset < halfRange) :
    (2 * offset + 1).toNat = 2 * offset.toNat + 1 := by
  have hd := toNat_double h
  rw [lt_halfRange_iff] at h
  rw [UInt64.toNat_add, hd]
  exact Nat.mod_eq_of_lt (show 2 * offset.toNat + 1 < 2 ^ 64 by omega)

/-! ## Lookups -/

theorem listed?_eq_ok_some (h : proof.listed? height offset = .ok (some leaf)) :
    ∃ level, proof.leaves[height]? = some level ∧ leaf ∈ level ∧ leaf.offset = offset := by
  unfold listed? at h
  cases hl : proof.leaves[height]? with
  | none =>
    rw [hl] at h
    cases h
  | some level =>
    rw [hl] at h
    have hf : Leaf.find? offset level = some leaf := Except.ok.inj h
    exact ⟨level, rfl, List.mem_of_find?_eq_some hf, by simpa using List.find?_some hf⟩

theorem not_lists_of_listed? (h : proof.listed? height offset = .ok none) :
    ¬proof.Lists height offset.toNat := by
  rintro ⟨level, hl, leaf, hm, ho⟩
  unfold listed? at h
  rw [hl] at h
  have hf : Leaf.find? offset level = none := Except.ok.inj h
  exact List.find?_eq_none.mp hf leaf hm (by simpa using UInt64.toNat_inj.mp ho)

theorem listed?_eq_error (h : proof.listed? height offset = .error e) :
    e = .childNotFound height offset ∧ proof.treeHeight ≤ height := by
  unfold listed? at h
  cases hl : proof.leaves[height]? with
  | none =>
    rw [hl] at h
    cases h
    rw [List.getElem?_eq_none_iff, length_leaves] at hl
    exact ⟨rfl, hl⟩
  | some level =>
    rw [hl] at h
    cases h

theorem bottom_eq (proof : MerkleProof) : proof.bottom = proof.leaves[0]?.getD [] := by
  rw [bottom, List.headD_eq_head?_getD, List.head?_eq_getElem?]

/-- A node is found if it is listed, or if nothing is listed and its two children are found. -/
theorem node_eq_ok_iff : proof.node height offset = .ok node ↔
    proof.listed? height offset = .ok (some node) ∨
      ∃ below left right, height = below + 1 ∧ proof.listed? height offset = .ok none ∧
        offset < halfRange ∧ proof.node below (2 * offset) = .ok left ∧
        proof.node below (2 * offset + 1) = .ok right ∧ node = left.parent right := by
  cases height with
  | zero =>
    unfold MerkleProof.node
    cases proof.listed? 0 offset with
    | error e => simp
    | ok leaf? => cases leaf? <;> simp
  | succ below =>
    rw [MerkleProof.node]
    cases proof.listed? (below + 1) offset with
    | error e => simp
    | ok leaf? =>
      cases leaf? with
      | some leaf => simp
      | none =>
        by_cases hhalf : offset < halfRange
        · cases hleft : proof.node below (2 * offset) with
          | error e => simp [hhalf, hleft]
          | ok left =>
            cases hright : proof.node below (2 * offset + 1) <;>
              simp [hhalf, hleft, hright, eq_comm]
        · simp [hhalf]

/-- The node at an offset of the transactions' level is the first leaf listed there. -/
theorem node_zero_of_find? (h : Leaf.find? offset proof.bottom = some leaf) :
    proof.node 0 offset = .ok leaf := by
  refine node_eq_ok_iff.mpr (.inl ?_)
  rw [bottom_eq] at h
  unfold listed?
  cases hlevel : proof.leaves[0]? with
  | none =>
    rw [hlevel] at h
    cases h
  | some level =>
    rw [hlevel] at h
    exact congrArg Except.ok h

/-- What holds of the listed leaves, and of a parent if it holds of its children, holds of every node
that is found. -/
theorem node_induction {motive : Nat → UInt64 → Leaf → Prop}
    (listed : ∀ height level leaf, proof.leaves[height]? = some level → leaf ∈ level →
      motive height leaf.offset leaf)
    (derived : ∀ below offset left right, offset < halfRange →
      proof.node below (2 * offset) = .ok left → proof.node below (2 * offset + 1) = .ok right →
      motive below (2 * offset) left → motive below (2 * offset + 1) right →
      motive (below + 1) offset (left.parent right))
    (h : proof.node height offset = .ok node) : motive height offset node := by
  induction height generalizing offset node with
  | zero =>
    rcases node_eq_ok_iff.mp h with hl | ⟨below, left, right, hzero, -⟩
    · obtain ⟨level, hlevel, hm, rfl⟩ := listed?_eq_ok_some hl
      exact listed 0 level node hlevel hm
    · cases hzero
  | succ below ih =>
    rcases node_eq_ok_iff.mp h with hl | ⟨below, left, right, hsucc, -, hlt, hleft, hright, rfl⟩
    · obtain ⟨level, hlevel, hm, rfl⟩ := listed?_eq_ok_some hl
      exact listed (below + 1) level node hlevel hm
    · cases hsucc
      exact derived below offset left right hlt hleft hright (ih hleft) (ih hright)

/-- A node that is found stands where it was looked up. -/
theorem offset_of_node (h : proof.node height offset = .ok node) : node.offset = offset := by
  refine node_induction (motive := fun _ offset node => node.offset = offset)
    (fun _ _ _ _ _ => rfl) (fun below offset left right hlt _ _ hl _ => ?_) h
  rw [← UInt64.toNat_inj, Leaf.toNat_offset_parent, hl, toNat_double hlt]
  exact Nat.mul_div_cancel_left _ (by decide)

theorem available_of_node (h : proof.node height offset = .ok node) :
    proof.Available height offset.toNat := by
  refine node_induction (motive := fun height offset _ => proof.Available height offset.toNat)
    (fun height level leaf hl hm => .listed ⟨level, hl, leaf, hm, rfl⟩)
    (fun below offset left right hlt _ _ hl hr => ?_) h
  rw [toNat_double hlt] at hl
  rw [toNat_double_add_one hlt] at hr
  exact .derived hl hr

theorem Available.node_eq_ok (h : proof.Available height offset.toNat)
    (hlt : height < proof.treeHeight) : ∃ node, proof.node height offset = .ok node := by
  generalize hn : offset.toNat = n at h
  induction h generalizing offset with
  | @listed height n h =>
    cases hl : proof.listed? height offset with
    | error e => exact absurd (listed?_eq_error hl).2 (by omega)
    | ok leaf? =>
      cases leaf? with
      | some leaf => exact ⟨leaf, node_eq_ok_iff.mpr (.inl hl)⟩
      | none => exact absurd (hn ▸ h) (not_lists_of_listed? hl)
  | @derived below n _ right ihl ihr =>
    cases hl : proof.listed? (below + 1) offset with
    | error e => exact absurd (listed?_eq_error hl).2 (by omega)
    | ok leaf? =>
      cases leaf? with
      | some leaf => exact ⟨leaf, node_eq_ok_iff.mpr (.inl hl)⟩
      | none =>
        have hhalf : offset < halfRange := by
          have := right.lt
          rw [lt_halfRange_iff]
          omega
        obtain ⟨leftNode, hleft⟩ := ihl (by omega) (by rw [toNat_double hhalf, hn])
        obtain ⟨rightNode, hright⟩ := ihr (by omega) (by rw [toNat_double_add_one hhalf, hn])
        exact ⟨leftNode.parent rightNode, node_eq_ok_iff.mpr
          (.inr ⟨below, leftNode, rightNode, rfl, hl, hhalf, hleft, hright, rfl⟩)⟩

/-- On a level of the proof, exactly the available nodes are found. -/
theorem node_isOk_iff (hlt : height < proof.treeHeight) :
    (∃ node, proof.node height offset = .ok node) ↔ proof.Available height offset.toNat :=
  ⟨fun ⟨_, h⟩ => available_of_node h, fun h => h.node_eq_ok hlt⟩

/-! ## Climbs -/

/-- A climb halves its offset on each level. -/
theorem offset_of_reach (h : proof.reach leaf height = .ok node) :
    node.offset.toNat = leaf.offset.toNat >>> height := by
  induction height generalizing node with
  | zero =>
    cases h
    rfl
  | succ height ih =>
    obtain ⟨base, sibling, hb, -, rfl⟩ := reach_succ_eq_ok_iff.mp h
    simp [ih hb, Nat.shiftRight_succ]

/-- On its way up to `height`, the climb from `leaf` finds every node that it is paired with. -/
def CanClimb (proof : MerkleProof) (leaf : Leaf) (height : Nat) : Prop :=
  ∀ level < height, proof.Available level (leaf.offset.toNat >>> level ^^^ 1)

/-- A climb within the proof gets to a level exactly if the nodes it is paired with are available. -/
theorem reach_isOk_iff (hle : height ≤ proof.treeHeight) :
    (∃ node, proof.reach leaf height = .ok node) ↔ proof.CanClimb leaf height := by
  induction height with
  | zero => exact ⟨fun _ _ hlt => absurd hlt (Nat.not_lt_zero _), fun _ => ⟨leaf, rfl⟩⟩
  | succ height ih =>
    have hpaired {base : Leaf} (hb : proof.reach leaf height = .ok base) :
        (∃ sibling, proof.node height (Leaf.pairOffset base.offset) = .ok sibling) ↔
          proof.Available height (leaf.offset.toNat >>> height ^^^ 1) := by
      rw [node_isOk_iff (by omega), Leaf.toNat_pairOffset, offset_of_reach hb]
    constructor
    · rintro ⟨node, h⟩ level hlt
      obtain ⟨base, sibling, hb, hs, -⟩ := reach_succ_eq_ok_iff.mp h
      rcases Nat.lt_succ_iff_lt_or_eq.mp hlt with hlt | rfl
      · exact (ih (by omega)).mp ⟨base, hb⟩ level hlt
      · exact (hpaired hb).mp ⟨sibling, hs⟩
    · intro h
      obtain ⟨base, hb⟩ := (ih (by omega)).mpr fun level hlt => h level (by omega)
      obtain ⟨sibling, hs⟩ := (hpaired hb).mpr (h height (by omega))
      exact ⟨_, reach_succ_eq_ok_iff.mpr ⟨base, sibling, hb, hs, rfl⟩⟩

end SpvEnvelope.MerkleProof
