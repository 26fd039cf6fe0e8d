import SpvEnvelope.Error
import SpvEnvelope.Merkle.Leaf

/-!
# Merkle proofs

A proof lists, from the transactions upward, nodes from which one can climb to the Merkle root of a
block. It never has more than 64 levels and only has well-formed leaves, so it always has a wire
form that reads back as the same proof.

A proof need not list every node that a climb meets: a node above the transactions' level may be
left out where its two children are known, and is then computed from them. `MerkleProof.node` says
which nodes a proof knows, and which one is missing if it does not know one. `MerkleProof.reach`
says where a climb leads. These are the plain recursions; `SpvEnvelope.Merkle.Climb` has the climbs
that are run.

| here | there |
| --- | --- |
| `MerkleProof` | `Bump`, a BRC-74 proof (§3) |
| `MerkleProof.ofLevels` | `Bump.new` |
| `MerkleProof.leaves`, `targets` | `path`, `txid_leaves` |
| `MerkleProof.findTxid?` | `find_level0_leaf` (§11.8) |
| `MerkleProof.node`, `above` | `node` and `climb_one_level` of an `IndexedPath` that remembers nothing (§11.3) |
-/

namespace SpvEnvelope

/-- The most levels that a proof can have. -/
def maxLevels : Nat := 64

/-- A proof that transactions are part of the block at `blockHeight`. -/
@[ext] structure MerkleProof where
  blockHeight : UInt64
  /-- The leaves of each level, the transactions' level first. -/
  levels : List (List ProofLeaf)
  length_levels : levels.length ≤ maxLevels
deriving DecidableEq

namespace MerkleProof

/-- The leaves of level `index`, all of which must be well formed. -/
def checkLevel (index : Nat) (leaves : List Leaf) : Except Error (List ProofLeaf) :=
  leaves.mapM fun leaf =>
    if h : leaf.isWellFormed then .ok ⟨leaf, h⟩ else .error (.malformedLeaf index leaf.offset)

/-- The levels from `index` on, checked one after the other. -/
def checkLevels (index : Nat) :
    (levels : List (List Leaf)) →
      Except Error { checked : List (List ProofLeaf) // checked.length = levels.length }
  | [] => .ok ⟨[], rfl⟩
  | leaves :: rest => do
    let first ← checkLevel index leaves
    let ⟨others, h⟩ ← checkLevels (index + 1) rest
    return ⟨first :: others, by rw [List.length_cons, List.length_cons, h]⟩

/-- The proof with these levels, if there are not too many and all leaves are well formed. -/
def ofLevels (blockHeight : UInt64) (levels : List (List Leaf)) : Except Error MerkleProof :=
  if h : levels.length ≤ maxLevels then do
    let ⟨checked, hc⟩ ← checkLevels 0 levels
    return ⟨blockHeight, checked, by rw [hc]; exact h⟩
  else .error (.tooManyLevels levels.length)

/-- The number of levels. -/
def treeHeight (proof : MerkleProof) : Nat :=
  proof.levels.length

/-- The leaves of each level. -/
def leaves (proof : MerkleProof) : List (List Leaf) :=
  proof.levels.map fun level => level.map (·.val)

@[simp] theorem length_leaves (proof : MerkleProof) : proof.leaves.length = proof.treeHeight :=
  List.length_map _

/-- The leaves of the transactions' level. -/
def bottom (proof : MerkleProof) : List Leaf :=
  proof.leaves.headD []

/-- The leaves that are marked as txids of transactions that the proof is for. -/
def targets (proof : MerkleProof) : List Leaf :=
  proof.bottom.filter (·.isTxid)

/-- The first leaf of the transactions' level, duplicates apart, whose hash is `txid`. -/
def findTxid? (proof : MerkleProof) (txid : Digest) : Option Leaf :=
  proof.bottom.find? fun leaf => !leaf.isDuplicate && leaf.hash == some txid

/-- `leaf` is the first leaf of the transactions' level that carries `txid`. -/
def ListsFirst (proof : MerkleProof) (txid : Digest) (leaf : Leaf) : Prop :=
  leaf.Carries txid ∧ ∃ before after, proof.bottom = before ++ leaf :: after ∧
    ∀ earlier ∈ before, ¬earlier.Carries txid

theorem findTxid?_eq_some_iff {proof : MerkleProof} {txid : Digest} {leaf : Leaf} :
    proof.findTxid? txid = some leaf ↔ proof.ListsFirst txid leaf := by
  have hcarries (leaf : Leaf) :
      (!leaf.isDuplicate && leaf.hash == some txid) = true ↔ leaf.Carries txid := by
    simp only [Bool.and_eq_true, Bool.not_eq_true', beq_iff_eq]
    exact ⟨fun h => ⟨h.1, h.2⟩, fun h => ⟨h.isDuplicate, h.hash⟩⟩
  simp only [findTxid?, List.find?_eq_some_iff_append, Bool.not_eq_true', ← Bool.not_eq_true,
    hcarries, ListsFirst]

theorem carries_of_findTxid? {proof : MerkleProof} {txid : Digest} {leaf : Leaf}
    (h : proof.findTxid? txid = some leaf) : leaf.Carries txid :=
  (findTxid?_eq_some_iff.mp h).1

end MerkleProof

/-! ## Nodes -/

namespace MerkleProof

/-- The first leaf that the proof lists at this place; an error if there is no such level. -/
def listed? (proof : MerkleProof) (height : Nat) (offset : UInt64) : Except Error (Option Leaf) :=
  match proof.leaves[height]? with
  | some level => .ok (Leaf.find? offset level)
  | none => .error (.childNotFound height offset)

/-- The first offset whose double does not fit in 64 bits. -/
def halfRange : UInt64 := 0x8000000000000000

/-- The node at this place: a listed leaf, or else the parent of the two nodes below. -/
def node (proof : MerkleProof) : (height : Nat) → (offset : UInt64) → Except Error Leaf
  | 0, offset =>
    match proof.listed? 0 offset with
    | .error e => throw e
    | .ok (some leaf) => return leaf
    | .ok none => throw (.childNotFound 0 offset)
  | below + 1, offset =>
    match proof.listed? (below + 1) offset with
    | .error e => throw e
    | .ok (some leaf) => return leaf
    | .ok none =>
      if offset < halfRange then do
        let left ← proof.node below (2 * offset)
        let right ← proof.node below (2 * offset + 1)
        return left.parent right
      else throw (.childNotFound below offset)

/-- The node above `base`, a node of level `height`. -/
def above (proof : MerkleProof) (base : Leaf) (height : Nat) : Except Error Leaf := do
  let sibling ← proof.node height (Leaf.pairOffset base.offset)
  return base.parent sibling

/-- The node reached from `leaf`, a node of the transactions' level, after `height` levels. -/
def reach (proof : MerkleProof) (leaf : Leaf) : (height : Nat) → Except Error Leaf
  | 0 => return leaf
  | height + 1 => do
    let base ← proof.reach leaf height
    proof.above base height

end MerkleProof

/-! ## Steps of a climb -/

namespace MerkleProof

variable {proof : MerkleProof} {leaf node : Leaf} {height : Nat} {e : Error}

theorem above_eq_ok_iff {base : Leaf} : proof.above base height = .ok node ↔
    ∃ sibling, proof.node height (Leaf.pairOffset base.offset) = .ok sibling ∧
      node = base.parent sibling := by
  rw [above, Except.bind_eq_ok_iff]
  simp [eq_comm]

theorem above_eq_error_iff {base : Leaf} : proof.above base height = .error e ↔
    proof.node height (Leaf.pairOffset base.offset) = .error e := by
  rw [above, Except.bind_eq_error_iff]
  simp

/-- A climb of one level more is a climb and a step. -/
theorem reach_succ_eq_ok_iff : proof.reach leaf (height + 1) = .ok node ↔
    ∃ base sibling, proof.reach leaf height = .ok base ∧
      proof.node height (Leaf.pairOffset base.offset) = .ok sibling ∧
      node = base.parent sibling := by
  rw [reach, Except.bind_eq_ok_iff]
  simp [above_eq_ok_iff]

/-- It fails where the shorter climb does, or at its own step. -/
theorem reach_succ_eq_error_iff : proof.reach leaf (height + 1) = .error e ↔
    proof.reach leaf height = .error e ∨ ∃ base, proof.reach leaf height = .ok base ∧
      proof.node height (Leaf.pairOffset base.offset) = .error e := by
  rw [reach, Except.bind_eq_error_iff]
  simp [above_eq_error_iff]

end MerkleProof

end SpvEnvelope
