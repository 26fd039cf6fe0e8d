import SpvEnvelope.Hash.Digest

/-!
# Leaves of a Merkle proof

A proof lists nodes of the tree level by level. Each listed node is called a leaf, whatever its
level. A leaf carries a hash, and possibly the mark that this hash is the txid of a transaction that
the proof is for; or it is a duplicate, which carries none and stands for a copy of the node it is
paired with.

The parent of two nodes is the double SHA-256 of the left digest followed by the right one. The same
computation is offered on digests, on byte strings in shown order and on texts.

| here | there |
| --- | --- |
| `Leaf` | `BumpLeaf` (§3) |
| `Leaf.isWellFormed`, `flag` | `is_well_formed`, `flag` |
| `Leaf.find?` | `find_leaf` (§4.2) |
| `Leaf.pairOffset` | `pair_offset` (§4.2) |
| `Leaf.pairHashes`, `Leaf.parent` | `prepare_nodes` (§4.2), `parent_of` |
| `Merkle.parent`, `parentOfShown`, `parentOfTexts` | `merkle_tree_parent`, `merkle_tree_parent_bytes`, `merkle_tree_parent_str` (§4.1) |
-/

namespace SpvEnvelope

/-! ## Parents -/

namespace Merkle

/-- The parent of two nodes. -/
def parent (left right : Digest) : Digest :=
  Digest.double (left.bytes ++ right.bytes)

/-- The parent of two nodes given and returned in shown order; an empty side is the digest of
zeros. -/
def parentOfShown (left right : List UInt8) : Except Digest.Error (List UInt8) := do
  let left ← Digest.ofShownBytes left
  let right ← Digest.ofShownBytes right
  return (parent left right).shownBytes

/-- The parent of two nodes given and returned as texts; an empty side is the digest of zeros. -/
def parentOfTexts (left right : String) : Except Digest.Error String := do
  let left ← Digest.ofText left
  let right ← Digest.ofText right
  return (parent left right).text

end Merkle

/-! ## Leaves -/

/-- A node listed by a proof, not necessarily well formed. -/
@[ext] structure Leaf where
  /-- Position within the level. -/
  offset : UInt64
  hash : Option Digest := none
  /-- The hash is the txid of a transaction that the proof is for. -/
  isTxid : Bool := false
  /-- The leaf copies the node it is paired with. -/
  isDuplicate : Bool := false
deriving DecidableEq

namespace Leaf

/-- A node with a hash. -/
def ofHash (offset : UInt64) (hash : Digest) : Leaf :=
  { offset, hash := some hash }

/-- A transaction that the proof is for. -/
def ofTxid (offset : UInt64) (txid : Digest) : Leaf :=
  { offset, hash := some txid, isTxid := true }

/-- A copy of the paired node. -/
def duplicate (offset : UInt64) : Leaf :=
  { offset, isDuplicate := true }

/-- A duplicate has neither hash nor mark, and any other leaf has a hash. -/
def isWellFormed (leaf : Leaf) : Bool :=
  if leaf.isDuplicate then leaf.hash.isNone && !leaf.isTxid else leaf.hash.isSome

/-- The leaf is no duplicate and has this hash. -/
structure Carries (leaf : Leaf) (hash : Digest) : Prop where
  isDuplicate : leaf.isDuplicate = false
  hash : leaf.hash = some hash

@[simp] theorem isWellFormed_ofHash (offset : UInt64) (hash : Digest) :
    (ofHash offset hash).isWellFormed = true := rfl

@[simp] theorem isWellFormed_ofTxid (offset : UInt64) (txid : Digest) :
    (ofTxid offset txid).isWellFormed = true := rfl

@[simp]
theorem isWellFormed_duplicate (offset : UInt64) : (duplicate offset).isWellFormed = true := rfl

/-- The flag of a leaf with a hash. -/
def dataFlag : UInt8 := 0

/-- The flag of a duplicate. -/
def duplicateFlag : UInt8 := 1

/-- The flag of a leaf with a txid. -/
def txidFlag : UInt8 := 2

/-- The flag that tells the kind of leaf in the wire form. -/
def flag (leaf : Leaf) : UInt8 :=
  if leaf.isDuplicate then duplicateFlag else if leaf.isTxid then txidFlag else dataFlag

/-- The first leaf listed at `offset`. -/
def find? (offset : UInt64) (level : List Leaf) : Option Leaf :=
  level.find? fun leaf => leaf.offset == offset

/-! ## Pairs -/

/-- The offset of the node that the one at `offset` is paired with. -/
def pairOffset (offset : UInt64) : UInt64 :=
  offset ^^^ 1

@[simp] theorem toNat_pairOffset (offset : UInt64) :
    (pairOffset offset).toNat = offset.toNat ^^^ 1 := UInt64.toNat_xor _ _

/-- The pair's other member is paired with this one. -/
@[simp] theorem pairOffset_pairOffset (offset : UInt64) :
    pairOffset (pairOffset offset) = offset := by
  rw [pairOffset, pairOffset, UInt64.xor_assoc, UInt64.xor_self, UInt64.xor_zero]

/-- Both members of a pair are below the same node. -/
@[simp] theorem pairOffset_div_two (offset : UInt64) : pairOffset offset / 2 = offset / 2 := by
  rw [← UInt64.toNat_inj]
  show (pairOffset offset).toNat / 2 = offset.toNat / 2
  rw [toNat_pairOffset, Nat.xor_div_two, show 1 / 2 = 0 from rfl, Nat.xor_zero]

/-- The hashes of the left and right node of a pair whose member `base` stands at `baseOffset`. The
even offset is on the left. A duplicate has the hash of the other node, and a hash that neither node
can give is zero. -/
def pairHashes (base : Leaf) (baseOffset : UInt64) (sibling : Leaf) : Digest × Digest :=
  let baseHash := (if base.isDuplicate then sibling.hash else base.hash).getD .zero
  let siblingHash := (if sibling.isDuplicate then base.hash else sibling.hash).getD .zero
  if baseOffset % 2 = 0 then (baseHash, siblingHash) else (siblingHash, baseHash)

/-- The node above a pair. -/
def parent (base sibling : Leaf) : Leaf :=
  let (left, right) := base.pairHashes base.offset sibling
  .ofHash (base.offset / 2) (Merkle.parent left right)

theorem mod_two_eq_zero_iff (offset : UInt64) : offset % 2 = 0 ↔ offset.toNat % 2 = 0 := by
  rw [← UInt64.toNat_inj]
  rfl

@[simp] theorem toNat_offset_parent (base sibling : Leaf) :
    (base.parent sibling).offset.toNat = base.offset.toNat / 2 := UInt64.toNat_div _ _

end Leaf

/-- A well-formed leaf. -/
abbrev ProofLeaf := { leaf : Leaf // leaf.isWellFormed = true }

namespace ProofLeaf

@[inherit_doc Leaf.ofHash]
def ofHash (offset : UInt64) (hash : Digest) : ProofLeaf :=
  ⟨.ofHash offset hash, Leaf.isWellFormed_ofHash offset hash⟩

@[inherit_doc Leaf.ofTxid]
def ofTxid (offset : UInt64) (txid : Digest) : ProofLeaf :=
  ⟨.ofTxid offset txid, Leaf.isWellFormed_ofTxid offset txid⟩

@[inherit_doc Leaf.duplicate]
def duplicate (offset : UInt64) : ProofLeaf :=
  ⟨.duplicate offset, Leaf.isWellFormed_duplicate offset⟩

@[simp] theorem val_ofHash (offset : UInt64) (hash : Digest) :
    (ofHash offset hash).val = .ofHash offset hash := rfl

@[simp] theorem val_ofTxid (offset : UInt64) (txid : Digest) :
    (ofTxid offset txid).val = .ofTxid offset txid := rfl

@[simp] theorem val_duplicate (offset : UInt64) : (duplicate offset).val = .duplicate offset := rfl

end ProofLeaf

end SpvEnvelope
