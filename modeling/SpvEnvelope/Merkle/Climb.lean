import Std.Data.TreeMap
import SpvEnvelope.Merkle.Proof

/-!
# Climbing a Merkle proof

To climb one level is to find the node that a node is paired with and to take the parent of the two.
From a leaf of the transactions' level this ends, after all levels, at the root.

Climbs of one proof share a `NodeIndex`, which finds listed leaves by their offset, and a memory of
the nodes that were computed from their children. Neither changes an answer, which
`SpvEnvelope.Merkle.Memory` shows.

| here | there |
| --- | --- |
| `NodeIndex`, `Derived` | `IndexedPath`, its index and its memory |
| `MerkleProof.climb` | `climb_one_level` (§4.2) |
| `MerkleProof.rootAt`, `rootFrom` | `root_for_leaf`, `root_from_leaf` |
| `MerkleProof.root?` | `compute_merkle_root` (§4.2, §11.4) |
-/

namespace SpvEnvelope

/-! ## Index and memory -/

/-- For each level, the first listed leaf at each offset. -/
abbrev NodeIndex := List (Std.TreeMap UInt64 Leaf)

/-- Places are ordered by height, then by offset. -/
abbrev placeOrder : Nat × UInt64 → Nat × UInt64 → Ordering :=
  compareLex (compareOn (·.1)) (compareOn (·.2))

/-- Nodes that were computed from their children, by height and offset. -/
abbrev Derived := Std.TreeMap (Nat × UInt64) Leaf placeOrder

/-- A computation on a proof that remembers derived nodes. -/
abbrev Climb (α : Type) := EStateM Error Derived α

/-- The answer of a computation that starts without memories. -/
def Climb.answer {α : Type} (climb : Climb α) : Except Error α :=
  match climb.run ∅ with
  | .ok answer _ => .ok answer
  | .error e _ => .error e

/-- The node remembered for this place, or else the computed one, which is remembered from then
on. -/
def Climb.remember (height : Nat) (offset : UInt64) (compute : Climb Leaf) : Climb Leaf := do
  match (← get)[(height, offset)]? with
  | some leaf => return leaf
  | none => do
    let node ← compute
    modify (·.insert (height, offset) node)
    return node

/-- The index of one level. -/
def indexLevel (level : List Leaf) : Std.TreeMap UInt64 Leaf :=
  level.foldl (fun index leaf => index.insertIfNew leaf.offset leaf) ∅

/-- The index of a proof. -/
def MerkleProof.index (proof : MerkleProof) : NodeIndex :=
  proof.leaves.map indexLevel

namespace NodeIndex

/-- The first leaf that is listed at this place; an error if there is no such level. -/
def listed? (index : NodeIndex) (height : Nat) (offset : UInt64) : Except Error (Option Leaf) :=
  match index[height]? with
  | some level => .ok level[offset]?
  | none => .error (.childNotFound height offset)

/-- The node at this place: a listed leaf, or else the parent of the two nodes below. -/
def lookup (index : NodeIndex) : (height : Nat) → (offset : UInt64) → Climb Leaf
  | 0, offset =>
    match index.listed? 0 offset with
    | .error e => throw e
    | .ok (some leaf) => return leaf
    | .ok none => throw (.childNotFound 0 offset)
  | below + 1, offset =>
    match index.listed? (below + 1) offset with
    | .error e => throw e
    | .ok (some leaf) => return leaf
    | .ok none =>
      Climb.remember (below + 1) offset <|
        if offset < MerkleProof.halfRange then do
          let left ← index.lookup below (2 * offset)
          let right ← index.lookup below (2 * offset + 1)
          return left.parent right
        else throw (.childNotFound below offset)

/-- The node above `base`, a node of level `height`. -/
def climb (index : NodeIndex) (base : Leaf) (height : Nat) : Climb Leaf := do
  let sibling ← index.lookup height (Leaf.pairOffset base.offset)
  return base.parent sibling

/-- The node reached from `leaf`, a node of the transactions' level, after `height` levels. -/
def climbTo (index : NodeIndex) (leaf : Leaf) : (height : Nat) → Climb Leaf
  | 0 => return leaf
  | height + 1 => do
    let base ← index.climbTo leaf height
    index.climb base height

/-- The root reached from `leaf`, a node of the transactions' level. -/
def rootFrom (index : NodeIndex) (leaf : Leaf) : Climb Digest := do
  let top ← index.climbTo leaf index.length
  return top.hash.getD .zero

/-- The root that all of `targets` and the climbs before them, if any, reach. -/
def commonRoot? (index : NodeIndex) (blockHeight : UInt64) :
    (root? : Option Digest) → (targets : List Leaf) → Climb (Option Digest)
  | root?, [] => return root?
  | none, target :: rest => do
    let root ← index.rootFrom target
    index.commonRoot? blockHeight (some root) rest
  | some first, target :: rest => do
    let root ← index.rootFrom target
    if first = root then index.commonRoot? blockHeight (some first) rest
    else throw (.rootMismatch blockHeight first root)

end NodeIndex

/-! ## Climbs of a proof -/

namespace MerkleProof

/-- The node above the pair that contains the node at this place. -/
def climb (proof : MerkleProof) (offset : UInt64) (height : Nat) : Except Error Leaf :=
  Climb.answer do
    let base ← proof.index.lookup height offset
    proof.index.climb base height

/-- The root reached from the node at `offset` of the transactions' level. -/
def rootAt (proof : MerkleProof) (offset : UInt64) : Except Error Digest :=
  Climb.answer do
    let leaf ← proof.index.lookup 0 offset
    proof.index.rootFrom leaf

/-- The root reached from `leaf`, taken as a node of the transactions' level. -/
def rootFrom (proof : MerkleProof) (leaf : Leaf) : Except Error Digest :=
  Climb.answer (proof.index.rootFrom leaf)

/-- The root that the proof shows: the one that all targets reach, or none if there is no target. -/
def root? (proof : MerkleProof) : Except Error (Option Digest) :=
  Climb.answer (proof.index.commonRoot? proof.blockHeight none proof.targets)

end MerkleProof

end SpvEnvelope
