import SpvEnvelope.Bytes.VarInt
import SpvEnvelope.Merkle.Proof

/-!
# Wire form of Merkle proofs

The block height and the number of levels come first. Each level is its leaf count and its leaves,
and each leaf is its offset, its flag and, unless it is a duplicate, its hash.

A leaf count is refused when the bytes that remain could not hold that many of the smallest leaves.

| here | there |
| --- | --- |
| `MerkleProof.encode`, `text` | `Bump.to_bytes`, `to_hex` (§11.1) |
| `MerkleProof.read`, `readLevel` | `Bump.read_from`, `read_level` (§4.3) |
| `MerkleProof.ofBytes`, `ofText` | `Bump.from_bytes`, `from_hex` (§11.2) |
-/

namespace SpvEnvelope

/-! ## Writing -/

/-- The wire form of a leaf. -/
def Leaf.encode (leaf : Leaf) : List UInt8 :=
  VarInt.encode leaf.offset ++ [leaf.flag]
    ++ if leaf.isDuplicate then [] else (leaf.hash.map (·.bytes)).getD []

namespace MerkleProof

/-- The wire form of a level. -/
def encodeLevel (level : List ProofLeaf) : List UInt8 :=
  VarInt.encodeCount level.length ++ level.flatMap (·.val.encode)

/-- The wire form of a proof. -/
def encode (proof : MerkleProof) : List UInt8 :=
  VarInt.encode proof.blockHeight ++ [UInt8.ofNat proof.treeHeight]
    ++ proof.levels.flatMap encodeLevel

/-- The hex text of the wire form. -/
def text (proof : MerkleProof) : String :=
  Hex.encode proof.encode

end MerkleProof

/-! ## Reading -/

/-- Reads a leaf. -/
def Leaf.read : Reader LeafFault ProofLeaf := do
  let offset ← VarInt.read.mapError fun _ => .offsetCut
  let flag ← Reader.u8.mapError fun _ => .flagCut
  if flag = duplicateFlag then return .duplicate offset
  else if flag = dataFlag then
    let hash ← Digest.read.mapError fun _ => .hashCut
    return .ofHash offset hash
  else if flag = txidFlag then
    let txid ← Digest.read.mapError fun _ => .hashCut
    return .ofTxid offset txid
  else throw (.badFlag flag)

/-- The length of the shortest leaf. -/
def Leaf.minLength : Nat := 2

namespace MerkleProof

/-- Reads a level. -/
def readLevel : Reader LevelFault (List ProofLeaf) := do
  let count ← VarInt.read.mapError fun _ => .countCut
  let input ← get
  if VarInt.sizeLimit ≤ count.toNat then throw (.countTooLarge count)
  else if hasAtLeast (count.toNat * Leaf.minLength) input then
    let leaves ← Reader.items count.toNat fun index => Leaf.read.mapError (.leaf index)
    return leaves.val
  else throw (.implausibleCount count input.length)

/-- Reads a proof. -/
def read : Reader ProofFault MerkleProof := do
  let blockHeight ← VarInt.read.mapError fun _ => .blockHeightCut
  let treeHeight ← Reader.u8.mapError fun _ => .treeHeightCut
  if h : treeHeight.toNat ≤ maxLevels then
    let ⟨levels, hl⟩ ← Reader.items treeHeight.toNat fun index => readLevel.mapError (.level index)
    return ⟨blockHeight, levels, by rw [hl]; exact h⟩
  else throw (.treeHeightTooLarge treeHeight)

/-- The proof whose wire form is `bytes`, in full. -/
def ofBytes (bytes : List UInt8) : Except DecodeError MerkleProof :=
  match read.run bytes with
  | .ok proof [] => .ok proof
  | .ok _ rest => .error (.trailing rest.length)
  | .error fault _ => .error (.proof 0 fault)

/-- The proof whose wire form has the hex text `text`. -/
def ofText (text : String) : Except DecodeError MerkleProof :=
  match Hex.decode text with
  | .ok bytes => ofBytes bytes
  | .error cause => .error (.hex cause)

end MerkleProof

end SpvEnvelope
