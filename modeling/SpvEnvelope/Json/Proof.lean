import SpvEnvelope.Json.Value
import SpvEnvelope.Merkle.Proof

/-!
# JSON form of Merkle proofs

A leaf is written with its offset and whatever it has of hash, mark and duplicate flag; a proof with
its block height and its levels. A leaf that is not well formed can be written but not read.

| here | there |
| --- | --- |
| `Leaf.toJson`, `ofJson` | the serialised form of a `BumpLeaf`, read through `RawLeaf` |
| `MerkleProof.toJson`, `ofJson` | the serialised form of a `Bump`, read through `RawBump` |
-/

namespace SpvEnvelope

/-! ## Leaves -/

namespace Leaf

/-- The JSON form of a leaf. -/
def toJson (leaf : Leaf) : Json :=
  .obj <|
    [("offset", .ofUInt64 leaf.offset)]
      ++ (match leaf.hash with
        | some hash => [("hash", .ofDigest hash)]
        | none => [])
      ++ (if leaf.isTxid then [("txid", .bool true)] else [])
      ++ (if leaf.isDuplicate then [("duplicate", .bool true)] else [])

/-- A leaf whose offset may not be known yet. -/
structure Draft where
  offset : Option UInt64 := none
  hash : Option Digest := none
  isTxid : Bool := false
  isDuplicate : Bool := false

/-- Takes a named value into a draft. -/
def Draft.set (draft : Draft) : String × Json → Except JsonError Draft
  | ("offset", value) => do return { draft with offset := some (← value.toUInt64) }
  | ("hash", value) => do return { draft with hash := ← value.toOption Json.toDigest }
  | ("txid", value) => do return { draft with isTxid := ← value.toBool }
  | ("duplicate", value) => do return { draft with isDuplicate := ← value.toBool }
  | _ => .ok draft

/-- The leaf with this JSON form, which must be well formed. -/
def ofJson (json : Json) : Except JsonError Leaf := do
  let draft ← json.toDraft ["offset", "hash", "txid", "duplicate"] Draft.set {}
  let offset ← Json.required draft.offset
  let leaf : Leaf := ⟨offset, draft.hash, draft.isTxid, draft.isDuplicate⟩
  if leaf.isWellFormed then return leaf else throw (.malformedLeaf offset)

end Leaf

/-! ## Proofs -/

namespace MerkleProof

/-- The JSON form of a proof. -/
def toJson (proof : MerkleProof) : Json :=
  .obj [
    ("blockHeight", .ofUInt64 proof.blockHeight),
    ("path", .arr (proof.leaves.map fun level => .arr (level.map Leaf.toJson)))]

/-- A proof whose parts may not be known yet. -/
structure Draft where
  blockHeight : Option UInt64 := none
  levels : Option (List (List Leaf)) := none

/-- Takes a named value into a draft. -/
def Draft.set (draft : Draft) : String × Json → Except JsonError Draft
  | ("blockHeight", value) => do return { draft with blockHeight := some (← value.toUInt64) }
  | ("path", value) => do
    return { draft with levels := some (← value.toList (Json.toList Leaf.ofJson)) }
  | _ => .ok draft

/-- The proof with this JSON form. -/
def ofJson (json : Json) : Except JsonError MerkleProof := do
  let draft ← json.toDraft ["blockHeight", "path"] Draft.set {}
  let blockHeight ← Json.required draft.blockHeight
  let levels ← Json.required draft.levels
  match ofLevels blockHeight levels with
  | .ok proof => return proof
  | .error cause => throw (.proof cause)

end MerkleProof

end SpvEnvelope
