import SpvEnvelope.Certify.Walk
import SpvEnvelope.Json.Value

/-!
# JSON form of certifications

All fields are written, and all of them are needed to read a certification back.

| here | there |
| --- | --- |
| `Anchor.toJson`, `ofJson` | the serialised form of an `Anchor` |
| `Certification.toJson`, `ofJson` | the serialised form of a `Certification` |
-/

namespace SpvEnvelope

/-! ## Anchors -/

namespace Anchor

/-- The JSON form of an anchor. -/
def toJson (anchor : Anchor) : Json :=
  .obj [
    ("txid", .ofDigest anchor.txid),
    ("bumpIndex", .ofUInt64 anchor.proofIndex),
    ("blockHeight", .ofUInt64 anchor.blockHeight),
    ("offset", .ofUInt64 anchor.offset),
    ("merkleRoot", .ofDigest anchor.merkleRoot)]

/-- An anchor whose parts may not be known yet. -/
structure Draft where
  txid : Option Digest := none
  proofIndex : Option UInt64 := none
  blockHeight : Option UInt64 := none
  offset : Option UInt64 := none
  merkleRoot : Option Digest := none

/-- Takes a named value into a draft. -/
def Draft.set (draft : Draft) : String × Json → Except JsonError Draft
  | ("txid", value) => do return { draft with txid := some (← value.toDigest) }
  | ("bumpIndex", value) => do return { draft with proofIndex := some (← value.toUInt64) }
  | ("blockHeight", value) => do return { draft with blockHeight := some (← value.toUInt64) }
  | ("offset", value) => do return { draft with offset := some (← value.toUInt64) }
  | ("merkleRoot", value) => do return { draft with merkleRoot := some (← value.toDigest) }
  | _ => .ok draft

/-- The anchor with this JSON form. -/
def ofJson (json : Json) : Except JsonError Anchor := do
  let draft ←
    json.toDraft ["txid", "bumpIndex", "blockHeight", "offset", "merkleRoot"] Draft.set {}
  return {
    txid := ← Json.required draft.txid
    proofIndex := ← Json.required draft.proofIndex
    blockHeight := ← Json.required draft.blockHeight
    offset := ← Json.required draft.offset
    merkleRoot := ← Json.required draft.merkleRoot }

end Anchor

/-! ## Certifications -/

namespace Certification

/-- The JSON form of a certification. -/
def toJson (certification : Certification) : Json :=
  .obj [
    ("targetTxid", .ofDigest certification.target),
    ("validatedTxids", .arr (certification.validated.map .ofDigest)),
    ("anchors", .arr (certification.anchors.map Anchor.toJson))]

/-- A certification whose parts may not be known yet. -/
structure Draft where
  target : Option Digest := none
  validated : Option (List Digest) := none
  anchors : Option (List Anchor) := none

/-- Takes a named value into a draft. -/
def Draft.set (draft : Draft) : String × Json → Except JsonError Draft
  | ("targetTxid", value) => do return { draft with target := some (← value.toDigest) }
  | ("validatedTxids", value) => do
    return { draft with validated := some (← value.toList Json.toDigest) }
  | ("anchors", value) => do return { draft with anchors := some (← value.toList Anchor.ofJson) }
  | _ => .ok draft

/-- The certification with this JSON form. -/
def ofJson (json : Json) : Except JsonError Certification := do
  let draft ← json.toDraft ["targetTxid", "validatedTxids", "anchors"] Draft.set {}
  return {
    target := ← Json.required draft.target
    validated := ← Json.required draft.validated
    anchors := ← Json.required draft.anchors }

end Certification

end SpvEnvelope
