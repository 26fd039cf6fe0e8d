import SpvEnvelope.Json.Certification
import SpvEnvelope.Json.Proof
import SpvEnvelope.Proofs.JsonText
import SpvEnvelope.Proofs.RoundTrip

/-!
# JSON forms read back

What is written as JSON is read back: numbers and digests, then the fields of a record one by one,
then lists of records. A leaf leaves out what is absent or false, which is what a missing field is
read as, and one that is not well formed is refused for that. So a proof has a JSON form and a wire
form and is the same value in both (`Json.agrees_with_wire`).

A text is turned into a JSON value by a parser, of which nothing is assumed but that it gives back
the value that the text was written from (`Json.ReadsBack`). `Json.parse` is one that does so for
everything that is written here, since all its numbers are natural.
-/

namespace SpvEnvelope

namespace Json

/-! ## Values -/

@[simp] theorem toUInt64_ofUInt64 (value : UInt64) : (ofUInt64 value).toUInt64 = .ok value := by
  rw [ofUInt64, toUInt64, if_pos value.toNat_lt, UInt64.ofNat_toNat]

@[simp] theorem toDigest_ofDigest (digest : Digest) : (ofDigest digest).toDigest = .ok digest := by
  simp [ofDigest, toDigest]

@[simp] theorem toOption_ofDigest (digest : Digest) :
    (ofDigest digest).toOption toDigest = .ok (some digest) := by
  have h : (ofDigest digest).toOption toDigest = some <$> (ofDigest digest).toDigest := rfl
  rw [h, toDigest_ofDigest]
  rfl

/-- A list is read back if each of its items is. -/
theorem toList_arr_map {α : Type} {read : Json → Except JsonError α} {write : α → Json}
    {values : List α} (h : ∀ value ∈ values, read (write value) = .ok value) :
    (arr (values.map write)).toList read = .ok values := by
  rw [toList]
  induction values with
  | nil => rfl
  | cons value rest ih =>
    obtain ⟨hvalue, hrest⟩ := List.forall_mem_cons.mp h
    rw [List.map_cons, List.mapM_cons, hvalue, ih hrest]
    rfl

/-! ## Texts -/

/-- The parser gives back the value that this text was written from. -/
def ReadsBack (parse : String → Except JsonError Json) (json : Json) : Prop :=
  parse json.render = .ok json

/-- What the JSON value in a text stands for. -/
def ofText {α : Type} (parse : String → Except JsonError Json) (read : Json → Except JsonError α)
    (text : String) : Except JsonError α := do
  read (← parse text)

theorem IsPlain.readsBack {json : Json} (h : json.IsPlain) : ReadsBack parse json :=
  parse_render h

theorem ReadsBack.ofText_render {α : Type} {parse : String → Except JsonError Json} {json : Json}
    (h : ReadsBack parse json) (read : Json → Except JsonError α) :
    ofText parse read json.render = read json := by
  rw [ofText, h]
  rfl

end Json

/-! ## Leaves and proofs -/

namespace Leaf

@[simp] theorem isPlain_toJson (leaf : Leaf) : leaf.toJson.IsPlain := by
  obtain ⟨offset, hash, isTxid, isDuplicate⟩ := leaf
  cases hash <;> cases isTxid <;> cases isDuplicate <;>
    simp [toJson, Json.ofUInt64, Json.ofDigest]

@[simp] theorem toDraft_toJson (leaf : Leaf) :
    leaf.toJson.toDraft ["offset", "hash", "txid", "duplicate"] Draft.set {} =
      .ok ⟨some leaf.offset, leaf.hash, leaf.isTxid, leaf.isDuplicate⟩ := by
  obtain ⟨offset, hash, isTxid, isDuplicate⟩ := leaf
  rw [toJson, Json.toDraft_obj_eq_ok_iff]
  constructor
  · cases hash <;> cases isTxid <;> cases isDuplicate <;> simp [Json.knownNames]
  · cases hash <;> cases isTxid <;> cases isDuplicate <;> simp [Draft.set, Json.toBool]

/-- A leaf is read back if it is well formed, and refused otherwise. -/
@[simp] theorem ofJson_toJson (leaf : Leaf) : ofJson leaf.toJson =
    if leaf.isWellFormed then .ok leaf else .error (.malformedLeaf leaf.offset) := by
  rw [ofJson, toDraft_toJson]
  rfl

end Leaf

namespace MerkleProof

@[simp] theorem isPlain_toJson (proof : MerkleProof) : proof.toJson.IsPlain := by
  simp [toJson, Json.ofUInt64]

@[simp] theorem toList_leaves (proof : MerkleProof) :
    (Json.arr (proof.leaves.map fun level => .arr (level.map Leaf.toJson))).toList
      (Json.toList Leaf.ofJson) = .ok proof.leaves := by
  refine Json.toList_arr_map fun level hlevel => Json.toList_arr_map fun leaf hleaf => ?_
  have hw := Leaf.isWellFormed_iff.mpr (proof.isShaped_leaves.leaf level hlevel leaf hleaf)
  simp [if_pos hw]

@[simp] theorem toDraft_toJson (proof : MerkleProof) :
    proof.toJson.toDraft ["blockHeight", "path"] Draft.set {} =
      .ok ⟨some proof.blockHeight, some proof.leaves⟩ := by
  rw [toJson, Json.toDraft_obj_eq_ok_iff]
  constructor
  · simp [Json.knownNames]
  · simp [Draft.set]

/-- What is read as a proof are levels that are accepted. -/
theorem ofLevels_of_ofJson {json : Json} {proof : MerkleProof} (h : ofJson json = .ok proof) :
    ∃ blockHeight levels, ofLevels blockHeight levels = .ok proof := by
  obtain ⟨draft, -, h⟩ := Except.bind_eq_ok_iff.mp h
  obtain ⟨blockHeight, -, h⟩ := Except.bind_eq_ok_iff.mp h
  obtain ⟨levels, -, h⟩ := Except.bind_eq_ok_iff.mp h
  refine ⟨blockHeight, levels, ?_⟩
  split at h
  · rename_i accepted hlevels
    cases h
    exact hlevels
  · cases h

@[simp] theorem ofJson_toJson (proof : MerkleProof) : ofJson proof.toJson = .ok proof := by
  rw [ofJson, toDraft_toJson]
  simp only [Except.ok_bind, Json.required, ofLevels_leaves]
  rfl

end MerkleProof

/-! ## Certifications -/

namespace Anchor

@[simp] theorem isPlain_toJson (anchor : Anchor) : anchor.toJson.IsPlain := by
  simp [toJson, Json.ofUInt64, Json.ofDigest]

@[simp] theorem toDraft_toJson (anchor : Anchor) :
    anchor.toJson.toDraft ["txid", "bumpIndex", "blockHeight", "offset", "merkleRoot"]
      Draft.set {} = .ok ⟨some anchor.txid, some anchor.proofIndex, some anchor.blockHeight,
        some anchor.offset, some anchor.merkleRoot⟩ := by
  rw [toJson, Json.toDraft_obj_eq_ok_iff]
  constructor
  · simp [Json.knownNames]
  · simp [Draft.set]

@[simp] theorem ofJson_toJson (anchor : Anchor) : ofJson anchor.toJson = .ok anchor := by
  rw [ofJson, toDraft_toJson]
  rfl

end Anchor

namespace Certification

@[simp] theorem isPlain_toJson (certification : Certification) : certification.toJson.IsPlain := by
  simp [toJson, Json.ofDigest]

@[simp] theorem toDraft_toJson (certification : Certification) :
    certification.toJson.toDraft ["targetTxid", "validatedTxids", "anchors"] Draft.set {} =
      .ok ⟨some certification.target, some certification.validated,
        some certification.anchors⟩ := by
  have hvalidated : (Json.arr (certification.validated.map .ofDigest)).toList Json.toDigest =
      .ok certification.validated :=
    Json.toList_arr_map fun txid _ => Json.toDigest_ofDigest txid
  have hanchors : (Json.arr (certification.anchors.map Anchor.toJson)).toList Anchor.ofJson =
      .ok certification.anchors :=
    Json.toList_arr_map fun anchor _ => anchor.ofJson_toJson
  rw [toJson, Json.toDraft_obj_eq_ok_iff]
  constructor
  · simp [Json.knownNames]
  · simp [Draft.set, hvalidated, hanchors]

@[simp] theorem ofJson_toJson (certification : Certification) :
    ofJson certification.toJson = .ok certification := by
  rw [ofJson, toDraft_toJson]
  rfl

end Certification

/-! ## Both forms -/

namespace Json

/-- **JSON forms and wire forms denote the same values.** A proof is read back from its JSON text,
and whatever JSON is read as a proof, this is one whose levels are accepted and whose wire form is
decoded as it; only a proof with more leaves on a level than can be counted would not be. A leaf is
read back from its JSON text if it is well formed and refused otherwise, and every certification is
read back. -/
theorem agrees_with_wire :
    (∀ parse (proof : MerkleProof), ReadsBack parse proof.toJson →
      ofText parse MerkleProof.ofJson proof.toJson.render = .ok proof) ∧
    (∀ json proof, MerkleProof.ofJson json = .ok proof →
      MerkleProof.ofLevels proof.blockHeight proof.leaves = .ok proof ∧
      (MerkleProof.ofBytes proof.encode = .ok proof ↔ proof.Sized)) ∧
    (∀ parse (leaf : Leaf), ReadsBack parse leaf.toJson →
      ofText parse Leaf.ofJson leaf.toJson.render =
        if leaf.isWellFormed then .ok leaf else .error (.malformedLeaf leaf.offset)) ∧
    (∀ parse (certification : Certification), ReadsBack parse certification.toJson →
      ofText parse Certification.ofJson certification.toJson.render = .ok certification) := by
  refine ⟨?_, ?_, ?_, ?_⟩
  · intro parse proof h
    simp [h.ofText_render]
  · intro json proof h
    obtain ⟨blockHeight, levels, hlevels⟩ := MerkleProof.ofLevels_of_ofJson h
    obtain ⟨rfl, rfl⟩ := MerkleProof.leaves_of_ofLevels hlevels
    exact ⟨hlevels, fun h => (MerkleProof.ofBytes_eq_ok.mp h).1,
      MerkleProof.ofBytes_encode_of_sized⟩
  · intro parse leaf h
    simp [h.ofText_render]
  · intro parse certification h
    simp [h.ofText_render]

/-- A proof in which the text of a hash is empty. -/
def shortHash : Json :=
  .obj [("blockHeight", .nat 7),
    ("path", .arr [.arr [.obj [("hash", .str ""), ("offset", .nat 5)]]])]

/-- The proof that this is read as. -/
def zeroHashProof : MerkleProof where
  blockHeight := 7
  levels := [[.ofHash 5 .zero]]
  length_levels := by decide

/-- A leaf that is not well formed: a duplicate with a hash. -/
def hashedDuplicate : Leaf where
  offset := 3
  hash := some .zero
  isDuplicate := true

/-- A certification with an anchor. -/
def anchored : Certification where
  target := .double []
  validated := [.double [], .double [1]]
  anchors := [{
    txid := .zero
    proofIndex := 0
    blockHeight := 7
    offset := 0xffffffffffffffff
    merkleRoot := .double [2] }]

theorem agrees_with_wire_zeroHashProof :
    ReadsBack parse zeroHashProof.toJson ∧
      ofText parse MerkleProof.ofJson zeroHashProof.toJson.render = .ok zeroHashProof ∧
      MerkleProof.ofJson shortHash = .ok zeroHashProof ∧ zeroHashProof.Sized ∧
      MerkleProof.ofBytes zeroHashProof.encode = .ok zeroHashProof ∧
      ReadsBack parse hashedDuplicate.toJson ∧
      ofText parse Leaf.ofJson hashedDuplicate.toJson.render = .error (.malformedLeaf 3) ∧
      ReadsBack parse anchored.toJson ∧
      ofText parse Certification.ofJson anchored.toJson.render = .ok anchored := by
  obtain ⟨hproof, hjson, hleaf, hcertification⟩ := agrees_with_wire
  have hproofText := zeroHashProof.isPlain_toJson.readsBack
  have hleafText := hashedDuplicate.isPlain_toJson.readsBack
  have hcertificationText := anchored.isPlain_toJson.readsBack
  have hshort : MerkleProof.ofJson shortHash = .ok zeroHashProof := by rfl
  have hsized : zeroHashProof.Sized := by
    intro level hm
    rw [List.mem_singleton.mp hm]
    decide
  exact ⟨hproofText, hproof _ _ hproofText, hshort, hsized, (hjson _ _ hshort).2.mpr hsized,
    hleafText, hleaf _ _ hleafText, hcertificationText, hcertification _ _ hcertificationText⟩

end Json

end SpvEnvelope
