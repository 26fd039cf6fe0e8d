import SpvEnvelope.Proofs.Targets

/-!
# Gaps of a Merkle proof

A look-up of a node asks for places further and further down until it finds listed leaves or comes to
a gap (`exists_gap_of_node`). There are three kinds of gap. Two are named as they are: the level is
not there, or it is the transactions' level and has no leaf at this place. The third is a node to be
derived whose children would have offsets of more than 64 bits. Its error names the children's level
but the node's own offset, where a leaf may well be listed (`Merkle.climb_farProof`). Apart from that,
a place that a failed step of a climb names is not listed (`missing_of_climb`).

Level `height` of a tree of 64 levels has `2 ^ (64 - height)` places. A look-up of one of them asks
for no others (`Asks.inRange`) and so does not come to a gap of the third kind. A climb from the
transactions only looks up nodes that such a tree has (`ClimbAsks.inRange`): going up, its offset is
halved on each level, and going down to derive a node it is doubled no more often. So the children of
a node to be derived always have offsets in range, and all that can be missing is a transaction
(`lacksTransaction_of_failure`).
-/

namespace SpvEnvelope

namespace MerkleProof

variable {proof : MerkleProof} {leaf base : Leaf} {height height' below : Nat}
  {offset offset' : UInt64} {e : Error}

/-! ## Gaps -/

/-- A look-up of this place goes no further, with this error. -/
inductive Gap (proof : MerkleProof) : Nat → UInt64 → Error → Prop
  /-- There is no such level. -/
  | noLevel {height : Nat} {offset : UInt64} (h : proof.treeHeight ≤ height) :
      Gap proof height offset (.childNotFound height offset)
  /-- No transaction is listed here. -/
  | unlisted {offset : UInt64} (h : proof.listed? 0 offset = .ok none) :
      Gap proof 0 offset (.childNotFound 0 offset)
  /-- The node is to be derived, but the offsets of its children are out of range. -/
  | outOfRange {below : Nat} {offset : UInt64}
      (omitted : proof.listed? (below + 1) offset = .ok none) (far : ¬offset < halfRange) :
      Gap proof (below + 1) offset (.childNotFound below offset)

theorem not_lists_of_treeHeight_le {offset : Nat} (h : proof.treeHeight ≤ height) :
    ¬proof.Lists height offset := by
  rintro ⟨level, hl, -⟩
  have hlt := (List.getElem?_eq_some_iff.mp hl).1
  rw [length_leaves] at hlt
  omega

/-- Nothing is listed at a gap. -/
theorem Gap.not_lists (h : proof.Gap height offset e) : ¬proof.Lists height offset.toNat := by
  cases h with
  | noLevel h => exact not_lists_of_treeHeight_le h
  | unlisted h => exact not_lists_of_listed? h
  | outOfRange omitted _ => exact not_lists_of_listed? omitted

/-- A look-up fails at a gap, or because the look-up of one of the children fails. -/
theorem node_error_cases (h : proof.node height offset = .error e) :
    proof.Gap height offset e ∨ ∃ below, height = below + 1 ∧
      proof.listed? height offset = .ok none ∧ offset < halfRange ∧
      (proof.node below (2 * offset) = .error e ∨ proof.node below (2 * offset + 1) = .error e) := by
  cases hl : proof.listed? height offset with
  | error e' =>
    obtain ⟨rfl, hle⟩ := listed?_eq_error hl
    have he : e = .childNotFound height offset := by
      cases height <;> · rw [node, hl] at h; cases h; rfl
    exact .inl (he ▸ .noLevel hle)
  | ok leaf? =>
    cases leaf? with
    | some leaf => exact absurd (node_eq_ok_iff.mpr (.inl hl)) (by simp [h])
    | none =>
      cases height with
      | zero =>
        rw [node, hl] at h
        cases h
        exact .inl (.unlisted hl)
      | succ below =>
        rw [node, hl] at h
        by_cases hfits : offset < halfRange
        · refine .inr ⟨below, rfl, rfl, hfits, ?_⟩
          simp only [if_pos hfits] at h
          rcases Except.bind_eq_error_iff.mp h with hleft | ⟨left, -, h⟩
          · exact .inl hleft
          · rcases Except.bind_eq_error_iff.mp h with hright | ⟨right, -, h⟩
            · exact .inr hright
            · cases h
        · simp only [if_neg hfits] at h
          cases h
          exact .inl (.outOfRange hl hfits)

/-- To find the node at the first place, the second one is looked up. -/
inductive Asks (proof : MerkleProof) : Nat → UInt64 → Nat → UInt64 → Prop
  | self {height : Nat} {offset : UInt64} : Asks proof height offset height offset
  | left {below height : Nat} {offset offset' : UInt64}
      (omitted : proof.listed? (below + 1) offset = .ok none) (fits : offset < halfRange)
      (h : Asks proof below (2 * offset) height offset') : Asks proof (below + 1) offset height offset'
  | right {below height : Nat} {offset offset' : UInt64}
      (omitted : proof.listed? (below + 1) offset = .ok none) (fits : offset < halfRange)
      (h : Asks proof below (2 * offset + 1) height offset') :
      Asks proof (below + 1) offset height offset'

/-- A look-up that fails has come to a gap. -/
theorem exists_gap_of_node (h : proof.node height offset = .error e) :
    ∃ height' offset', proof.Asks height offset height' offset' ∧ proof.Gap height' offset' e := by
  induction height generalizing offset with
  | zero =>
    rcases node_error_cases h with hgap | ⟨below, hzero, -⟩
    · exact ⟨0, offset, .self, hgap⟩
    · cases hzero
  | succ height ih =>
    rcases node_error_cases h with hgap | ⟨below, hsucc, omitted, fits, hchild⟩
    · exact ⟨height + 1, offset, .self, hgap⟩
    · cases hsucc
      rcases hchild with hleft | hright
      · obtain ⟨height', offset', hasks, hgap⟩ := ih hleft
        exact ⟨height', offset', .left omitted fits hasks, hgap⟩
      · obtain ⟨height', offset', hasks, hgap⟩ := ih hright
        exact ⟨height', offset', .right omitted fits hasks, hgap⟩

/-! ## Places of a tree of 64 levels -/

/-- Level `height` of a tree of 64 levels has this place. -/
def InRange (height : Nat) (offset : UInt64) : Prop :=
  offset.toNat < 2 ^ (64 - height)

instance (height : Nat) (offset : UInt64) : Decidable (InRange height offset) :=
  inferInstanceAs (Decidable (_ < _))

namespace InRange

theorem lt_halfRange (h : InRange (below + 1) offset) : offset < halfRange := by
  have hle : 2 ^ (64 - (below + 1)) ≤ 2 ^ 63 := Nat.pow_le_pow_right (by decide) (by omega)
  rw [lt_halfRange_iff]
  exact Nat.lt_of_lt_of_le h hle

/-- The children of a place are places of the level below. -/
theorem children (h : InRange (below + 1) offset) (hlt : below < 64) :
    InRange below (2 * offset) ∧ InRange below (2 * offset + 1) := by
  have hfits := h.lt_halfRange
  have hpow : 2 ^ (64 - below) = 2 * 2 ^ (64 - (below + 1)) := by
    rw [← Nat.pow_succ']
    congr 1
    omega
  unfold InRange at h ⊢
  rw [toNat_double hfits, toNat_double_add_one hfits, hpow]
  constructor <;> omega

/-- What a place is paired with is a place of its level. -/
theorem pairOffset (h : InRange height offset) (hlt : height < 64) :
    InRange height (Leaf.pairOffset offset) := by
  unfold InRange
  simpa using Nat.xor_lt_two_pow h (Nat.one_lt_two_pow (by omega))

/-- A climb halves offsets as fast as the levels get narrower. -/
theorem of_reach (h : proof.reach leaf height = .ok base) : InRange height base.offset := by
  unfold InRange
  rw [offset_of_reach h, Nat.shiftRight_eq_div_pow, Nat.div_lt_iff_lt_mul (Nat.two_pow_pos _),
    ← Nat.pow_add]
  exact Nat.lt_of_lt_of_le leaf.offset.toNat_lt (Nat.pow_le_pow_right (by decide) (by omega))

end InRange

theorem treeHeight_le (proof : MerkleProof) : proof.treeHeight ≤ 64 :=
  proof.length_levels

theorem lt_treeHeight_of_omitted (h : proof.listed? height offset = .ok none) :
    height < proof.treeHeight := by
  by_contra hle
  unfold listed? at h
  rw [List.getElem?_eq_none (by rw [length_leaves]; omega)] at h
  cases h

/-- A look-up of a place of the tree only asks for places of the tree. -/
theorem Asks.inRange (h : proof.Asks height offset height' offset') (hr : InRange height offset) :
    InRange height' offset' := by
  have hlevels := proof.treeHeight_le
  induction h with
  | self => exact hr
  | left omitted _ _ ih =>
    have hlt := lt_treeHeight_of_omitted omitted
    exact ih (hr.children (by omega)).1
  | right omitted _ _ ih =>
    have hlt := lt_treeHeight_of_omitted omitted
    exact ih (hr.children (by omega)).2

/-- Levels that a proof does not have are not left for the one below. -/
theorem Asks.lt_treeHeight (h : proof.Asks height offset height' offset')
    (hlt : height' < proof.treeHeight) : height < proof.treeHeight := by
  cases h with
  | self => exact hlt
  | left omitted _ _ => exact lt_treeHeight_of_omitted omitted
  | right omitted _ _ => exact lt_treeHeight_of_omitted omitted

theorem Asks.le (h : proof.Asks height offset height' offset') : height' ≤ height := by
  induction h with
  | self => exact Nat.le_refl _
  | left _ _ _ ih => exact Nat.le_succ_of_le ih
  | right _ _ _ ih => exact Nat.le_succ_of_le ih

/-- On a level of the proof, a look-up of a place of the tree only fails at a transaction that is not
listed. -/
theorem unlisted_of_node (hlt : height < proof.treeHeight) (hr : InRange height offset)
    (h : proof.node height offset = .error e) :
    ∃ place, proof.Asks height offset 0 place ∧ e = .childNotFound 0 place ∧
      ¬proof.Lists 0 place.toNat := by
  obtain ⟨height', offset', hasks, hgap⟩ := exists_gap_of_node h
  have hmissing := hgap.not_lists
  cases hgap with
  | noLevel hle =>
    have := hasks.le
    omega
  | unlisted _ => exact ⟨offset', hasks, rfl, hmissing⟩
  | outOfRange _ far => exact absurd (hasks.inRange hr).lt_halfRange far

/-! ## Single steps -/

/-- A step fails at the look-up of a node or of what it is paired with. -/
theorem exists_node_of_climb (h : proof.climb offset height = .error e) :
    ∃ place, (place = offset ∨ place = Leaf.pairOffset offset) ∧
      proof.node height place = .error e := by
  rw [climb_eq] at h
  rcases Except.bind_eq_error_iff.mp h with hn | ⟨base, hn, h⟩
  · exact ⟨offset, .inl rfl, hn⟩
  · have hsibling := above_eq_error_iff.mp h
    rw [offset_of_node hn] at hsibling
    exact ⟨_, .inr rfl, hsibling⟩

/-- **A failed step of a climb names a place that is not listed**, or else the offset of a node that
is not listed either, which is too large to be doubled, together with the level below. From a place
of the tree it is always the former. -/
theorem missing_of_climb (h : proof.climb offset height = .error e) :
    ∃ level place, e = .childNotFound level place ∧
      (¬proof.Lists level place.toNat ∨
        level < height ∧ 2 ^ 63 ≤ place.toNat ∧ ¬proof.Lists (level + 1) place.toNat) ∧
      (InRange height offset → ¬proof.Lists level place.toNat) := by
  obtain ⟨place, hplace, hn⟩ := exists_node_of_climb h
  obtain ⟨height', offset', hasks, hgap⟩ := exists_gap_of_node hn
  have hmissing := hgap.not_lists
  cases hgap with
  | noLevel _ => exact ⟨height', offset', rfl, .inl hmissing, fun _ => hmissing⟩
  | unlisted _ => exact ⟨0, offset', rfl, .inl hmissing, fun _ => hmissing⟩
  | @outOfRange below _ omitted far =>
    have hfar : 2 ^ 63 ≤ offset'.toNat := by simpa [lt_halfRange_iff] using far
    refine ⟨below, offset', rfl, .inr ⟨hasks.le, hfar, hmissing⟩, fun hr => ?_⟩
    have hlevel := hasks.lt_treeHeight (lt_treeHeight_of_omitted omitted)
    have hr' : InRange height place := by
      rcases hplace with rfl | rfl
      · exact hr
      · exact hr.pairOffset (Nat.lt_of_lt_of_le hlevel proof.treeHeight_le)
    exact absurd (hasks.inRange hr').lt_halfRange far

end MerkleProof

/-- A proof of two levels that lists a leaf at the first offset that cannot be doubled. -/
def Merkle.farProof : MerkleProof where
  blockHeight := 7
  levels := [[.ofHash MerkleProof.halfRange .zero], []]
  length_levels := by decide

/-- The node above, at the same offset, is not listed and cannot be derived. The error names the leaf
below. -/
theorem Merkle.climb_farProof :
    farProof.climb MerkleProof.halfRange 1 = .error (.childNotFound 0 MerkleProof.halfRange) ∧
      farProof.Lists 0 MerkleProof.halfRange.toNat := by
  constructor
  · rw [MerkleProof.climb_eq]
    rfl
  · exact ⟨_, rfl, _, List.mem_singleton_self _, rfl⟩

/-- A step from the last offset of the transactions' level names what it is paired with. -/
theorem Merkle.missing_of_climb_last :
    farProof.climb 0xffffffffffffffff 0 = .error (.childNotFound 0 0xffffffffffffffff) ∧
      ¬farProof.Lists 0 (0xffffffffffffffff : UInt64).toNat := by
  have hclimb : farProof.climb 0xffffffffffffffff 0 =
      .error (.childNotFound 0 0xffffffffffffffff) := by
    rw [MerkleProof.climb_eq]
    rfl
  obtain ⟨level, place, he, -, hmissing⟩ := MerkleProof.missing_of_climb hclimb
  cases he
  exact ⟨hclimb, hmissing (by decide)⟩

/-! ## Climbs from the transactions -/

namespace MerkleProof

variable {proof : MerkleProof} {leaf base : Leaf} {height : Nat} {offset : UInt64} {e : Error}

/-- A climb from `leaf` looks up this place: it asks for it to find a node that it is paired with. -/
def ClimbAsks (proof : MerkleProof) (leaf : Leaf) (height : Nat) (offset : UInt64) : Prop :=
  ∃ level base, level < proof.treeHeight ∧ proof.reach leaf level = .ok base ∧
    proof.Asks level (Leaf.pairOffset base.offset) height offset

theorem ClimbAsks.inRange (h : proof.ClimbAsks leaf height offset) : InRange height offset := by
  obtain ⟨level, base, hlt, hb, hasks⟩ := h
  have hlevels := proof.treeHeight_le
  exact hasks.inRange ((InRange.of_reach hb).pairOffset (by omega))

/-- A climb that fails does so at the look-up of a node that it is paired with. -/
theorem exists_node_of_reach (h : proof.reach leaf height = .error e) :
    ∃ level base, level < height ∧ proof.reach leaf level = .ok base ∧
      proof.node level (Leaf.pairOffset base.offset) = .error e := by
  induction height with
  | zero => cases h
  | succ height ih =>
    rcases reach_succ_eq_error_iff.mp h with h | ⟨base, hb, h⟩
    · obtain ⟨level, base, hlt, hb, hn⟩ := ih h
      exact ⟨level, base, Nat.lt_succ_of_lt hlt, hb, hn⟩
    · exact ⟨height, base, Nat.lt_succ_self _, hb, h⟩

theorem rootFrom_eq_error_iff :
    proof.rootFrom leaf = .error e ↔ proof.reach leaf proof.treeHeight = .error e := by
  rw [rootFrom_eq, Except.bind_eq_error_iff]
  simp

/-- The error says that a transaction is missing, and it is not listed. -/
def LacksTransaction (proof : MerkleProof) (e : Error) : Prop :=
  ∃ place : UInt64, e = .childNotFound 0 place ∧ ¬proof.Lists 0 place.toNat

theorem exists_climbAsks_of_rootFrom (h : proof.rootFrom leaf = .error e) :
    ∃ place, proof.ClimbAsks leaf 0 place ∧ e = .childNotFound 0 place ∧
      ¬proof.Lists 0 place.toNat := by
  obtain ⟨level, base, hlt, hb, hn⟩ := exists_node_of_reach (rootFrom_eq_error_iff.mp h)
  have hlevels := proof.treeHeight_le
  have hr := (InRange.of_reach hb).pairOffset (by omega)
  obtain ⟨place, hasks, he, hmissing⟩ := unlisted_of_node hlt hr hn
  exact ⟨place, ⟨level, base, hlt, hb, hasks⟩, he, hmissing⟩

theorem lacksTransaction_of_rootFrom (h : proof.rootFrom leaf = .error e) :
    proof.LacksTransaction e := by
  obtain ⟨place, -, he, hmissing⟩ := exists_climbAsks_of_rootFrom h
  exact ⟨place, he, hmissing⟩

theorem lacksTransaction_of_rootAt (h : proof.rootAt offset = .error e) :
    proof.LacksTransaction e := by
  rw [rootAt_eq] at h
  rcases Except.bind_eq_error_iff.mp h with hn | ⟨leaf, -, h⟩
  · rcases node_error_cases hn with hgap | ⟨_, hzero, -⟩
    · have hmissing := hgap.not_lists
      cases hgap <;> exact ⟨offset, rfl, hmissing⟩
    · cases hzero
  · exact lacksTransaction_of_rootFrom h

/-- **What a climb from the transactions cannot find is a transaction.** It fails with a place of the
transactions' level where nothing is listed, and in no other way, but that two targets may lead to
different roots. Wherever it has to derive a node, the offsets of the children are in range. -/
theorem lacksTransaction_of_failure (proof : MerkleProof) :
    (∀ offset e, proof.rootAt offset = .error e → proof.LacksTransaction e) ∧
    (∀ leaf e, proof.rootFrom leaf = .error e → ∃ place, proof.ClimbAsks leaf 0 place ∧
      e = .childNotFound 0 place ∧ ¬proof.Lists 0 place.toNat) ∧
    (∀ e, proof.root? = .error e → proof.LacksTransaction e ∨
      ∃ first second, first ≠ second ∧ e = .rootMismatch proof.blockHeight first second) ∧
    (∀ leaf below offset, proof.ClimbAsks leaf (below + 1) offset →
      proof.listed? (below + 1) offset = .ok none →
      offset < halfRange ∧ 2 * offset.toNat + 1 < 2 ^ 64) := by
  refine ⟨?_, ?_, ?_, ?_⟩
  · intro offset e h
    exact lacksTransaction_of_rootAt h
  · intro leaf e h
    exact exists_climbAsks_of_rootFrom h
  · intro e h
    obtain ⟨target, -, ht | ⟨_, -, first, second, -, -, hne, rfl⟩⟩ := root?_eq_error h
    · exact .inl (lacksTransaction_of_rootFrom ht)
    · exact .inr ⟨first, second, hne, rfl⟩
  · intro leaf below offset h _
    have hfits := h.inRange.lt_halfRange
    have hlt := lt_halfRange_iff.mp hfits
    exact ⟨hfits, by omega⟩

end MerkleProof

/-- A proof that lists the last two transactions of a tree of 64 levels and leaves out the rest. -/
def Merkle.lastPairProof : MerkleProof where
  blockHeight := 7
  levels := [[.ofHash 0xfffffffffffffffe .zero, .ofTxid 0xffffffffffffffff (.double [])], []]
  length_levels := by decide

/-- The climb from the last transaction needs a node that is derived from others near the end. -/
theorem Merkle.lacksTransaction_lastPairProof :
    lastPairProof.rootFrom (.ofTxid 0xffffffffffffffff (.double [])) =
        .error (.childNotFound 0 0xfffffffffffffffc) ∧
      ¬lastPairProof.Lists 0 (0xfffffffffffffffc : UInt64).toNat ∧
      lastPairProof.ClimbAsks (.ofTxid 0xffffffffffffffff (.double [])) 1 0x7ffffffffffffffe ∧
      2 * (0x7ffffffffffffffe : UInt64).toNat + 1 < 2 ^ 64 := by
  obtain ⟨-, hrootFrom, -, hrange⟩ := MerkleProof.lacksTransaction_of_failure lastPairProof
  have herror : lastPairProof.rootFrom (.ofTxid 0xffffffffffffffff (.double [])) =
      .error (.childNotFound 0 0xfffffffffffffffc) := by
    rw [MerkleProof.rootFrom_eq]
    rfl
  obtain ⟨place, -, he, hmissing⟩ := hrootFrom _ _ herror
  cases he
  have hasks :
      lastPairProof.ClimbAsks (.ofTxid 0xffffffffffffffff (.double [])) 1 0x7ffffffffffffffe :=
    ⟨1, _, by decide, rfl, .self⟩
  exact ⟨herror, hmissing, hasks, (hrange _ _ _ hasks rfl).2⟩

end SpvEnvelope
