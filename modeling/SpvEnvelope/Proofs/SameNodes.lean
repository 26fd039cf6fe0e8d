import SpvEnvelope.Proofs.Targets

/-!
# Proofs that know the same nodes

A climb asks a proof for nodes and for nothing else. So two proofs that answer every look-up alike
lead from every leaf to the same root or to the same error, and if they are for the same block and
the same targets they show the same root (`SameNodes.root?`). How a node is known, listed or derived,
does not matter.

The mark of a leaf as a txid says what a proof is for and has no part in a climb, so answers may
differ in marks (`Alike`).
-/

namespace SpvEnvelope

/-! ## Leaves but for their marks -/

/-- The leaf without the mark of a txid. -/
def Leaf.unmarked (leaf : Leaf) : Leaf :=
  { leaf with isTxid := false }

theorem Leaf.eq_of_unmarked {leaf other : Leaf} (h : leaf.unmarked = other.unmarked) :
    leaf.offset = other.offset ∧ leaf.hash = other.hash := by
  simp only [unmarked, mk.injEq] at h
  exact ⟨h.1, h.2.1⟩

theorem Leaf.parent_congr {base base' sibling sibling' : Leaf}
    (hb : base.unmarked = base'.unmarked) (hs : sibling.unmarked = sibling'.unmarked) :
    base.parent sibling = base'.parent sibling' := by
  have hparent (base sibling : Leaf) :
      base.parent sibling = base.unmarked.parent sibling.unmarked := rfl
  rw [hparent, hb, hs, ← hparent]

/-- Two answers are alike if they are the same error, or leaves that differ at most in their
marks. -/
inductive Alike : Except Error Leaf → Except Error Leaf → Prop
  | found {leaf other : Leaf} (h : leaf.unmarked = other.unmarked) : Alike (.ok leaf) (.ok other)
  | failed (e : Error) : Alike (.error e) (.error e)

namespace Alike

variable {answer other : Except Error Leaf}

theorem refl (answer : Except Error Leaf) : Alike answer answer := by
  cases answer with
  | error e => exact .failed e
  | ok leaf => exact .found rfl

/-- What goes on alike from leaves that differ in marks goes on alike from alike answers. -/
theorem bind {next next' : Leaf → Except Error Leaf} (h : Alike answer other)
    (hn : ∀ leaf leaf', leaf.unmarked = leaf'.unmarked → Alike (next leaf) (next' leaf')) :
    Alike (answer >>= next) (other >>= next') := by
  cases h with
  | found h => exact hn _ _ h
  | failed e => exact .failed e

/-- What ends equally from leaves that differ in marks ends equally from alike answers. -/
theorem bind_eq {α : Type} {next next' : Leaf → Except Error α} (h : Alike answer other)
    (hn : ∀ leaf leaf', leaf.unmarked = leaf'.unmarked → next leaf = next' leaf') :
    answer >>= next = other >>= next' := by
  cases h with
  | found h => exact hn _ _ h
  | failed e => rfl

end Alike

namespace MerkleProof

variable {proof other : MerkleProof} {height : Nat} {offset : UInt64} {leaf leaf' : Leaf}

/-! ## Look-ups -/

/-- Look-ups are alike where the same leaf is listed and the look-ups below are alike. -/
theorem node_alike (hl : proof.listed? height offset = other.listed? height offset)
    (hbelow : ∀ below, height = below + 1 → ∀ offset,
      Alike (proof.node below offset) (other.node below offset)) :
    Alike (proof.node height offset) (other.node height offset) := by
  cases height with
  | zero =>
    unfold MerkleProof.node
    rw [hl]
    exact .refl _
  | succ below =>
    unfold MerkleProof.node
    rw [hl]
    cases other.listed? (below + 1) offset with
    | error e => exact .failed e
    | ok leaf? =>
      cases leaf? with
      | some leaf => exact .found rfl
      | none =>
        by_cases hhalf : offset < halfRange
        · simp only [if_pos hhalf]
          apply (hbelow below rfl _).bind
          intro left left' hleft
          apply (hbelow below rfl _).bind
          intro right right' hright
          exact .found (congrArg Leaf.unmarked (Leaf.parent_congr hleft hright))
        · simp only [if_neg hhalf]
          exact .failed _

/-- The proofs have equally many levels and answer every look-up alike. -/
structure SameNodes (proof other : MerkleProof) : Prop where
  treeHeight : proof.treeHeight = other.treeHeight
  node : ∀ height offset, Alike (proof.node height offset) (other.node height offset)

namespace SameNodes

theorem refl (proof : MerkleProof) : SameNodes proof proof :=
  ⟨rfl, fun _ _ => .refl _⟩

/-- Proofs that list the same leaf at every place know the same nodes. -/
theorem of_listed? (hh : proof.treeHeight = other.treeHeight)
    (hl : ∀ height offset, proof.listed? height offset = other.listed? height offset) :
    SameNodes proof other where
  treeHeight := hh
  node height := by
    induction height with
    | zero =>
      intro offset
      refine node_alike (hl 0 offset) ?_
      intro below h
      cases h
    | succ height ih =>
      intro offset
      refine node_alike (hl (height + 1) offset) ?_
      intro below h
      cases h
      exact ih

/-! ## Climbs -/

theorem above (h : SameNodes proof other) (hl : leaf.unmarked = leaf'.unmarked) (height : Nat) :
    Alike (proof.above leaf height) (other.above leaf' height) := by
  unfold MerkleProof.above
  rw [(Leaf.eq_of_unmarked hl).1]
  apply (h.node height _).bind
  intro sibling sibling' hs
  exact .found (congrArg Leaf.unmarked (Leaf.parent_congr hl hs))

theorem reach (h : SameNodes proof other) (hl : leaf.unmarked = leaf'.unmarked) (height : Nat) :
    Alike (proof.reach leaf height) (other.reach leaf' height) := by
  induction height with
  | zero => exact .found hl
  | succ height ih => exact ih.bind fun base base' hb => h.above hb height

/-- Leaves that differ at most in their marks lead to the same root or to the same error. -/
theorem rootFrom (h : SameNodes proof other) (hl : leaf.unmarked = leaf'.unmarked) :
    proof.rootFrom leaf = other.rootFrom leaf' := by
  rw [rootFrom_eq, rootFrom_eq, h.treeHeight]
  apply (h.reach hl _).bind_eq
  intro top top' ht
  rw [(Leaf.eq_of_unmarked ht).2]

theorem rootAt (h : SameNodes proof other) (offset : UInt64) :
    proof.rootAt offset = other.rootAt offset := by
  rw [rootAt_eq, rootAt_eq]
  apply (h.node 0 offset).bind_eq
  intro leaf leaf' hl
  exact h.rootFrom hl

theorem climb (h : SameNodes proof other) (offset : UInt64) (height : Nat) :
    proof.climb offset height = other.climb offset height := by
  rw [climb_eq, climb_eq]
  apply (h.node height offset).bind_eq
  intro base base' hb
  unfold MerkleProof.above
  rw [(Leaf.eq_of_unmarked hb).1]
  apply (h.node height _).bind_eq
  intro sibling sibling' hs
  exact congrArg Except.ok (Leaf.parent_congr hb hs)

/-! ## Roots -/

theorem agreedRoot? (h : SameNodes proof other) (hb : proof.blockHeight = other.blockHeight)
    (root? : Option Digest) (targets : List Leaf) :
    proof.agreedRoot? root? targets = other.agreedRoot? root? targets := by
  induction targets generalizing root? with
  | nil => cases root? <;> rfl
  | cons target rest ih =>
    have hroot : proof.rootFrom target = other.rootFrom target := h.rootFrom rfl
    cases root? with
    | none => simp [MerkleProof.agreedRoot?, hroot, ih]
    | some first => simp [MerkleProof.agreedRoot?, hroot, ih, hb]

/-- Proofs for the same block and the same targets that know the same nodes show the same root. -/
theorem root? (h : SameNodes proof other) (hb : proof.blockHeight = other.blockHeight)
    (ht : proof.targets = other.targets) : proof.root? = other.root? := by
  rw [root?_eq, root?_eq, ht]
  exact h.agreedRoot? hb _ _

end SameNodes

end MerkleProof

end SpvEnvelope
