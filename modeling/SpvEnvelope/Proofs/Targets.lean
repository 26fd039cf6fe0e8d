import SpvEnvelope.Merkle.Memory
import SpvEnvelope.Proofs.Availability

/-!
# The root that the targets of a proof agree on

The root of a proof is found by climbing from all of its targets with one memory. Since remembered
nodes change no answer, each of these climbs may as well be made on its own (`root?_eq`). Hence a
root is found exactly if there is a target and all targets climb to this root
(`root?_eq_ok_some_iff`), and a failure comes from the first target that does not climb to where the
ones before it do: its own error, or that it climbs to another root (`root?_eq_error_iff`).
-/

namespace SpvEnvelope

/-- The first element of some kind, after others of another kind, is the head or comes later. -/
theorem exists_first_cons_iff {α : Type} {p q : α → Prop} {head : α} {tail : List α} :
    (∃ before x after, head :: tail = before ++ x :: after ∧ (∀ y ∈ before, p y) ∧ q x) ↔
      q head ∨ p head ∧
        ∃ before x after, tail = before ++ x :: after ∧ (∀ y ∈ before, p y) ∧ q x := by
  constructor
  · rintro ⟨before, x, after, h, hp, hq⟩
    cases before with
    | nil =>
      cases h
      exact .inl hq
    | cons first before =>
      cases h
      obtain ⟨hhead, hrest⟩ := List.forall_mem_cons.mp hp
      exact .inr ⟨hhead, before, x, after, rfl, hrest, hq⟩
  · rintro (hq | ⟨hp, before, x, after, rfl, hbefore, hq⟩)
    · exact ⟨[], head, tail, rfl, by simp, hq⟩
    · exact ⟨head :: before, x, after, rfl, List.forall_mem_cons.mpr ⟨hp, hbefore⟩, hq⟩

namespace MerkleProof

/-- The root that all of `targets`, each climbed on its own, and the climbs before them reach. -/
def agreedRoot? (proof : MerkleProof) :
    (root? : Option Digest) → (targets : List Leaf) → Except Error (Option Digest)
  | root?, [] => return root?
  | none, target :: rest => do
    let root ← proof.rootFrom target
    proof.agreedRoot? (some root) rest
  | some first, target :: rest => do
    let root ← proof.rootFrom target
    if first = root then proof.agreedRoot? (some first) rest
    else throw (.rootMismatch proof.blockHeight first root)

end MerkleProof

theorem NodeIndex.commonRoot?_answers (proof : MerkleProof) (root? : Option Digest)
    (targets : List Leaf) :
    Climb.Answers proof (proof.index.commonRoot? proof.blockHeight root? targets)
      (proof.agreedRoot? root? targets) := by
  have hclimb (target : Leaf) :
      Climb.Answers proof (proof.index.rootFrom target) (proof.rootFrom target) := by
    rw [MerkleProof.rootFrom_eq]
    exact rootFrom_answers proof target
  induction targets generalizing root? with
  | nil =>
    unfold commonRoot? MerkleProof.agreedRoot?
    exact .pure root?
  | cons target rest ih =>
    cases root? with
    | none => exact (hclimb target).bind fun root => ih (some root)
    | some first =>
      refine (hclimb target).bind fun root => ?_
      by_cases he : first = root
      · rw [if_pos he, if_pos he]
        exact ih (some first)
      · rw [if_neg he, if_neg he]
        exact .throw _

namespace MerkleProof

variable {proof : MerkleProof} {root first : Digest} {targets : List Leaf} {e : Error}

theorem root?_eq (proof : MerkleProof) : proof.root? = proof.agreedRoot? none proof.targets :=
  (NodeIndex.commonRoot?_answers proof none proof.targets).answer_eq

/-! ## Agreement -/

/-- Once a root is found, the targets that remain must climb to it. -/
theorem agreedRoot?_some_eq_ok_iff {root? : Option Digest} :
    proof.agreedRoot? (some first) targets = .ok root? ↔
      root? = some first ∧ ∀ target ∈ targets, proof.rootFrom target = .ok first := by
  induction targets with
  | nil => simp [agreedRoot?, eq_comm]
  | cons target rest ih =>
    rw [agreedRoot?, List.forall_mem_cons]
    cases hr : proof.rootFrom target with
    | error e => simp
    | ok root =>
      by_cases he : first = root
      · subst he
        simp [ih]
      · simp [he, Ne.symm he]

/-- Once a root is found, the first target that does not climb to it gives the error: its own, or
that it climbs to another root. -/
theorem agreedRoot?_some_eq_error_iff : proof.agreedRoot? (some first) targets = .error e ↔
    ∃ before target after, targets = before ++ target :: after ∧
      (∀ earlier ∈ before, proof.rootFrom earlier = .ok first) ∧
      (proof.rootFrom target = .error e ∨ ∃ root, proof.rootFrom target = .ok root ∧
        first ≠ root ∧ e = .rootMismatch proof.blockHeight first root) := by
  induction targets with
  | nil => simp [agreedRoot?]
  | cons target rest ih =>
    rw [exists_first_cons_iff, ← ih, agreedRoot?]
    cases hr : proof.rootFrom target with
    | error e' => simp
    | ok root =>
      by_cases he : first = root
      · simp [he]
      · simp [he, eq_comm]

/-- What the first target leads to is the root that the others are held against. -/
theorem agreedRoot?_none_eq_error {target other : Leaf} {before after : List Leaf}
    (hts : targets = target :: before ++ other :: after)
    (hagree : ∀ earlier ∈ target :: before, proof.rootFrom earlier = .ok first)
    (ho : proof.rootFrom other = .error e ∨ ∃ root, proof.rootFrom other = .ok root ∧
      first ≠ root ∧ e = .rootMismatch proof.blockHeight first root) :
    proof.agreedRoot? none targets = .error e := by
  obtain ⟨hr, hbefore⟩ := List.forall_mem_cons.mp hagree
  rw [hts, List.cons_append, agreedRoot?, hr]
  exact agreedRoot?_some_eq_error_iff.mpr ⟨before, other, after, rfl, hbefore, ho⟩

/-- Targets that climb to one root show this root. -/
theorem root?_eq_ok_some_iff : proof.root? = .ok (some root) ↔
    proof.targets ≠ [] ∧ ∀ target ∈ proof.targets, proof.rootFrom target = .ok root := by
  rw [root?_eq]
  cases proof.targets with
  | nil => simp [agreedRoot?]
  | cons target rest =>
    rw [agreedRoot?, List.forall_mem_cons]
    cases hr : proof.rootFrom target with
    | error e => simp
    | ok first =>
      simp only [Except.ok_bind, agreedRoot?_some_eq_ok_iff]
      constructor
      · rintro ⟨hroot, hrest⟩
        cases hroot
        exact ⟨List.cons_ne_nil _ _, rfl, hrest⟩
      · rintro ⟨-, hroot, hrest⟩
        cases hroot
        exact ⟨rfl, hrest⟩

/-- A proof without targets shows no root. -/
theorem root?_eq_ok_none_iff : proof.root? = .ok none ↔ proof.targets = [] := by
  rw [root?_eq]
  cases proof.targets with
  | nil => simp [agreedRoot?]
  | cons target rest =>
    rw [agreedRoot?]
    cases hr : proof.rootFrom target with
    | error e => simp
    | ok first => simp [agreedRoot?_some_eq_ok_iff]

/-- The first target that does not climb to where the ones before it do, with the error that it
gives. -/
inductive DepartsWith (proof : MerkleProof) : Error → Prop
  /-- It fails to climb. -/
  | fails {before after : List Leaf} {target : Leaf} {root : Digest} {e : Error}
      (split : proof.targets = before ++ target :: after)
      (agree : ∀ earlier ∈ before, proof.rootFrom earlier = .ok root)
      (h : proof.rootFrom target = .error e) : DepartsWith proof e
  /-- It climbs to another root. -/
  | differs {before after : List Leaf} {target : Leaf} {first root : Digest}
      (split : proof.targets = before ++ target :: after) (hne : before ≠ [])
      (agree : ∀ earlier ∈ before, proof.rootFrom earlier = .ok first)
      (h : proof.rootFrom target = .ok root) (hd : first ≠ root) :
      DepartsWith proof (.rootMismatch proof.blockHeight first root)

/-- The first target that departs from the others gives the error. -/
theorem root?_eq_error_iff : proof.root? = .error e ↔ proof.DepartsWith e := by
  rw [root?_eq]
  constructor
  · intro h
    cases hts : proof.targets with
    | nil =>
      rw [hts] at h
      cases h
    | cons target rest =>
      rw [hts, agreedRoot?] at h
      cases hr : proof.rootFrom target with
      | error e' =>
        rw [hr] at h
        cases h
        have hnone : ∀ earlier ∈ [], proof.rootFrom earlier = .ok .zero := by simp
        exact .fails hts hnone hr
      | ok first =>
        rw [hr] at h
        obtain ⟨before, other, after, rfl, hbefore, ho⟩ := agreedRoot?_some_eq_error_iff.mp h
        have hagree : ∀ earlier ∈ target :: before, proof.rootFrom earlier = .ok first :=
          List.forall_mem_cons.mpr ⟨hr, hbefore⟩
        rcases ho with ho | ⟨root, ho, hne, rfl⟩
        · exact .fails hts hagree ho
        · exact .differs hts (List.cons_ne_nil _ _) hagree ho hne
  · intro h
    cases h with
    | @fails before after target root _ split agree hfail =>
      cases before with
      | nil =>
        rw [split, List.nil_append, agreedRoot?, hfail]
        rfl
      | cons first before => exact agreedRoot?_none_eq_error split agree (.inl hfail)
    | @differs before after target first root split hne agree hroot hd =>
      cases before with
      | nil => exact absurd rfl hne
      | cons target before =>
        exact agreedRoot?_none_eq_error split agree (.inr ⟨root, hroot, hd, rfl⟩)

/-- A target fails to climb, or two targets climb to different roots. -/
theorem root?_eq_error (h : proof.root? = .error e) : ∃ target ∈ proof.targets,
    proof.rootFrom target = .error e ∨ ∃ other ∈ proof.targets, ∃ first root,
      proof.rootFrom other = .ok first ∧ proof.rootFrom target = .ok root ∧ first ≠ root ∧
        e = .rootMismatch proof.blockHeight first root := by
  cases root?_eq_error_iff.mp h with
  | fails split agree hfail => exact ⟨_, by simp [split], .inl hfail⟩
  | differs split hne agree hroot hd =>
    obtain ⟨other, ho⟩ := List.exists_mem_of_ne_nil _ hne
    exact ⟨_, by simp [split],
      .inr ⟨other, by simp [split, ho], _, _, agree other ho, hroot, hd, rfl⟩⟩

/-- The climb from an offset is the one from the first leaf listed there. -/
theorem rootAt_eq_rootFrom {leaf : Leaf} (h : Leaf.find? leaf.offset proof.bottom = some leaf) :
    proof.rootAt leaf.offset = proof.rootFrom leaf := by
  rw [rootAt_eq, node_zero_of_find? h]
  rfl

/-- **The root of a proof is what the climbs from its targets, each on its own, agree on.** If they
do not agree, the first one that departs from those before it says why. -/
theorem root?_eq_climbs (proof : MerkleProof) :
    (proof.root? = .ok none ↔ proof.targets = []) ∧
    (∀ root, proof.root? = .ok (some root) ↔
      proof.targets ≠ [] ∧ ∀ target ∈ proof.targets, proof.rootFrom target = .ok root) ∧
    (∀ e, proof.root? = .error e ↔ proof.DepartsWith e) ∧
    (∀ target ∈ proof.targets, Leaf.find? target.offset proof.bottom = some target →
      proof.rootAt target.offset = proof.rootFrom target) := by
  refine ⟨root?_eq_ok_none_iff, ?_, ?_, ?_⟩
  · intro root
    exact root?_eq_ok_some_iff
  · intro e
    exact root?_eq_error_iff
  · intro target _ hfirst
    exact rootAt_eq_rootFrom hfirst

end MerkleProof

/-- A proof of one level whose two targets, each paired with a copy of itself, contradict each
other. -/
def Merkle.contradictingProof : MerkleProof where
  blockHeight := 7
  levels := [[.ofTxid 0 .zero, .duplicate 1, .ofTxid 2 (.double []), .duplicate 3]]
  length_levels := by decide

theorem Merkle.root?_contradictingProof :
    contradictingProof.rootAt 0 = .ok (parent .zero .zero) ∧
      contradictingProof.rootAt 2 = .ok (parent (.double []) (.double [])) ∧
      contradictingProof.root? = .error
        (.rootMismatch 7 (parent .zero .zero) (parent (.double []) (.double []))) := by
  obtain ⟨-, -, hdeparts, hfirst⟩ := MerkleProof.root?_eq_climbs contradictingProof
  have htargets :
      contradictingProof.targets = [.ofTxid 0 .zero, .ofTxid 2 (.double [])] := rfl
  have hleft : contradictingProof.rootFrom (.ofTxid 0 .zero) = .ok (parent .zero .zero) := by
    rw [MerkleProof.rootFrom_eq]
    rfl
  have hright : contradictingProof.rootFrom (.ofTxid 2 (.double [])) =
      .ok (parent (.double []) (.double [])) := by
    rw [MerkleProof.rootFrom_eq]
    rfl
  refine ⟨?_, ?_, ?_⟩
  · rw [← hleft]
    exact hfirst (.ofTxid 0 .zero) (by simp [htargets]) rfl
  · rw [← hright]
    exact hfirst (.ofTxid 2 (.double [])) (by simp [htargets]) rfl
  · have hbefore : ∀ earlier ∈ [Leaf.ofTxid 0 .zero],
        contradictingProof.rootFrom earlier = .ok (parent .zero .zero) := by
      simpa using hleft
    apply (hdeparts _).mpr
    exact .differs htargets (List.cons_ne_nil _ _) hbefore hright (by decide +kernel)

end SpvEnvelope
