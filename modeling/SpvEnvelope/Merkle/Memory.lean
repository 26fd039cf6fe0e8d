import SpvEnvelope.Merkle.Climb

/-!
# Remembered nodes change no answer

A climb is run with an index of the listed leaves and a memory of derived nodes. Started with a
memory that agrees with the proof, it answers what the plain recursion answers and leaves a memory
that agrees again (`Climb.Answers`). Hence the climbs of a proof are the plain ones: `climb_eq`,
`rootAt_eq`, `rootFrom_eq`.
-/

namespace SpvEnvelope

variable {α β : Type}

/-! ## The index -/

@[simp] theorem getElem?_foldl_insertIfNew (level : List Leaf) (index : Std.TreeMap UInt64 Leaf)
    (offset : UInt64) :
    (level.foldl (fun index leaf => index.insertIfNew leaf.offset leaf) index)[offset]? =
      index[offset]?.or (Leaf.find? offset level) := by
  induction level generalizing index with
  | nil => simp [Leaf.find?]
  | cons leaf rest ih =>
    rw [List.foldl_cons, ih, Std.TreeMap.getElem?_insertIfNew]
    simp only [Std.LawfulEqCmp.compare_eq_iff_eq]
    by_cases h : leaf.offset = offset
    · subst h
      by_cases hm : leaf.offset ∈ index
      · simp [hm]
      · simp [hm, Leaf.find?]
    · simp [h, Leaf.find?]

@[simp] theorem getElem?_indexLevel (level : List Leaf) (offset : UInt64) :
    (indexLevel level)[offset]? = Leaf.find? offset level := by
  rw [indexLevel, getElem?_foldl_insertIfNew]
  simp

@[simp] theorem NodeIndex.listed?_index (proof : MerkleProof) (height : Nat) (offset : UInt64) :
    proof.index.listed? height offset = proof.listed? height offset := by
  unfold NodeIndex.listed? MerkleProof.listed? MerkleProof.index
  rw [List.getElem?_map]
  cases proof.leaves[height]? <;> simp

/-! ## The memory -/

theorem placeOrder_eq_iff (a b : Nat × UInt64) : placeOrder a b = .eq ↔ a = b := by
  simp [placeOrder, compareLex, compareOn, Prod.ext_iff]

/-- Every remembered node is the one that the proof has at that place. -/
def Derived.Agrees (proof : MerkleProof) (memory : Derived) : Prop :=
  ∀ height offset leaf, memory[(height, offset)]? = some leaf → proof.node height offset = .ok leaf

theorem Derived.agrees_empty (proof : MerkleProof) : Derived.Agrees proof ∅ := by
  intro height offset leaf h
  simp at h

theorem Derived.Agrees.insert {proof : MerkleProof} {memory : Derived}
    (hm : Derived.Agrees proof memory) {height : Nat} {offset : UInt64} {leaf : Leaf}
    (h : proof.node height offset = .ok leaf) :
    Derived.Agrees proof (Std.TreeMap.insert memory (height, offset) leaf) := by
  intro height' offset' leaf' h'
  rw [Std.TreeMap.getElem?_insert] at h'
  split at h'
  · rename_i he
    cases (placeOrder_eq_iff _ _).mp he
    cases h'
    exact h
  · exact hm _ _ _ h'

/-! ## Answers -/

/-- An answer together with the memory that is left. -/
def Climb.result (answer : Except Error α) (memory : Derived) : EStateM.Result Error Derived α :=
  match answer with
  | .ok a => .ok a memory
  | .error e => .error e memory

/-- From any memory that agrees with the proof, the computation answers `answer` and leaves a memory
that agrees. -/
def Climb.Answers (proof : MerkleProof) (climb : Climb α) (answer : Except Error α) : Prop :=
  ∀ memory, Derived.Agrees proof memory →
    ∃ memory', Derived.Agrees proof memory' ∧ climb.run memory = Climb.result answer memory'

namespace Climb.Answers

variable {proof : MerkleProof}

theorem answer_eq {climb : Climb α} {answer : Except Error α}
    (h : Climb.Answers proof climb answer) : climb.answer = answer := by
  obtain ⟨memory', _, he⟩ := h ∅ (Derived.agrees_empty proof)
  unfold Climb.answer
  rw [he]
  cases answer <;> rfl

protected theorem pure (a : α) : Climb.Answers proof (pure a : Climb α) (.ok a) :=
  fun memory hm => ⟨memory, hm, rfl⟩

protected theorem throw (e : Error) : Climb.Answers proof (throw e : Climb α) (.error e) :=
  fun memory hm => ⟨memory, hm, rfl⟩

protected theorem bind {climb : Climb α} {answer : Except Error α} {next : α → Climb β}
    {next' : α → Except Error β} (h : Climb.Answers proof climb answer)
    (hn : ∀ a, Climb.Answers proof (next a) (next' a)) :
    Climb.Answers proof (climb >>= next) (answer >>= next') := by
  intro memory hm
  obtain ⟨memory', hm', he⟩ := h memory hm
  cases answer with
  | error e =>
    refine ⟨memory', hm', ?_⟩
    rw [EStateM.run_bind, he]
    rfl
  | ok a =>
    obtain ⟨memory'', hm'', he'⟩ := hn a memory' hm'
    refine ⟨memory'', hm'', ?_⟩
    rw [EStateM.run_bind, he]
    exact he'

end Climb.Answers

/-! ## Lookups and climbs -/

theorem Climb.Answers.remember {proof : MerkleProof} {height : Nat} {offset : UInt64}
    {compute : Climb Leaf} (h : Climb.Answers proof compute (proof.node height offset)) :
    Climb.Answers proof (Climb.remember height offset compute) (proof.node height offset) := by
  intro memory hm
  unfold Climb.remember
  cases hk : memory[(height, offset)]? with
  | some leaf =>
    refine ⟨memory, hm, ?_⟩
    rw [hm _ _ _ hk]
    simp only [EStateM.run_bind, EStateM.run_get, hk]
    rfl
  | none =>
    obtain ⟨memory', hm', he⟩ := h memory hm
    cases hn : proof.node height offset with
    | error e =>
      rw [hn] at he
      refine ⟨memory', hm', ?_⟩
      simp [hk, he, Climb.result]
    | ok leaf =>
      rw [hn] at he
      refine ⟨_, hm'.insert hn, ?_⟩
      simp only [EStateM.run_bind, EStateM.run_get, hk, he, Climb.result]
      rfl

/-- A lookup answers what the plain recursion answers. -/
theorem NodeIndex.lookup_answers (proof : MerkleProof) (height : Nat) (offset : UInt64) :
    Climb.Answers proof (proof.index.lookup height offset) (proof.node height offset) := by
  induction height generalizing offset with
  | zero =>
    unfold lookup MerkleProof.node
    rw [listed?_index]
    cases proof.listed? 0 offset with
    | error e => exact .throw e
    | ok leaf? =>
      cases leaf? with
      | none => exact .throw _
      | some leaf => exact .pure leaf
  | succ below ih =>
    unfold lookup
    rw [listed?_index]
    cases hl : proof.listed? (below + 1) offset with
    | error e =>
      rw [MerkleProof.node, hl]
      exact .throw e
    | ok leaf? =>
      cases leaf? with
      | some leaf =>
        rw [MerkleProof.node, hl]
        exact .pure leaf
      | none =>
        refine Climb.Answers.remember ?_
        rw [MerkleProof.node, hl]
        simp only
        split
        · exact (ih _).bind fun left => (ih _).bind fun right => .pure _
        · exact .throw _

theorem NodeIndex.climb_answers (proof : MerkleProof) (base : Leaf) (height : Nat) :
    Climb.Answers proof (proof.index.climb base height) (proof.above base height) :=
  (lookup_answers proof height _).bind fun _ => .pure _

theorem NodeIndex.climbTo_answers (proof : MerkleProof) (leaf : Leaf) (height : Nat) :
    Climb.Answers proof (proof.index.climbTo leaf height) (proof.reach leaf height) := by
  induction height with
  | zero => exact .pure leaf
  | succ height ih => exact ih.bind fun base => climb_answers proof base height

@[simp]
theorem MerkleProof.length_index (proof : MerkleProof) : proof.index.length = proof.treeHeight := by
  simp [index, leaves, treeHeight]

theorem NodeIndex.rootFrom_answers (proof : MerkleProof) (leaf : Leaf) :
    Climb.Answers proof (proof.index.rootFrom leaf)
      (do
        let top ← proof.reach leaf proof.treeHeight
        return top.hash.getD .zero) := by
  unfold rootFrom
  simpa using (climbTo_answers proof leaf _).bind fun top => .pure _

namespace MerkleProof

theorem climb_eq (proof : MerkleProof) (offset : UInt64) (height : Nat) :
    proof.climb offset height = (do
      let base ← proof.node height offset
      proof.above base height) :=
  ((NodeIndex.lookup_answers proof height offset).bind fun base =>
    NodeIndex.climb_answers proof base height).answer_eq

theorem rootFrom_eq (proof : MerkleProof) (leaf : Leaf) :
    proof.rootFrom leaf = (do
      let top ← proof.reach leaf proof.treeHeight
      return top.hash.getD .zero) :=
  (NodeIndex.rootFrom_answers proof leaf).answer_eq

theorem rootAt_eq (proof : MerkleProof) (offset : UInt64) :
    proof.rootAt offset = (do
      let leaf ← proof.node 0 offset
      proof.rootFrom leaf) := by
  have h := (NodeIndex.lookup_answers proof 0 offset).bind fun leaf =>
    NodeIndex.rootFrom_answers proof leaf
  simp only [rootFrom_eq]
  exact h.answer_eq

end MerkleProof

end SpvEnvelope
