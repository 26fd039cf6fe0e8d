import SpvEnvelope.Proofs.Gaps

/-!
# Any sequence of look-ups and climbs

The look-ups and climbs of a proof share a memory of derived nodes, and a look-up that fails leaves
the nodes that it has derived until then. What is remembered is always what the proof has
(`Derived.Agrees`), so whatever is asked before, in whatever order, each answer is the one of the
plain recursion (`NodeIndex.answers_eq`).

The recursion stops at offsets whose doubles need more than 64 bits. Over natural numbers it goes on
(`MerkleProof.nodeAt?`), but finds nothing there, because no leaf is listed at such an offset.
-/

namespace SpvEnvelope

/-! ## Queries -/

/-- What is asked of a proof. -/
inductive Query where
  /-- The node at a place. -/
  | node (height : Nat) (offset : UInt64)
  /-- The node above `base`, a node of level `height`. -/
  | above (base : Leaf) (height : Nat)
  /-- The root reached from `leaf`. -/
  | root (leaf : Leaf)

/-- What is found. -/
inductive Found where
  | node (leaf : Leaf)
  | root (digest : Digest)

/-- A query answered with an index and a memory. -/
def NodeIndex.ask (index : NodeIndex) : Query → Climb Found
  | .node height offset => return .node (← index.lookup height offset)
  | .above base height => return .node (← index.climb base height)
  | .root leaf => return .root (← index.rootFrom leaf)

/-- The answers to queries, each of them asked with the memory that those before it have left. -/
def NodeIndex.answers (index : NodeIndex) : List Query → Derived → List (Except Error Found)
  | [], _ => []
  | query :: rest, memory =>
    match (index.ask query).run memory with
    | .ok found memory' => .ok found :: index.answers rest memory'
    | .error e memory' => .error e :: index.answers rest memory'

/-- A query answered by the plain recursion. -/
def MerkleProof.answer (proof : MerkleProof) : Query → Except Error Found
  | .node height offset => return .node (← proof.node height offset)
  | .above base height => return .node (← proof.above base height)
  | .root leaf => return .root ((← proof.reach leaf proof.treeHeight).hash.getD .zero)

namespace NodeIndex

variable {proof : MerkleProof}

/-- From a memory that agrees with the proof, a query is answered as by the plain recursion, and the
memory agrees again. -/
theorem ask_answers (proof : MerkleProof) (query : Query) :
    Climb.Answers proof (proof.index.ask query) (proof.answer query) := by
  cases query with
  | node height offset => exact (lookup_answers proof height offset).bind fun _ => .pure _
  | above base height => exact (climb_answers proof base height).bind fun _ => .pure _
  | root leaf =>
    have h := (rootFrom_answers proof leaf).bind fun root => .pure (Found.root root)
    have hroot : (proof.answer (.root leaf)) = ((do
        let top ← proof.reach leaf proof.treeHeight
        return top.hash.getD .zero) >>= fun root => .ok (.root root)) := by
      rw [MerkleProof.answer]
      cases proof.reach leaf proof.treeHeight <;> rfl
    rw [hroot]
    exact h

/-- Whatever was asked before, each query is answered as by the plain recursion. -/
theorem answers_eq (queries : List Query) {memory : Derived} (hm : Derived.Agrees proof memory) :
    proof.index.answers queries memory = queries.map proof.answer := by
  induction queries generalizing memory with
  | nil => rfl
  | cons query rest ih =>
    obtain ⟨memory', hm', he⟩ := ask_answers proof query memory hm
    rw [answers, he, List.map_cons, ← ih hm']
    cases proof.answer query <;> rfl

end NodeIndex

namespace MerkleProof

variable {proof : MerkleProof} {height offset : Nat} {leaf : Leaf}

/-! ## Offsets of any size -/

/-- The node at this place by the same recursion, for offsets of any size. -/
def nodeAt? (proof : MerkleProof) : (height offset : Nat) → Option Leaf
  | 0, offset => do
    let level ← proof.leaves[0]?
    level.find? fun leaf => leaf.offset.toNat == offset
  | below + 1, offset => do
    let level ← proof.leaves[below + 1]?
    level.find? (fun leaf => leaf.offset.toNat == offset) <|> do
      let left ← proof.nodeAt? below (2 * offset)
      let right ← proof.nodeAt? below (2 * offset + 1)
      return left.parent right

theorem find?_toNat_eq_none {level : List Leaf} (h : 2 ^ 64 ≤ offset) :
    level.find? (fun leaf => leaf.offset.toNat == offset) = none := by
  rw [List.find?_eq_none]
  intro leaf _
  have hlt := leaf.offset.toNat_lt
  simp only [beq_iff_eq]
  omega

/-- There are no nodes at offsets that need more than 64 bits. -/
theorem nodeAt?_eq_none (h : 2 ^ 64 ≤ offset) : proof.nodeAt? height offset = none := by
  induction height generalizing offset with
  | zero =>
    rw [nodeAt?]
    simp [find?_toNat_eq_none h]
  | succ below ih =>
    rw [nodeAt?, ih (show 2 ^ 64 ≤ 2 * offset by omega)]
    simp [find?_toNat_eq_none h]

@[simp] theorem find?_toNat_eq (place : UInt64) (level : List Leaf) :
    level.find? (fun leaf => leaf.offset.toNat == place.toNat) = Leaf.find? place level := by
  unfold Leaf.find?
  congr 1
  funext leaf
  rw [Bool.eq_iff_iff, beq_iff_eq, beq_iff_eq, UInt64.toNat_inj]

theorem nodeAt?_toNat (height : Nat) (place : UInt64) :
    proof.nodeAt? height place.toNat = (proof.node height place).toOption := by
  induction height generalizing place with
  | zero =>
    rw [nodeAt?, node, listed?]
    cases proof.leaves[0]? with
    | none => rfl
    | some level =>
      simp only [Option.bind_eq_bind, Option.bind_some, find?_toNat_eq]
      cases Leaf.find? place level <;> rfl
  | succ below ih =>
    rw [nodeAt?, node, listed?]
    cases proof.leaves[below + 1]? with
    | none => rfl
    | some level =>
      simp only [Option.bind_eq_bind, Option.bind_some, find?_toNat_eq]
      cases Leaf.find? place level with
      | some leaf => rfl
      | none =>
        by_cases hfits : place < halfRange
        · rw [if_pos hfits, ← toNat_double_add_one hfits, ← toNat_double hfits, ih, ih]
          cases proof.node below (2 * place) with
          | error e => rfl
          | ok left => cases proof.node below (2 * place + 1) <;> rfl
        · have hfar : 2 ^ 64 ≤ 2 * place.toNat := by
            rw [lt_halfRange_iff] at hfits
            omega
          rw [if_neg hfits, nodeAt?_eq_none hfar]
          rfl

/-- The bounded recursion finds what the other finds. -/
theorem node_eq_ok_iff_nodeAt? {offset : UInt64} :
    proof.node height offset = .ok leaf ↔ proof.nodeAt? height offset.toNat = some leaf := by
  rw [nodeAt?_toNat]
  cases proof.node height offset <;> simp [Except.toOption]

end MerkleProof

/-- **Remembered nodes change no answer.** Look-ups and climbs that share a memory, in any order and
also after failed ones, are answered as by the plain recursion. That this recursion stops at offsets
that cannot be doubled within 64 bits costs it no node, and each node that it finds stands where it
was looked up. -/
theorem NodeIndex.answers_eq_plain (proof : MerkleProof) :
    (∀ queries, proof.index.answers queries ∅ = queries.map proof.answer) ∧
    (∀ height (offset : UInt64) leaf,
      proof.node height offset = .ok leaf ↔ proof.nodeAt? height offset.toNat = some leaf) ∧
    (∀ height offset leaf, proof.node height offset = .ok leaf → leaf.offset = offset) := by
  refine ⟨?_, ?_, ?_⟩
  · intro queries
    exact answers_eq queries (Derived.agrees_empty proof)
  · intro height offset leaf
    exact MerkleProof.node_eq_ok_iff_nodeAt?
  · intro height offset leaf h
    exact MerkleProof.offset_of_node h

/-- A node is derived, one at a gap next to it is not, and then the first is asked for again. -/
theorem Merkle.answers_lastPairProof : ∃ node : Leaf,
    lastPairProof.index.answers [.node 1 0x7fffffffffffffff, .node 1 0x7ffffffffffffffe,
        .node 1 0x7fffffffffffffff] ∅ =
      [.ok (.node node), .error (.childNotFound 0 0xfffffffffffffffc), .ok (.node node)] ∧
    lastPairProof.node 1 0x7fffffffffffffff = .ok node ∧ node.offset = 0x7fffffffffffffff := by
  obtain ⟨hanswers, -, hoffset⟩ := NodeIndex.answers_eq_plain lastPairProof
  obtain ⟨node, hnode⟩ : ∃ node, lastPairProof.node 1 0x7fffffffffffffff = .ok node := ⟨_, rfl⟩
  refine ⟨node, ?_, hnode, hoffset _ _ _ hnode⟩
  have hgap : lastPairProof.node 1 0x7ffffffffffffffe =
    .error (.childNotFound 0 0xfffffffffffffffc) := rfl
  simp only [hanswers, List.map_cons, List.map_nil, MerkleProof.answer, hnode, hgap]
  rfl

end SpvEnvelope
