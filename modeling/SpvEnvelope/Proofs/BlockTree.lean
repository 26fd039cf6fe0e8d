import SpvEnvelope.Merkle.Leaf

/-!
# The Merkle tree of a block

The transactions of a block are the lowest level of its tree. Each further level pairs neighbours,
and a last node without a neighbour is paired with itself, until one node is left: the root. What is
hashed for a node is kept apart as its message (`messages`), because a proof that a node belongs to
a tree ends with two equal messages or with a collision (`Collides`).
-/

namespace SpvEnvelope.Merkle

/-! ## Levels -/

/-- What is hashed for the nodes above `level`. -/
def messages : (level : List Digest) → List (List UInt8)
  | [] => []
  | [last] => [last.bytes ++ last.bytes]
  | left :: right :: rest => (left.bytes ++ right.bytes) :: messages rest

/-- The nodes above `level`. -/
def levelAbove (level : List Digest) : List Digest :=
  (messages level).map Digest.double

@[simp] theorem levelAbove_cons_cons (left right : Digest) (rest : List Digest) :
    levelAbove (left :: right :: rest) = parent left right :: levelAbove rest := rfl

@[simp]
theorem length_messages : ∀ level : List Digest, (messages level).length = (level.length + 1) / 2
  | [] => rfl
  | [_] => by simp [messages]
  | _ :: _ :: rest => by
    simp only [messages, List.length_cons, length_messages rest]
    omega

@[simp] theorem length_levelAbove (level : List Digest) :
    (levelAbove level).length = (level.length + 1) / 2 := by
  simp [levelAbove]

/-- The message at a position joins the two nodes below, or the last node and itself. -/
@[simp] theorem getElem?_messages : ∀ (level : List Digest) (index : Nat),
    (messages level)[index]? = level[2 * index]?.map fun left =>
      left.bytes ++ (level[2 * index + 1]?.getD left).bytes
  | [], _ => rfl
  | [_], 0 => rfl
  | [_], index + 1 => by
    rw [messages, List.getElem?_eq_none (by simp), List.getElem?_eq_none (by simp)]
    rfl
  | _ :: _ :: _, 0 => rfl
  | _ :: _ :: rest, index + 1 => by
    rw [messages, List.getElem?_cons_succ, getElem?_messages rest index,
      show 2 * (index + 1) = 2 * index + 2 by omega]
    rfl

/-- A node is the parent of the two nodes below, or of the last node and itself. -/
@[simp] theorem getElem?_levelAbove (level : List Digest) (index : Nat) :
    (levelAbove level)[index]? = level[2 * index]?.map fun left =>
      parent left (level[2 * index + 1]?.getD left) := by
  rw [levelAbove, List.getElem?_map, getElem?_messages, Option.map_map]
  rfl

/-- The nodes of the tree that stand `height` levels above the transactions. -/
def level (txids : List Digest) : (height : Nat) → List Digest
  | 0 => txids
  | height + 1 => levelAbove (level txids height)

@[simp] theorem level_levelAbove (txids : List Digest) (height : Nat) :
    level (levelAbove txids) height = level txids (height + 1) := by
  induction height with
  | zero => rfl
  | succ height ih =>
    rw [level, ih]
    rfl

/-! ## Height and root -/

/-- The number of levels above the transactions until one node is left. -/
def height (txids : List Digest) : Nat :=
  if txids.length ≤ 1 then 0 else height (levelAbove txids) + 1
termination_by txids.length
decreasing_by
  rw [length_levelAbove]
  omega

/-- The root of the tree of a block; the digest of zeros if there are no transactions. -/
def root (txids : List Digest) : Digest :=
  (level txids (height txids)).headD .zero

theorem length_level_height (txids : List Digest) (hne : txids ≠ []) :
    (level txids (height txids)).length = 1 := by
  have hpos := List.length_pos_iff.mpr hne
  by_cases h : txids.length ≤ 1
  · rw [height, if_pos h, level]
    omega
  · have hlt := length_levelAbove txids
    have hne' : levelAbove txids ≠ [] := by
      rw [← List.length_pos_iff]
      omega
    rw [height, if_neg h, ← level_levelAbove]
    exact length_level_height (levelAbove txids) hne'
termination_by txids.length
decreasing_by omega

/-- The tree ends with the root, alone on its level. -/
theorem level_height (txids : List Digest) (hne : txids ≠ []) :
    level txids (height txids) = [root txids] := by
  obtain ⟨node, hnode⟩ := List.length_eq_one_iff.mp (length_level_height txids hne)
  rw [root, hnode, List.headD_cons]

/-! ## Places -/

/-- The digest is a node of `level`, and it is the one at `offset` if the level goes that far. -/
structure Stands (level : List Digest) (offset : Nat) (digest : Digest) : Prop where
  mem : digest ∈ level
  getElem? : offset < level.length → level[offset]? = some digest

/-- Two different messages of 64 bytes with the same double SHA-256. -/
structure Collides (message message' : List UInt8) : Prop where
  length : message.length = 64
  length' : message'.length = 64
  ne : message ≠ message'
  double_eq : Digest.double message = Digest.double message'

/-- A message joins two digests, so its halves are these digests. -/
theorem append_bytes_inj {left right left' right' : Digest}
    (h : left.bytes ++ right.bytes = left'.bytes ++ right'.bytes) :
    left = left' ∧ right = right' := by
  obtain ⟨hl, hr⟩ := List.append_inj h (by simp)
  exact ⟨Digest.ext hl, Digest.ext hr⟩

theorem length_append_bytes (left right : Digest) : (left.bytes ++ right.bytes).length = 64 := by
  simp

/-- A node of the level above, hashed from two digests, stands above these digests, or else what was
hashed for it in the tree collides with them. -/
theorem Stands.children {level : List Digest} {offset : Nat} {left right : Digest}
    (h : Stands (levelAbove level) (offset / 2) (parent left right)) :
    Stands level offset (if offset % 2 = 0 then left else right) ∨
      ∃ message ∈ messages level, Collides (left.bytes ++ right.bytes) message := by
  -- the node's position in the tree, which is the half offset unless that lies beyond the level
  obtain ⟨index, hindex, hhalf⟩ : ∃ index, (levelAbove level)[index]? = some (parent left right) ∧
      (offset / 2 < (levelAbove level).length → index = offset / 2) := by
    by_cases hlt : offset / 2 < (levelAbove level).length
    · exact ⟨offset / 2, h.getElem? hlt, fun _ => rfl⟩
    · obtain ⟨index, hi⟩ := List.mem_iff_getElem?.mp h.mem
      exact ⟨index, hi, fun hlt' => absurd hlt' hlt⟩
  rw [length_levelAbove] at hhalf
  rw [levelAbove, List.getElem?_map, Option.map_eq_some_iff] at hindex
  obtain ⟨message, hmessage, hdouble⟩ := hindex
  by_cases he : left.bytes ++ right.bytes = message
  · left
    subst he
    rw [getElem?_messages, Option.map_eq_some_iff] at hmessage
    obtain ⟨node, hnode, hbytes⟩ := hmessage
    obtain ⟨rfl, hright⟩ := append_bytes_inj hbytes
    have hlt := (List.getElem?_eq_some_iff.mp hnode).1
    by_cases hpar : offset % 2 = 0
    · rw [if_pos hpar]
      refine ⟨List.mem_of_getElem? hnode, fun ho => ?_⟩
      rw [show offset = 2 * index by have := hhalf (by omega); omega]
      exact hnode
    · rw [if_neg hpar]
      cases hn : level[2 * index + 1]? with
      | none =>
        rw [hn, Option.getD_none] at hright
        subst hright
        refine ⟨List.mem_of_getElem? hnode, fun ho => ?_⟩
        have := hhalf (by omega)
        rw [List.getElem?_eq_none_iff] at hn
        omega
      | some next =>
        rw [hn, Option.getD_some] at hright
        subst hright
        refine ⟨List.mem_of_getElem? hn, fun ho => ?_⟩
        rw [show offset = 2 * index + 1 by have := hhalf (by omega); omega]
        exact hn
  · right
    refine ⟨message, List.mem_of_getElem? hmessage, ?_⟩
    have hlen : message.length = 64 := by
      rw [getElem?_messages, Option.map_eq_some_iff] at hmessage
      obtain ⟨node, -, rfl⟩ := hmessage
      exact length_append_bytes _ _
    exact ⟨length_append_bytes _ _, hlen, he, hdouble.symm⟩

end SpvEnvelope.Merkle
