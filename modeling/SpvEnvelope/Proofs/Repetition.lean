import Mathlib.Data.List.Forall2
import SpvEnvelope.Certify.Walk

/-!
# Walks that repeat each other

A walk works on positions, but what it reports and asks is about transactions. So a ledger that finds
for each txid the same record, at whatever position, repeats the walk of another ledger: from the
same questions it asks the same further ones and comes to the same report.

`Ledger.Embeds` says what must be found again. A ledger may find more than the other one did; then it
repeats what succeeds, but what failed there need not fail here. With `strict` it finds nothing more,
and repeats failures too. `Ledger.Embeds.step` is the simulation of one step, `Ledger.Embeds.complete`
that of whole walks.
-/

namespace SpvEnvelope

variable {α β γ δ : Type} {strict : Prop}

/-! ## Results -/

/-- The second result is a success after the same questions if the first one is, and the same failure
if the first one is a failure, as far as `strict` asks for it. -/
inductive Repeated (strict : Prop) (related : α → β → Prop) :
    EStateM.Result Error (Array ScriptCheck) α → EStateM.Result Error (Array ScriptCheck) β → Prop
  | ok {a : α} {b : β} {checks : Array ScriptCheck} (h : related a b) :
      Repeated strict related (.ok a checks) (.ok b checks)
  | error (e : Error) (checks : Array ScriptCheck) :
      Repeated strict related (.error e checks) (.error e checks)
  | lenient {e : Error} {checks : Array ScriptCheck}
      {result : EStateM.Result Error (Array ScriptCheck) β} (h : ¬strict) :
      Repeated strict related (.error e checks) result

/-- Started with the same questions, `other` repeats what `audit` comes to. -/
def Repeats (strict : Prop) (related : α → β → Prop) (audit : Audit α) (other : Audit β) : Prop :=
  ∀ checks, Repeated strict related (audit.run checks) (other.run checks)

namespace Repeats

variable {related : α → β → Prop} {related' : γ → δ → Prop} {audit : Audit α} {other : Audit β}

protected theorem pure {a : α} {b : β} (h : related a b) :
    Repeats strict related (pure a) (pure b) :=
  fun _ => .ok h

protected theorem refl (audit : Audit α) : Repeats strict (· = ·) audit audit := by
  intro checks
  cases audit.run checks with
  | ok a checks' => exact .ok rfl
  | error e checks' => exact .error e checks'

/-- A failure is repeated by whatever fails the same way if `strict` holds. -/
protected theorem throw {e : Error} (h : strict → other = throw e) :
    Repeats strict related (throw e) other := by
  intro checks
  by_cases hx : strict
  · rw [h hx]
    exact .error e checks
  · exact .lenient hx

protected theorem bind {next : α → Audit γ} {next' : β → Audit δ}
    (h : Repeats strict related audit other)
    (hn : ∀ a b, related a b → Repeats strict related' (next a) (next' b)) :
    Repeats strict related' (audit >>= next) (other >>= next') := by
  intro checks
  rw [EStateM.run_bind, EStateM.run_bind]
  have hc := h checks
  generalize audit.run checks = result, other.run checks = result' at hc ⊢
  cases hc with
  | ok hr => exact hn _ _ hr _
  | error e checks' => exact .error e checks'
  | lenient hx => exact .lenient hx

end Repeats

/-! ## Ledgers -/

namespace Ledger

variable {ledger other : Ledger}

/-- The ledgers have the same record at these positions, and it is the last one in both or in
neither. -/
structure SamePlace (ledger other : Ledger) (position position' : Nat) : Prop where
  record : other.records[position']? = ledger.records[position]?
  isLast : position' + 1 = other.records.size ↔ position + 1 = ledger.records.size

/-- What `ledger` finds, `other` finds too; and if `strict` holds, it finds nothing else. -/
structure Embeds (strict : Prop) (ledger other : Ledger) : Prop where
  verify : other.verify = ledger.verify
  flags : other.flags = ledger.flags
  position : ∀ (txid : Digest) (position : Nat), ledger.positions[txid]? = some position →
    ∃ position', other.positions[txid]? = some position' ∧
      SamePlace ledger other position position'
  noPosition : strict → ∀ txid : Digest, ledger.positions[txid]? = none →
    other.positions[txid]? = none
  proof : ∀ (index : Nat) (proof : MerkleProof), ledger.proofs[index]? = some proof →
    other.proofs[index]? = some proof
  proofs : strict → other.proofs = ledger.proofs

/-- The lists lead to the same records. -/
abbrev SamePlaces (ledger other : Ledger) : List Nat → List Nat → Prop :=
  List.Forall₂ (SamePlace ledger other)

theorem SamePlace.output? {position position' : Nat}
    (h : SamePlace ledger other position position') (outputIndex : UInt32) :
    other.output? position' outputIndex = ledger.output? position outputIndex := by
  rw [Ledger.output?, Ledger.output?, h.record]

/-- The visits report the same and lead to the same records. -/
structure SameVisit (ledger other : Ledger) (visit visit' : Visit) : Prop where
  parents : SamePlaces ledger other visit.parents visit'.parents
  isChecked : visit'.isChecked = visit.isChecked
  anchor : visit'.anchor = visit.anchor

/-- The walks have come equally far and lead to the same records. -/
structure SameWalk (ledger other : Ledger) (walk walk' : Walk) : Prop where
  pending : SamePlaces ledger other walk.pending walk'.pending
  visited : walk'.visited = walk.visited
  validated : walk'.validated = walk.validated
  anchors : walk'.anchors = walk.anchors

theorem SameWalk.add {walk walk' : Walk} {visit visit' : Visit}
    (hw : SameWalk ledger other walk walk') (hv : SameVisit ledger other visit visit')
    (record : Record) :
    SameWalk ledger other (walk.add record visit) (walk'.add record visit') := by
  constructor
  · exact List.rel_append hv.parents hw.pending
  · rw [Walk.add, Walk.add, hw.visited]
  · rw [Walk.add, Walk.add, hw.validated, hv.isChecked]
  · rw [Walk.add, Walk.add, hw.anchors, hv.anchor]

namespace Embeds

/-! ## Checks -/

theorem checkInput (h : ledger.Embeds strict other) (record : Record) (index : Nat) (input : Input) :
    Repeats strict (SamePlace ledger other) (ledger.checkInput record index input)
      (other.checkInput record index input) := by
  unfold Ledger.checkInput
  cases hp : ledger.positions[input.sourceTxid]? with
  | none =>
    refine .throw fun hx => ?_
    rw [h.noPosition hx _ hp]
  | some position =>
    obtain ⟨position', hp', hplace⟩ := h.position _ _ hp
    simp only [hp', hplace.output?, h.flags, h.verify]
    cases ledger.output? position input.outputIndex with
    | none => exact .throw fun _ => rfl
    | some funding =>
      refine (Repeats.refl _).bind fun _ _ _ => ?_
      cases ledger.verify ⟨record.transaction, index, funding, ledger.flags⟩ with
      | ok _ => exact .pure hplace
      | error reason => exact .throw fun _ => rfl

theorem checkInputs (h : ledger.Embeds strict other) (record : Record) (inputs : List Input)
    (index : Nat) {parents parents' : List Nat} (hp : SamePlaces ledger other parents parents') :
    Repeats strict (SamePlaces ledger other) (ledger.checkInputs record index parents inputs)
      (other.checkInputs record index parents' inputs) := by
  induction inputs generalizing index parents parents' with
  | nil => exact .pure hp
  | cons input rest ih =>
    refine (h.checkInput record index input).bind fun position position' hplace => ?_
    exact ih (index + 1) (.cons hplace hp)

theorem check (h : ledger.Embeds strict other) (isTarget : Bool) (record : Record) :
    Repeats strict (SamePlaces ledger other) (ledger.check isTarget record)
      (other.check isTarget record) := by
  unfold Ledger.check
  by_cases hc : isChecked isTarget record = true
  · rw [if_pos hc, if_pos hc]
    exact (Repeats.refl _).bind fun _ _ _ => h.checkInputs record _ 0 .nil
  · rw [if_neg hc, if_neg hc]
    exact .pure .nil

/-- A proof that is found is found again, so what it proves is proven again. -/
theorem anchor (h : ledger.Embeds strict other) (record : Record) (index : UInt64) :
    record.anchor index other.proofs = record.anchor index ledger.proofs ∨
      ¬strict ∧ ∃ e, record.anchor index ledger.proofs = .error e := by
  by_cases hx : strict
  · left
    rw [h.proofs hx]
  · unfold Record.anchor
    cases hp : ledger.proofs[index.toNat]? with
    | none => exact .inr ⟨hx, _, rfl⟩
    | some proof =>
      left
      rw [h.proof _ _ hp]

theorem prove (h : ledger.Embeds strict other) (record : Record) :
    Repeats strict (· = ·) (ledger.prove record) (other.prove record) := by
  unfold Ledger.prove
  cases record.proofIndex with
  | none => exact .refl _
  | some index =>
    rcases h.anchor record index with hsame | ⟨hx, e, he⟩
    · simp only [hsame]
      exact .refl _
    · simp only [he]
      exact .throw fun hx' => absurd hx' hx

theorem visit (h : ledger.Embeds strict other) (isTarget : Bool) (record : Record) :
    Repeats strict (SameVisit ledger other) (ledger.visit isTarget record)
      (other.visit isTarget record) := by
  refine (h.check isTarget record).bind fun spent spent' hspent => ?_
  refine (h.prove record).bind fun anchor anchor' hanchor => ?_
  refine .pure ⟨?_, rfl, hanchor.symm⟩
  cases record.isMined with
  | true => exact .nil
  | false => exact hspent

/-! ## Walks -/

/-- **The simulation of a step.** -/
theorem step (h : ledger.Embeds strict other) {walk walk' : Walk} {position position' : Nat}
    (hw : SameWalk ledger other walk walk') (hp : SamePlace ledger other position position') :
    Repeats strict (SameWalk ledger other) (ledger.step walk position)
      (other.step walk' position') := by
  unfold Ledger.step
  rw [hp.record, hw.visited]
  cases ledger.records[position]? with
  | none => exact .pure hw
  | some record =>
    by_cases hv : walk.visited.contains record.txid = true
    · simp only [if_pos hv]
      exact .pure hw
    · have hlast : (position' + 1 == other.records.size) = (position + 1 == ledger.records.size) := by
        rw [Bool.eq_iff_iff, beq_iff_eq, beq_iff_eq, hp.isLast]
      simp only [if_neg hv, hlast]
      exact (h.visit _ record).bind fun visit visit' hvisit => .pure (hw.add hvisit record)

/-- **The simulation of a walk.** -/
theorem complete (h : ledger.Embeds strict other) {walk walk' : Walk}
    (hw : SameWalk ledger other walk walk') :
    Repeats strict (SameWalk ledger other) (ledger.complete walk) (other.complete walk') := by
  intro checks
  -- on the weight of the first walk alone: the second one stops when it does
  induction hweight : ledger.weight walk using Nat.strongRecOn generalizing walk walk' checks with
  | ind weight ih =>
    rw [run_complete, run_complete]
    have hpending := hw.pending
    generalize hp : walk.pending = pending, walk'.pending = pending' at hpending ⊢
    cases hpending with
    | nil => exact .ok hw
    | cons hplace hrest =>
      rename_i position position' rest rest'
      have hwalk : SameWalk ledger other { walk with pending := rest }
          { walk' with pending := rest' } := { hw with pending := hrest }
      have hstep := h.step hwalk hplace checks
      dsimp only
      generalize hrun : (ledger.step { walk with pending := rest } position).run checks = result,
        (other.step { walk' with pending := rest' } position').run checks = result' at hstep ⊢
      cases hstep with
      | ok hnext =>
        have hless := ledger.weight_lt_of_step walk _ hp hrun
        exact ih _ (hweight ▸ hless) hnext _ rfl
      | error e checks' => exact .error e checks'
      | lenient hx => exact .lenient hx

end Embeds

end Ledger

end SpvEnvelope
