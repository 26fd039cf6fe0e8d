import Mathlib.Data.List.Find
import Mathlib.Data.List.Nodup
import SpvEnvelope.Proofs.Repetition
import SpvEnvelope.Proofs.Report

/-!
# Envelopes rearranged

What certification says of a target does not depend on the order in which its ancestors stand in the
envelope, nor on transactions and proofs that have nothing to do with them (`certify_stable`). Both
are cases of one relation between envelopes, `Envelope.Embeds`: what the one finds by txid or by proof
index, the other finds too.
-/

namespace SpvEnvelope

/-! ## Insertion -/

/-- The second list holds the records of the first one in their order, and between them records with
txids other than `txids`. -/
inductive Record.Inserts (txids : List Digest) : List Record → List Record → Prop
  | nil : Inserts txids [] []
  | keep (record : Record) {records longer : List Record} (h : Inserts txids records longer) :
      Inserts txids (record :: records) (record :: longer)
  | insert (record : Record) {records longer : List Record} (hr : record.txid ∉ txids)
      (h : Inserts txids records longer) : Inserts txids records (record :: longer)

namespace Record.Inserts

variable {txids : List Digest} {records longer : List Record}

theorem mem_or_notMem (h : Inserts txids records longer) {record : Record} (hr : record ∈ longer) :
    record ∈ records ∨ record.txid ∉ txids := by
  induction h with
  | nil => cases hr
  | keep kept _ ih =>
    rcases List.mem_cons.mp hr with rfl | hr
    · simp
    · exact (ih hr).imp_left (List.mem_cons_of_mem _)
  | insert inserted hi _ ih =>
    rcases List.mem_cons.mp hr with rfl | hr
    · exact .inr hi
    · exact ih hr

/-- Records with the txids are found as before. -/
theorem find?_eq (h : Inserts txids records longer) {txid : Digest} (ht : txid ∈ txids) :
    longer.find? (·.txid == txid) = records.find? (·.txid == txid) := by
  induction h with
  | nil => rfl
  | keep kept _ ih => rw [List.find?_cons, List.find?_cons, ih]
  | insert inserted hi _ ih =>
    have hne : inserted.txid ≠ txid := fun he => hi (he ▸ ht)
    rw [List.find?_cons_of_neg (by simpa using hne), ih]

end Record.Inserts

namespace Envelope

variable {envelope other : Envelope} {strict : Prop}

/-! ## Ancestors -/

variable (envelope) in
/-- The transactions before the target. -/
def ancestors : List Record :=
  envelope.records.dropLast

variable (envelope) in
theorem records_eq_ancestors_append : envelope.records = envelope.ancestors ++ [envelope.target] :=
  (List.dropLast_append_getLast envelope.records_ne_nil).symm

variable (envelope) in
/-- No ancestor has the target's txid. -/
def NamesTargetOnce : Prop :=
  ∀ record ∈ envelope.ancestors, record.txid ≠ envelope.target.txid

theorem namesTargetOnce_of_nodup (hn : (envelope.records.map (·.txid)).Nodup) :
    envelope.NamesTargetOnce := by
  rw [records_eq_ancestors_append, List.map_append, List.nodup_append] at hn
  intro record hr
  exact hn.2.2 _ (List.mem_map_of_mem hr) _ (by simp)

/-- If no ancestor has the target's txid, then the last position is that of the target's txid and of
no other. -/
theorem NamesTargetOnce.isLast_iff (h : envelope.NamesTargetOnce) {txid : Digest} {position : Nat}
    (hp : envelope.positions[txid]? = some position) :
    position + 1 = envelope.records.length ↔ txid = envelope.target.txid := by
  obtain ⟨record, hf⟩ := find?_of_positions hp
  have ht := txid_of_find? hf
  have hr := (getElem?_of_positions hp).trans hf
  constructor
  · intro hlast
    rw [← ht, eq_target hr hlast]
  · intro he
    by_contra hne
    refine h record ?_ (ht.trans he)
    obtain ⟨hlt, -⟩ := List.getElem?_eq_some_iff.mp hr
    rw [ancestors, List.mem_iff_getElem?]
    exact ⟨position, by rw [List.getElem?_dropLast, if_pos (by omega), hr]⟩

/-! ## Embeddings -/

/-- What `envelope` finds, `other` finds too; and if `strict` holds, it finds nothing else. -/
structure Embeds (strict : Prop) (envelope other : Envelope) : Prop where
  target : other.target = envelope.target
  once : envelope.NamesTargetOnce
  once_other : other.NamesTargetOnce
  record : ∀ txid record, envelope.find? txid = some record → other.find? txid = some record
  noRecord : strict → ∀ txid, envelope.find? txid = none → other.find? txid = none
  proof : ∀ (index : Nat) (proof : MerkleProof), envelope.proofs[index]? = some proof →
    other.proofs[index]? = some proof
  proofs : strict → other.proofs = envelope.proofs

namespace Embeds

theorem samePlace (h : envelope.Embeds strict other) (verify : ScriptVerifier) (config : Config)
    {txid : Digest} {position : Nat} (hp : envelope.positions[txid]? = some position) :
    ∃ position', other.positions[txid]? = some position' ∧
      (envelope.ledger verify config).SamePlace (other.ledger verify config) position position' := by
  obtain ⟨record, hf⟩ := find?_of_positions hp
  have hf' := h.record _ _ hf
  have hsome : other.positions[txid]? ≠ none := by
    intro hn
    rw [positions_eq_none_iff.mp hn] at hf'
    cases hf'
  obtain ⟨position', hp'⟩ := Option.ne_none_iff_exists'.mp hsome
  refine ⟨position', hp', ?_, ?_⟩
  · simp only [ledger, List.getElem?_toArray]
    rw [getElem?_of_positions hp, getElem?_of_positions hp', hf, hf']
  · simp only [ledger, List.size_toArray]
    rw [h.once.isLast_iff hp, h.once_other.isLast_iff hp', h.target]

theorem ledger (h : envelope.Embeds strict other) (verify : ScriptVerifier) (config : Config) :
    (envelope.ledger verify config).Embeds strict (other.ledger verify config) where
  verify := rfl
  flags := rfl
  position _ _ hp := h.samePlace verify config hp
  noPosition hx txid hn :=
    positions_eq_none_iff.mpr (h.noRecord hx txid (positions_eq_none_iff.mp hn))
  proof := h.proof
  proofs := h.proofs

theorem start (h : envelope.Embeds strict other) (verify : ScriptVerifier) (config : Config) :
    (envelope.ledger verify config).SameWalk (other.ledger verify config)
      (.start (envelope.records.length - 1)) (.start (other.records.length - 1)) where
  pending := by
    refine .cons ⟨?_, ?_⟩ .nil
    · simp only [Envelope.ledger, List.getElem?_toArray]
      simp [h.target]
    · have := envelope.two_le_length_records
      have := other.two_le_length_records
      simp only [Envelope.ledger, List.size_toArray]
      omega
  visited := rfl
  validated := rfl
  anchors := rfl

/-- An envelope that finds what another one finds comes to the same report, unless the other fails
and this one finds more. -/
theorem audit (h : envelope.Embeds strict other) (verify : ScriptVerifier) (config : Config) :
    other.audit verify config = envelope.audit verify config ∨
      ¬strict ∧ ∃ e, envelope.certify verify config = .error e := by
  have hwalk := (h.ledger verify config).complete (h.start verify config) #[]
  simp only [certify, Envelope.audit]
  generalize ((envelope.ledger verify config).complete _).run #[] = result,
    ((other.ledger verify config).complete _).run #[] = result' at hwalk ⊢
  cases hwalk with
  | ok hw =>
    left
    simp [h.target, hw.validated, hw.anchors]
  | error e checks => exact .inl rfl
  | lenient hx => exact .inr ⟨hx, _, rfl⟩

end Embeds

/-! ## Rearrangements -/

/-- `other` holds the same proofs and the same target, and the ancestors in any order. -/
structure Permutes (envelope other : Envelope) : Prop where
  target : other.target = envelope.target
  ancestors : other.ancestors.Perm envelope.ancestors
  proofs : other.proofs = envelope.proofs

/-- `other` holds what `envelope` holds, and anywhere before the target transactions whose txids do
not occur in `envelope`, and after the proofs any others. -/
structure Extends (envelope other : Envelope) : Prop where
  target : other.target = envelope.target
  ancestors : Record.Inserts (envelope.records.map (·.txid)) envelope.ancestors other.ancestors
  proofs : envelope.proofs <+: other.proofs

theorem Permutes.embeds (h : envelope.Permutes other)
    (hn : (envelope.records.map (·.txid)).Nodup) : envelope.Embeds True other := by
  have hperm : envelope.records.Perm other.records := by
    rw [records_eq_ancestors_append envelope, records_eq_ancestors_append other, h.target]
    exact h.ancestors.symm.append_right _
  have hfind (txid : Digest) : other.find? txid = envelope.find? txid := by
    refine (List.find?_eq_find?_of_perm hperm ?_).symm
    rintro record ⟨hr, ht⟩ record' ⟨hr', ht'⟩
    refine List.inj_on_of_nodup_map hn hr hr' ?_
    rw [eq_of_beq ht, eq_of_beq ht']
  exact {
    target := h.target
    once := namesTargetOnce_of_nodup hn
    once_other := namesTargetOnce_of_nodup ((hperm.map _).nodup_iff.mp hn)
    record := fun txid record hf => (hfind txid).trans hf
    noRecord := fun _ txid hf => (hfind txid).trans hf
    proof := fun index proof hp => by rw [h.proofs, hp]
    proofs := fun _ => h.proofs }

theorem Extends.embeds (h : envelope.Extends other)
    (hn : (envelope.records.map (·.txid)).Nodup) : envelope.Embeds False other := by
  have honce := namesTargetOnce_of_nodup hn
  have hfind {txid : Digest} (ht : txid ∈ envelope.records.map (·.txid)) :
      other.find? txid = envelope.find? txid := by
    rw [find?, find?, records_eq_ancestors_append envelope, records_eq_ancestors_append other,
      List.find?_append, List.find?_append, h.ancestors.find?_eq ht, h.target]
  have honce' : other.NamesTargetOnce := by
    intro record hr he
    rw [h.target] at he
    rcases h.ancestors.mem_or_notMem hr with hr | hr
    · exact honce record hr he
    · refine hr (he ▸ List.mem_map_of_mem ?_)
      exact List.getLast_mem envelope.records_ne_nil
  exact {
    target := h.target
    once := honce
    once_other := honce'
    record := fun txid record hf => by
      rw [hfind, hf]
      exact List.mem_map.mpr ⟨record, List.mem_of_find?_eq_some hf, txid_of_find? hf⟩
    noRecord := False.elim
    proof := fun index proof hp => by
      obtain ⟨more, hmore⟩ := h.proofs
      obtain ⟨hlt, -⟩ := List.getElem?_eq_some_iff.mp hp
      rw [← hmore, List.getElem?_append_left hlt, hp]
    proofs := False.elim }

/-- **Certification is about what is found by txid.** If no two transactions of an envelope have the
same txid, the order of its ancestors makes no difference to a certification or to the error that it
ends with, and a certification stays as it is when unrelated transactions and further proofs are put
into the envelope. -/
theorem certify_stable (envelope : Envelope) (hn : (envelope.records.map (·.txid)).Nodup)
    (verify : ScriptVerifier) (config : Config) :
    (∀ other, envelope.Permutes other →
      other.certify verify config = envelope.certify verify config) ∧
    (∀ other certification, envelope.Extends other →
      envelope.certify verify config = .ok certification →
      other.certify verify config = .ok certification) := by
  constructor
  · intro other h
    rcases (h.embeds hn).audit verify config with hsame | ⟨hx, -⟩
    · rw [certify, hsame, certify]
    · exact absurd trivial hx
  · intro other certification h hok
    rcases (h.embeds hn).audit verify config with hsame | ⟨-, e, he⟩
    · rw [certify, hsame, ← certify, hok]
    · rw [hok] at he
      cases he

/-- The two ancestors change places. -/
def forkedSwapped : Envelope where
  version := 1
  proofs := [forkedProof]
  records := [.ofTransaction spendsFirst none, .ofTransaction twoOutputs (some 0),
    .ofTransaction spendsBoth none]
  two_le_length_records := by decide

/-- An empty transaction comes between them, and the proof comes twice. -/
def forkedExtended : Envelope where
  version := 1
  proofs := [forkedProof, forkedProof]
  records := [.ofTransaction twoOutputs (some 0), .ofTransaction .empty none,
    .ofTransaction spendsFirst none, .ofTransaction spendsBoth none]
  two_le_length_records := by decide

theorem certify_stable_forked :
    (forked.records.map (·.txid)).Nodup ∧ forked.Permutes forkedSwapped ∧
      forked.Extends forkedExtended ∧
      forkedSwapped.certify (fun _ => .ok ()) {} = .ok forkedReport ∧
      forkedSwapped.certify (fun _ => .error "refused") {} =
        forked.certify (fun _ => .error "refused") {} ∧
      forkedExtended.certify (fun _ => .ok ()) {} = .ok forkedReport := by
  have hn : (Transaction.empty.txid :: forked.records.map (·.txid)).Nodup := by decide +kernel
  obtain ⟨hempty, hforked⟩ := List.nodup_cons.mp hn
  have hpermutes : forked.Permutes forkedSwapped := ⟨rfl, .swap .., rfl⟩
  have hextends : forked.Extends forkedExtended :=
    ⟨rfl, .keep _ (.insert _ hempty (.keep _ .nil)), ⟨[forkedProof], rfl⟩⟩
  have hstable := certify_stable forked hforked
  refine ⟨hforked, hpermutes, hextends, ?_, (hstable _ {}).1 _ hpermutes,
    (hstable _ {}).2 _ _ hextends certify_forked⟩
  rw [(hstable _ {}).1 _ hpermutes, certify_forked]

end Envelope

end SpvEnvelope
