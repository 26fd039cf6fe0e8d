import Mathlib.Data.Fintype.Card
import Mathlib.Data.Set.Finite.List
import Mathlib.Logic.Relation
import SpvEnvelope.Proofs.Report

/-!
# What certification is grounded in

From unmined transactions certification goes on to what they spend, so it can only come to an end at
mined ones, which give anchors, at unmined ones that spend nothing, or on its own tracks. The latter
two are `Envelope.Ungrounded`, and no other envelope is certified without an anchor
(`grounded_of_certify`).

That ancestry may end at a transaction without inputs is part of the policy. A loop would have to
name txids that depend on each other through their own hashes; nothing here excludes such hashes.
-/

namespace SpvEnvelope

open Relation

/-- Going on and on within a list, one comes back to where one was. -/
theorem exists_transGen_self {α : Type} {r : α → α → Prop} {xs : List α} (hne : xs ≠ [])
    (h : ∀ x ∈ xs, ∃ y ∈ xs, r x y) : ∃ x ∈ xs, TransGen r x x := by
  by_contra hloop
  push Not at hloop
  -- without a loop, one of finitely many elements is the last that is come to
  let after (y x : { x // x ∈ xs }) : Prop := TransGen r x.val y.val
  have htrans : IsTrans _ after := ⟨fun _ _ _ hab hbc => hbc.trans hab⟩
  have hirrefl : Std.Irrefl after := ⟨fun x => hloop x.val x.property⟩
  have hfinite : Finite { x // x ∈ xs } := (List.finite_toSet xs).to_subtype
  have hwf : WellFounded after := Finite.wellFounded_of_trans_of_irrefl after
  obtain ⟨first, hfirst⟩ := List.exists_mem_of_ne_nil xs hne
  obtain ⟨last, -, hlast⟩ := hwf.has_min Set.univ ⟨⟨first, hfirst⟩, trivial⟩
  obtain ⟨next, hnext, hr⟩ := h last.val last.property
  exact hlast ⟨next, hnext⟩ trivial (.single hr)

namespace Envelope

variable {envelope : Envelope} {verify : ScriptVerifier} {config : Config}
  {certification : Certification}

/-- `txid` stands for an unmined transaction with an input from `source`. -/
def Spends (envelope : Envelope) (txid source : Digest) : Prop :=
  ∃ record input, envelope.denoted? txid = some record ∧ record.isMined = false ∧
    input ∈ record.transaction.inputs ∧ input.sourceTxid = source

/-- The target's ancestry comes to an end, or back to itself, without a proof. -/
inductive Ungrounded (envelope : Envelope) : Prop
  | source {txid : Digest} {record : Record} (h : envelope.Reached txid)
      (hd : envelope.denoted? txid = some record) (hm : record.isMined = false)
      (hi : record.transaction.inputs = []) : Ungrounded envelope
  | loop {txid : Digest} (h : envelope.Reached txid) (hl : TransGen envelope.Spends txid txid) :
      Ungrounded envelope

/-- A mined record that passes has an anchor. -/
theorem Passes.isMined_eq_false {record : Record} (hp : envelope.Passes verify config record)
    (ha : envelope.anchor? record = none) : record.isMined = false := by
  have h := hp.map_txid_anchor?
  rw [ha] at h
  simpa using h

/-- A walk that has visited everything and met no mined record has met a source or a loop. -/
theorem Progress.ungrounded {walk : Walk} {asked : List ScriptCheck} {done : List Record}
    (hp : envelope.Progress verify config walk asked done) (hpend : walk.pending = [])
    (ha : done.filterMap envelope.anchor? = []) : envelope.Ungrounded := by
  have hunmined : ∀ record ∈ done, record.isMined = false := fun record hm =>
    (hp.passes record hm).isMined_eq_false (List.filterMap_eq_nil_iff.mp ha record hm)
  by_cases hsource : ∃ record ∈ done, record.transaction.inputs = []
  · obtain ⟨record, hm, hi⟩ := hsource
    have hpass := hp.passes record hm
    exact .source hpass.reached hpass.denoted (hunmined record hm) hi
  · push Not at hsource
    have hspends : ∀ txid ∈ done.map (·.txid), ∃ source ∈ done.map (·.txid),
        envelope.Spends txid source := by
      intro txid hm
      obtain ⟨record, hrecord, rfl⟩ := List.mem_map.mp hm
      have hpass := hp.passes record hrecord
      obtain ⟨input, hinput⟩ := List.exists_mem_of_ne_nil _ (hsource record hrecord)
      have hreached := hpass.reached.input hpass.denoted (hunmined record hrecord) hinput
      obtain ⟨parent, hparent, ht⟩ := hp.mem_of_reached hpend hreached
      exact ⟨_, List.mem_map.mpr ⟨parent, hparent, ht⟩, record, input, hpass.denoted,
        hunmined record hrecord, hinput, rfl⟩
    obtain ⟨target, htarget, -⟩ := hp.mem_of_reached hpend .target
    have hne : done.map (·.txid) ≠ [] :=
      List.ne_nil_of_mem (List.mem_map.mpr ⟨target, htarget, rfl⟩)
    obtain ⟨txid, hm, hloop⟩ := exists_transGen_self hne hspends
    obtain ⟨record, hrecord, rfl⟩ := List.mem_map.mp hm
    exact .loop (hp.passes record hrecord).reached hloop

theorem ungrounded_of_anchors_eq_nil (h : envelope.certify verify config = .ok certification)
    (ha : certification.anchors = []) : envelope.Ungrounded := by
  obtain ⟨_, _, done, rfl, hp, hpend⟩ := progress_of_certify h
  exact hp.ungrounded hpend ha

/-- **Certification is grounded in an anchor**, unless the target's ancestry has a source that is not
mined or a loop; and the headers have confirmed a root of every other confirmed certification. -/
theorem grounded_of_certify (envelope : Envelope) (verify : ScriptVerifier) (config : Config) :
    (∀ certification, envelope.certify verify config = .ok certification →
      certification.anchors ≠ [] ∨ envelope.Ungrounded) ∧
    (∀ headers certification,
      envelope.certifyConfirmed verify config headers = .ok certification →
      (∃ anchor ∈ certification.anchors,
        anchor.blockHeight ∈ (envelope.auditConfirmed verify config headers).heights ∧
        headers anchor.blockHeight = .ok (some anchor.merkleRoot)) ∨
      envelope.Ungrounded) := by
  have hgrounded (certification : Certification)
      (h : envelope.certify verify config = .ok certification) :
      certification.anchors ≠ [] ∨ envelope.Ungrounded := by
    by_cases ha : certification.anchors = []
    · exact .inr (ungrounded_of_anchors_eq_nil h ha)
    · exact .inl ha
  refine ⟨hgrounded, fun headers certification h => ?_⟩
  obtain ⟨hcertify, hheaders⟩ := certifyConfirmed_eq_ok_iff.mp h
  rcases hgrounded certification hcertify with hne | hu
  · obtain ⟨anchor, ha⟩ := List.exists_mem_of_ne_nil _ hne
    refine .inl ⟨anchor, ha, ?_, hheaders anchor ha⟩
    rw [heights_of_certifyConfirmed h]
    exact List.mem_map.mpr ⟨(anchor.blockHeight, anchor.merkleRoot),
      List.mem_eraseDups.mpr (List.mem_map_of_mem ha), rfl⟩
  · exact .inr hu

/-- A mined target that spends nothing is grounded. -/
theorem not_ungrounded_of_isMined (hm : envelope.target.isMined = true)
    (hi : envelope.target.transaction.inputs = []) : ¬envelope.Ungrounded := by
  have hmined {txid : Digest} {record : Record} (hr : envelope.Reached txid)
      (hd : envelope.denoted? txid = some record) : record.isMined = true := by
    rw [hr.eq_target hi, denoted?_target] at hd
    cases hd
    exact hm
  rintro (⟨hr, hd, hn, -⟩ | ⟨hr, hl⟩)
  · rw [hmined hr hd] at hn
    cases hn
  · obtain ⟨_, ⟨record, _, hd, hn, -⟩, -⟩ := TransGen.head'_iff.mp hl
    rw [hmined hr hd] at hn
    cases hn

theorem grounded_of_certify_three :
    Merkle.threeEnvelope.certify (fun _ => .ok ()) {} =
        .ok ⟨Merkle.threeAnchor.txid, [Merkle.threeAnchor.txid], [Merkle.threeAnchor]⟩ ∧
      ¬Merkle.threeEnvelope.Ungrounded ∧
      ([Merkle.threeAnchor] ≠ [] ∨ Merkle.threeEnvelope.Ungrounded) ∧
      ∃ anchor ∈ [Merkle.threeAnchor],
        anchor.blockHeight ∈ (Merkle.threeEnvelope.auditConfirmed (fun _ => .ok ()) {}
          (.ofList [(7, Merkle.root Merkle.threeTxids)])).heights ∧
        HeaderSource.ofList [(7, Merkle.root Merkle.threeTxids)] anchor.blockHeight =
          .ok (some anchor.merkleRoot) := by
  have hcertify := Merkle.certify_threeEnvelope (fun _ => .ok ()) {}
  have hn : ¬Merkle.threeEnvelope.Ungrounded := not_ungrounded_of_isMined rfl rfl
  have hgrounded := grounded_of_certify Merkle.threeEnvelope (fun _ => .ok ()) {}
  exact ⟨hcertify, hn, hgrounded.1 _ hcertify,
    (hgrounded.2 _ _ Merkle.certifyConfirmed_threeEnvelope).resolve_right hn⟩

/-- An envelope whose target pays out of nothing. -/
def madeUp : Envelope where
  version := 1
  proofs := [Merkle.threeProof]
  records := [.ofTransaction .empty none,
    .ofTransaction { outputs := [{ satoshis := 1000 }] } none]
  two_le_length_records := by decide

/-- It is certified without an anchor, also where the headers cannot be asked. -/
theorem certify_madeUp :
    madeUp.certify (fun _ => .ok ()) {} = .ok ⟨madeUp.target.txid, [madeUp.target.txid], []⟩ ∧
      madeUp.auditConfirmed (fun _ => .ok ()) {} (.offline "") =
        ⟨.ok ⟨madeUp.target.txid, [madeUp.target.txid], []⟩, [], []⟩ := by
  have hp : madeUp.target.IsProven madeUp.proofs := by
    intro index hi
    cases hi
  rw [certify, auditConfirmed, audit_of_inputs_eq_nil rfl hp]
  exact ⟨rfl, rfl⟩

end Envelope

end SpvEnvelope
