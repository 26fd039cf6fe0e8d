import SpvEnvelope.Proofs.Progress

/-!
# Certification accepts what the policy allows

`audit_cases` is what a whole audit comes to: everything reached was visited and passed, or one
record failed. From it, certification succeeds exactly on the envelopes that meet the policy
(`certify_ok_iff_meetsPolicy`). A target that spends nothing is the case in which the outcome can be
written out (`audit_of_inputs_eq_nil`, `certify_of_anchor`).
-/

namespace SpvEnvelope.Envelope

variable {envelope : Envelope} {verify : ScriptVerifier} {config : Config}

/-! ## Outcomes of an audit -/

/-- An audit reports on the records visited, or on the one that failed after them. -/
theorem audit_cases (envelope : Envelope) (verify : ScriptVerifier) (config : Config) :
    (∃ final asked done, envelope.audit verify config =
        ⟨.ok ⟨envelope.target.txid, (done.filter envelope.isToCheck).map (·.txid),
          done.filterMap envelope.anchor?⟩, asked⟩ ∧
      envelope.Progress verify config final asked done ∧ final.pending = []) ∨
    (∃ e record walk asked done last,
      envelope.audit verify config = ⟨.error e, asked ++ last⟩ ∧
      envelope.Progress verify config walk asked done ∧
      envelope.StopsAt verify config done record e last) := by
  simp only [audit]
  rcases complete_cases _ _ _ (Progress.start envelope verify config) with
    ⟨final, asked, done, hrun, hp, hpend⟩ | ⟨e, record, walk, asked, done, last, hrun, hp, hstop⟩
  · refine .inl ⟨final, asked, done, ?_, hp, hpend⟩
    rw [hrun, ← hp.validated, ← hp.anchors]
  · refine .inr ⟨e, record, walk, asked, done, last, ?_, hp, hstop⟩
    rw [hrun]

/-- A certification reports on a walk that has visited everything that it met. -/
theorem progress_of_certify {certification : Certification}
    (h : envelope.certify verify config = .ok certification) : ∃ final asked done,
      certification = ⟨envelope.target.txid, (done.filter envelope.isToCheck).map (·.txid),
        done.filterMap envelope.anchor?⟩ ∧
      envelope.Progress verify config final asked done ∧ final.pending = [] := by
  unfold certify at h
  rcases audit_cases envelope verify config with
    ⟨final, asked, done, haudit, hp, hpend⟩ | ⟨_, _, _, _, _, _, haudit, _, _⟩
  · rw [haudit] at h
    cases h
    exact ⟨final, asked, done, rfl, hp, hpend⟩
  · rw [haudit] at h
    cases h

/-- A walk that has nothing pending has visited everything that is reached. -/
theorem Progress.mem_of_reached {walk : Walk} {asked : List ScriptCheck} {done : List Record}
    (hp : envelope.Progress verify config walk asked done) (hpend : walk.pending = [])
    {txid : Digest} (h : envelope.Reached txid) : ∃ record ∈ done, record.txid = txid := by
  induction h with
  | target =>
    rcases hp.head with hd | ⟨-, hl⟩
    · exact ⟨_, List.mem_of_head? hd, rfl⟩
    · rw [hpend] at hl
      cases hl
  | input _ hd hm hi ih =>
    obtain ⟨record, hmem, ht⟩ := ih
    rw [← ht, (hp.passes record hmem).denoted] at hd
    obtain rfl := Option.some.inj hd
    rcases hp.followed record hmem hm _ hi with h | ⟨position, hpos, -⟩
    · exact h
    · rw [hpend] at hpos
      cases hpos

/-- Every record that a reached txid stands for has passed. -/
theorem Progress.passes_of_reached {walk : Walk} {asked : List ScriptCheck} {done : List Record}
    (hp : envelope.Progress verify config walk asked done) (hpend : walk.pending = [])
    {txid : Digest} {record : Record} (h : envelope.Reached txid)
    (hd : envelope.denoted? txid = some record) :
    record ∈ done ∧ envelope.Passes verify config record := by
  obtain ⟨record', hmem, rfl⟩ := hp.mem_of_reached hpend h
  have hpass := hp.passes record' hmem
  rw [hpass.denoted] at hd
  cases hd
  exact ⟨hmem, hpass⟩

/-- Every record that is to be checked has passed. -/
theorem Progress.passes_of_isToCheck {walk : Walk} {asked : List ScriptCheck} {done : List Record}
    (hp : envelope.Progress verify config walk asked done) (hpend : walk.pending = [])
    {record : Record} (hc : envelope.IsToCheck record) :
    record ∈ done ∧ envelope.Passes verify config record := by
  rcases hc with rfl | ⟨-, txid, hr, hd⟩
  · exact hp.passes_of_reached hpend .target denoted?_target
  · exact hp.passes_of_reached hpend hr hd

/-- A record that the walk has checked is to be checked, and is valid. -/
theorem Progress.mem_checked {walk : Walk} {asked : List ScriptCheck} {done : List Record}
    (hp : envelope.Progress verify config walk asked done) {record : Record}
    (hr : record ∈ done.filter envelope.isToCheck) :
    envelope.IsToCheck record ∧ envelope.denoted? record.txid = some record ∧
      envelope.IsValid verify config record.transaction := by
  obtain ⟨hd, ht⟩ := List.mem_filter.mp hr
  have hpass := hp.passes record hd
  exact ⟨(isToCheck_iff hpass.reached hpass.denoted).mp ht, hpass.denoted, hpass.valid ht⟩

/-- At the end these are the records that are to be checked. -/
theorem Progress.mem_checked_iff {walk : Walk} {asked : List ScriptCheck} {done : List Record}
    (hp : envelope.Progress verify config walk asked done) (hpend : walk.pending = [])
    {record : Record} : record ∈ done.filter envelope.isToCheck ↔ envelope.IsToCheck record := by
  constructor
  · exact fun hr => (hp.mem_checked hr).1
  · intro hc
    obtain ⟨hd, hpass⟩ := hp.passes_of_isToCheck hpend hc
    exact List.mem_filter.mpr ⟨hd, (isToCheck_iff hpass.reached hpass.denoted).mpr hc⟩

/-- The first of them is the target. -/
theorem Progress.head?_checked {walk : Walk} {asked : List ScriptCheck} {done : List Record}
    (hp : envelope.Progress verify config walk asked done) (hpend : walk.pending = []) :
    (done.filter envelope.isToCheck).head? = some envelope.target := by
  have hc : envelope.isToCheck envelope.target = true := by simp [isToCheck, Ledger.isChecked]
  rcases hp.head with hhead | ⟨-, hl⟩
  · obtain ⟨rest, rfl⟩ := List.head?_eq_some_iff.mp hhead
    rw [List.filter_cons_of_pos hc, List.head?_cons]
  · rw [hpend] at hl
    cases hl

theorem Progress.meetsPolicy {walk : Walk} {asked : List ScriptCheck} {done : List Record}
    (hp : envelope.Progress verify config walk asked done) (hpend : walk.pending = []) :
    envelope.MeetsPolicy verify config where
  valid record hc := by
    have hpass := (hp.passes_of_isToCheck hpend hc).2
    exact hpass.valid ((isToCheck_iff hpass.reached hpass.denoted).mpr hc)
  proven _ _ hr hd := (hp.passes_of_reached hpend hr hd).2.proven

/-! ## Failures break the policy -/

theorem InputFails.not_accepted {record : Record} {index : Nat} {input : Input} {e : Error}
    {asked : List ScriptCheck}
    (h : envelope.InputFails verify config record index input e asked) :
    ¬∃ check, envelope.scriptCheck? config record.transaction index input = some check ∧
      verify check = .ok () := by
  rintro ⟨check, hc, hv⟩
  cases h with
  | noTransaction hf =>
    rw [scriptCheck?, funding?_eq, hf] at hc
    cases hc
  | noOutput hf ho =>
    rw [scriptCheck?, funding?_eq, hf, Option.bind_some, ho] at hc
    cases hc
  | refused hc' hv' =>
    rw [hc] at hc'
    cases hc'
    rw [hv] at hv'
    cases hv'

theorem StopsAt.not_meetsPolicy {done : List Record} {record : Record} {e : Error}
    {asked : List ScriptCheck} (h : envelope.StopsAt verify config done record e asked) :
    ¬envelope.MeetsPolicy verify config := by
  intro hm
  cases h.fails with
  | lockTime hc hl hi hn _ =>
    rcases (hm.valid record hc).lockTime with h0 | hfinal
    · exact hl h0
    · exact hn (hfinal _ (List.mem_of_getElem? hi))
  | input hc _ hi _ _ hfail =>
    exact hfail.not_accepted ((hm.valid record hc).inputs _ _ hi)
  | proof _ _ _ _ hi ha =>
    obtain ⟨proof, leaf, root, h1, h2, h3⟩ := hm.proven _ _ h.reached h.denoted _ hi
    have hfound := MerkleProof.findTxid?_eq_some_iff.mpr h2
    rw [Record.anchor_eq_ok_iff.mpr ⟨proof, leaf, root, h1, hfound, h3, rfl⟩] at ha
    cases ha

/-! ## Targets without ancestors -/

/-- Nothing but the target is reached if it spends nothing. -/
theorem Reached.eq_target (hi : envelope.target.transaction.inputs = []) {txid : Digest}
    (h : envelope.Reached txid) : txid = envelope.target.txid := by
  induction h with
  | target => rfl
  | input _ hd _ hm ih =>
    rw [ih, denoted?_target] at hd
    cases hd
    rw [hi] at hm
    cases hm

/-- A target that spends nothing is certified without a question, on its own proof if it has one. -/
theorem audit_of_inputs_eq_nil (hi : envelope.target.transaction.inputs = [])
    (hp : envelope.target.IsProven envelope.proofs) :
    envelope.audit verify config =
      ⟨.ok ⟨envelope.target.txid, [envelope.target.txid],
        (envelope.anchor? envelope.target).toList⟩, []⟩ := by
  have honly {txid : Digest} {record : Record} (hr : envelope.Reached txid)
      (hd : envelope.denoted? txid = some record) : record = envelope.target := by
    rw [hr.eq_target hi, denoted?_target] at hd
    exact (Option.some.inj hd).symm
  rcases audit_cases envelope verify config with
    ⟨final, asked, done, haudit, hprogress, hpend⟩ | ⟨_, _, _, _, _, _, _, _, hstop⟩
  · have hdone : done = [envelope.target] := by
      rcases hprogress.head with hhead | ⟨-, hl⟩
      · obtain ⟨rest, rfl⟩ := List.head?_eq_some_iff.mp hhead
        have hrest : rest = [] := by
          refine List.eq_nil_iff_forall_not_mem.mpr fun record hm => ?_
          have hpass := hprogress.passes record (List.mem_cons_of_mem _ hm)
          rw [honly hpass.reached hpass.denoted] at hm
          exact (List.nodup_cons.mp hprogress.nodup).1 (List.mem_map_of_mem hm)
        rw [hrest]
      · rw [hpend] at hl
        cases hl
    have hcheck : [envelope.target].filter envelope.isToCheck = [envelope.target] := by
      simp [isToCheck, Ledger.isChecked]
    have hasked : asked = [] := by
      have hq := hprogress.questions
      rw [hdone, hcheck, List.flatMap_singleton, scriptChecks, hi] at hq
      exact List.map_eq_nil_iff.mp hq
    rw [haudit, hasked, hdone, hcheck, List.filterMap_cons, List.filterMap_nil]
    cases envelope.anchor? envelope.target <;> rfl
  · refine absurd ⟨fun record hc => ?_, fun txid record hr hd => ?_⟩ hstop.not_meetsPolicy
    · have ht : record = envelope.target := by
        rcases hc with ht | ⟨-, txid, hr, hd⟩
        · exact ht
        · exact honly hr hd
      rw [ht]
      exact ⟨.inr (by simp [hi]), by simp [hi]⟩
    · rw [honly hr hd]
      exact hp

/-- A target that spends nothing and has an anchor is certified with it. -/
theorem certify_of_anchor {index : UInt64} {anchor : Anchor}
    (hi : envelope.target.transaction.inputs = [])
    (hindex : envelope.target.proofIndex = some index)
    (ha : envelope.target.anchor index envelope.proofs = .ok anchor) :
    envelope.certify verify config =
      .ok ⟨envelope.target.txid, [envelope.target.txid], [anchor]⟩ := by
  have hproven : envelope.target.IsProven envelope.proofs := by
    refine Record.isProven_of_anchor fun index' hindex' => ?_
    cases hindex.symm.trans hindex'
    exact ⟨anchor, ha⟩
  have hanchor : envelope.anchor? envelope.target = some anchor :=
    anchor?_eq_some_iff.mpr ⟨index, hindex, ha⟩
  rw [certify, audit_of_inputs_eq_nil hi hproven, hanchor]
  rfl

/-! ## Acceptance -/

/-- **Certification accepts exactly what the policy allows**, and ends in an error in every other
case. -/
theorem certify_ok_iff_meetsPolicy (envelope : Envelope) (verify : ScriptVerifier)
    (config : Config) :
    ((∃ certification, envelope.certify verify config = .ok certification) ↔
      envelope.MeetsPolicy verify config) ∧
    (¬envelope.MeetsPolicy verify config → ∃ e, envelope.certify verify config = .error e) := by
  unfold certify
  rcases audit_cases envelope verify config with
    ⟨final, asked, done, haudit, hp, hpend⟩ |
      ⟨e, record, walk, asked, done, last, haudit, -, hstop⟩
  · have hm := hp.meetsPolicy hpend
    rw [haudit]
    exact ⟨⟨fun _ => hm, fun _ => ⟨_, rfl⟩⟩, fun hn => absurd hm hn⟩
  · have hn := hstop.not_meetsPolicy
    rw [haudit]
    refine ⟨⟨?_, fun hm => absurd hm hn⟩, fun _ => ⟨e, rfl⟩⟩
    rintro ⟨_, h⟩
    cases h

end SpvEnvelope.Envelope
