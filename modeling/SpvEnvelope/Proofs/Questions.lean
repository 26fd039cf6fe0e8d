import SpvEnvelope.Proofs.Acceptance

/-!
# The questions put to the script verifier

Each question pairs an input of a transaction that is to be checked with the output that it truly
spends. A success has asked for every input of every validated transaction, once and in order, and
the validated transactions are the ones to be checked, the target first; a failure has asked up to
the check that failed, and nothing after it (`checks_of_audit`).
-/

namespace SpvEnvelope.Envelope

variable {envelope : Envelope} {verify : ScriptVerifier} {config : Config}

/-- The check is about an input of `tx` and the output of the envelope that this input spends. -/
def IsAbout (envelope : Envelope) (config : Config) (tx : Transaction) (check : ScriptCheck) : Prop :=
  check.transaction = tx ∧ check.flags = config.flags ∧ ∃ input,
    tx.inputs[check.inputIndex]? = some input ∧ envelope.funding? input = some check.funding

theorem isAbout_of_scriptCheck? {tx : Transaction} {index : Nat} {input : Input}
    {check : ScriptCheck} (hi : tx.inputs[index]? = some input)
    (h : envelope.scriptCheck? config tx index input = some check) :
    envelope.IsAbout config tx check ∧ check.inputIndex = index := by
  obtain ⟨funding, hf, rfl⟩ := Option.map_eq_some_iff.mp h
  exact ⟨⟨rfl, rfl, input, hi, hf⟩, rfl⟩

theorem isAbout_of_mem_scriptChecks {tx : Transaction} {check : ScriptCheck}
    (h : some check ∈ envelope.scriptChecks config tx) : envelope.IsAbout config tx check := by
  obtain ⟨index, hindex⟩ := List.mem_iff_getElem?.mp h
  rw [getElem?_scriptChecks] at hindex
  obtain ⟨input, hi, hc⟩ := Option.map_eq_some_iff.mp hindex
  exact (isAbout_of_scriptCheck? hi hc).1

/-- The questions asked so far are about transactions that are to be checked. -/
theorem Progress.isAbout {walk : Walk} {asked : List ScriptCheck} {done : List Record}
    (hp : envelope.Progress verify config walk asked done) {check : ScriptCheck}
    (hc : check ∈ asked) :
    ∃ record, envelope.IsToCheck record ∧ envelope.IsAbout config record.transaction check := by
  have hm : some check ∈ asked.map some := List.mem_map_of_mem hc
  rw [hp.questions, List.mem_flatMap] at hm
  obtain ⟨record, hr, hs⟩ := hm
  obtain ⟨hd, ht⟩ := List.mem_filter.mp hr
  have hpass := hp.passes record hd
  exact ⟨record, (isToCheck_iff hpass.reached hpass.denoted).mp ht, isAbout_of_mem_scriptChecks hs⟩

/-! ## Failures -/

/-- A failing visit asks about its record only, and only if that is to be checked. -/
theorem Fails.isAbout {checked : Prop} {record : Record} {e : Error} {asked : List ScriptCheck}
    (h : envelope.Fails verify config checked record e asked) {check : ScriptCheck}
    (hc : check ∈ asked) : checked ∧ envelope.IsAbout config record.transaction check := by
  cases h with
  | lockTime => cases hc
  | input hchecked _ hi hbefore _ hfail =>
    refine ⟨hchecked, ?_⟩
    rcases List.mem_append.mp hc with hc | hc
    · have hm : some check ∈ List.map some _ := List.mem_map_of_mem hc
      rw [hbefore] at hm
      exact isAbout_of_mem_scriptChecks (List.mem_of_mem_take hm)
    · cases hfail with
      | noTransaction => cases hc
      | noOutput => cases hc
      | refused hcheck _ =>
        cases List.mem_singleton.mp hc
        exact (isAbout_of_scriptCheck? hi hcheck).1
  | proof _ hbefore hunasked _ _ _ =>
    by_cases hchecked : checked
    · have hm : some check ∈ List.map some _ := List.mem_map_of_mem hc
      rw [hbefore hchecked] at hm
      exact ⟨hchecked, isAbout_of_mem_scriptChecks hm⟩
    · rw [hunasked hchecked] at hc
      cases hc

/-- All answers to a failing visit but the last are acceptances, and a refusal becomes its error. -/
theorem Fails.accepted_or_refused {checked : Prop} {record : Record} {e : Error}
    {asked : List ScriptCheck} (h : envelope.Fails verify config checked record e asked) :
    (∀ check ∈ asked, verify check = .ok ()) ∨
    ∃ init check reason, asked = init ++ [check] ∧ (∀ check ∈ init, verify check = .ok ()) ∧
      verify check = .error reason ∧ e = .invalidScript record.txid check.inputIndex reason := by
  cases h with
  | lockTime => exact .inl (by simp)
  | input _ _ hi _ hok hfail =>
    cases hfail with
    | noTransaction => exact .inl (by simpa using hok)
    | noOutput => exact .inl (by simpa using hok)
    | refused hcheck hv =>
      obtain ⟨-, rfl⟩ := isAbout_of_scriptCheck? hi hcheck
      exact .inr ⟨_, _, _, rfl, hok, hv, rfl⟩
  | proof _ _ _ hok => exact .inl hok

/-! ## Audits -/

/-- Every question of an audit is about a transaction that is to be checked. -/
theorem isAbout_of_mem_checks {check : ScriptCheck}
    (hc : check ∈ (envelope.audit verify config).checks) :
    ∃ record, envelope.IsToCheck record ∧ envelope.IsAbout config record.transaction check := by
  rcases audit_cases envelope verify config with
    ⟨final, asked, done, haudit, hp, -⟩ | ⟨e, record, walk, asked, done, last, haudit, hp, hstop⟩
  · rw [haudit] at hc
    exact hp.isAbout hc
  · rw [haudit] at hc
    rcases List.mem_append.mp hc with hc | hc
    · exact hp.isAbout hc
    · exact ⟨record, hstop.fails.isAbout hc⟩

/-- A successful audit asks for every input of every validated transaction, once and in order; these
are the transactions to be checked, the target first. -/
theorem checks_of_ok {certification : Certification}
    (h : (envelope.audit verify config).result = .ok certification) :
    certification.validated.Nodup ∧ ∃ records : List Record,
      certification.validated.map envelope.denoted? = records.map some ∧
      records.head? = some envelope.target ∧
      (∀ record, record ∈ records ↔ envelope.IsToCheck record) ∧
      (envelope.audit verify config).checks.map some =
        records.flatMap fun record => envelope.scriptChecks config record.transaction := by
  rcases audit_cases envelope verify config with
    ⟨final, asked, done, haudit, hp, hpend⟩ | ⟨e, record, walk, asked, done, last, haudit, hp, hstop⟩
  · rw [haudit] at h ⊢
    cases h
    refine ⟨hp.nodup.sublist (List.filter_sublist.map _), done.filter envelope.isToCheck, ?_,
      hp.head?_checked hpend, fun record => hp.mem_checked_iff hpend, hp.questions⟩
    rw [List.map_map]
    exact List.map_congr_left fun record hr => (hp.mem_checked hr).2.1
  · rw [haudit] at h
    cases h

/-- A failed audit has asked for the inputs of the transactions checked before the failing one, and
for those of the failing one up to the failing check. -/
theorem checks_of_error {e : Error} (h : (envelope.audit verify config).result = .error e) :
    ∃ records record asked last,
      (envelope.audit verify config).checks = asked ++ last ∧
      asked.map some = records.flatMap
        (fun record => envelope.scriptChecks config record.transaction) ∧
      (∀ earlier ∈ records, envelope.IsToCheck earlier ∧
        envelope.IsValid verify config earlier.transaction) ∧
      envelope.StopsAt verify config records record e last := by
  rcases audit_cases envelope verify config with
    ⟨final, asked, done, haudit, -, -⟩ | ⟨e', record, walk, asked, done, last, haudit, hp, hstop⟩
  · rw [haudit] at h
    cases h
  · rw [haudit] at h ⊢
    cases h
    refine ⟨done.filter envelope.isToCheck, record, asked, last, rfl, hp.questions,
      fun earlier he => ⟨(hp.mem_checked he).1, (hp.mem_checked he).2.2⟩, ?_⟩
    exact { hstop with fresh := fun earlier he => hstop.fresh earlier (List.mem_filter.mp he).1 }

/-- The first refusal ends an audit: nothing is asked after it, and it becomes the error. -/
theorem checks_of_refused {before after : List ScriptCheck} {check : ScriptCheck} {reason : String}
    (h : (envelope.audit verify config).checks = before ++ check :: after)
    (hv : verify check = .error reason) :
    after = [] ∧ (envelope.audit verify config).result =
      .error (.invalidScript check.transaction.txid check.inputIndex reason) := by
  have hrefused : ∀ {checks : List ScriptCheck}, check ∈ checks →
      ¬∀ check ∈ checks, verify check = .ok () := by
    intro checks hm hall
    rw [hall check hm] at hv
    cases hv
  have hmem : check ∈ (envelope.audit verify config).checks := by
    rw [h]
    simp
  rcases audit_cases envelope verify config with
    ⟨final, asked, done, haudit, hp, -⟩ | ⟨e, record, walk, asked, done, last, haudit, hp, hstop⟩
  · rw [haudit] at hmem
    exact absurd hp.accepted (hrefused hmem)
  · rw [haudit] at h hmem ⊢
    dsimp only at h hmem ⊢
    rcases hstop.fails.accepted_or_refused with hok | ⟨init, final, reason', rfl, hok, hv', rfl⟩
    · exact absurd (List.forall_mem_append.mpr ⟨hp.accepted, hok⟩) (hrefused hmem)
    · have hall := List.forall_mem_append.mpr ⟨hp.accepted, hok⟩
      rw [← List.append_assoc] at h
      rcases List.eq_nil_or_concat after with rfl | ⟨init', final', rfl⟩
      · obtain ⟨-, he⟩ := List.append_inj' h rfl
        cases he
        rw [hv] at hv'
        cases hv'
        have habout := (hstop.fails.isAbout (by simp : check ∈ init ++ [check])).2
        exact ⟨rfl, by rw [habout.1, ← record.txid_eq]⟩
      · rw [List.concat_eq_append, ← List.cons_append, ← List.append_assoc] at h
        obtain ⟨hinit, -⟩ := List.append_inj' h rfl
        rw [hinit] at hall
        exact absurd hall (hrefused (by simp))

/-- **Every input is paired with its true funding output, once, and checking is fail-fast.** -/
theorem checks_of_audit (envelope : Envelope) (verify : ScriptVerifier) (config : Config) :
    (∀ check ∈ (envelope.audit verify config).checks,
      ∃ record, envelope.IsToCheck record ∧ envelope.IsAbout config record.transaction check) ∧
    (∀ certification, envelope.certify verify config = .ok certification →
      certification.validated.Nodup ∧ ∃ records : List Record,
        certification.validated.map envelope.denoted? = records.map some ∧
        records.head? = some envelope.target ∧
        (∀ record, record ∈ records ↔ envelope.IsToCheck record) ∧
        (envelope.audit verify config).checks.map some =
          records.flatMap fun record => envelope.scriptChecks config record.transaction) ∧
    (∀ e, envelope.certify verify config = .error e → ∃ records record asked last,
      (envelope.audit verify config).checks = asked ++ last ∧
      asked.map some = records.flatMap
        (fun record => envelope.scriptChecks config record.transaction) ∧
      (∀ earlier ∈ records, envelope.IsToCheck earlier ∧
        envelope.IsValid verify config earlier.transaction) ∧
      envelope.StopsAt verify config records record e last) ∧
    (∀ before check after reason,
      (envelope.audit verify config).checks = before ++ check :: after →
      verify check = .error reason → after = [] ∧ envelope.certify verify config =
        .error (.invalidScript check.transaction.txid check.inputIndex reason)) :=
  ⟨fun _ => isAbout_of_mem_checks, fun _ => checks_of_ok, fun _ => checks_of_error,
    fun _ _ _ _ => checks_of_refused⟩

end SpvEnvelope.Envelope
