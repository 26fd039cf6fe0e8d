import SpvEnvelope.Proofs.Visit

/-!
# How far a walk has come

The invariant of the walk (`Progress`) names the records visited so far, in order, and ties the state
of the walk to them: they are reached and passed their checks, what they spend was visited too or is
pending, and the reports so far and the questions asked so far are theirs. It holds at the start, a
step keeps it or stops the walk at one record (`Progress.step_cases`), and so a whole run either
visits everything that is reached or stops at one record (`complete_cases`).
-/

namespace SpvEnvelope.Envelope

variable (envelope : Envelope) (verify : ScriptVerifier) (config : Config)

/-- Whether the lock time and the inputs of a record that is reached are to be checked. -/
def isToCheck (record : Record) : Bool :=
  Ledger.isChecked (decide (record = envelope.target)) record

/-- A record that its txid stands for, reached and passed. -/
structure Passes (record : Record) : Prop where
  reached : envelope.Reached record.txid
  denoted : envelope.denoted? record.txid = some record
  valid : envelope.isToCheck record → envelope.IsValid verify config record.transaction
  proven : record.IsProven envelope.proofs

/-- The invariant of a walk that has visited the records `done` and has asked `asked`. -/
structure Progress (walk : Walk) (asked : List ScriptCheck) (done : List Record) : Prop where
  visited : ∀ txid, walk.visited.contains txid = true ↔ ∃ record ∈ done, record.txid = txid
  nodup : (done.map (·.txid)).Nodup
  passes : ∀ record ∈ done, envelope.Passes verify config record
  /-- The target is visited first. -/
  head : done.head? = some envelope.target ∨
    done = [] ∧ walk.pending = [envelope.records.length - 1]
  /-- A pending position is the target's, or that of the first record with some txid. -/
  pending : ∀ position ∈ walk.pending, ∃ record, envelope.records[position]? = some record ∧
    envelope.Reached record.txid ∧
    (position + 1 = envelope.records.length ∨ envelope.find? record.txid = some record)
  /-- What an unmined record spends is visited or pending. -/
  followed : ∀ record ∈ done, record.isMined = false → ∀ input ∈ record.transaction.inputs,
    (∃ parent ∈ done, parent.txid = input.sourceTxid) ∨
    ∃ position ∈ walk.pending, envelope.positions[input.sourceTxid]? = some position
  validated : walk.validated.toList = (done.filter envelope.isToCheck).map (·.txid)
  anchors : walk.anchors.toList = done.filterMap envelope.anchor?
  questions : asked.map some = (done.filter envelope.isToCheck).flatMap fun record =>
    envelope.scriptChecks config record.transaction
  accepted : ∀ check ∈ asked, verify check = .ok ()

/-- After the records `done`, a walk ends with an error on a record that is reached and was not
visited before. -/
structure StopsAt (done : List Record) (record : Record) (e : Error) (asked : List ScriptCheck) :
    Prop where
  reached : envelope.Reached record.txid
  denoted : envelope.denoted? record.txid = some record
  fresh : ∀ earlier ∈ done, earlier.txid ≠ record.txid
  fails : envelope.Fails verify config (envelope.IsToCheck record) record e asked

variable {envelope verify config}

/-! ## The target -/

theorem eq_target {position : Nat} {record : Record}
    (h : envelope.records[position]? = some record) (hp : position + 1 = envelope.records.length) :
    record = envelope.target := by
  have ht := getElem?_target envelope
  rw [← hp, Nat.add_sub_cancel, h] at ht
  exact Option.some.inj ht

/-- Of the records that their txids stand for, those to be checked are those of the policy. -/
theorem isToCheck_iff {record : Record} (hr : envelope.Reached record.txid)
    (hd : envelope.denoted? record.txid = some record) :
    envelope.isToCheck record = true ↔ envelope.IsToCheck record := by
  simp only [isToCheck, Ledger.isChecked, Bool.or_eq_true, decide_eq_true_eq, Bool.not_eq_true']
  constructor
  · rintro (h | h)
    · exact .inl h
    · exact .inr ⟨h, _, hr, hd⟩
  · rintro (h | ⟨h, -⟩)
    · exact .inl h
    · exact .inr h

namespace Progress

variable {walk : Walk} {asked : List ScriptCheck} {done : List Record}

variable (envelope verify config) in
/-- The start of a walk. -/
theorem start : envelope.Progress verify config (.start (envelope.records.length - 1)) [] [] where
  visited txid := by simp [Walk.start]
  nodup := List.nodup_nil
  passes := by simp
  head := .inr ⟨rfl, rfl⟩
  pending := by
    intro position hp
    cases List.mem_singleton.mp hp
    have := envelope.two_le_length_records
    exact ⟨_, getElem?_target envelope, .target, .inl (by omega)⟩
  followed := by simp
  validated := rfl
  anchors := rfl
  questions := rfl
  accepted := by simp

/-! ## Steps -/

/-- A pending record that was not visited is the one that its txid stands for, and it is the target
exactly if it is the last one. -/
theorem denoted (hp : envelope.Progress verify config walk asked done) {position : Nat}
    {record : Record} (hm : position ∈ walk.pending)
    (hr : envelope.records[position]? = some record)
    (hv : walk.visited.contains record.txid = false) :
    envelope.Reached record.txid ∧ envelope.denoted? record.txid = some record ∧
      (position + 1 = envelope.records.length ↔ record = envelope.target) := by
  obtain ⟨record', hr', hreached, h⟩ := hp.pending position hm
  rw [hr] at hr'
  cases hr'
  refine ⟨hreached, ?_⟩
  have hlast : position + 1 = envelope.records.length → record = envelope.target := eq_target hr
  rcases h with h | h
  · have ht := hlast h
    subst ht
    exact ⟨denoted?_target, fun _ => rfl, fun _ => h⟩
  · rcases hp.head with hd | ⟨-, hpend⟩
    · have hne : record.txid ≠ envelope.target.txid := by
        intro he
        have := (hp.visited record.txid).mpr ⟨_, List.mem_of_head? hd, he.symm⟩
        rw [this] at hv
        cases hv
      refine ⟨by rw [denoted?_of_ne hne, h], hlast, ?_⟩
      rintro rfl
      exact absurd rfl hne
    · rw [hpend, List.mem_singleton] at hm
      have := envelope.two_le_length_records
      have hl : position + 1 = envelope.records.length := by omega
      have ht := hlast hl
      subst ht
      exact ⟨denoted?_target, fun _ => rfl, fun _ => hl⟩

/-- A pending record that was visited before is passed over. -/
theorem skip (hp : envelope.Progress verify config walk asked done) {position : Nat}
    {rest : List Nat} {record : Record} (hpend : walk.pending = position :: rest)
    (hr : envelope.records[position]? = some record)
    (hv : walk.visited.contains record.txid = true) :
    envelope.Progress verify config { walk with pending := rest } asked done := by
  have hmem : ∃ r ∈ done, r.txid = record.txid := (hp.visited _).mp hv
  refine { hp with head := ?_, pending := ?_, followed := ?_ }
  · rcases hp.head with hd | ⟨rfl, -⟩
    · exact .inl hd
    · simp at hmem
  · exact fun p hm => hp.pending p (hpend ▸ List.mem_cons_of_mem _ hm)
  · intro r hrd hm input hi
    rcases hp.followed r hrd hm input hi with h | ⟨p, hpm, hpos⟩
    · exact .inl h
    · rcases List.mem_cons.mp (hpend ▸ hpm) with rfl | hpm
      · rw [getElem?_of_positions hpos] at hr
        exact .inl (txid_of_find? hr ▸ hmem)
      · exact .inr ⟨p, hpm, hpos⟩

/-- An unmined record that passes has all its parents in the envelope. -/
theorem mem_parents {record : Record} (hpass : envelope.Passes verify config record)
    (hm : record.isMined = false) {input : Input} (hi : input ∈ record.transaction.inputs) :
    ∃ position ∈ envelope.parents record, envelope.positions[input.sourceTxid]? = some position := by
  obtain ⟨index, hindex⟩ := List.mem_iff_getElem?.mp hi
  have hc : envelope.isToCheck record = true := by simp [isToCheck, Ledger.isChecked, hm]
  obtain ⟨check, hcheck, -⟩ := (hpass.valid hc).inputs index input hindex
  have hpos : envelope.positions[input.sourceTxid]? ≠ none := by
    intro hn
    rw [scriptCheck?, funding?_eq, positions_eq_none_iff.mp hn] at hcheck
    cases hcheck
  obtain ⟨position, hpos⟩ := Option.ne_none_iff_exists'.mp hpos
  exact ⟨position, List.mem_reverse.mpr (List.mem_filterMap.mpr ⟨input, hi, hpos⟩), hpos⟩

theorem pending_of_parent {record : Record} (hpass : envelope.Passes verify config record)
    (hm : record.isMined = false) {position : Nat} (hp : position ∈ envelope.parents record) :
    ∃ parent, envelope.records[position]? = some parent ∧ envelope.Reached parent.txid ∧
      envelope.find? parent.txid = some parent := by
  obtain ⟨input, hi, hpos⟩ := List.mem_filterMap.mp (List.mem_reverse.mp hp)
  obtain ⟨parent, hf⟩ := find?_of_positions hpos
  have ht := txid_of_find? hf
  refine ⟨parent, (getElem?_of_positions hpos).trans hf, ?_, ht.symm ▸ hf⟩
  rw [ht]
  exact .input hpass.reached hpass.denoted hm hi

/-- A pending record that was not visited and passes is visited. -/
theorem extend (hp : envelope.Progress verify config walk asked done) {position : Nat}
    {rest : List Nat} {record : Record} {more : List ScriptCheck}
    (hpend : walk.pending = position :: rest) (hr : envelope.records[position]? = some record)
    (hv : walk.visited.contains record.txid = false)
    (hpass : envelope.Passes verify config record)
    (hmore : more.map some = if envelope.isToCheck record then
      envelope.scriptChecks config record.transaction else [])
    (hok : ∀ check ∈ more, verify check = .ok ()) :
    envelope.Progress verify config
      (Walk.add { walk with pending := rest } record
        ⟨if record.isMined then [] else envelope.parents record, envelope.isToCheck record,
          envelope.anchor? record⟩)
      (asked ++ more) (done ++ [record]) where
  visited txid := by
    simp only [Walk.add, Std.TreeSet.contains_insert, Bool.or_eq_true, hp.visited, beq_iff_eq,
      Std.LawfulEqCmp.compare_eq_iff_eq, List.mem_append, List.mem_singleton]
    grind
  nodup := by
    have hn : record.txid ∉ done.map (·.txid) := by
      intro hm
      rw [List.mem_map] at hm
      rw [(hp.visited _).mpr hm] at hv
      cases hv
    rw [List.map_append, List.nodup_append]
    refine ⟨hp.nodup, by simp, ?_⟩
    rintro a ha b hb rfl
    rw [List.map_cons, List.map_nil, List.mem_singleton] at hb
    exact hn (hb ▸ ha)
  passes r hm := by
    rcases List.mem_append.mp hm with hm | hm
    · exact hp.passes r hm
    · cases List.mem_singleton.mp hm
      exact hpass
  head := by
    left
    rcases hp.head with hd | ⟨rfl, hl⟩
    · rw [List.head?_append, hd, Option.some_or]
    · have : position = envelope.records.length - 1 := by rw [hpend] at hl; cases hl; rfl
      have h2 := envelope.two_le_length_records
      rw [eq_target hr (by omega)]
      rfl
  pending p hm := by
    rcases List.mem_append.mp hm with hm | hm
    · cases hmined : record.isMined with
      | true => simp [hmined] at hm
      | false =>
        simp only [hmined, Bool.false_eq_true, if_false] at hm
        obtain ⟨parent, h1, h2, h3⟩ := pending_of_parent hpass hmined hm
        exact ⟨parent, h1, h2, .inr h3⟩
    · exact hp.pending p (hpend ▸ List.mem_cons_of_mem _ hm)
  followed r hrd hm input hi := by
    rcases List.mem_append.mp hrd with hrd | hrd
    · rcases hp.followed r hrd hm input hi with ⟨parent, hpd, ht⟩ | ⟨p, hpm, hpos⟩
      · exact .inl ⟨parent, List.mem_append_left _ hpd, ht⟩
      · rcases List.mem_cons.mp (hpend ▸ hpm) with rfl | hpm
        · rw [getElem?_of_positions hpos] at hr
          exact .inl ⟨record, by simp, txid_of_find? hr⟩
        · exact .inr ⟨p, List.mem_append_right _ hpm, hpos⟩
    · cases List.mem_singleton.mp hrd
      obtain ⟨p, hpm, hpos⟩ := mem_parents hpass hm hi
      refine .inr ⟨p, List.mem_append_left _ ?_, hpos⟩
      simpa [hm] using hpm
  validated := by
    simp only [Walk.add, List.filter_append, List.map_append]
    cases hc : envelope.isToCheck record <;> simp [hc, hp.validated]
  anchors := by
    simp only [Walk.add, List.filterMap_append]
    cases ha : envelope.anchor? record <;> simp [ha, hp.anchors]
  questions := by
    rw [List.map_append, hp.questions, hmore, List.filter_append, List.flatMap_append]
    cases hc : envelope.isToCheck record <;> simp [hc]
  accepted check hm := by
    rcases List.mem_append.mp hm with hm | hm
    · exact hp.accepted check hm
    · exact hok check hm

/-- A step keeps the invariant or stops the walk. -/
theorem step_cases (hp : envelope.Progress verify config walk asked done) {position : Nat}
    {rest : List Nat} (hpend : walk.pending = position :: rest) :
    (∃ (next : Walk) (more : List ScriptCheck) (done' : List Record),
      ((envelope.ledger verify config).step { walk with pending := rest } position).run
        asked.toArray = .ok next (asked ++ more).toArray ∧
      envelope.Progress verify config next (asked ++ more) done') ∨
    (∃ (e : Error) (record : Record) (more : List ScriptCheck),
      ((envelope.ledger verify config).step { walk with pending := rest } position).run
        asked.toArray = .error e (asked ++ more).toArray ∧
      envelope.StopsAt verify config done record e more) := by
  have hm : position ∈ walk.pending := hpend ▸ List.mem_cons_self
  obtain ⟨record, hr, -⟩ := hp.pending position hm
  have hrecord : (envelope.ledger verify config).records[position]? = some record := by
    simpa [ledger] using hr
  have hsize : (envelope.ledger verify config).records.size = envelope.records.length := by
    simp [ledger]
  simp only [Ledger.step, hrecord, hsize]
  cases hv : walk.visited.contains record.txid with
  | true =>
    refine .inl ⟨{ walk with pending := rest }, [], done, ?_, ?_⟩
    · rw [if_pos rfl, List.append_nil]
      rfl
    · rw [List.append_nil]
      exact hp.skip hpend hr hv
  | false =>
    rw [if_neg Bool.false_ne_true, EStateM.run_bind]
    obtain ⟨hreached, hdenoted, htarget⟩ := hp.denoted hm hr hv
    have hc : Ledger.isChecked (position + 1 == envelope.records.length) record =
        envelope.isToCheck record := by
      simp only [isToCheck, ← htarget]
      rfl
    rcases visit_cases envelope verify config
      (position + 1 == envelope.records.length) record asked.toArray with
      ⟨more, hrun, hmore, hok, hvalid, hproven⟩ | ⟨e, more, hrun, hfail⟩
    · rw [hc] at hmore hvalid
      refine .inl ⟨_, more, done ++ [record], ?_,
        hp.extend hpend hr hv ⟨hreached, hdenoted, hvalid, hproven⟩ hmore hok⟩
      rw [hrun, hc, List.append_toArray]
      rfl
    · rw [hc, propext (isToCheck_iff hreached hdenoted)] at hfail
      refine .inr ⟨e, record, more, by rw [hrun, List.append_toArray], hreached, hdenoted, ?_, hfail⟩
      intro earlier he ht
      rw [(hp.visited _).mpr ⟨earlier, he, ht⟩] at hv
      cases hv

end Progress

/-! ## Runs -/

/-- A run visits all that is pending or comes up, or it stops at one record. -/
theorem complete_cases (walk : Walk) (asked : List ScriptCheck) (done : List Record)
    (hp : envelope.Progress verify config walk asked done) :
    (∃ final asked' done',
      ((envelope.ledger verify config).complete walk).run asked.toArray =
        .ok final asked'.toArray ∧
      envelope.Progress verify config final asked' done' ∧ final.pending = []) ∨
    (∃ e record walk' asked' done' last,
      ((envelope.ledger verify config).complete walk).run asked.toArray =
        .error e (asked' ++ last).toArray ∧
      envelope.Progress verify config walk' asked' done' ∧
      envelope.StopsAt verify config done' record e last) := by
  induction hw : (envelope.ledger verify config).weight walk using Nat.strongRecOn
    generalizing walk asked done with
  | ind weight ih =>
    rw [Ledger.run_complete]
    cases hpend : walk.pending with
    | nil => exact .inl ⟨walk, asked, done, rfl, hp, hpend⟩
    | cons position rest =>
      rcases hp.step_cases hpend with
        ⟨next, more, done', hrun, hnext⟩ | ⟨e, record, more, hrun, hstop⟩
      · have hlt := (envelope.ledger verify config).weight_lt_of_step walk next hpend hrun
        simp only [hrun]
        exact ih _ (hw ▸ hlt) next (asked ++ more) done' hnext rfl
      · simp only [hrun]
        exact .inr ⟨e, record, walk, asked, done, more, rfl, hp, hstop⟩

end SpvEnvelope.Envelope
