import Mathlib.Algebra.GroupWithZero.Nat
import SpvEnvelope.Proofs.Report

/-!
# The walk, turn by turn

In each turn the walk takes the next pending position and visits the record there, unless the record
was visited before. A visit puts positions back, the same ones perhaps many times over, and what was
visited is known by txid while what is pending is known by position. Even so the walk ends
(`walk_ends`), whatever the transactions refer to: a turn uses up its position, and only the first
visit of a txid adds positions, at most one for each input.

* `Ledger.Takes`: the turns of a walk, so far or to its end.
* `Ledger.Takes.length_le`: their number is at most the weight of the walk that they start from.
* `Ledger.Takes.fresh`: no txid is visited twice.
* `Envelope.Progress.takes`: all turns are at records, and the reports are about records visited once.

The turns of a failing walk include the visit that failed.
-/

namespace SpvEnvelope

/-- One turn of a walk. -/
structure Turn where
  /-- The position taken. -/
  position : Nat
  /-- The record visited, if the position was not passed over. -/
  visited? : Option Record

/-- The records visited in these turns, in order. -/
def Turn.visits (turns : List Turn) : List Record :=
  turns.filterMap (·.visited?)

namespace Ledger

variable {ledger : Ledger} {walk : Walk} {checks checks' : Array ScriptCheck} {turns : List Turn}
  {position : Nat} {record : Record} {visit : Visit} {e : Error}
  {result : EStateM.Result Error (Array ScriptCheck) Walk}

/-- The record at a position, unless its txid was visited before. -/
def fresh? (ledger : Ledger) (visited : Std.TreeSet Digest) (position : Nat) : Option Record :=
  ledger.records[position]?.filter fun record => !visited.contains record.txid

theorem fresh?_eq_some_iff {visited : Std.TreeSet Digest} :
    ledger.fresh? visited position = some record ↔
      ledger.records[position]? = some record ∧ visited.contains record.txid = false := by
  simp [fresh?]

/-- From this walk and these questions asked, a run takes these turns with this result. It may be
followed to its end or left before. -/
inductive Takes (ledger : Ledger) : Walk → Array ScriptCheck → List Turn →
    EStateM.Result Error (Array ScriptCheck) Walk → Prop
  /-- The run is not followed any further. -/
  | leave (walk : Walk) (checks : Array ScriptCheck) : Takes ledger walk checks [] (.ok walk checks)
  /-- The turn passes over what was visited before. -/
  | skip {walk : Walk} {checks : Array ScriptCheck} {position : Nat} {rest : List Nat}
      {turns : List Turn} {result : EStateM.Result Error (Array ScriptCheck) Walk}
      (pending : walk.pending = position :: rest)
      (seen : ledger.fresh? walk.visited position = none)
      (more : Takes ledger { walk with pending := rest } checks turns result) :
      Takes ledger walk checks (⟨position, none⟩ :: turns) result
  /-- The turn visits a record. -/
  | visit {walk : Walk} {checks checks' : Array ScriptCheck} {position : Nat} {rest : List Nat}
      {record : Record} {visit : Visit} {turns : List Turn}
      {result : EStateM.Result Error (Array ScriptCheck) Walk}
      (pending : walk.pending = position :: rest)
      (fresh : ledger.fresh? walk.visited position = some record)
      (run : (ledger.visit (position + 1 == ledger.records.size) record).run checks =
        .ok visit checks')
      (more : Takes ledger (Walk.add { walk with pending := rest } record visit) checks' turns
        result) :
      Takes ledger walk checks (⟨position, some record⟩ :: turns) result
  /-- The turn fails at a record, which ends the run. -/
  | fail {walk : Walk} {checks checks' : Array ScriptCheck} {position : Nat} {rest : List Nat}
      {record : Record} {e : Error} (pending : walk.pending = position :: rest)
      (fresh : ledger.fresh? walk.visited position = some record)
      (run : (ledger.visit (position + 1 == ledger.records.size) record).run checks =
        .error e checks') :
      Takes ledger walk checks [⟨position, some record⟩] (.error e checks')

/-! ## Turns are steps -/

theorem run_step_of_seen (seen : ledger.fresh? walk.visited position = none) :
    (ledger.step walk position).run checks = .ok walk checks := by
  unfold step
  cases hr : ledger.records[position]? with
  | none => rfl
  | some record =>
    have hv : walk.visited.contains record.txid = true := by
      simpa [fresh?, hr] using seen
    simp only [hv]
    rfl

theorem run_step_of_visit (fresh : ledger.fresh? walk.visited position = some record)
    (run : (ledger.visit (position + 1 == ledger.records.size) record).run checks =
      .ok visit checks') :
    (ledger.step walk position).run checks = .ok (walk.add record visit) checks' := by
  obtain ⟨hr, hv⟩ := fresh?_eq_some_iff.mp fresh
  simp only [step, hr, hv, Bool.false_eq_true, if_false, EStateM.run_bind, run]
  rfl

theorem run_step_of_fail (fresh : ledger.fresh? walk.visited position = some record)
    (run : (ledger.visit (position + 1 == ledger.records.size) record).run checks =
      .error e checks') :
    (ledger.step walk position).run checks = .error e checks' := by
  obtain ⟨hr, hv⟩ := fresh?_eq_some_iff.mp fresh
  simp only [step, hr, hv, Bool.false_eq_true, if_false, EStateM.run_bind, run]

/-- A run of the walk is a sequence of turns, which stops at a failure or when nothing is pending. -/
theorem takes_complete (ledger : Ledger) (walk : Walk) (checks : Array ScriptCheck) :
    ∃ turns, ledger.Takes walk checks turns ((ledger.complete walk).run checks) ∧
      ∀ final checks', (ledger.complete walk).run checks = .ok final checks' →
        final.pending = [] := by
  induction hw : ledger.weight walk using Nat.strongRecOn generalizing walk checks with
  | ind weight ih =>
    rw [run_complete]
    cases hpend : walk.pending with
    | nil =>
      refine ⟨[], .leave walk checks, ?_⟩
      intro final checks' h
      cases h
      exact hpend
    | cons position rest =>
      -- The rest of the run starts from a lighter walk.
      have hrest {next : Walk} {checks' : Array ScriptCheck}
          (hrun : (ledger.step { walk with pending := rest } position).run checks =
            .ok next checks') := ih _ (hw ▸ ledger.weight_lt_of_step walk next hpend hrun) next
              checks' rfl
      cases hfresh : ledger.fresh? walk.visited position with
      | none =>
        have hrun : (ledger.step { walk with pending := rest } position).run checks =
          .ok { walk with pending := rest } checks := run_step_of_seen hfresh
        obtain ⟨turns, hturns, hfinal⟩ := hrest hrun
        simp only [hrun]
        exact ⟨_, .skip hpend hfresh hturns, hfinal⟩
      | some record =>
        cases hvisit : (ledger.visit (position + 1 == ledger.records.size) record).run checks with
        | error e checks' =>
          have hrun : (ledger.step { walk with pending := rest } position).run checks =
            .error e checks' := run_step_of_fail hfresh hvisit
          simp only [hrun]
          refine ⟨_, .fail hpend hfresh hvisit, ?_⟩
          intro final checks'' h
          cases h
        | ok visit checks' =>
          have hrun : (ledger.step { walk with pending := rest } position).run checks =
            .ok (Walk.add { walk with pending := rest } record visit) checks' :=
            run_step_of_visit hfresh hvisit
          obtain ⟨turns, hturns, hfinal⟩ := hrest hrun
          simp only [hrun]
          exact ⟨_, .visit hpend hfresh hvisit hturns, hfinal⟩

/-! ## How many there are -/

/-- There are at most as many turns as pending positions and inputs not yet followed. -/
theorem Takes.length_le (h : ledger.Takes walk checks turns result) :
    turns.length ≤ ledger.weight walk := by
  induction h with
  | leave => exact Nat.zero_le _
  | @skip walk checks position rest _ _ pending seen _ ih =>
    have hrun : (ledger.step { walk with pending := rest } position).run checks =
      .ok { walk with pending := rest } checks := run_step_of_seen seen
    have hlt := ledger.weight_lt_of_step walk _ pending hrun
    rw [List.length_cons]
    omega
  | visit pending fresh run _ ih =>
    have hlt := ledger.weight_lt_of_step _ _ pending (run_step_of_visit fresh run)
    rw [List.length_cons]
    omega
  | fail pending _ _ =>
    rw [weight, pending]
    simp only [List.length_cons, List.length_nil]
    omega

@[simp] theorem weight_start (ledger : Ledger) (position : Nat) :
    ledger.weight (.start position) =
      1 + (ledger.records.toList.map (·.transaction.inputs.length)).sum := by
  simp [weight, unfollowed, Walk.start]

/-! ## What they visit -/

/-- The txids visited are new and differ from each other. -/
theorem Takes.fresh (h : ledger.Takes walk checks turns result) :
    (∀ record ∈ Turn.visits turns, walk.visited.contains record.txid = false) ∧
      ((Turn.visits turns).map (·.txid)).Nodup := by
  induction h with
  | leave => simp [Turn.visits]
  | skip _ _ _ ih => exact ih
  | @visit walk checks checks' position rest record visit turns result pending fresh run _ ih =>
    obtain ⟨hnew, hnodup⟩ := ih
    have hr := (fresh?_eq_some_iff.mp fresh).2
    have hvisits : Turn.visits (⟨position, some record⟩ :: turns) = record :: Turn.visits turns := rfl
    -- The visit puts its txid among those that later visits are new to.
    have hlater : ∀ later ∈ Turn.visits turns,
        record.txid ≠ later.txid ∧ walk.visited.contains later.txid = false := by
      intro later hm
      simpa [Walk.add] using hnew later hm
    rw [hvisits]
    constructor
    · intro earlier hm
      rcases List.mem_cons.mp hm with rfl | hm
      · exact hr
      · exact (hlater earlier hm).2
    · rw [List.map_cons, List.nodup_cons]
      refine ⟨?_, hnodup⟩
      intro hm
      obtain ⟨later, hl, he⟩ := List.mem_map.mp hm
      exact (hlater later hl).1 he.symm
  | fail _ fresh _ => simpa [Turn.visits] using (fresh?_eq_some_iff.mp fresh).2

end Ledger

namespace Envelope

variable {envelope : Envelope} {verify : ScriptVerifier} {config : Config} {walk : Walk}
  {asked : List ScriptCheck} {done : List Record} {turns : List Turn}
  {result : EStateM.Result Error (Array ScriptCheck) Walk}

theorem Progress.position_lt {position : Nat} {rest : List Nat}
    (hp : envelope.Progress verify config walk asked done)
    (hpend : walk.pending = position :: rest) : position < envelope.records.length := by
  obtain ⟨record, hr, -⟩ := hp.pending position (hpend ▸ List.mem_cons_self)
  exact (List.getElem?_eq_some_iff.mp hr).1

/-- A step that succeeds keeps the invariant. -/
theorem Progress.of_step {next : Walk} {checks checks' : Array ScriptCheck} {position : Nat}
    {rest : List Nat} (hp : envelope.Progress verify config walk checks.toList done)
    (hpend : walk.pending = position :: rest)
    (hrun : ((envelope.ledger verify config).step { walk with pending := rest } position).run
      checks = .ok next checks') :
    ∃ done', envelope.Progress verify config next checks'.toList done' := by
  rcases hp.step_cases hpend with ⟨next', more, done', hok, hnext⟩ | ⟨e, record, more, herror, -⟩
  · rw [Array.toArray_toList, hrun] at hok
    cases hok
    exact ⟨done', hnext⟩
  · rw [Array.toArray_toList, hrun] at herror
    cases herror

/-- All turns are at records, and they keep the invariant. -/
theorem Progress.takes {checks : Array ScriptCheck}
    (hp : envelope.Progress verify config walk checks.toList done)
    (h : (envelope.ledger verify config).Takes walk checks turns result) :
    (∀ turn ∈ turns, turn.position < envelope.records.length) ∧
      ∀ final checks', result = .ok final checks' →
        ∃ done', envelope.Progress verify config final checks'.toList done' := by
  induction h generalizing done with
  | leave walk checks =>
    refine ⟨by simp, ?_⟩
    intro final checks' h
    cases h
    exact ⟨done, hp⟩
  | skip pending seen _ ih =>
    obtain ⟨done', hnext⟩ := hp.of_step pending (Ledger.run_step_of_seen seen)
    obtain ⟨hpositions, hfinal⟩ := ih hnext
    exact ⟨List.forall_mem_cons.mpr ⟨hp.position_lt pending, hpositions⟩, hfinal⟩
  | visit pending fresh run _ ih =>
    obtain ⟨done', hnext⟩ := hp.of_step pending (Ledger.run_step_of_visit fresh run)
    obtain ⟨hpositions, hfinal⟩ := ih hnext
    exact ⟨List.forall_mem_cons.mpr ⟨hp.position_lt pending, hpositions⟩, hfinal⟩
  | fail pending _ _ =>
    refine ⟨List.forall_mem_singleton.mpr (hp.position_lt pending), ?_⟩
    intro final checks' h
    cases h

/-! ## The walk to the anchors -/

/-- The walk to the anchors takes these turns with this result. -/
def Takes (envelope : Envelope) (verify : ScriptVerifier) (config : Config) (turns : List Turn)
    (result : EStateM.Result Error (Array ScriptCheck) Walk) : Prop :=
  (envelope.ledger verify config).Takes (.start (envelope.records.length - 1)) #[] turns result

/-- Nothing is left to do: the run failed or has nothing pending. -/
def IsOver (result : EStateM.Result Error (Array ScriptCheck) Walk) : Prop :=
  ∀ final checks, result = .ok final checks → final.pending = []

/-- What an audit says of the result of the walk. -/
def report (envelope : Envelope) : EStateM.Result Error (Array ScriptCheck) Walk → AuditReport
  | .ok walk checks =>
    ⟨.ok ⟨envelope.target.txid, walk.validated.toList, walk.anchors.toList⟩, checks.toList⟩
  | .error e checks => ⟨.error e, checks.toList⟩

/-- The turns are bounded in number, each is at a record, and no txid is visited or reported
twice. -/
structure Bounded (envelope : Envelope) (turns : List Turn)
    (result : EStateM.Result Error (Array ScriptCheck) Walk) : Prop where
  length_le : turns.length ≤ 1 + (envelope.records.map (·.transaction.inputs.length)).sum
  position_lt : ∀ turn ∈ turns, turn.position < envelope.records.length
  nodup_visits : ((Turn.visits turns).map (·.txid)).Nodup
  nodup_validated : ∀ final checks, result = .ok final checks → final.validated.toList.Nodup
  nodup_anchors : ∀ final checks, result = .ok final checks →
    (final.anchors.toList.map (·.txid)).Nodup

theorem bounded_of_takes (h : envelope.Takes verify config turns result) :
    envelope.Bounded turns result := by
  obtain ⟨hpositions, hfinal⟩ := (Progress.start envelope verify config).takes h
  constructor
  case length_le =>
    have hle := Ledger.Takes.length_le h
    rw [Ledger.weight_start] at hle
    simpa [ledger] using hle
  case position_lt => exact hpositions
  case nodup_visits => exact (Ledger.Takes.fresh h).2
  case nodup_validated =>
    intro final checks hr
    obtain ⟨done, hp⟩ := hfinal final checks hr
    rw [hp.validated]
    exact hp.nodup_map_filter _
  case nodup_anchors =>
    intro final checks hr
    obtain ⟨done, hp⟩ := hfinal final checks hr
    rw [hp.anchors, hp.map_txid_anchors]
    exact hp.nodup_map_filter _

/-- **The walk ends, and visits each transaction at most once**, whatever the envelope holds and the
verifier says: an audit is some turns to the end of the walk, and there are never more than one and
one for each input. -/
theorem walk_ends (envelope : Envelope) (verify : ScriptVerifier) (config : Config) :
    (∃ turns result, envelope.Takes verify config turns result ∧ IsOver result ∧
      envelope.audit verify config = envelope.report result) ∧
    ∀ turns result, envelope.Takes verify config turns result → envelope.Bounded turns result := by
  constructor
  · obtain ⟨turns, hturns, hover⟩ := (envelope.ledger verify config).takes_complete
      (.start (envelope.records.length - 1)) #[]
    exact ⟨turns, _, hturns, hover, rfl⟩
  · intro turns result h
    exact bounded_of_takes h

/-- With three inputs there are at most four turns. -/
theorem walk_ends_forked : ∃ turns result, forked.Takes (fun _ => .ok ()) {} turns result ∧
    IsOver result ∧ turns.length ≤ 4 ∧ ((Turn.visits turns).map (·.txid)).Nodup ∧
    (forked.report result).result = .ok forkedReport := by
  obtain ⟨⟨turns, result, hturns, hover, haudit⟩, hbounded⟩ :=
    walk_ends forked (fun _ => .ok ()) {}
  have hb := hbounded turns result hturns
  have hreport := certify_forked
  rw [certify, haudit] at hreport
  exact ⟨turns, result, hturns, hover, hb.length_le, hb.nodup_visits, hreport⟩

end Envelope

end SpvEnvelope
