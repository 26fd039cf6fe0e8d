import SpvEnvelope.Proofs.Report

/-!
# The first anchor that the headers refuse

Headers are not asked for the anchors of a certification but for their roots, each height and root
only once. Nothing is lost by that: the first root refused in the list without repetitions is the
first one refused in the list of all anchors (`firstRefused?_rootsToConfirm`). So a confirmation
fails for the first anchor that the headers refuse, and for no other reason
(`confirmation_covers_anchors`).
-/

namespace SpvEnvelope

/-- Repetitions make no difference to what is found first. -/
theorem find?_eraseDups {α : Type} [BEq α] [LawfulBEq α] (p : α → Bool) :
    (xs : List α) → xs.eraseDups.find? p = xs.find? p
  | [] => rfl
  | x :: xs => by
    rw [List.eraseDups_cons]
    by_cases hx : p x = true
    · rw [List.find?_cons_of_pos hx, List.find?_cons_of_pos hx]
    · rw [List.find?_cons_of_neg hx, List.find?_cons_of_neg hx,
        find?_eraseDups p (xs.filter fun y => !y == x), List.find?_filter]
      -- an element with the property is not `x`, so it is still there
      congr 1
      funext y
      by_cases hy : y = x
      · simp [hy, hx]
      · simp [hy]
termination_by xs => xs.length
decreasing_by
  exact Nat.lt_succ_of_le (List.length_filter_le _ _)

namespace HeaderSource

variable {headers : HeaderSource} {roots : List (UInt64 × Digest)} {pair : UInt64 × Digest}
  {e : Error}

/-- Whether `pair.2` is confirmed as the root of the block at height `pair.1`. -/
def knows (headers : HeaderSource) (pair : UInt64 × Digest) : Bool :=
  (headers.confirms pair.1 pair.2).toOption == some true

@[simp] theorem knows_iff : headers.knows pair = true ↔ headers pair.1 = .ok (some pair.2) := by
  unfold knows confirms
  cases headers pair.1 <;> simp [Except.toOption]

theorem Refuses.knows_eq_false {blockHeight : UInt64} {root : Digest}
    (h : headers.Refuses blockHeight root e) : headers.knows (blockHeight, root) = false := by
  rw [← Bool.not_eq_true, knows_iff]
  cases h with
  | unavailable h => simp [h]
  | rejected h hne => simpa [h] using hne

/-- A root is refused with one error. -/
theorem Refuses.eq {e' : Error} (h : headers.Refuses pair.1 pair.2 e)
    (h' : headers.Refuses pair.1 pair.2 e') : e = e' := by
  cases h with
  | unavailable h =>
    cases h' with
    | unavailable h' => exact Except.error.inj (h.symm.trans h')
    | rejected h' _ => cases h.symm.trans h'
  | rejected h _ =>
    cases h' with
    | unavailable h' => cases h.symm.trans h'
    | rejected h' _ => rfl

/-- The first root that the headers do not know. -/
def firstRefused? (headers : HeaderSource) (roots : List (UInt64 × Digest)) :
    Option (UInt64 × Digest) :=
  roots.find? fun pair => !headers.knows pair

/-- A run of confirmations fails with the refusal of the first root that the headers do not know. -/
theorem confirmAll_eq_error_iff (heights : Array UInt64) :
    (∃ heights', (headers.confirmAll roots).run heights = .error e heights') ↔
      ∃ pair, headers.firstRefused? roots = some pair ∧ headers.Refuses pair.1 pair.2 e := by
  induction roots generalizing heights with
  | nil => simp [confirmAll, firstRefused?]
  | cons first rest ih =>
    obtain ⟨blockHeight, root⟩ := first
    by_cases hk : headers blockHeight = .ok (some root)
    · have hknows : headers.knows (blockHeight, root) = true := knows_iff.mpr hk
      rw [run_confirmAll_of_known hk, ih, firstRefused?, firstRefused?,
        List.find?_cons_of_neg (by simp [hknows])]
    · obtain ⟨e', he'⟩ := refuses_of_unknown hk
      have hfirst : headers.firstRefused? ((blockHeight, root) :: rest) = some (blockHeight, root) :=
        List.find?_cons_of_pos (by rw [he'.knows_eq_false, Bool.not_false])
      rw [run_confirmAll_of_refuses he', hfirst]
      constructor
      · rintro ⟨_, h⟩
        cases h
        exact ⟨_, rfl, he'⟩
      · rintro ⟨pair, hpair, he⟩
        cases hpair
        rw [he.eq he']
        exact ⟨_, rfl⟩

end HeaderSource

/-! ## Anchors -/

/-- The first root refused among those to be confirmed is that of the first anchor refused. -/
theorem Certification.firstRefused?_rootsToConfirm (certification : Certification)
    (headers : HeaderSource) :
    headers.firstRefused? certification.rootsToConfirm =
      (certification.anchors.find? fun anchor =>
        !headers.knows (anchor.blockHeight, anchor.merkleRoot)).map
          fun anchor => (anchor.blockHeight, anchor.merkleRoot) := by
  rw [HeaderSource.firstRefused?, rootsToConfirm, find?_eraseDups, List.find?_map]
  rfl

namespace Envelope

variable {envelope : Envelope} {verify : ScriptVerifier} {config : Config} {headers : HeaderSource}
  {certification : Certification} {e : Error}

/-- A certification is refused for the first of its anchors that the headers refuse. -/
theorem certifyConfirmed_eq_error_iff (h : envelope.certify verify config = .ok certification) :
    envelope.certifyConfirmed verify config headers = .error e ↔
      ∃ before anchor after, certification.anchors = before ++ anchor :: after ∧
        (∀ earlier ∈ before, headers earlier.blockHeight = .ok (some earlier.merkleRoot)) ∧
        headers.Refuses anchor.blockHeight anchor.merkleRoot e := by
  have hrun : envelope.certifyConfirmed verify config headers = .error e ↔
      ∃ heights, (headers.confirmAll certification.rootsToConfirm).run #[] = .error e heights := by
    rw [certifyConfirmed_of_ok h]
    cases (headers.confirmAll certification.rootsToConfirm).run #[] <;> simp
  rw [hrun, HeaderSource.confirmAll_eq_error_iff, certification.firstRefused?_rootsToConfirm]
  simp only [Option.map_eq_some_iff, List.find?_eq_some_iff_append, Bool.not_not,
    HeaderSource.knows_iff]
  constructor
  · rintro ⟨_, ⟨anchor, ⟨-, before, after, hanchors, hbefore⟩, rfl⟩, he⟩
    exact ⟨before, anchor, after, hanchors, hbefore, he⟩
  · rintro ⟨before, anchor, after, hanchors, hbefore, he⟩
    refine ⟨_, ⟨anchor, ⟨?_, before, after, hanchors, hbefore⟩, rfl⟩, he⟩
    rw [he.knows_eq_false, Bool.not_false]

/-- **Confirmation by headers covers every anchor.** A certification that fails fails the same way
whatever the headers know. One that succeeds is confirmed as it is exactly if the headers know the
root of each anchor at the anchor's height, and is refused for the first anchor that they refuse. Two
anchors at one height are never both confirmed with different roots. -/
theorem confirmation_covers_anchors (envelope : Envelope) (verify : ScriptVerifier)
    (config : Config) (headers : HeaderSource) :
    (∀ e, envelope.certify verify config = .error e →
      envelope.certifyConfirmed verify config headers = .error e) ∧
    (∀ certification, envelope.certify verify config = .ok certification →
      (envelope.certifyConfirmed verify config headers = .ok certification ↔
        ∀ anchor ∈ certification.anchors,
          headers anchor.blockHeight = .ok (some anchor.merkleRoot)) ∧
      (∀ confirmed, envelope.certifyConfirmed verify config headers = .ok confirmed →
        confirmed = certification) ∧
      (∀ e, envelope.certifyConfirmed verify config headers = .error e ↔
        ∃ before anchor after, certification.anchors = before ++ anchor :: after ∧
          (∀ earlier ∈ before, headers earlier.blockHeight = .ok (some earlier.merkleRoot)) ∧
          headers.Refuses anchor.blockHeight anchor.merkleRoot e) ∧
      (∀ confirmed, envelope.certifyConfirmed verify config headers = .ok confirmed →
        ∀ anchor ∈ certification.anchors, ∀ other ∈ certification.anchors,
          anchor.blockHeight = other.blockHeight → anchor.merkleRoot = other.merkleRoot)) := by
  refine ⟨fun e he => certifyConfirmed_of_error he headers, fun certification h => ?_⟩
  have hsame (confirmed : Certification)
      (hc : envelope.certifyConfirmed verify config headers = .ok confirmed) :
      confirmed = certification := by
    have hok := (certifyConfirmed_eq_ok_iff.mp hc).1
    rw [h] at hok
    exact (Except.ok.inj hok).symm
  refine ⟨?_, hsame, fun e => certifyConfirmed_eq_error_iff h, ?_⟩
  · rw [certifyConfirmed_eq_ok_iff]
    exact and_iff_right h
  · intro confirmed hc anchor ha other ho hheight
    obtain rfl := hsame confirmed hc
    have hknown := (certifyConfirmed_eq_ok_iff.mp hc).2
    have hroot := hknown anchor ha
    rw [hheight, hknown other ho] at hroot
    exact (Option.some.inj (Except.ok.inj hroot)).symm

/-- Headers that know the root confirm it, ones that know another refuse it by name, and a failure to
ask is handed on. -/
theorem confirmation_covers_anchors_forked :
    forked.certify (fun _ => .ok ()) {} = .ok forkedReport ∧
      forked.certifyConfirmed (fun _ => .ok ()) {}
        (fun _ => .ok (some (Merkle.parent twoOutputs.txid .zero))) = .ok forkedReport ∧
      forked.certifyConfirmed (fun _ => .ok ()) {} (fun _ => .ok none) =
        .error (.rootRejected 9 (Merkle.parent twoOutputs.txid .zero)) ∧
      forked.certifyConfirmed (fun _ => .ok ()) {} (.offline "no answer") =
        .error (.headersUnavailable "no answer") := by
  have hconfirms (headers : HeaderSource) :=
    (confirmation_covers_anchors forked (fun _ => .ok ()) {} headers).2 _ certify_forked
  refine ⟨certify_forked, (hconfirms _).1.mpr ?_, ((hconfirms _).2.2.1 _).mpr ?_,
    ((hconfirms _).2.2.1 _).mpr ?_⟩
  · exact List.forall_mem_singleton.mpr rfl
  · exact ⟨[], _, [], rfl, by simp, .rejected rfl (by simp)⟩
  · exact ⟨[], _, [], rfl, by simp, .unavailable rfl⟩

end Envelope

end SpvEnvelope
