import SpvEnvelope.Certify.Walk
import SpvEnvelope.Envelope.Codec

/-!
# Confirmation by block headers

A certification rests on Merkle roots, and whether these belong to the chain is for a source of
trusted block headers to say. It is asked for one root after the other, and the first that it does
not confirm ends the certification.

| here | there |
| --- | --- |
| `HeaderSource` | `ChainTracker` with `merkle_root_for_height` alone (§11.5) |
| `HeaderSource.confirms` | `is_valid_root_for_height`, as provided |
| `RootJudge` | a `ChainTracker` that answers `is_valid_root_for_height` itself |
| `Envelope.certifyConfirmed` | `certify_with_chain_tracker` (§11.5) |
| `Envelope.certifyText` | `certify_hex` |
-/

namespace SpvEnvelope

/-- Trusted block headers: the Merkle root of the block at a height, none if the height is unknown,
or an error if the headers cannot be asked. -/
abbrev HeaderSource := UInt64 → Except Error (Option Digest)

namespace HeaderSource

/-- The source that knows these blocks; a later entry replaces an earlier one of the same height. -/
def ofList (headers : List (UInt64 × Digest)) : HeaderSource :=
  let table := Std.TreeMap.ofList headers
  fun blockHeight => .ok table[blockHeight]?

/-- The source that cannot be asked. -/
def offline (reason : String) : HeaderSource :=
  fun _ => .error (.headersUnavailable reason)

/-- Whether `root` is the Merkle root of the block at this height. -/
def confirms (headers : HeaderSource) (blockHeight : UInt64) (root : Digest) :
    Except Error Bool := do
  let known ← headers blockHeight
  return known == some root

/-- A computation that asks for headers; its state holds the heights asked for so far. -/
abbrev Inquiry (α : Type) := EStateM Error (Array UInt64) α

/-- Confirms the roots one after the other. -/
def confirmAll (headers : HeaderSource) : (roots : List (UInt64 × Digest)) → Inquiry Unit
  | [] => return
  | (blockHeight, root) :: rest => do
    modify (·.push blockHeight)
    let confirmed ← MonadExcept.ofExcept (headers.confirms blockHeight root)
    if confirmed then headers.confirmAll rest else throw (.rootRejected blockHeight root)

end HeaderSource

/-- Judges whether a digest is the Merkle root of the block at a height, or cannot say. Headers make
such a judge, but one need not have any. -/
abbrev RootJudge := UInt64 → Digest → Except Error Bool

/-- Has the roots judged one after the other. -/
def RootJudge.confirmAll (judge : RootJudge) : (roots : List (UInt64 × Digest)) → Except Error Unit
  | [] => .ok ()
  | (blockHeight, root) :: rest => do
    let confirmed ← judge blockHeight root
    if confirmed then judge.confirmAll rest else throw (.rootRejected blockHeight root)

/-- The result of a certification, the questions that the script verifier was asked, and the block
heights that the headers were asked for, each in order. -/
structure ConfirmationReport where
  result : Except Error Certification
  checks : List ScriptCheck
  heights : List UInt64

namespace Envelope

/-- Certifies the target, confirms the roots that this rests on, and reports the questions asked. -/
def auditConfirmed (envelope : Envelope) (verify : ScriptVerifier) (config : Config)
    (headers : HeaderSource) : ConfirmationReport :=
  let report := envelope.audit verify config
  match report.result with
  | .error e => ⟨.error e, report.checks, []⟩
  | .ok certification =>
    match (headers.confirmAll certification.rootsToConfirm).run #[] with
    | .ok () heights => ⟨.ok certification, report.checks, heights.toList⟩
    | .error e heights => ⟨.error e, report.checks, heights.toList⟩

/-- Certifies the target and confirms the roots that this rests on. -/
def certifyConfirmed (envelope : Envelope) (verify : ScriptVerifier) (config : Config)
    (headers : HeaderSource) : Except Error Certification :=
  (envelope.auditConfirmed verify config headers).result

/-- Certifies the target and has the roots judged that this rests on. -/
def certifyJudged (envelope : Envelope) (verify : ScriptVerifier) (config : Config)
    (judge : RootJudge) : Except Error Certification := do
  let certification ← envelope.certify verify config
  judge.confirmAll certification.rootsToConfirm
  return certification

/-- Decodes the hex text of an envelope, certifies its target and reports the script checks made. -/
def auditText (text : String) (verify : ScriptVerifier) (config : Config) : AuditReport :=
  match ofText config text with
  | .ok envelope => envelope.audit verify config
  | .error fault => ⟨.error (.decode fault), []⟩

/-- Decodes the hex text of an envelope and certifies its target. -/
def certifyText (text : String) (verify : ScriptVerifier) (config : Config) :
    Except Error Certification :=
  (auditText text verify config).result

end Envelope

end SpvEnvelope
