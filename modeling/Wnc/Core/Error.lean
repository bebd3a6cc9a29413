/-
Deterministic denial reasons: the codes with their tokens, a failure as a code with its message, and
the bounded diagnostic log.
-/
import Wnc.Core.Identity
import Wnc.Lib.Decimal

namespace Wnc

open Lib

/-! ## Codes -/

inductive Code
  | ok
  | badMagic
  | badVersion
  | frameTooLarge
  | truncatedFrame
  | frameCrcMismatch
  | trailingGarbage
  | unknownFrameType
  | malformedFrameHeader
  | bodyTooLarge
  | unknownPayloadSchema
  | sessionClosed
  | backpressure
  | connectFailed
  | bindFailed
  | listenFailed
  | ioFailed
  | deadlineExceeded
  | jsonSyntax
  | jsonDepthExceeded
  | jsonDuplicateKey
  | jsonNotAnObject
  | jsonNotAnArray
  | jsonMissingField
  | jsonWrongType
  | jsonInvalidUtf8
  | jsonStringTooLong
  | jsonNumberOutOfRange
  | jsonUnknownField
  | jsonTooManyElements
  | jsonInvalidLiteral
  | documentTooLarge
  | contractSchema
  | emptyRequirementSet
  | duplicateRequirement
  | unknownScope
  | missingRequirementKey
  | tooManyScopes
  | tooManyRequirements
  | tooManyRankedScopes
  | invalidStrength
  | invalidKind
  | invalidValue
  | valueOutOfRange
  | missingPublisher
  | zeroIdentity
  | emptyCollective
  | duplicateCollectiveMember
  | tooManyAttributes
  | emptyScopeName
  | unknownContract
  | unknownWorkload
  | staleGeneration
  | generationGap
  | superseded
  | contractRetired
  | writerFenced
  | publisherNotTrusted
  | signatureInvalid
  | signatureMissing
  | replayRejected
  | publisherMismatch
  | notContractOwner
  | contractDigestMismatch
  | wrongCoordinatorIncarnation
  | duplicateWorkload
  | retentionExceeded
  | unknownPolicy
  | compositionConflict
  | weakeningDenied
  | policyDenied
  | layerNotFound
  | tooManyLayers
  | overlayInvalid
  | compositionCycle
  | incompatibleMajor
  | incompatibleRequirementRemoved
  | incompatibleRequirementWeakened
  | incompatibleScopeRemoved
  | incompatibleKindChanged
  | contractSchemaVersionUnsupported
  | evidenceUnknownScope
  | evidenceStale
  | evidenceExpired
  | evidenceGenerationBackwards
  | evidenceDuplicate
  | evidenceTooManyEntries
  | evaluationNoEvidence
  | evaluationMissingDimension
  | evidenceNotCurrent
  | revalidationRequired
  | evidenceRejected
  | ledgerCorrupt
  | ledgerTruncated
  | ledgerOversized
  | ledgerIncompatible
  | indexMismatch
  | stateUnavailable
  | atomicReplaceFailed
  | snapshotInvalid
  | lockHeld
  | indexGapDetected
  | directoryUnavailable
  | pathRejected
  | recoveryRequired
  | identityReconciled
  | tooManyReasons
  | internalInvariant
  | notImplemented
deriving DecidableEq

/-- Short stable token of a code. -/
def codeToken : Code → Bytes
  | .ok => utf8 "ok"
  | .badMagic => utf8 "bad_magic"
  | .badVersion => utf8 "bad_version"
  | .frameTooLarge => utf8 "frame_too_large"
  | .truncatedFrame => utf8 "truncated_frame"
  | .frameCrcMismatch => utf8 "frame_crc_mismatch"
  | .trailingGarbage => utf8 "trailing_garbage"
  | .unknownFrameType => utf8 "unknown_frame_type"
  | .malformedFrameHeader => utf8 "malformed_frame_header"
  | .bodyTooLarge => utf8 "body_too_large"
  | .unknownPayloadSchema => utf8 "unknown_payload_schema"
  | .sessionClosed => utf8 "session_closed"
  | .backpressure => utf8 "backpressure"
  | .connectFailed => utf8 "connect_failed"
  | .bindFailed => utf8 "bind_failed"
  | .listenFailed => utf8 "listen_failed"
  | .ioFailed => utf8 "io_failed"
  | .deadlineExceeded => utf8 "deadline_exceeded"
  | .jsonSyntax => utf8 "json_syntax"
  | .jsonDepthExceeded => utf8 "json_depth_exceeded"
  | .jsonDuplicateKey => utf8 "json_duplicate_key"
  | .jsonNotAnObject => utf8 "json_not_an_object"
  | .jsonNotAnArray => utf8 "json_not_an_array"
  | .jsonMissingField => utf8 "json_missing_field"
  | .jsonWrongType => utf8 "json_wrong_type"
  | .jsonInvalidUtf8 => utf8 "json_invalid_utf8"
  | .jsonStringTooLong => utf8 "json_string_too_long"
  | .jsonNumberOutOfRange => utf8 "json_number_out_of_range"
  | .jsonUnknownField => utf8 "json_unknown_field"
  | .jsonTooManyElements => utf8 "json_too_many_elements"
  | .jsonInvalidLiteral => utf8 "json_invalid_literal"
  | .documentTooLarge => utf8 "document_too_large"
  | .contractSchema => utf8 "contract_schema"
  | .emptyRequirementSet => utf8 "empty_requirement_set"
  | .duplicateRequirement => utf8 "duplicate_requirement"
  | .unknownScope => utf8 "unknown_scope"
  | .missingRequirementKey => utf8 "missing_requirement_key"
  | .tooManyScopes => utf8 "too_many_scopes"
  | .tooManyRequirements => utf8 "too_many_requirements"
  | .tooManyRankedScopes => utf8 "too_many_ranked_scopes"
  | .invalidStrength => utf8 "invalid_strength"
  | .invalidKind => utf8 "invalid_kind"
  | .invalidValue => utf8 "invalid_value"
  | .valueOutOfRange => utf8 "value_out_of_range"
  | .missingPublisher => utf8 "missing_publisher"
  | .zeroIdentity => utf8 "zero_identity"
  | .emptyCollective => utf8 "empty_collective"
  | .duplicateCollectiveMember => utf8 "duplicate_collective_member"
  | .tooManyAttributes => utf8 "too_many_attributes"
  | .emptyScopeName => utf8 "empty_scope_name"
  | .unknownContract => utf8 "unknown_contract"
  | .unknownWorkload => utf8 "unknown_workload"
  | .staleGeneration => utf8 "stale_generation"
  | .generationGap => utf8 "generation_gap"
  | .superseded => utf8 "superseded"
  | .contractRetired => utf8 "contract_retired"
  | .writerFenced => utf8 "writer_fenced"
  | .publisherNotTrusted => utf8 "publisher_not_trusted"
  | .signatureInvalid => utf8 "signature_invalid"
  | .signatureMissing => utf8 "signature_missing"
  | .replayRejected => utf8 "replay_rejected"
  | .publisherMismatch => utf8 "publisher_mismatch"
  | .notContractOwner => utf8 "not_contract_owner"
  | .contractDigestMismatch => utf8 "contract_digest_mismatch"
  | .wrongCoordinatorIncarnation => utf8 "wrong_coordinator_incarnation"
  | .duplicateWorkload => utf8 "duplicate_workload"
  | .retentionExceeded => utf8 "retention_exceeded"
  | .unknownPolicy => utf8 "unknown_policy"
  | .compositionConflict => utf8 "composition_conflict"
  | .weakeningDenied => utf8 "weakening_denied"
  | .policyDenied => utf8 "policy_denied"
  | .layerNotFound => utf8 "layer_not_found"
  | .tooManyLayers => utf8 "too_many_layers"
  | .overlayInvalid => utf8 "overlay_invalid"
  | .compositionCycle => utf8 "composition_cycle"
  | .incompatibleMajor => utf8 "incompatible_major"
  | .incompatibleRequirementRemoved => utf8 "incompatible_requirement_removed"
  | .incompatibleRequirementWeakened => utf8 "incompatible_requirement_weakened"
  | .incompatibleScopeRemoved => utf8 "incompatible_scope_removed"
  | .incompatibleKindChanged => utf8 "incompatible_kind_changed"
  | .contractSchemaVersionUnsupported => utf8 "contract_schema_version_unsupported"
  | .evidenceUnknownScope => utf8 "evidence_unknown_scope"
  | .evidenceStale => utf8 "evidence_stale"
  | .evidenceExpired => utf8 "evidence_expired"
  | .evidenceGenerationBackwards => utf8 "evidence_generation_backwards"
  | .evidenceDuplicate => utf8 "evidence_duplicate"
  | .evidenceTooManyEntries => utf8 "evidence_too_many_entries"
  | .evaluationNoEvidence => utf8 "evaluation_no_evidence"
  | .evaluationMissingDimension => utf8 "evaluation_missing_dimension"
  | .evidenceNotCurrent => utf8 "evidence_not_current"
  | .revalidationRequired => utf8 "revalidation_required"
  | .evidenceRejected => utf8 "evidence_rejected"
  | .ledgerCorrupt => utf8 "ledger_corrupt"
  | .ledgerTruncated => utf8 "ledger_truncated"
  | .ledgerOversized => utf8 "ledger_oversized"
  | .ledgerIncompatible => utf8 "ledger_incompatible"
  | .indexMismatch => utf8 "index_mismatch"
  | .stateUnavailable => utf8 "state_unavailable"
  | .atomicReplaceFailed => utf8 "atomic_replace_failed"
  | .snapshotInvalid => utf8 "snapshot_invalid"
  | .lockHeld => utf8 "lock_held"
  | .indexGapDetected => utf8 "index_gap_detected"
  | .directoryUnavailable => utf8 "directory_unavailable"
  | .pathRejected => utf8 "path_rejected"
  | .recoveryRequired => utf8 "recovery_required"
  | .identityReconciled => utf8 "identity_reconciled"
  | .tooManyReasons => utf8 "too_many_reasons"
  | .internalInvariant => utf8 "internal_invariant"
  | .notImplemented => utf8 "not_implemented"

/-- What a code says, in words. -/
def codeDescription : Code → Bytes
  | .ok => utf8 "operation accepted"
  | .badMagic => utf8 "frame magic does not match this protocol"
  | .badVersion => utf8 "protocol version is not supported"
  | .frameTooLarge => utf8 "frame exceeds the configured byte bound"
  | .truncatedFrame => utf8 "frame ended before its declared length"
  | .frameCrcMismatch => utf8 "frame integrity check failed"
  | .trailingGarbage => utf8 "bytes remained after the complete document"
  | .unknownFrameType => utf8 "frame type is not defined by this version"
  | .malformedFrameHeader => utf8 "frame header fields are inconsistent"
  | .bodyTooLarge => utf8 "frame body exceeds the configured byte bound"
  | .unknownPayloadSchema => utf8 "payload schema tag is not supported"
  | .sessionClosed => utf8 "session is closed and cannot carry new work"
  | .backpressure => utf8 "pending request bound reached; request refused"
  | .connectFailed => utf8 "transport connection could not be established"
  | .bindFailed => utf8 "listening address could not be bound"
  | .listenFailed => utf8 "listening socket could not be created"
  | .ioFailed => utf8 "transport input or output failed"
  | .deadlineExceeded => utf8 "bounded wait elapsed before completion"
  | .jsonSyntax => utf8 "document is not well formed JSON"
  | .jsonDepthExceeded => utf8 "nesting depth exceeds the configured bound"
  | .jsonDuplicateKey => utf8 "object repeats a key"
  | .jsonNotAnObject => utf8 "value is not a JSON object"
  | .jsonNotAnArray => utf8 "value is not a JSON array"
  | .jsonMissingField => utf8 "required field is absent"
  | .jsonWrongType => utf8 "field has the wrong JSON type"
  | .jsonInvalidUtf8 => utf8 "string contains an invalid UTF-8 sequence"
  | .jsonStringTooLong => utf8 "string exceeds the configured byte bound"
  | .jsonNumberOutOfRange => utf8 "number is not representable exactly"
  | .jsonUnknownField => utf8 "object contains a field this schema forbids"
  | .jsonTooManyElements => utf8 "array exceeds the configured bound"
  | .jsonInvalidLiteral => utf8 "literal token is malformed"
  | .documentTooLarge => utf8 "document exceeds the configured byte bound"
  | .contractSchema => utf8 "contract does not satisfy its schema"
  | .emptyRequirementSet => utf8 "contract declares no requirements"
  | .duplicateRequirement => utf8 "two requirements share scope, kind and key"
  | .unknownScope => utf8 "requirement references an undeclared scope"
  | .missingRequirementKey => utf8 "requirement kind requires an explicit key"
  | .tooManyScopes => utf8 "scope count exceeds the configured bound"
  | .tooManyRequirements => utf8 "requirement count exceeds the configured bound"
  | .tooManyRankedScopes => utf8 "ranked scope count exceeds the configured bound"
  | .invalidStrength => utf8 "strength token is not required, preferred or informational"
  | .invalidKind => utf8 "requirement kind token is not defined"
  | .invalidValue => utf8 "requirement parameters are malformed"
  | .valueOutOfRange => utf8 "requirement parameter is outside its permitted range"
  | .missingPublisher => utf8 "contract carries no publisher identity"
  | .zeroIdentity => utf8 "identity is the zero identity"
  | .emptyCollective => utf8 "collective requirement names no members"
  | .duplicateCollectiveMember => utf8 "collective repeats a member identity"
  | .tooManyAttributes => utf8 "attribute count exceeds the configured bound"
  | .emptyScopeName => utf8 "scope name is empty"
  | .unknownContract => utf8 "no contract is registered for that identity"
  | .unknownWorkload => utf8 "no contract is registered for that workload"
  | .staleGeneration => utf8 "generation is behind the current generation"
  | .generationGap => utf8 "generation skips past the next expected generation"
  | .superseded => utf8 "object was superseded by a later generation"
  | .contractRetired => utf8 "workload contract is retired and accepts no update"
  | .writerFenced => utf8 "writer incarnation is fenced by a newer boot"
  | .publisherNotTrusted => utf8 "publisher identity is not in the trust set"
  | .signatureInvalid => utf8 "signature does not verify for the covered bytes"
  | .signatureMissing => utf8 "signed submission carries no signature"
  | .replayRejected => utf8 "submission was already applied under this boot"
  | .publisherMismatch => utf8 "envelope identity disagrees with the signing key"
  | .notContractOwner => utf8 "publisher does not own the current generation"
  | .contractDigestMismatch => utf8 "declared digest does not match canonical bytes"
  | .wrongCoordinatorIncarnation => utf8 "request targets a different coordinator incarnation"
  | .duplicateWorkload => utf8 "workload already has an active contract"
  | .retentionExceeded => utf8 "retention bound reached; oldest generations must be pruned"
  | .unknownPolicy => utf8 "policy identity or generation is not current"
  | .compositionConflict => utf8 "composed layers disagree on the same requirement key"
  | .weakeningDenied => utf8 "override attempts to weaken a stronger requirement"
  | .policyDenied => utf8 "requirement violates an allowed range or strength floor"
  | .layerNotFound => utf8 "composition layer does not exist"
  | .tooManyLayers => utf8 "layer count exceeds the configured bound"
  | .overlayInvalid => utf8 "overlay is not a valid contract fragment"
  | .compositionCycle => utf8 "layer graph contains a cycle"
  | .incompatibleMajor => utf8 "contract major version differs"
  | .incompatibleRequirementRemoved => utf8 "required requirement disappeared"
  | .incompatibleRequirementWeakened => utf8 "required requirement was weakened"
  | .incompatibleScopeRemoved => utf8 "scope disappeared for a required requirement"
  | .incompatibleKindChanged => utf8 "requirement key changed kind"
  | .contractSchemaVersionUnsupported => utf8 "contract schema version is not supported"
  | .evidenceUnknownScope => utf8 "evidence references an undeclared scope"
  | .evidenceStale => utf8 "evidence generation or epoch is behind the current one"
  | .evidenceExpired => utf8 "evidence age exceeds the policy maximum"
  | .evidenceGenerationBackwards => utf8 "evidence generation does not advance"
  | .evidenceDuplicate => utf8 "evidence repeats a scope and dimension"
  | .evidenceTooManyEntries => utf8 "evidence entry count exceeds the configured bound"
  | .evaluationNoEvidence => utf8 "no evidence covers this requirement dimension"
  | .evaluationMissingDimension => utf8 "evidence omits a dimension the requirement needs"
  | .evidenceNotCurrent => utf8 "evidence is not current under this coordinator incarnation"
  | .revalidationRequired => utf8 "evidence must be re-established by a publisher"
  | .evidenceRejected => utf8 "evidence failed validation and was refused"
  | .ledgerCorrupt => utf8 "persisted record fails integrity or structure checks"
  | .ledgerTruncated => utf8 "persisted record ends before its declared length"
  | .ledgerOversized => utf8 "persisted record exceeds the configured byte bound"
  | .ledgerIncompatible => utf8 "ledger format version is not supported"
  | .indexMismatch => utf8 "derived index disagrees with durable records"
  | .stateUnavailable => utf8 "state directory is missing or unusable"
  | .atomicReplaceFailed => utf8 "atomic file replacement did not complete"
  | .snapshotInvalid => utf8 "snapshot does not satisfy its schema"
  | .lockHeld => utf8 "another live holder owns the state directory"
  | .indexGapDetected => utf8 "durable sequence has a gap; recovery is required"
  | .directoryUnavailable => utf8 "required directory could not be created or read"
  | .pathRejected => utf8 "path escapes the state root or is otherwise refused"
  | .recoveryRequired => utf8 "state must be recovered before serving"
  | .identityReconciled => utf8 "a submitted identity disagreed with the canonical bytes and was recomputed from them"
  | .tooManyReasons => utf8 "diagnostic list was truncated at its bound"
  | .internalInvariant => utf8 "internal invariant violated"
  | .notImplemented => utf8 "capability is not implemented in this build"

/-- How a fallible operation of the boundary reports: its code and its message. -/
structure Failure where
  code : Code
  message : Bytes
deriving DecidableEq

/-- A failure with a literal message. -/
def fail {α : Type} (code : Code) (message : String) : Except Failure α := .error ⟨code, utf8 message⟩

/-! ## Diagnostics -/

structure Diagnostic where
  code : Code
  message : Bytes
  scope : ScopeId := .zero
  requirement : RequirementId := .zero
deriving DecidableEq

namespace Diagnostic

def ok (d : Diagnostic) : Bool := d.code == .ok

def render (d : Diagnostic) : Bytes :=
  codeToken d.code ++ utf8 ": " ++ d.message ++
    (if d.scope.isZero then [] else utf8 " [scope=" ++ d.scope.view ++ utf8 "]") ++
    (if d.requirement.isZero then [] else utf8 " [requirement=" ++ d.requirement.view ++ utf8 "]")

end Diagnostic

/-- A bounded collection of diagnostics: it never holds more than its limit, which is not zero. -/
structure DiagnosticLog where
  limit : Nat
  entries : List Diagnostic
  truncated : Bool
  limit_pos : 0 < limit
  bounded : entries.length ≤ limit

namespace DiagnosticLog

/-- An empty log. A limit of zero is raised to one. -/
def empty (limit : Nat) : DiagnosticLog where
  limit := if limit = 0 then 1 else limit
  entries := []
  truncated := false
  limit_pos := by split <;> omega
  bounded := Nat.zero_le _

/-- The log a default-constructed one is. -/
def new : DiagnosticLog := empty 64

def add (log : DiagnosticLog) (d : Diagnostic) : DiagnosticLog :=
  if h : log.entries.length ≥ log.limit then { log with truncated := true }
  else
    { log with
      entries := log.entries ++ [d]
      bounded := by rw [List.length_append, List.length_singleton]; omega }

def hasErrors (log : DiagnosticLog) : Bool := log.entries.any fun d => !d.ok

def firstErrorCode (log : DiagnosticLog) : Code :=
  match log.entries.find? fun d => !d.ok with
  | some d => d.code
  | none => .ok

def reasons (log : DiagnosticLog) : List Bytes :=
  log.entries.map Diagnostic.render ++
    (if log.truncated then [(⟨.tooManyReasons, utf8 "diagnostic bound reached", .zero, .zero⟩ : Diagnostic).render]
     else [])

/-- Adding the diagnostics of a list one after another keeps as many as the limit leaves room for. -/
theorem entries_foldl_add (ds : List Diagnostic) (log : DiagnosticLog) :
    (ds.foldl add log).entries = log.entries ++ ds.take (log.limit - log.entries.length) := by
  induction ds generalizing log with
  | nil => simp
  | cons d ds ih =>
    rw [List.foldl_cons, ih]
    unfold add
    split
    · rename_i h
      rw [Nat.sub_eq_zero_of_le h]; simp
    · rename_i h
      obtain ⟨k, hk⟩ : ∃ k, log.limit - log.entries.length = k + 1 := ⟨_, (Nat.succ_pred (by omega)).symm⟩
      have hk' : log.limit - (log.entries.length + 1) = k := by omega
      simp [hk, hk']

/-- The log that a list of diagnostics, added one after another, leaves. -/
def ofList (ds : List Diagnostic) : DiagnosticLog := ds.foldl add new

theorem entries_ofList (ds : List Diagnostic) : (ofList ds).entries = ds.take 64 := by
  rw [ofList, entries_foldl_add]
  rfl

/-- Only the errors among the diagnostics that were kept count. -/
theorem hasErrors_ofList (ds : List Diagnostic) :
    (ofList ds).hasErrors = true ↔ ∃ d ∈ ds.take 64, d.code ≠ .ok := by
  rw [hasErrors, entries_ofList, List.any_eq_true]
  simp [Diagnostic.ok]

/-- When every diagnostic is an error, the log has errors as soon as there is a diagnostic: the first one is
always kept. -/
theorem hasErrors_ofList_of_errors {ds : List Diagnostic} (h : ∀ d ∈ ds, d.code ≠ .ok) :
    (ofList ds).hasErrors = false ↔ ds = [] := by
  rw [Bool.eq_false_iff, ne_eq, hasErrors_ofList]
  cases ds with
  | nil => simp
  | cons d ds =>
    have hd : d ∈ (d :: ds).take 64 := List.mem_cons_self
    exact ⟨fun hn => absurd ⟨d, hd, h d List.mem_cons_self⟩ hn, fun he => nomatch he⟩

end DiagnosticLog

/-- A diagnostic under a condition. -/
def diagnose (condition : Bool) (d : Diagnostic) : List Diagnostic := if condition then [d] else []

@[simp] theorem diagnose_eq_nil {condition : Bool} {d : Diagnostic} : diagnose condition d = [] ↔ condition = false := by
  cases condition <;> simp [diagnose]

/-- What a check reports: whether it passed, and its diagnostics. -/
structure ValidationResult where
  ok : Bool
  diagnostics : DiagnosticLog

/-- The result of a check that passes when its log has no errors. -/
def ValidationResult.ofDiagnostics (ds : List Diagnostic) : ValidationResult where
  ok := !(DiagnosticLog.ofList ds).hasErrors
  diagnostics := .ofList ds

end Wnc
