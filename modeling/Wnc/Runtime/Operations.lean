/-
The mutations of a runtime. Each one plans and validates, appends its record to the journal, which is the
durability point, and then changes the state in memory.
-/
import Wnc.Policy.Check
import Wnc.Policy.Compatibility
import Wnc.Runtime.Replay

namespace Wnc

open Lib

/-! ## Results -/

/-- What every mutation reports. -/
structure MutationResult where
  ok : Bool := false
  code : Code := .ok
  message : Bytes := []
  sequence : UInt64 := 0

structure RegisterResult extends MutationResult where
  workload : WorkloadId
  workloadGeneration : WorkloadGeneration := 0
  contract : ContractId
  contractGeneration : ContractGeneration
  digest : Digest

structure PublishResult extends MutationResult where
  workload : WorkloadId
  contract : ContractId
  generation : ContractGeneration
  digest : Digest

structure AttachEvidenceResult extends MutationResult where
  evidence : EvidenceId
  generation : EvidenceGeneration
  invalidatedEvaluations : Nat := 0

structure RuntimePolicyResult extends MutationResult where
  policy : PolicyId
  generation : PolicyGeneration

namespace MutationResult

def refused (f : Failure) : MutationResult := { ok := false, code := f.code, message := f.message }

def accepted (message : String) (sequence : UInt64) : MutationResult :=
  { ok := true, code := .ok, message := utf8 message, sequence := sequence }

end MutationResult

/-- The failure a diagnostic log is reported as: its first error, and every reason behind the message. -/
def DiagnosticLog.failure (log : DiagnosticLog) (message : String) : Failure :=
  ⟨log.firstErrorCode, utf8 message ++ log.reasons.flatMap fun reason => utf8 "; " ++ reason⟩

/-! ## Submissions -/

def domainRegistration : Bytes := utf8 "wnc/v1/submission/registration"
def domainPublication : Bytes := utf8 "wnc/v1/submission/publication"

/-- The canonical bytes the signature of a publisher covers. -/
def submissionBytes (c : Contract) : Bytes := (contractBodyToJson c.body).dump

def signatureOf (e : ContractEnvelope) : SignatureBytes := ⟨e.algorithm, e.keyId, e.signature⟩

def keyDigestPayload (domain : Bytes) (digest : Digest) : Json :=
  (Json.null.put "domain" (.string domain)).put "digest" (.string digest.hex)

/-- What a call meets outside the runtime: what the operating system does with its append, and the readings of
the wall clock in the order they are taken. -/
structure Surroundings where
  io : State.AppendIo
  clock : Nat → UInt64

namespace Runtime

/-- Appends a record to the journal. -/
def commit (io : State.AppendIo) (type : Ledger.RecordType) (payload : Json) (r : Runtime) (dir : Directory) :
    Except Failure UInt64 × Runtime × Directory :=
  let bytes := payload.dump
  if bytes.length > Ledger.maxRecordBytes then
    (fail .ledgerOversized "record payload exceeds the configured bound", r, dir)
  else
    match Ledger.append io type bytes r.ledger dir with
    | (result, ledger, dir) => (result, { r with ledger := ledger }, dir)

/-! ## Registration and publication -/

def checkValid (submitted : Contract) : Except Failure Unit :=
  let validation := validateContract submitted
  if !validation.ok then .error (validation.diagnostics.failure "submitted contract is not valid") else .ok ()

/-- The policy gate: the body must be permitted by the installed policy generation. -/
def checkPolicy (submitted : Contract) (s : RuntimeState) : Except Failure Unit :=
  match s.policy with
  | none => .ok ()
  | some policy =>
    if submitted.body.policyGeneration ≠ s.policyGeneration then
      fail .unknownPolicy "submitted policy generation is not the installed generation"
    else
      let check := checkContractAgainstPolicy policy submitted.body
      if !check.ok then .error (check.diagnostics.failure "submitted contract violates the installed policy")
      else .ok ()

/-- What a registration checks before it appends. -/
def planRegistration (submitted : Contract) (r : Runtime) : Except Failure Unit := do
  checkValid submitted
  require (submitted.body.generation = 1) .generationGap
    (utf8 "the first registration of a workload must be generation 1")
  require (!submitted.hasSupersedes) .staleGeneration
    (utf8 "the first registration of a workload must not supersede anything")
  let _ ← verifySignature r.trust submitted.envelope.publisher domainRegistration (submissionBytes submitted)
    (signatureOf submitted.envelope)
  checkPolicy submitted r.state
  require (r.state.workloads.find? submitted.body.workload.id).isNone .duplicateWorkload
    (utf8 "workload already has a registered contract")

def registrationPayload (recordedAtMillis : UInt64) (submitted : Contract) : Json :=
  Json.null
    |>.put "workload" (.string submitted.body.workload.id.view)
    |>.put "contract_generation" (jsonUint submitted.body.generation)
    |>.put "digest" (.string submitted.digest.hex)
    |>.put "publisher" (.string submitted.envelope.publisher.view)
    |>.put "recorded_at_millis" (jsonUint recordedAtMillis)
    |>.put "contract" (contractToJson submitted)
    |>.put "proof" (keyDigestPayload domainRegistration submitted.digest)

end Runtime

/-- The state of a workload with its first contract. -/
def registeredWorkload (c : Contract) (recordedAtMillis : UInt64) : WorkloadState :=
  { id := c.body.workload.id
    name := c.body.workload.name
    workloadGeneration := c.body.workload.generation
    contractGeneration := c.body.generation
    digest := c.digest
    contract := c.body.contractId
    policyGeneration := c.body.policyGeneration
    generations := [generationOf c recordedAtMillis] }

/-- A workload with a contract that supersedes its generations. The name stays that of the registration. -/
def WorkloadState.publish (w : WorkloadState) (c : Contract) (recordedAtMillis : UInt64) : WorkloadState :=
  { w with
    generations := (w.generations.map fun g => { g with superseded := true }) ++ [generationOf c recordedAtMillis]
    evaluation := w.evaluation.map (.invalidate "the contract generation changed")
    contractGeneration := c.body.generation
    digest := c.digest
    contract := c.body.contractId
    policyGeneration := c.body.policyGeneration
    workloadGeneration := c.body.workload.generation }

namespace RuntimeState

/-- The state with a workload registered that was not there. -/
def register (s : RuntimeState) (c : Contract) (recordedAtMillis : UInt64) : RuntimeState :=
  { s with workloads := s.workloads.set c.body.workload.id (registeredWorkload c recordedAtMillis) }

def publish (s : RuntimeState) (w : WorkloadState) (c : Contract) (recordedAtMillis : UInt64) : RuntimeState :=
  { s with workloads := s.workloads.set c.body.workload.id (w.publish c recordedAtMillis) }

end RuntimeState

namespace Runtime

def registerWorkload (around : Surroundings) (submitted : Contract) (r : Runtime) (dir : Directory) :
    RegisterResult × Runtime × Directory :=
  let result : RegisterResult :=
    { workload := submitted.body.workload.id
      contract := submitted.body.contractId
      contractGeneration := submitted.body.generation
      digest := submitted.digest }
  match planRegistration submitted r with
  | .error f => ({ result with toMutationResult := .refused f }, r, dir)
  | .ok _ =>
    match commit around.io .workloadRegistered (registrationPayload (around.clock 0) submitted) r dir with
    | (.error f, r, dir) => ({ result with toMutationResult := .refused f }, r, dir)
    | (.ok sequence, r, dir) =>
      ({ result with
          toMutationResult := .accepted "contract registered" sequence
          workloadGeneration := submitted.body.workload.generation },
        { r with state := r.state.register submitted (around.clock 1) }, dir)

/-- What a publication checks before it appends: the workload it goes to and the publisher that signed it. -/
def planPublication (submitted : Contract) (r : Runtime) : Except Failure (WorkloadState × PublisherId) := do
  checkValid submitted
  let current ← match r.state.workloads.find? submitted.body.workload.id with
    | none => fail .unknownWorkload "no contract is registered for that workload"
    | some current => .ok current
  require (!current.retired) .contractRetired (utf8 "workload is retired and accepts no further generations")
  -- the coordinator, not the publisher, decides which generation is next
  let expected := current.contractGeneration + 1
  require (!(submitted.body.generation < expected)) .replayRejected
    (utf8 "generation " ++ toDecimal submitted.body.generation.toNat ++
      utf8 " was already applied; the next generation is " ++ toDecimal expected.toNat)
  require (!(submitted.body.generation > expected)) .generationGap
    (utf8 "generation " ++ toDecimal submitted.body.generation.toNat ++
      utf8 " skips past the next expected generation " ++ toDecimal expected.toNat)
  require (submitted.hasSupersedes && submitted.supersedes = current.contractGeneration &&
      submitted.supersedesDigest = current.digest) .staleGeneration
    (utf8 "a superseding contract must name the current generation and its digest")
  -- a workload always has a generation
  let previous := (current.generations.getLast?.map GenerationRecord.body).getD {}
  require (submitted.body.major = previous.body.major) .incompatibleMajor
    (utf8 "a superseding contract must keep the major version")
  let verified ← verifySignature r.trust submitted.envelope.publisher domainPublication (submissionBytes submitted)
    (signatureOf submitted.envelope)
  require (previous.envelope.publisher = verified.publisher) .notContractOwner
    (utf8 "only the publisher that owns the current generation may supersede it")
  checkPolicy submitted r.state
  let compatibility := checkCompatibility previous.body submitted.body
  if !compatibility.compatible then
    .error (compatibility.diagnostics.failure "submitted contract is not compatible with the current generation")
  require (current.generations.length < maxRetainedGenerations) .retentionExceeded
    (utf8 "workload reached the retained generation bound")
  .ok (current, verified.publisher)

def publicationPayload (recordedAtMillis : UInt64) (publisher : PublisherId) (submitted : Contract) : Json :=
  Json.null
    |>.put "workload" (.string submitted.body.workload.id.view)
    |>.put "contract_generation" (jsonUint submitted.body.generation)
    |>.put "digest" (.string submitted.digest.hex)
    |>.put "publisher" (.string publisher.view)
    |>.put "supersedes" (jsonUint submitted.supersedes)
    |>.put "supersedes_digest" (.string submitted.supersedesDigest.hex)
    |>.put "recorded_at_millis" (jsonUint recordedAtMillis)
    |>.put "contract" (contractToJson submitted)
    |>.put "proof" (keyDigestPayload domainPublication submitted.digest)

def publish (around : Surroundings) (submitted : Contract) (r : Runtime) (dir : Directory) :
    PublishResult × Runtime × Directory :=
  let result : PublishResult :=
    { workload := submitted.body.workload.id
      contract := submitted.body.contractId
      generation := submitted.body.generation
      digest := submitted.digest }
  match planPublication submitted r with
  | .error f => ({ result with toMutationResult := .refused f }, r, dir)
  | .ok (current, publisher) =>
    match commit around.io .contractPublished (publicationPayload (around.clock 0) publisher submitted) r dir with
    | (.error f, r, dir) => ({ result with toMutationResult := .refused f }, r, dir)
    | (.ok sequence, r, dir) =>
      ({ result with toMutationResult := .accepted "contract published" sequence },
        { r with state := r.state.publish current submitted (around.clock 1) }, dir)

end Runtime

/-! ## Evidence -/

/-- Evidence stamped with this incarnation. The identity is derived from the stamped set, which still carries the
submitted identity then. -/
def EvidenceSet.stamp (info : RuntimeInfo) (clock : Nat → UInt64) (submitted : EvidenceSet) : EvidenceSet :=
  let stamped : EvidenceSet := { submitted with
    epoch := info.epoch
    entries := submitted.entries.mapIdx fun i entry =>
      { entry with
        capturedBy := info.incarnation
        epoch := info.epoch
        publisher := submitted.publisher
        freshness := .current
        producedAtMillis := if entry.producedAtMillis = 0 then clock i else entry.producedAtMillis } }
  { stamped with evidenceId := deriveEvidenceId (evidenceDigest stamped) }

/-- Whether evidence goes to a workload. -/
def WorkloadState.affected (w : WorkloadState) (entries : List EvidenceEntry) : Bool :=
  !w.retired && w.covered entries

namespace RuntimeState

/-- The state with evidence attached. The floor becomes the generation of the evidence, whatever it was. -/
def attach (s : RuntimeState) (stamped : EvidenceSet) : RuntimeState :=
  { s with
    workloads := s.workloads.mapVal fun _ w =>
      if w.affected stamped.entries then
        { w with
          evidence := some stamped
          evidenceGeneration := stamped.generation
          evaluation := w.evaluation.map (.invalidate "the evidence generation changed") }
      else w
    evidenceFloor := stamped.generation }

/-- The number of decisions that evidence invalidates. -/
def invalidatedBy (s : RuntimeState) (stamped : EvidenceSet) : Nat :=
  s.workloads.entries.countP fun e => e.2.affected stamped.entries && e.2.evaluation.isSome

end RuntimeState

namespace Runtime

/-- What an attachment checks before it appends. -/
def planEvidence (submitted : EvidenceSet) (r : Runtime) : Except Failure Unit := do
  require (submitted.entries ≠ []) .evaluationNoEvidence (utf8 "evidence carries no entries")
  require (submitted.generation = 0 || !(submitted.generation ≤ r.state.evidenceFloor)) .evidenceGenerationBackwards
    (utf8 "evidence generation does not advance past " ++ toDecimal r.state.evidenceFloor.toNat)
  require (r.trust.find submitted.publisher).isSome .publisherNotTrusted
    (utf8 "evidence publisher is not present in the trust set")

def evidencePayload (recordedAtMillis : UInt64) (stamped : EvidenceSet) : Json :=
  Json.null
    |>.put "evidence" (evidenceToJson stamped)
    |>.put "publisher" (.string stamped.publisher.view)
    |>.put "recorded_at_millis" (jsonUint recordedAtMillis)

def attachEvidence (around : Surroundings) (submitted : EvidenceSet) (r : Runtime) (dir : Directory) :
    AttachEvidenceResult × Runtime × Directory :=
  let result : AttachEvidenceResult := { evidence := submitted.evidenceId, generation := submitted.generation }
  match planEvidence submitted r with
  | .error f => ({ result with toMutationResult := .refused f }, r, dir)
  | .ok _ =>
    let stamped := submitted.stamp r.info around.clock
    let payload := evidencePayload (around.clock submitted.entries.length) stamped
    match commit around.io .evidenceAttached payload r dir with
    | (.error f, r, dir) => ({ result with toMutationResult := .refused f }, r, dir)
    | (.ok sequence, r, dir) =>
      ({ toMutationResult := .accepted "evidence attached" sequence
         evidence := stamped.evidenceId
         generation := submitted.generation
         invalidatedEvaluations := r.state.invalidatedBy stamped },
        { r with state := r.state.attach stamped }, dir)

/-! ## Policy and retirement -/

/-- What an installation checks before it appends. -/
def planPolicy (policy : Policy) (r : Runtime) : Except Failure Unit := do
  let validation := validatePolicy policy
  if !validation.ok then .error (validation.diagnostics.failure "policy is not valid")
  match r.state.policy with
  | none => .ok ()
  | some installed => do
    require (!(policy.generation < r.state.policyGeneration)) .staleGeneration
      (utf8 "policy generation is behind the installed generation")
    require (!(policy.generation = r.state.policyGeneration && policy.policyId ≠ installed.policyId)) .duplicateWorkload
      (utf8 "policy generation is already installed with different content")

def policyPayload (recordedAtMillis : UInt64) (policy : Policy) : Json :=
  Json.null
    |>.put "policy" (policyToJson policy)
    |>.put "digest" (.string (policyDigest policy).hex)
    |>.put "recorded_at_millis" (jsonUint recordedAtMillis)

end Runtime

namespace RuntimeState

/-- The state after an installation: no decision holds any more. -/
def installPolicy (s : RuntimeState) (policy : Policy) : RuntimeState :=
  { s.install policy with
    workloads := s.workloads.mapVal fun _ w =>
      { w with evaluation := w.evaluation.map (.invalidate "the policy generation changed") } }

/-- The state with a workload retired, and every generation of it. -/
def retire (s : RuntimeState) (w : WorkloadState) (id : WorkloadId) : RuntimeState :=
  { s with
    workloads := s.workloads.set id
      { w with
        retired := true
        generations := w.generations.map fun g => { g with retired := true }
        evaluation := w.evaluation.map (.invalidate "the workload was retired") } }

end RuntimeState

namespace Runtime

def installPolicy (around : Surroundings) (policy : Policy) (r : Runtime) (dir : Directory) :
    RuntimePolicyResult × Runtime × Directory :=
  let result : RuntimePolicyResult := { policy := policy.policyId, generation := policy.generation }
  match planPolicy policy r with
  | .error f => ({ result with toMutationResult := .refused f }, r, dir)
  | .ok _ =>
    match commit around.io .policyInstalled (policyPayload (around.clock 0) policy) r dir with
    | (.error f, r, dir) => ({ result with toMutationResult := .refused f }, r, dir)
    | (.ok sequence, r, dir) =>
      ({ result with toMutationResult := .accepted "policy installed" sequence },
        { r with state := r.state.installPolicy policy }, dir)

/-- The workload that a retirement goes to. -/
def planRetirement (workload : WorkloadId) (r : Runtime) : Except Failure WorkloadState :=
  match r.state.workloads.find? workload with
  | none => fail .unknownWorkload "no contract is registered for that workload"
  | some w => if w.retired then fail .contractRetired "workload is already retired" else .ok w

def retirementPayload (recordedAtMillis : UInt64) (workload : WorkloadId) : Json :=
  (Json.null.put "workload" (.string workload.view)).put "recorded_at_millis" (jsonUint recordedAtMillis)

def retire (around : Surroundings) (workload : WorkloadId) (r : Runtime) (dir : Directory) :
    MutationResult × Runtime × Directory :=
  match planRetirement workload r with
  | .error f => (.refused f, r, dir)
  | .ok w =>
    match commit around.io .workloadRetired (retirementPayload (around.clock 0) workload) r dir with
    | (.error f, r, dir) => (.refused f, r, dir)
    | (.ok sequence, r, dir) =>
      (.accepted "workload retired" sequence, { r with state := r.state.retire w workload }, dir)

end Runtime

end Wnc
