/-
Opening a runtime: the replay of journal records onto the state, one function for each record type, and the
part a snapshot plays in it.
-/
import Wnc.Runtime.State

namespace Wnc

open Lib

/-! ## Records -/

/-- The options records are decoded under: the bounds they were written under. -/
def journalDecodeOptions : JsonDecodeOptions :=
  { maxBytes := Ledger.maxRecordBytes, maxDepth := maxJsonDepth, maxStringBytes := Ledger.maxRecordBytes }

/-- A failure to recover the journal with a message. -/
def corrupt {α : Type} (message : Bytes) : Except Failure α := .error ⟨.ledgerCorrupt, message⟩

/-- What a journal record says happened. -/
inductive Change
  | genesis
  | generation (contract : Contract) (recordedAtMillis : UInt64)
  | retirement (workload : WorkloadId)
  | evidence (evidence : EvidenceSet)
  | policy (policy : Policy)
  | evaluation (workload : WorkloadId)

def decodeGeneration (payload : Json) : Except Failure Change :=
  match payload.find (utf8 "contract") with
  | none => corrupt (utf8 "contract record has no contract body")
  | some contract =>
    match contractFromJson contract with
    | .error f => corrupt (utf8 "contract record cannot be decoded: " ++ f.message)
    | .ok c => .ok (.generation c (match payload.find (utf8 "recorded_at_millis") with
        | some (.int i) => i.toUInt64
        | _ => 0))

def decodeRetirement (payload : Json) : Except Failure Change :=
  match payload.find (utf8 "workload") with
  | some (.string text) =>
    match Id.parse text with
    | none => corrupt (utf8 "retirement record names an invalid workload identity")
    | some id => .ok (.retirement id)
  | _ => corrupt (utf8 "retirement record has no workload identity")

def decodeEvidence (payload : Json) : Except Failure Change :=
  match payload.find (utf8 "evidence") with
  | none => corrupt (utf8 "evidence record has no evidence body")
  | some evidence =>
    match evidenceFromJson evidence with
    | .error f => corrupt (utf8 "evidence record cannot be decoded: " ++ f.message)
    | .ok evidence => .ok (.evidence evidence)

def decodePolicy (payload : Json) : Except Failure Change :=
  match payload.find (utf8 "policy") with
  | none => corrupt (utf8 "policy record has no policy body")
  | some policy =>
    match policyFromJson policy with
    | .error f => corrupt (utf8 "policy record cannot be decoded: " ++ f.message)
    | .ok policy => .ok (.policy policy)

def decodeEvaluation (payload : Json) : Except Failure Change :=
  match payload.find (utf8 "workload"), payload.find (utf8 "evaluation") with
  | some (.string text), some _ =>
    match Id.parse text with
    | none => corrupt (utf8 "evaluation record names an invalid workload identity")
    | some id => .ok (.evaluation id)
  | _, _ => corrupt (utf8 "evaluation record is incomplete")

/-- Whether a record holds a contract generation. -/
def isContractRecord (type : Ledger.RecordType) : Bool := type == .workloadRegistered || type == .contractPublished

/-- The JSON object a record holds. -/
def recordPayload (record : Ledger.Record) : Except Failure Json :=
  match jsonDecode record.payload journalDecodeOptions with
  | .ok (.object members) => .ok (.object members)
  | _ => corrupt (utf8 "journal record " ++ toDecimal record.sequence.toNat ++
      utf8 " does not hold a canonical JSON object")

def decodeRecord (record : Ledger.Record) : Except Failure Change :=
  match recordPayload record with
  | .error f => .error f
  | .ok payload =>
    if record.type = .genesis then .ok .genesis
    else if isContractRecord record.type then decodeGeneration payload
    else if record.type = .workloadRetired then decodeRetirement payload
    else if record.type = .evidenceAttached then decodeEvidence payload
    else if record.type = .policyInstalled then decodePolicy payload
    else if record.type = .evaluationRecorded then decodeEvaluation payload
    else .error ⟨.ledgerIncompatible, utf8 "journal record " ++ toDecimal record.sequence.toNat ++
      utf8 " has a record type this build does not define"⟩

/-! ## Changes -/

/-- The generation that a contract makes. -/
def generationOf (c : Contract) (recordedAtMillis : UInt64) : GenerationRecord :=
  { generation := c.body.generation
    digest := c.digest
    contractId := c.body.contractId
    body := c
    recordedAtMillis := recordedAtMillis }

/-- A workload with a further generation. Earlier ones are superseded. -/
def WorkloadState.replayGeneration (w : WorkloadState) (c : Contract) (recordedAtMillis : UInt64) : WorkloadState :=
  { w with
    id := c.body.workload.id
    name := c.body.workload.name
    workloadGeneration := c.body.workload.generation
    contractGeneration := c.body.generation
    digest := c.digest
    contract := c.body.contractId
    policyGeneration := c.body.policyGeneration
    generations := (w.generations.map fun g =>
        if g.generation < c.body.generation then { g with superseded := true } else g) ++
      [generationOf c recordedAtMillis] }

/-- Restored evidence is never current. -/
def EvidenceSet.restored (evidence : EvidenceSet) : EvidenceSet :=
  { evidence with entries := evidence.entries.map fun entry => { entry with freshness := .revalidationRequired } }

/-- Whether the current generation of a workload declares a scope that some entry covers. -/
def WorkloadState.covered (w : WorkloadState) (entries : List EvidenceEntry) : Bool :=
  w.currentBody.any (coversScope entries)

namespace RuntimeState

/-- Attaches evidence to every workload whose contract declares one of its scopes; without one nothing changes. -/
def replayEvidence (s : RuntimeState) (evidence : EvidenceSet) : RuntimeState :=
  if s.workloads.entries.any fun e => e.2.covered evidence.entries then
    { s with
      workloads := s.workloads.mapVal fun _ w =>
        if w.covered evidence.entries then
          { w with evidence := some evidence, evidenceGeneration := evidence.generation, evaluation := none }
        else w
      evidenceFloor := if evidence.generation > s.evidenceFloor then evidence.generation else s.evidenceFloor }
  else s

/-- The state with a policy installed. -/
def install (s : RuntimeState) (policy : Policy) : RuntimeState :=
  { s with policy := some policy, policyDigest := Wnc.policyDigest policy, policyGeneration := policy.generation }

/-- A change applied to the state. What cannot be applied is a refusal, never skipped. -/
def apply (s : RuntimeState) : Change → Except Failure RuntimeState
  | .genesis => .ok s
  | .generation c recordedAt =>
    let w := (s.workloads.find? c.body.workload.id).getD {}
    if w.generations.getLast?.any fun g => g.generation == c.body.generation then
      .error ⟨.duplicateWorkload, utf8 "journal repeats contract generation " ++ toDecimal c.body.generation.toNat⟩
    else .ok { s with workloads := s.workloads.set c.body.workload.id (w.replayGeneration c recordedAt) }
  | .retirement id =>
    match s.workloads.find? id with
    | none => corrupt (utf8 "retirement record names an unknown workload")
    | some w => .ok { s with workloads := s.workloads.set id { w with retired := true } }
  | .evidence evidence => .ok (s.replayEvidence evidence.restored)
  | .policy policy => .ok (s.install policy)
  | .evaluation id =>
    match s.workloads.find? id with
    | none => corrupt (utf8 "evaluation record names an unknown workload")
    | some w =>
      -- an evaluation restored from durable state is history, never a current decision
      let stored : StoredEvaluation :=
        { evaluation := (w.evaluation.map StoredEvaluation.evaluation).getD {}
          valid := false
          invalidationReason := utf8 "restored from durable history after a coordinator restart" }
      .ok { s with workloads := s.workloads.set id { w with evaluation := some stored } }

end RuntimeState

/-- One record applied to the state. -/
def replayRecord (s : RuntimeState) (record : Ledger.Record) : Except Failure RuntimeState :=
  match decodeRecord record with
  | .error f => .error f
  | .ok change => s.apply change

/-- The state that the records of a journal rebuild. -/
def replay (records : List Ledger.Record) (s : RuntimeState) : Except Failure RuntimeState :=
  records.foldlM replayRecord s

/-- Derived decisions belong to an earlier incarnation. -/
def clearDecisions (s : RuntimeState) : RuntimeState :=
  { s with workloads := s.workloads.mapVal fun _ w =>
      { w with evaluation := w.evaluation.map fun e =>
          { e with
            valid := false
            invalidationReason := if e.invalidationReason = [] then
              utf8 "the coordinator restarted; the decision must be recomputed" else e.invalidationReason } } }

/-! ## Opening -/

structure Options where
  trust : TrustSet
  /-- Zero selects the default. -/
  evidenceMaxAgeMillis : UInt64 := 0

def effectiveMaxAge (configured : UInt64) : UInt64 := if configured = 0 then defaultEvidenceMaxAgeMillis else configured

/-- The identity of a coordinator, from the trust root and the tool. -/
def coordinatorIdentity (trust : TrustSet) : CoordinatorId :=
  Id.fromDigest (sha256Parts
    [utf8 "wnc/v1/coordinator", (toolIdentity (utf8 "wnc-coordinator")).view, trust.digest.hex])

/-- The sequence from which the journal is replayed: a snapshot that is not ahead of the journal and holds a JSON
object stands for the records up to its own. -/
def snapshotSequence (lastSequence : UInt64) (dir : Directory) : Except Failure UInt64 :=
  match Ledger.readSnapshot dir with
  | .error f => .error f
  | .ok none => .ok 0
  | .ok (some snapshot) =>
    if snapshot.sequence > lastSequence then
      fail .recoveryRequired "snapshot is ahead of the durable journal sequence"
    else
      match jsonDecode snapshot.payload {} with
      | .ok (.object _) => .ok snapshot.sequence
      | _ => .ok 0

/-- The state recovered from a directory whose journal ends at a sequence. -/
def recoverState (lastSequence : UInt64) (dir : Directory) : Except Failure RuntimeState := do
  let sequence ← snapshotSequence lastSequence dir
  let (records, _) ← Ledger.readAfter sequence dir
  let state ← replay records {}
  .ok (clearDecisions state)

/-- Opens a state directory under the incarnation drawn for this boot and the reading of the clock. -/
def openRuntime (io : Ledger.OpenIo) (options : Options) (incarnation : Incarnation) (startedAtMillis : UInt64)
    (dir : Directory) : Except Failure Runtime × Directory :=
  if dir.path = [] then (fail .stateUnavailable "a state directory is required", dir)
  else
    let coordinator := coordinatorIdentity options.trust
    match Ledger.openLedger io coordinator options.trust.digest incarnation dir with
    | (.error f, dir) => (.error f, dir)
    | (.ok (ledger, recovery), dir) =>
      match recoverState ledger.head.lastSequence dir with
      | .error f => (.error f, dir)
      | .ok state =>
        (.ok
          { info :=
              { coordinator := coordinator
                incarnation := ledger.head.incarnation
                epoch := ledger.head.epoch
                trustDigest := options.trust.digest
                startedAtMillis := startedAtMillis
                recovered := recovery.recovered
                recoveredRecords := recovery.validRecords
                truncatedBytes := recovery.truncatedBytes }
            state := state
            trust := options.trust
            ledger := ledger
            evidenceMaxAgeMillis := effectiveMaxAge options.evidenceMaxAgeMillis }, dir)

end Wnc
