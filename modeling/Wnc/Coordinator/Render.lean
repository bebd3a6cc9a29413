/-
What the coordinator shows of its runtime: the snapshot of a workload, a retained contract, an evaluation, and the JSON
of each as it stands in a reply.
-/
import Wnc.Runtime.Evaluate

namespace Wnc

open Lib

/-! ## Views of the runtime -/

structure GenerationHistory where
  generation : ContractGeneration
  digest : Digest
  contractId : ContractId
  recordedAtMillis : UInt64
  superseded : Bool
  retired : Bool

structure WorkloadSnapshot where
  id : WorkloadId
  name : Bytes
  workloadGeneration : WorkloadGeneration
  contractGeneration : ContractGeneration
  digest : Digest
  contract : ContractId
  policyGeneration : PolicyGeneration
  evidenceGeneration : EvidenceGeneration
  retired : Bool
  history : List GenerationHistory

namespace Runtime

def snapshot (r : Runtime) (workload : WorkloadId) : Option WorkloadSnapshot :=
  (r.state.workloads.find? workload).map fun w =>
    { id := w.id
      name := w.name
      workloadGeneration := w.workloadGeneration
      contractGeneration := w.contractGeneration
      digest := w.digest
      contract := w.contract
      policyGeneration := w.policyGeneration
      evidenceGeneration := w.evidenceGeneration
      retired := w.retired
      history := w.generations.map fun g =>
        { generation := g.generation
          digest := g.digest
          contractId := g.contractId
          recordedAtMillis := g.recordedAtMillis
          superseded := g.superseded
          retired := g.retired } }

/-- The contract of a generation that is retained. -/
def contractAt (r : Runtime) (workload : WorkloadId) (generation : ContractGeneration) : Option Contract :=
  (r.state.workloads.find? workload).bind fun w =>
    (w.generations.find? fun g => g.generation == generation).map GenerationRecord.body

def workloads (r : Runtime) : List WorkloadId := r.state.workloads.entries.map Prod.fst

end Runtime

/-! ## Rendering -/

/-- A count as it stands in a reply. -/
def jsonCount (n : Nat) : Json := jsonUint (UInt64.ofNat n)

namespace Coordinator

def summaryToJson (summary : EvaluationSummary) : Json :=
  Json.null
    |>.put "required_total" (jsonCount summary.requiredTotal)
    |>.put "required_satisfied" (jsonCount summary.requiredSatisfied)
    |>.put "required_unsatisfied" (jsonCount summary.requiredUnsatisfied)
    |>.put "required_unknown" (jsonCount summary.requiredUnknown)
    |>.put "preferred_satisfied" (jsonCount summary.preferredSatisfied)
    |>.put "preferred_unsatisfied" (jsonCount summary.preferredUnsatisfied)
    |>.put "preferred_unknown" (jsonCount summary.preferredUnknown)
    |>.put "informational" (jsonCount summary.informational)
    |>.put "not_applicable" (jsonCount summary.notApplicable)

def requirementToJson (item : RequirementEvaluation) : Json :=
  let out := Json.null
    |>.put "requirement" (.string item.requirement.view)
    |>.put "scope" (.string item.scope)
    |>.put "kind" (.string (requirementKindToken item.kind))
    |>.put "strength" (.string (requirementStrengthToken item.strength))
    |>.put "satisfaction" (.string (satisfactionToken item.satisfaction))
    |>.put "reason_code" (.string (codeToken item.reasonCode))
    |>.put "reason" (.string item.reason)
    |>.put "evidence" (.string item.evidence.view)
    |>.put "evidence_generation" (jsonUint item.evidenceGeneration)
    |>.put "freshness" (.string (freshnessToken item.freshness))
  addOptional out "observed" (item.observed.map .ofReal)

def evaluationToJson (evaluation : ContractEvaluation) : Json :=
  Json.null
    |>.put "workload" (.string evaluation.workload.view)
    |>.put "contract" (.string evaluation.contract.view)
    |>.put "contract_generation" (jsonUint evaluation.contractGeneration)
    |>.put "contract_digest" (.string evaluation.contractDigest.hex)
    |>.put "policy_generation" (jsonUint evaluation.policyGeneration)
    |>.put "evidence_generation" (jsonUint evaluation.evidenceGeneration)
    |>.put "evaluated_by" (.string evaluation.evaluatedBy.str)
    |>.put "epoch" (jsonUint evaluation.epoch)
    |>.put "evaluated_at_millis" (jsonUint evaluation.evaluatedAtMillis)
    |>.put "aggregate" (.string (satisfactionToken evaluation.aggregate))
    |>.put "summary" (summaryToJson evaluation.summary)
    |>.put "requirements" (.array (evaluation.requirements.map requirementToJson))

def historyToJson (record : GenerationHistory) : Json :=
  Json.null
    |>.put "generation" (jsonUint record.generation)
    |>.put "digest" (.string record.digest.hex)
    |>.put "contract" (.string record.contractId.view)
    |>.put "recorded_at_millis" (jsonUint record.recordedAtMillis)
    |>.put "superseded" (.bool record.superseded)
    |>.put "retired" (.bool record.retired)

def snapshotToJson (snapshot : WorkloadSnapshot) : Json :=
  Json.null
    |>.put "id" (.string snapshot.id.view)
    |>.put "name" (.string snapshot.name)
    |>.put "workload_generation" (jsonUint snapshot.workloadGeneration)
    |>.put "contract_generation" (jsonUint snapshot.contractGeneration)
    |>.put "digest" (.string snapshot.digest.hex)
    |>.put "contract" (.string snapshot.contract.view)
    |>.put "policy_generation" (jsonUint snapshot.policyGeneration)
    |>.put "evidence_generation" (jsonUint snapshot.evidenceGeneration)
    |>.put "retired" (.bool snapshot.retired)
    |>.put "history" (.array (snapshot.history.map historyToJson))

/-- The members of a reply that name a runtime and its boot. -/
def identityToJson (info : RuntimeInfo) (body : Json) : Json :=
  body
    |>.put "coordinator" (.string info.coordinator.view)
    |>.put "incarnation" (.string info.incarnation.str)
    |>.put "epoch" (jsonUint info.epoch)
    |>.put "trust_digest" (.string info.trustDigest.hex)
    |>.put "started_at_millis" (jsonUint info.startedAtMillis)
    |>.put "recovered" (.bool info.recovered)
    |>.put "recovered_records" (jsonCount info.recoveredRecords)
    |>.put "truncated_bytes" (jsonCount info.truncatedBytes)

end Coordinator

end Wnc
