/-
What a runtime answers about its contracts: the decision kept for a workload, the evaluation of its current contract
against the evidence attached to it, and the evaluation against evidence that is only supplied.
-/
import Wnc.Runtime.Operations

namespace Wnc

open Lib

/-- The verdict on a requirement for which no evidence was ever attached. -/
def unevidenced (r : Requirement) : RequirementEvaluation :=
  let isInformational := r.strength == .informational
  { requirement := r.id
    scope := r.scope
    kind := r.kind
    strength := r.strength
    satisfaction := if isInformational then .notApplicable else .unknown
    reasonCode := if isInformational then .ok else .evaluationNoEvidence
    reason := if isInformational then utf8 "informational requirements are recorded but not evaluated"
      else utf8 "no evidence has been supplied for scope '" ++ r.scope ++ utf8 "'"
    freshness := .revalidationRequired }

/-- Counts a verdict for which no evidence was ever attached. -/
def EvaluationSummary.countUnevidenced (s : EvaluationSummary) (item : RequirementEvaluation) : EvaluationSummary :=
  match item.strength with
  | .required => { s with requiredTotal := s.requiredTotal + 1, requiredUnknown := s.requiredUnknown + 1 }
  | .preferred => { s with preferredUnknown := s.preferredUnknown + 1 }
  | .informational => { s with informational := s.informational + 1, notApplicable := s.notApplicable + 1 }

/-- The decision kept for a workload, when it was made by this incarnation, for this contract and this evidence. -/
def WorkloadState.cached (w : WorkloadState) (incarnation : Incarnation) (contract : Contract) :
    Option ContractEvaluation :=
  match w.evaluation with
  | none => none
  | some stored =>
    if stored.valid && stored.evaluation.evaluatedBy = incarnation && stored.evaluation.contractDigest = contract.digest &&
        stored.evaluation.policyGeneration = contract.body.policyGeneration &&
        stored.evaluation.evidenceGeneration = w.evidenceGeneration then some stored.evaluation
    else none

namespace Runtime

/-- The evaluation of a contract for which no evidence was ever attached. -/
def evaluateUnevidenced (r : Runtime) (nowMillis : UInt64) (w : WorkloadState) (contract : Contract) :
    EvaluationResult :=
  let requirements := contract.body.requirements.map unevidenced
  { ok := true
    code := .evaluationNoEvidence
    message := utf8 "no evidence is available; every required verdict is unknown"
    evaluation :=
      { workload := w.id
        contract := contract.body.contractId
        contractGeneration := contract.body.generation
        contractDigest := contract.digest
        policyGeneration := contract.body.policyGeneration
        evidenceGeneration := 0
        evaluatedBy := r.info.incarnation
        epoch := r.info.epoch
        evaluatedAtMillis := nowMillis
        aggregate := .unknown
        summary := requirements.foldl .countUnevidenced {}
        requirements := requirements } }

def evaluateAgainst (r : Runtime) (nowMillis : UInt64) (contract : Contract) (evidence : EvidenceSet) :
    EvaluationResult :=
  { evaluateContract contract evidence r.info.incarnation nowMillis r.evidenceMaxAgeMillis with
    message := utf8 "evaluated against evidence generation " ++ toDecimal evidence.generation.toNat }

/-- Supplied evidence is taken as captured by this incarnation, and is not kept. -/
def evaluateSupplied (r : Runtime) (clock : Nat → UInt64) (contract : Contract) (supplied : EvidenceSet) :
    EvaluationResult :=
  let evidence : EvidenceSet := { supplied with
    epoch := r.info.epoch
    entries := supplied.entries.map fun entry =>
      { entry with capturedBy := r.info.incarnation, epoch := r.info.epoch } }
  match validateEvidence evidence contract.body r.info.incarnation (clock 0) r.evidenceMaxAgeMillis with
  | (evidence, validated) =>
    if !validated.ok then .refused (validated.diagnostics.failure "supplied evidence was rejected")
    else r.evaluateAgainst (clock 1) contract evidence

def evaluateInternal (r : Runtime) (clock : Nat → UInt64) (w : WorkloadState) (supplied : Option EvidenceSet)
    (allowCached : Bool) : EvaluationResult :=
  match w.generations.getLast? with
  -- a workload always has a generation
  | none => {}
  | some current =>
    match (if allowCached then w.cached r.info.incarnation current.body else none) with
    | some evaluation =>
      { ok := true, evaluation := evaluation, message := utf8 "cached decision for the current generations" }
    | none =>
      match supplied, w.evidence with
      | some supplied, _ => r.evaluateSupplied clock current.body supplied
      | none, some evidence => r.evaluateAgainst (clock 0) current.body evidence
      | none, none => r.evaluateUnevidenced (clock 0) w current.body

def unknownWorkload : EvaluationResult :=
  .refused ⟨.unknownWorkload, utf8 "no contract is registered for that workload"⟩

def evaluate (r : Runtime) (clock : Nat → UInt64) (workload : WorkloadId) : EvaluationResult :=
  match r.state.workloads.find? workload with
  | none => unknownWorkload
  | some w => r.evaluateInternal clock w none true

def evaluateWithEvidence (r : Runtime) (clock : Nat → UInt64) (workload : WorkloadId) (evidence : EvidenceSet) :
    EvaluationResult :=
  match r.state.workloads.find? workload with
  | none => unknownWorkload
  | some w => r.evaluateInternal clock w (some evidence) false

end Runtime

end Wnc
