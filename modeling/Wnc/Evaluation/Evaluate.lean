/-
The evaluation of a contract against an evidence set, and the validation of evidence before it: every requirement
gets the decision on the first entry of its scope, in canonical order.
-/
import Wnc.Evaluation.Decide

namespace Wnc

open Lib

/-! ## Verdicts -/

structure RequirementEvaluation where
  requirement : RequirementId := .zero
  scope : Bytes := []
  kind : RequirementKind := .minBandwidth
  strength : RequirementStrength := .required
  satisfaction : Satisfaction := .unknown
  reasonCode : Code := .evaluationNoEvidence
  reason : Bytes := []
  evidence : EvidenceId := .zero
  evidenceGeneration : EvidenceGeneration := 0
  freshness : EvidenceFreshness := .revalidationRequired
  observed : Option Double := none
deriving DecidableEq

structure EvaluationSummary where
  requiredTotal : Nat := 0
  requiredSatisfied : Nat := 0
  requiredUnsatisfied : Nat := 0
  requiredUnknown : Nat := 0
  preferredSatisfied : Nat := 0
  preferredUnsatisfied : Nat := 0
  preferredUnknown : Nat := 0
  informational : Nat := 0
  notApplicable : Nat := 0
deriving DecidableEq

structure ContractEvaluation where
  workload : WorkloadId := .zero
  contract : ContractId := .zero
  contractGeneration : ContractGeneration := 0
  contractDigest : Digest := .zero
  policyGeneration : PolicyGeneration := 0
  evidenceGeneration : EvidenceGeneration := 0
  evaluatedBy : Incarnation := .zero
  epoch : UInt64 := 0
  evaluatedAtMillis : UInt64 := 0
  aggregate : Satisfaction := .unknown
  summary : EvaluationSummary := {}
  requirements : List RequirementEvaluation := []
deriving DecidableEq

structure EvaluationResult where
  ok : Bool := false
  evaluation : ContractEvaluation := {}
  code : Code := .ok
  message : Bytes := []

/-- An evaluation that was refused. -/
def EvaluationResult.refused (f : Failure) : EvaluationResult := { code := f.code, message := f.message }

namespace EvaluationSummary

/-- Counts one verdict. -/
def count (s : EvaluationSummary) (item : RequirementEvaluation) : EvaluationSummary :=
  let s := match item.strength with
    | .required =>
      let s := { s with requiredTotal := s.requiredTotal + 1 }
      if item.satisfaction = .satisfied then { s with requiredSatisfied := s.requiredSatisfied + 1 }
      else if item.satisfaction = .unsatisfied then { s with requiredUnsatisfied := s.requiredUnsatisfied + 1 }
      else { s with requiredUnknown := s.requiredUnknown + 1 }
    | .preferred =>
      if item.satisfaction = .satisfied then { s with preferredSatisfied := s.preferredSatisfied + 1 }
      else if item.satisfaction = .unsatisfied then { s with preferredUnsatisfied := s.preferredUnsatisfied + 1 }
      else { s with preferredUnknown := s.preferredUnknown + 1 }
    | .informational => { s with informational := s.informational + 1 }
  if item.satisfaction = .notApplicable then { s with notApplicable := s.notApplicable + 1 } else s

end EvaluationSummary

/-- An unsatisfied required requirement makes the whole unsatisfied, otherwise an unknown one makes it unknown. -/
def aggregateSatisfaction (requirements : List RequirementEvaluation) : Satisfaction :=
  let required := requirements.filter fun item => item.strength == .required
  if required.any fun item => item.satisfaction == .unsatisfied then .unsatisfied
  else if required.any fun item => item.satisfaction == .unknown then .unknown
  else if required.isEmpty then .notApplicable
  else .satisfied

/-- The verdict on a requirement, with the entry it was decided from. -/
def evaluateRequirement (evidence : EvidenceSet) (current : Incarnation) (nowMillis maxAgeMillis : UInt64)
    (r : Requirement) : RequirementEvaluation :=
  let entry := evidence.find r.scope
  let decision := decideRequirement r entry current nowMillis maxAgeMillis
  let item : RequirementEvaluation :=
    { requirement := r.id
      scope := r.scope
      kind := r.kind
      strength := r.strength
      satisfaction := decision.satisfaction
      reasonCode := decision.reasonCode
      reason := decision.reason
      observed := decision.observed }
  match entry with
  | none => item
  | some entry =>
    { item with
      evidence := entry.id
      evidenceGeneration := entry.generation
      freshness := entry.freshness }

/-- Evaluates every requirement of a contract, in canonical order whatever the order of the body. -/
def evaluateContract (contract : Contract) (evidence : EvidenceSet) (current : Incarnation)
    (nowMillis maxAgeMillis : UInt64) : EvaluationResult :=
  let requirements := (sortBy requirementPrecedes contract.body.requirements).map
    (evaluateRequirement evidence current nowMillis maxAgeMillis)
  { ok := true
    evaluation :=
      { workload := contract.body.workload.id
        contract := contract.body.contractId
        contractGeneration := contract.body.generation
        contractDigest := contract.digest
        policyGeneration := contract.body.policyGeneration
        evidenceGeneration := evidence.generation
        evaluatedBy := current
        epoch := evidence.epoch
        evaluatedAtMillis := nowMillis
        aggregate := aggregateSatisfaction requirements
        summary := requirements.foldl .count {}
        requirements := requirements } }

/-- What stands behind the verdict on a requirement: it is satisfied exactly by the first entry of its scope, when
this incarnation captured it, it is current and reports an observation that meets the constraint, and unknown exactly
when there is no such entry or it does not report what the kind reads. -/
structure Earned (evidence : EvidenceSet) (current : Incarnation) (r : Requirement) (item : RequirementEvaluation) :
    Prop where
  requirement : item.requirement = r.id
  scope : item.scope = r.scope
  kind : item.kind = r.kind
  strength : item.strength = r.strength
  satisfied : item.satisfaction = .satisfied ↔ (r.strength = .required ∨ r.strength = .preferred) ∧
    ∃ e, evidence.find r.scope = some e ∧ e.capturedBy = current ∧ e.freshness = .current ∧ Observes r e.candidate
  unknown : item.satisfaction = .unknown ↔ r.strength ≠ .informational ∧
    ∀ e, evidence.find r.scope = some e → e.capturedBy = current → e.freshness = .current → e.candidate.Lacks r

theorem evaluateRequirement_decision (evidence : EvidenceSet) (current : Incarnation) (now age : UInt64)
    (r : Requirement) : (evaluateRequirement evidence current now age r).satisfaction =
      (decideRequirement r (evidence.find r.scope) current now age).satisfaction := by
  unfold evaluateRequirement
  cases evidence.find r.scope <;> rfl

theorem evaluated_iff {s : RequirementStrength} : s ≠ .informational ↔ s = .required ∨ s = .preferred := by
  cases s <;> simp

theorem earned_evaluateRequirement (evidence : EvidenceSet) (current : Incarnation) (now age : UInt64)
    (r : Requirement) : Earned evidence current r (evaluateRequirement evidence current now age r) := by
  constructor
  case satisfied => rw [evaluateRequirement_decision, decideRequirement_satisfied, evaluated_iff]
  case unknown => rw [evaluateRequirement_decision, decideRequirement_unknown]
  all_goals unfold evaluateRequirement; cases evidence.find r.scope <;> rfl

/-- Every requirement of the contract gets one verdict, and every verdict is earned. -/
theorem evaluateContract_earned (contract : Contract) (evidence : EvidenceSet) (current : Incarnation)
    (now age : UInt64) : ∃ requirements, requirements.Perm contract.body.requirements ∧
      List.Forall₂ (Earned evidence current) requirements
        (evaluateContract contract evidence current now age).evaluation.requirements := by
  refine ⟨_, perm_sortBy requirementPrecedes _, ?_⟩
  show List.Forall₂ _ _ (List.map _ _)
  rw [List.forall₂_map_right_iff, List.forall₂_same]
  exact fun r _ => earned_evaluateRequirement evidence current now age r

/-- A verdict that decides nothing: unknown, or not applicable to a requirement that is only recorded. -/
def RequirementEvaluation.Open (item : RequirementEvaluation) : Prop :=
  item.satisfaction = if item.strength = .informational then .notApplicable else .unknown

theorem RequirementEvaluation.Open.cases {item : RequirementEvaluation} (h : item.Open) :
    item.satisfaction = .unknown ∨ item.satisfaction = .notApplicable := by
  unfold Open at h
  rw [h]
  split
  · exact .inr rfl
  · exact .inl rfl

/-- Open verdicts have no decided aggregate. -/
theorem aggregateSatisfaction_open {items : List RequirementEvaluation} (h : ∀ item ∈ items, item.Open) :
    aggregateSatisfaction items ≠ .satisfied ∧ aggregateSatisfaction items ≠ .unsatisfied := by
  have hunknown : ∀ item ∈ items.filter (fun item => item.strength == .required), item.satisfaction = .unknown := by
    intro item hitem
    obtain ⟨hmem, hstrength⟩ := List.mem_filter.1 hitem
    have hopen := h item hmem
    unfold RequirementEvaluation.Open at hopen
    rwa [beq_iff_eq.1 hstrength, if_neg (by decide)] at hopen
  unfold aggregateSatisfaction
  generalize items.filter (fun item => item.strength == .required) = required at hunknown
  have hnone : required.any (fun item => item.satisfaction == .unsatisfied) = false := by
    rw [List.any_eq_false]
    intro item hitem
    rw [hunknown item hitem]
    decide
  simp only
  rw [hnone, if_neg Bool.false_ne_true]
  cases required with
  | nil => exact ⟨by decide, by decide⟩
  | cons item rest =>
    have hsome : (item :: rest).any (fun item => item.satisfaction == .unknown) = true :=
      List.any_eq_true.2 ⟨item, List.mem_cons_self, by rw [hunknown item List.mem_cons_self]; rfl⟩
    rw [hsome, if_pos rfl]
    exact ⟨by decide, by decide⟩

/-- Without a current entry the verdict on a requirement is open. -/
theorem evaluateRequirement_open {evidence : EvidenceSet} {current : Incarnation} {now age : UInt64} {r : Requirement}
    (h : ∀ e, evidence.find r.scope = some e → e.freshness ≠ .current) :
    (evaluateRequirement evidence current now age r).Open := by
  have hearned := earned_evaluateRequirement evidence current now age r
  unfold RequirementEvaluation.Open
  rw [hearned.strength]
  split
  · rename_i hs
    rw [evaluateRequirement_decision, decideRequirement_informational hs]
  · rename_i hs
    exact hearned.unknown.2 ⟨hs, fun e he _ hf => absurd hf (h e he)⟩

/-! ## Validation of evidence -/

structure EvidenceValidationResult extends ValidationResult where
  /-- The scopes of the entries that are not current, in order. -/
  staleScopes : List Bytes

/-- Whether an entry is older at a reading of the clock than the age permits. An age of zero permits any. -/
def EvidenceEntry.overAge (entry : EvidenceEntry) (nowMillis maxAgeMillis : UInt64) : Bool :=
  maxAgeMillis > 0 && nowMillis > entry.producedAtMillis && nowMillis - entry.producedAtMillis > maxAgeMillis

/-- The freshness an entry of a set is found to have. -/
def freshnessOf (epoch : UInt64) (current : Incarnation) (nowMillis maxAgeMillis : UInt64) (entry : EvidenceEntry) :
    EvidenceFreshness :=
  if entry.capturedBy ≠ current ∨ entry.epoch ≠ epoch then .revalidationRequired
  else if entry.overAge nowMillis maxAgeMillis then .expired
  else .current

/-- What is wrong with an entry behind the entries `seen`. -/
def entryDiagnostics (scopes : List Scope) (seen : List EvidenceEntry) (entry : EvidenceEntry) : List Diagnostic :=
  diagnose (scopes.all fun scope => scope.name != entry.scope)
      ⟨.evidenceUnknownScope, utf8 "evidence references undeclared scope '" ++ entry.scope ++ utf8 "'", .zero, .zero⟩ ++
    diagnose (seen.any fun other => other.scope == entry.scope)
      ⟨.evidenceDuplicate, utf8 "evidence repeats scope '" ++ entry.scope ++ utf8 "'", .zero, .zero⟩ ++
    diagnose (!entry.candidate.hasAnyDimension)
      ⟨.evaluationMissingDimension, utf8 "evidence for scope '" ++ entry.scope ++ utf8 "' carries no dimension",
        .zero, .zero⟩

/-- Checks an evidence set against the scopes of a contract, and stamps every entry with the freshness it has. -/
def validateEvidence (evidence : EvidenceSet) (body : ContractBody) (current : Incarnation)
    (nowMillis maxAgeMillis : UInt64) : EvidenceSet × EvidenceValidationResult :=
  let entries := evidence.entries.map fun entry =>
    { entry with freshness := freshnessOf evidence.epoch current nowMillis maxAgeMillis entry }
  let diagnostics := (evidence.entries.mapIdx fun i entry =>
    entryDiagnostics body.scopes (evidence.entries.take i) entry).flatten
  ({ evidence with entries := entries },
    { toValidationResult := .ofDiagnostics diagnostics
      staleScopes := sortBy (fun a b => a < b)
        ((entries.filter fun entry => entry.freshness != .current).map EvidenceEntry.scope) })

end Wnc
