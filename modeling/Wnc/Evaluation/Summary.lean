/-
What an evaluation says as a whole: its counts partition the requirements and fix the aggregate, and it does not depend
on the order in which the requirements and the evidence are given.
-/
import Wnc.Contract.Canonical
import Wnc.Evaluation.Evaluate
import Wnc.Lib.Keyed

namespace Wnc

open Lib

/-! ## Counts -/

/-- A verdict that is not applicable exactly when the requirement is informational. -/
def RequirementEvaluation.Rated (item : RequirementEvaluation) : Prop :=
  item.satisfaction = .notApplicable ↔ item.strength = .informational

theorem rated_evaluateRequirement (evidence : EvidenceSet) (current : Incarnation) (now age : UInt64) (r : Requirement) :
    (evaluateRequirement evidence current now age r).Rated := by
  unfold RequirementEvaluation.Rated
  rw [evaluateRequirement_decision, (earned_evaluateRequirement evidence current now age r).strength]
  constructor
  · intro h
    by_contra hs
    exact decideRequirement_ne_notApplicable hs _ _ _ _ h
  · exact fun hs => decideRequirement_informational hs _ _ _ _

/-- The aggregate by what there is among the verdicts on required requirements. -/
theorem aggregateSatisfaction_eq (items : List RequirementEvaluation) : aggregateSatisfaction items =
    if ∃ item ∈ items, item.strength = .required ∧ item.satisfaction = .unsatisfied then .unsatisfied
    else if ∃ item ∈ items, item.strength = .required ∧ item.satisfaction = .unknown then .unknown
    else if ∃ item ∈ items, item.strength = .required then .satisfied
    else .notApplicable := by
  have hfilter : ∀ v : Satisfaction,
      (items.filter fun item => item.strength == .required).any (fun item => item.satisfaction == v) =
        decide (∃ item ∈ items, item.strength = .required ∧ item.satisfaction = v) := by
    intro v
    rw [Bool.eq_iff_iff, List.any_eq_true, decide_eq_true_eq]
    simp only [List.mem_filter, beq_iff_eq, and_assoc]
  have hempty : (items.filter fun item => item.strength == .required).isEmpty =
      decide (¬∃ item ∈ items, item.strength = .required) := by
    rw [Bool.eq_iff_iff, List.isEmpty_iff, List.filter_eq_nil_iff, decide_eq_true_eq]
    simp
  unfold aggregateSatisfaction
  simp only [hfilter, hempty, decide_eq_true_eq, ite_not]

namespace EvaluationSummary

/-- The counts partition `n` requirements. -/
structure Partitions (s : EvaluationSummary) (n : Nat) : Prop where
  required : s.requiredTotal = s.requiredSatisfied + s.requiredUnsatisfied + s.requiredUnknown
  total : s.requiredTotal + (s.preferredSatisfied + s.preferredUnsatisfied + s.preferredUnknown) + s.informational = n
  notApplicable : s.notApplicable = s.informational

/-- The aggregate that the counts say. -/
def aggregate (s : EvaluationSummary) : Satisfaction :=
  if s.requiredUnsatisfied > 0 then .unsatisfied
  else if s.requiredUnknown > 0 then .unknown
  else if s.requiredTotal = 0 then .notApplicable
  else .satisfied

/-- What the counts say of the verdicts they were taken from. -/
structure Tallies (items : List RequirementEvaluation) (s : EvaluationSummary) : Prop extends s.Partitions items.length where
  unsatisfied : 0 < s.requiredUnsatisfied ↔ ∃ item ∈ items, item.strength = .required ∧ item.satisfaction = .unsatisfied
  unknown : 0 < s.requiredUnknown ↔ ∃ item ∈ items, item.strength = .required ∧ item.satisfaction = .unknown
  any : 0 < s.requiredTotal ↔ ∃ item ∈ items, item.strength = .required

theorem tallies_nil : Tallies [] {} := by
  constructor <;> first | constructor <;> rfl | simp

/-- One verdict is counted once, under its strength and its satisfaction. -/
theorem Tallies.count {items : List RequirementEvaluation} {s : EvaluationSummary} (h : Tallies items s)
    {item : RequirementEvaluation} (hrated : item.Rated) : Tallies (items ++ [item]) (s.count item) := by
  obtain ⟨⟨hrequired, htotal, hna⟩, hunsatisfied, hunknown, hany⟩ := h
  unfold RequirementEvaluation.Rated at hrated
  have hlength : (items ++ [item]).length = items.length + 1 := List.length_append
  have hexists : ∀ P : RequirementEvaluation → Prop, (∃ a ∈ items ++ [item], P a) ↔ (∃ a ∈ items, P a) ∨ P item := by
    intro P
    simp only [List.mem_append, List.mem_singleton, or_and_right, exists_or, exists_eq_left]
  -- one case a strength and a satisfaction; being rated rules out those that do not go together
  cases hs : item.strength <;> cases hv : item.satisfaction <;>
    simp only [hs, hv, reduceCtorEq, iff_true, iff_false, not_true] at hrated <;>
    refine ⟨⟨?_, ?_, ?_⟩, ?_, ?_, ?_⟩ <;>
    simp only [hexists, hlength, ← hunsatisfied, ← hunknown, ← hany, ← htotal, EvaluationSummary.count, hs, hv] <;>
    grind

theorem tallies_foldl {items : List RequirementEvaluation} (h : ∀ item ∈ items, item.Rated) :
    Tallies items (items.foldl .count {}) := by
  induction items using List.reverseRecOn with
  | nil => exact tallies_nil
  | append_singleton items item ih =>
    rw [List.foldl_concat]
    exact (ih fun a ha => h a (List.mem_append_left _ ha)).count (h item (List.mem_append_right _ List.mem_cons_self))

/-- The aggregate of the verdicts is the one their counts say. -/
theorem Tallies.aggregate {items : List RequirementEvaluation} {s : EvaluationSummary} (h : Tallies items s) :
    aggregateSatisfaction items = s.aggregate := by
  rw [aggregateSatisfaction_eq]
  unfold EvaluationSummary.aggregate
  simp only [← h.unsatisfied, ← h.unknown, ← h.any, gt_iff_lt, Nat.pos_iff_ne_zero, ite_not]

end EvaluationSummary

/-- The counts of an evaluation partition the requirements of the contract, and its aggregate is the one they say. -/
theorem evaluateContract_summary (contract : Contract) (evidence : EvidenceSet) (current : Incarnation)
    (now age : UInt64) :
    let evaluation := (evaluateContract contract evidence current now age).evaluation
    evaluation.summary.Partitions contract.body.requirements.length ∧
      evaluation.aggregate = evaluation.summary.aggregate := by
  have hrated : ∀ item ∈ (sortBy requirementPrecedes contract.body.requirements).map
      (evaluateRequirement evidence current now age), item.Rated := by
    intro item hitem
    obtain ⟨r, -, rfl⟩ := List.mem_map.1 hitem
    exact rated_evaluateRequirement evidence current now age r
  have htallies := EvaluationSummary.tallies_foldl hrated
  refine ⟨?_, htallies.aggregate⟩
  have hpartitions := htallies.toPartitions
  rw [List.length_map, (perm_sortBy requirementPrecedes _).length_eq] at hpartitions
  exact hpartitions

/-! ## Order -/

theorem EvidenceSet.find_eq_get (evidence : EvidenceSet) (scope : Bytes) :
    evidence.find scope = Keyed.get EvidenceEntry.scope scope evidence.entries := by
  unfold EvidenceSet.find Keyed.get
  congr 1
  funext entry
  rw [Bool.eq_iff_iff, beq_iff_eq, decide_eq_true_eq]

/-- An evaluation does not depend on the order of the requirements, when their keys are distinct, nor on the order of the
entries, when their scopes are. -/
theorem evaluateContract_order {contract : Contract} {evidence : EvidenceSet} {requirements : List Requirement}
    {entries : List EvidenceEntry} (hkeys : (contract.body.requirements.map Requirement.compositeKey).Nodup)
    (hscopes : (evidence.entries.map EvidenceEntry.scope).Nodup) (hrequirements : contract.body.requirements.Perm requirements)
    (hentries : evidence.entries.Perm entries) (current : Incarnation) (now age : UInt64) :
    evaluateContract { contract with body := { contract.body with requirements := requirements } }
        { evidence with entries := entries } current now age =
      evaluateContract contract evidence current now age := by
  have hfind : ∀ scope, EvidenceSet.find { evidence with entries := entries } scope = evidence.find scope := by
    intro scope
    rw [EvidenceSet.find_eq_get, EvidenceSet.find_eq_get]
    exact (Keyed.get_perm hentries hscopes scope).symm
  have hverdict : evaluateRequirement { evidence with entries := entries } current now age =
      evaluateRequirement evidence current now age := by
    funext r
    unfold evaluateRequirement
    rw [hfind]
  unfold evaluateContract
  rw [hverdict, sort_requirements_congr hrequirements hkeys]

/-- Evidence for two scopes. -/
def twoEntries : EvidenceSet where
  generation := 1
  entries := [{ scope := utf8 "s", candidate := { attributes := [(utf8 "k", utf8 "v")] } }, { scope := utf8 "t" }]

theorem evaluateContract_order_twoScopes :
    evaluateContract { twoScopes with body := { twoScopes.body with requirements := twoScopes.body.requirements.reverse } }
        { twoEntries with entries := twoEntries.entries.reverse } .zero 0 0 =
      evaluateContract twoScopes twoEntries .zero 0 0 :=
  evaluateContract_order (by decide) (by decide) (List.reverse_perm _).symm (List.reverse_perm _).symm .zero 0 0

end Wnc
