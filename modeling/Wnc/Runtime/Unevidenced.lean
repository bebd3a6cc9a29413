/-
The evaluation of a workload that never got evidence, which the runtime builds by itself: requirement for requirement
and in its counts it is the evaluation of the contract against no evidence, and so on the whole exactly when the
contract requires something.
-/
import Wnc.Evaluation.Summary
import Wnc.Runtime.Acceptance
import Wnc.Runtime.Agreement

namespace Wnc

open Lib

/-! ## One requirement -/

/-- What is said of a requirement: the verdict, and the code of the reason for it. -/
def RequirementEvaluation.verdict (item : RequirementEvaluation) :
    RequirementId × Bytes × RequirementKind × RequirementStrength × Satisfaction × Code :=
  (item.requirement, item.scope, item.kind, item.strength, item.satisfaction, item.reasonCode)

/-- Without evidence the two evaluations say the same of a requirement. -/
theorem verdict_unevidenced (current : Incarnation) (now age : UInt64) (r : Requirement) :
    (unevidenced r).verdict = (evaluateRequirement {} current now age r).verdict := by
  have hfind : EvidenceSet.find {} r.scope = none := rfl
  unfold unevidenced evaluateRequirement decideRequirement RequirementEvaluation.verdict
  rw [hfind]
  by_cases hs : r.strength = .informational <;> simp [hs]

/-- Of a requirement without evidence the two ways to count are the same. -/
theorem countUnevidenced_eq (s : EvaluationSummary) {item : RequirementEvaluation} (h : item.Open) :
    s.countUnevidenced item = s.count item := by
  unfold RequirementEvaluation.Open at h
  unfold EvaluationSummary.countUnevidenced EvaluationSummary.count
  cases hs : item.strength <;> rw [hs] at h <;> simp [h]

theorem foldl_countUnevidenced {items : List RequirementEvaluation} (h : ∀ item ∈ items, item.Open)
    (s : EvaluationSummary) : items.foldl .countUnevidenced s = items.foldl .count s := by
  induction items generalizing s with
  | nil => rfl
  | cons item items ih =>
    rw [List.foldl_cons, List.foldl_cons, countUnevidenced_eq s (h item List.mem_cons_self)]
    exact ih (fun a ha => h a (List.mem_cons_of_mem _ ha)) _

/-! ## Counts and order -/

/-- Verdicts are counted one by one, in any order. -/
theorem EvaluationSummary.count_comm (s : EvaluationSummary) (a b : RequirementEvaluation) :
    (s.count a).count b = (s.count b).count a := by
  unfold EvaluationSummary.count
  cases a.strength <;> cases b.strength <;> cases a.satisfaction <;> cases b.satisfaction <;> rfl

theorem EvaluationSummary.foldl_count_perm {l m : List RequirementEvaluation} (h : l.Perm m) (s : EvaluationSummary) :
    l.foldl .count s = m.foldl .count s :=
  h.foldl_eq' (fun a _ b _ s => EvaluationSummary.count_comm s a b) s

/-- What is counted of a verdict is part of what is said. -/
theorem tally_of_verdict {a b : RequirementEvaluation} (h : a.verdict = b.verdict) : a.tally = b.tally := by
  unfold RequirementEvaluation.verdict at h
  unfold RequirementEvaluation.tally
  simp only [Prod.mk.injEq] at h
  obtain ⟨-, -, -, hstrength, hsatisfaction, -⟩ := h
  rw [hstrength, hsatisfaction]

/-! ## Whole evaluations -/

/-- Two evaluations that come to the same: on the whole, in their counts, and requirement for requirement in the
verdicts and the codes of their reasons, in whatever order. -/
structure ContractEvaluation.Coincides (a b : ContractEvaluation) : Prop where
  aggregate : a.aggregate = b.aggregate
  summary : a.summary = b.summary
  verdicts : (a.requirements.map RequirementEvaluation.verdict).Perm (b.requirements.map RequirementEvaluation.verdict)

section

variable (requirements : List Requirement) (current : Incarnation) (now age : UInt64)

/-- The verdicts of a contract against no evidence. -/
def plainVerdicts : List RequirementEvaluation :=
  (sortBy requirementPrecedes requirements).map (evaluateRequirement {} current now age)

theorem verdicts_unevidenced : ((requirements.map unevidenced).map RequirementEvaluation.verdict).Perm
    ((plainVerdicts requirements current now age).map RequirementEvaluation.verdict) := by
  have hsame : (requirements.map unevidenced).map RequirementEvaluation.verdict =
      (requirements.map (evaluateRequirement {} current now age)).map RequirementEvaluation.verdict := by
    rw [List.map_map, List.map_map, List.map_inj_left]
    exact fun q _ => verdict_unevidenced current now age q
  rw [hsame, plainVerdicts]
  exact (((perm_sortBy requirementPrecedes requirements).symm.map _).map _)

theorem summary_unevidenced : (requirements.map unevidenced).foldl EvaluationSummary.countUnevidenced {} =
    (plainVerdicts requirements current now age).foldl EvaluationSummary.count {} := by
  have hopen : ∀ item ∈ requirements.map unevidenced, item.Open := by
    intro item hitem
    obtain ⟨q, -, rfl⟩ := List.mem_map.1 hitem
    exact unevidenced_open q
  -- a count looks at the tallies alone, and the verdicts decide those
  have htally : (requirements.map unevidenced).map RequirementEvaluation.tally =
      (requirements.map (evaluateRequirement {} current now age)).map RequirementEvaluation.tally := by
    rw [List.map_map, List.map_map, List.map_inj_left]
    exact fun q _ => tally_of_verdict (verdict_unevidenced current now age q)
  rw [foldl_countUnevidenced hopen, ← summary_tally, htally, summary_tally]
  exact EvaluationSummary.foldl_count_perm ((perm_sortBy requirementPrecedes requirements).symm.map _) {}

/-- Against no evidence a contract is unknown on the whole where it requires something, and not applicable otherwise. -/
theorem aggregate_plainVerdicts : aggregateSatisfaction (plainVerdicts requirements current now age) =
    if ∃ q ∈ requirements, q.strength = .required then .unknown else .notApplicable := by
  have hitem : ∀ q : Requirement, q.strength = .required →
      (evaluateRequirement {} current now age q).strength = .required ∧
        (evaluateRequirement {} current now age q).satisfaction = .unknown := by
    intro q hq
    have hearned := earned_evaluateRequirement {} current now age q
    refine ⟨hearned.strength.trans hq, hearned.unknown.2 ⟨by rw [hq]; decide, fun e he => ?_⟩⟩
    cases he
  have hback : ∀ item ∈ plainVerdicts requirements current now age, item.strength = .required →
      item.satisfaction = .unknown ∧ ∃ q ∈ requirements, q.strength = .required := by
    intro item hmem hs
    obtain ⟨q, hq, rfl⟩ := List.mem_map.1 hmem
    have hstrength := (earned_evaluateRequirement {} current now age q).strength.symm.trans hs
    exact ⟨(hitem q hstrength).2, q, mem_sortBy.1 hq, hstrength⟩
  rw [aggregateSatisfaction_eq]
  -- whatever is required is unknown, so the aggregate asks only whether something is
  by_cases hr : ∃ q ∈ requirements, q.strength = .required
  · obtain ⟨q, hq, hs⟩ := hr
    rw [if_neg, if_pos, if_pos ⟨q, hq, hs⟩]
    · exact ⟨_, List.mem_map_of_mem (mem_sortBy.2 hq), hitem q hs⟩
    · rintro ⟨item, hmem, hs, hunsatisfied⟩
      rw [(hback item hmem hs).1] at hunsatisfied
      cases hunsatisfied
  · have hnone : ∀ P : RequirementEvaluation → Prop,
        ¬∃ item ∈ plainVerdicts requirements current now age, item.strength = .required ∧ P item := by
      rintro P ⟨item, hmem, hs, -⟩
      exact hr (hback item hmem hs).2
    rw [if_neg (hnone _), if_neg (hnone _), if_neg, if_neg hr]
    rintro ⟨item, hmem, hs⟩
    exact hr (hback item hmem hs).2

end

/-- What the runtime builds for a workload without evidence comes to the evaluation of the contract against no evidence
exactly when the contract requires something. -/
theorem unevidenced_coincides_iff (r : Runtime) (now now' : UInt64) (w : WorkloadState) (contract : Contract) :
    (r.evaluateUnevidenced now w contract).evaluation.Coincides
        (evaluateContract contract {} r.info.incarnation now' r.evidenceMaxAgeMillis).evaluation ↔
      ∃ q ∈ contract.body.requirements, q.strength = .required := by
  have haggregate := aggregate_plainVerdicts contract.body.requirements r.info.incarnation now' r.evidenceMaxAgeMillis
  constructor
  · intro h
    by_contra hr
    rw [if_neg hr] at haggregate
    have hsame : Satisfaction.unknown = _ := h.aggregate.trans haggregate
    cases hsame
  · intro hr
    rw [if_pos hr] at haggregate
    exact ⟨haggregate.symm, summary_unevidenced _ _ _ _, verdicts_unevidenced _ _ _ _⟩

/-- A workload that holds neither evidence nor a decision is evaluated by what the runtime builds. -/
theorem evaluate_unevidenced {r : Runtime} {clock : Nat → UInt64} {id : WorkloadId} {w : WorkloadState}
    {current : GenerationRecord} (hfind : r.state.workloads.find? id = some w) (hundecided : w.Undecided)
    (hcurrent : w.generations.getLast? = some current) (hevidence : w.evidence = none) :
    r.evaluate clock id = r.evaluateUnevidenced (clock 0) w current.body := by
  unfold Runtime.evaluate Runtime.evaluateInternal
  simp only [hfind, hcurrent, if_true, hundecided.cached, hevidence]

/-- In every state of every run of a boot, the evaluation of a workload that holds no evidence comes to that of its
current contract against no evidence exactly when the contract requires something. -/
theorem evaluate_unevidenced_iff {io : Ledger.OpenIo} {options : Options} {incarnation : Incarnation}
    {startedAtMillis : UInt64} {dir : Directory} {opened s : Runtime × Directory} {steps : List (Surroundings × Mutation)}
    (hopen : openRuntime io options incarnation startedAtMillis dir = (.ok opened.1, opened.2))
    (hrun : Run BootStep (fun _ _ => True) opened steps s) {id : WorkloadId} {w : WorkloadState}
    {current : GenerationRecord} (hfind : s.1.state.workloads.find? id = some w) (hevidence : w.evidence = none)
    (hcurrent : w.generations.getLast? = some current) (clock : Nat → UInt64) (now : UInt64) :
    (s.1.evaluate clock id).evaluation.Coincides
        (evaluateContract current.body {} s.1.info.incarnation now s.1.evidenceMaxAgeMillis).evaluation ↔
      ∃ q ∈ current.body.body.requirements, q.strength = .required := by
  have hundecided : s.1.state.workloads.All WorkloadState.Undecided := by
    -- a boot decides nothing, and no mutation stores a decision
    refine hrun.invariant (fun s => s.1.state.workloads.All WorkloadState.Undecided) ?_ ?_
    · intro s a t hs _ hstep
      exact kept_undecided.step (fun _ _ _ _ _ => WorkloadState.undecided_invalidate _) hstep hs
    · exact fun id w hfind => (openRuntime_dormant hopen id w hfind).1
  rw [evaluate_unevidenced hfind (hundecided id w hfind) hcurrent hevidence]
  exact unevidenced_coincides_iff _ _ _ _ _

/-! ## A contract that requires nothing -/

/-- The boot in which the contract that only prefers is registered. -/
theorem preferring_boot : ∃ opened registered : Runtime × Directory,
    openRuntime .succeeds { trust := isolationTrust } .zero 0 (.fresh (utf8 "state")) = (.ok opened.1, opened.2) ∧
      BootStep opened (undisturbed, .registerWorkload preferringContract) registered ∧
      registered.1.state.workloads.find? (.repeating 1) = some (registeredWorkload preferringContract 1) := by
  obtain ⟨opened, -, -, hopen, -⟩ := isolationBoot_spec
  obtain ⟨-, l, hafter, -⟩ := preferringContract_registers (openRuntime_blank hopen) opened.2
  refine ⟨opened, _, hopen, rfl, ?_⟩
  rw [hafter]
  exact SortedMap.find?_set_self _ _ _

theorem evaluate_unevidenced_iff_preferring : ∃ registered : Runtime × Directory,
    registered.1.state.workloads.find? (.repeating 1) = some (registeredWorkload preferringContract 1) ∧
      ((registered.1.evaluate (fun _ => 1) (.repeating 1)).evaluation.Coincides
          (evaluateContract preferringContract {} registered.1.info.incarnation 1
            registered.1.evidenceMaxAgeMillis).evaluation ↔
        ∃ q ∈ preferringContract.body.requirements, q.strength = .required) := by
  obtain ⟨opened, registered, hopen, hregister, hfind⟩ := preferring_boot
  have hrun : Run BootStep (fun _ _ => True) opened [(undisturbed, .registerWorkload preferringContract)] registered :=
    .cons trivial hregister (.nil _)
  exact ⟨registered, hfind, evaluate_unevidenced_iff hopen hrun hfind rfl
    (show _ = some (generationOf preferringContract 1) from rfl) (fun _ => 1) 1⟩

set_option maxRecDepth 100000 in
/-- A contract that only prefers is unknown to the runtime, and not applicable to the evaluation against no evidence. -/
theorem evaluate_unevidenced_differs : ¬∀ (io : Ledger.OpenIo) (options : Options) (incarnation : Incarnation)
    (startedAtMillis : UInt64) (dir : Directory) (opened s : Runtime × Directory)
    (steps : List (Surroundings × Mutation)) (id : WorkloadId) (w : WorkloadState) (current : GenerationRecord)
    (clock : Nat → UInt64) (now : UInt64),
    openRuntime io options incarnation startedAtMillis dir = (.ok opened.1, opened.2) →
    Run BootStep (fun _ _ => True) opened steps s → s.1.state.workloads.find? id = some w → w.evidence = none →
    w.generations.getLast? = some current →
    (s.1.evaluate clock id).evaluation.Coincides
      (evaluateContract current.body {} s.1.info.incarnation now s.1.evidenceMaxAgeMillis).evaluation := by
  intro h
  obtain ⟨opened, registered, hopen, hregister, hfind⟩ := preferring_boot
  have hrun : Run BootStep (fun _ _ => True) opened [(undisturbed, .registerWorkload preferringContract)] registered :=
    .cons trivial hregister (.nil _)
  have hcurrent : (registeredWorkload preferringContract 1).generations.getLast? =
      some (generationOf preferringContract 1) := rfl
  have hsame := h _ _ _ _ _ _ _ _ _ _ _ (fun _ => 1) 1 hopen hrun hfind rfl hcurrent
  rw [evaluate_unevidenced hfind (fun _ he => nomatch he) hcurrent rfl, unevidenced_coincides_iff] at hsame
  have hnone : ∀ q ∈ preferringContract.body.requirements, q.strength ≠ .required := by decide +kernel
  obtain ⟨q, hq, hs⟩ := hsame
  exact hnone q hq hs

end Wnc
