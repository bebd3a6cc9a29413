/-
The two ways to evaluate evidence: supplied with the question, or attached first and evaluated from what is stored.
Supplied entries are aged before they are used, attached ones are stamped current, so that the two give the same
verdicts exactly when no entry that decides a requirement is over age.
-/
import Wnc.Runtime.Isolation

namespace Wnc

open Lib

/-! ## Evaluations that agree -/

/-- Two evaluations that come to the same: for every requirement, in the summary and on the whole. -/
structure ContractEvaluation.SameVerdicts (a b : ContractEvaluation) : Prop where
  verdicts : a.requirements.map (fun item => (item.requirement, item.satisfaction)) =
    b.requirements.map fun item => (item.requirement, item.satisfaction)
  summary : a.summary = b.summary
  aggregate : a.aggregate = b.aggregate

/-- Two evaluations that also give the same reasons, observations and freshness. -/
structure ContractEvaluation.SameInFull (a b : ContractEvaluation) : Prop extends a.SameVerdicts b where
  requirements : a.requirements = b.requirements

/-- The part of a verdict that is counted. -/
def RequirementEvaluation.tally (item : RequirementEvaluation) : RequirementEvaluation :=
  { strength := item.strength, satisfaction := item.satisfaction }

theorem summary_tally (items : List RequirementEvaluation) (s : EvaluationSummary) :
    (items.map RequirementEvaluation.tally).foldl .count s = items.foldl .count s := by
  rw [List.foldl_map]
  rfl

theorem aggregate_tally (items : List RequirementEvaluation) :
    aggregateSatisfaction (items.map RequirementEvaluation.tally) = aggregateSatisfaction items := by
  unfold aggregateSatisfaction
  simp only [List.filter_map, List.any_map, List.isEmpty_map, Function.comp_def, RequirementEvaluation.tally]

/-! ## Evidence that is supplied and evidence that is attached -/

theorem allErrors_entryDiagnostics (scopes : List Scope) (seen : List EvidenceEntry) (entry : EvidenceEntry) :
    AllErrors (entryDiagnostics scopes seen entry) := by
  simp [entryDiagnostics]

/-- Every entry of evidence that passes validation is of a declared scope. -/
theorem validateEvidence_declared {evidence : EvidenceSet} {body : ContractBody} {current : Incarnation}
    {now age : UInt64} (h : (validateEvidence evidence body current now age).2.ok = true) :
    ∀ entry ∈ evidence.entries, ∃ scope ∈ body.scopes, scope.name = entry.scope := by
  intro entry hentry
  have herrors : AllErrors (evidence.entries.mapIdx fun i entry =>
      entryDiagnostics body.scopes (evidence.entries.take i) entry).flatten := by
    intro d hd
    obtain ⟨ds, hds, hd⟩ := List.mem_flatten.1 hd
    obtain ⟨i, hi, rfl⟩ := List.mem_mapIdx.1 hds
    exact allErrors_entryDiagnostics _ _ _ d hd
  have hnone := (ofDiagnostics_ok herrors).1 h
  obtain ⟨i, hi, rfl⟩ := List.getElem_of_mem hentry
  have hentry := List.flatten_eq_nil_iff.1 hnone _ (List.mem_mapIdx.2 ⟨i, hi, rfl⟩)
  unfold entryDiagnostics at hentry
  rw [List.append_eq_nil_iff, List.append_eq_nil_iff, diagnose_eq_nil, List.all_eq_false] at hentry
  obtain ⟨⟨scope, hscope, hname⟩, _⟩ := hentry.1
  exact ⟨scope, hscope, by simpa using hname⟩

/-- An entry as a direct evaluation reads it. -/
def EvidenceEntry.supplied (info : RuntimeInfo) (nowMillis maxAgeMillis : UInt64) (entry : EvidenceEntry) :
    EvidenceEntry :=
  { entry with
    capturedBy := info.incarnation
    epoch := info.epoch
    freshness := if entry.overAge nowMillis maxAgeMillis then .expired else .current }

/-- An entry as an attachment stores it. -/
def EvidenceEntry.attached (info : RuntimeInfo) (publisher : PublisherId) (nowMillis : UInt64) (entry : EvidenceEntry) :
    EvidenceEntry :=
  { entry with
    capturedBy := info.incarnation
    epoch := info.epoch
    publisher := publisher
    freshness := .current
    producedAtMillis := if entry.producedAtMillis = 0 then nowMillis else entry.producedAtMillis }

theorem evaluateSupplied_ok {r : Runtime} {clock : Nat → UInt64} {contract : Contract} {evidence : EvidenceSet}
    (h : (r.evaluateSupplied clock contract evidence).ok = true) :
    (∀ entry ∈ evidence.entries, ∃ scope ∈ contract.body.scopes, scope.name = entry.scope) ∧
      r.evaluateSupplied clock contract evidence = r.evaluateAgainst (clock 1) contract
        { evidence with
          epoch := r.info.epoch
          entries := evidence.entries.map (.supplied r.info (clock 0) r.evidenceMaxAgeMillis) } := by
  unfold Runtime.evaluateSupplied at h ⊢
  simp only at h ⊢
  split at h
  · cases h
  · rename_i hok
    rw [if_neg hok]
    refine ⟨?_, ?_⟩
    · intro entry hentry
      exact validateEvidence_declared (by simpa using hok)
        { entry with capturedBy := r.info.incarnation, epoch := r.info.epoch } (List.mem_map.2 ⟨entry, hentry, rfl⟩)
    · unfold validateEvidence
      simp only [List.map_map, Function.comp_def, freshnessOf, ne_eq, not_true_eq_false, or_self, if_false]
      rfl

/-- While the clock stands every entry is stamped alike. -/
theorem EvidenceSet.stamp_entries (info : RuntimeInfo) (t : UInt64) (submitted : EvidenceSet) :
    (submitted.stamp info fun _ => t).entries = submitted.entries.map (.attached info submitted.publisher t) := by
  apply List.ext_getElem
  · simp [EvidenceSet.stamp]
  · intro i _ _
    simp [EvidenceSet.stamp, EvidenceEntry.attached]

theorem EvidenceSet.find_map {evidence evidence' : EvidenceSet} {f : EvidenceEntry → EvidenceEntry}
    (hentries : evidence'.entries = evidence.entries.map f) (hscope : ∀ e, (f e).scope = e.scope) (scope : Bytes) :
    evidence'.find scope = (evidence.find scope).map f := by
  unfold EvidenceSet.find
  rw [hentries, List.find?_map]
  simp only [Function.comp_def, hscope]

/-! ## One requirement -/

section

variable {info : RuntimeInfo} {publisher : PublisherId} {t age : UInt64} {evidence supplied attached : EvidenceSet}
  {q : Requirement}

/-- The verdict is the same when nothing decides the requirement, or the entry that does is not over age or does not
report what the requirement reads. -/
theorem satisfaction_agrees_iff (hs : supplied.find q.scope = (evidence.find q.scope).map (.supplied info t age))
    (ha : attached.find q.scope = (evidence.find q.scope).map (.attached info publisher t)) :
    (evaluateRequirement supplied info.incarnation t age q).satisfaction =
        (evaluateRequirement attached info.incarnation t age q).satisfaction ↔
      (q.strength ≠ .informational → ∀ e, evidence.find q.scope = some e → e.overAge t age = true →
        e.candidate.Lacks q) := by
  rw [evaluateRequirement_decision, evaluateRequirement_decision]
  by_cases hinformational : q.strength = .informational
  · rw [decideRequirement_informational hinformational, decideRequirement_informational hinformational]
    simp [hinformational]
  · cases hfind : evidence.find q.scope with
    | none => simp [hs, ha, hfind]
    | some e =>
      rw [hs, ha, hfind, Option.map_some, Option.map_some]
      by_cases hage : e.overAge t age = true
      · have hunknown : (decideRequirement q (some (e.supplied info t age)) info.incarnation t age).satisfaction =
            .unknown := by
          rw [decideRequirement_unknown]
          refine ⟨hinformational, ?_⟩
          rintro _ ⟨⟩ _ hfresh
          simp [EvidenceEntry.supplied, hage] at hfresh
        rw [hunknown, eq_comm, decideRequirement_unknown]
        simp [hinformational, hage, EvidenceEntry.attached]
      · simp [decideRequirement, EvidenceEntry.supplied, EvidenceEntry.attached, hage]

/-- All that is said of a requirement is the same when the entry that decides it is not over age. -/
theorem evaluateRequirement_agrees_iff
    (hs : supplied.find q.scope = (evidence.find q.scope).map (.supplied info t age))
    (ha : attached.find q.scope = (evidence.find q.scope).map (.attached info publisher t)) :
    evaluateRequirement supplied info.incarnation t age q = evaluateRequirement attached info.incarnation t age q ↔
      ∀ e, evidence.find q.scope = some e → e.overAge t age = false := by
  unfold evaluateRequirement
  rw [hs, ha]
  cases hfind : evidence.find q.scope with
  | none => simp
  | some e =>
    rw [Option.map_some, Option.map_some]
    by_cases hage : e.overAge t age = true
    · simp [EvidenceEntry.supplied, EvidenceEntry.attached, hage]
    · simp [decideRequirement, EvidenceEntry.supplied, EvidenceEntry.attached, hage]

end

/-! ## Whole evaluations -/

/-- An evaluation of a contract against one evidence set or another gives the same verdicts exactly when every
requirement gets the same. -/
theorem sameVerdicts_iff {contract : Contract} {supplied attached : EvidenceSet} {current : Incarnation}
    {now age : UInt64} :
    (evaluateContract contract supplied current now age).evaluation.SameVerdicts
        (evaluateContract contract attached current now age).evaluation ↔
      ∀ q ∈ contract.body.requirements, (evaluateRequirement supplied current now age q).satisfaction =
        (evaluateRequirement attached current now age q).satisfaction := by
  have hsame : ∀ q evidence, (evaluateRequirement evidence current now age q).requirement = q.id ∧
      (evaluateRequirement evidence current now age q).strength = q.strength := by
    intro q evidence
    have hearned := earned_evaluateRequirement evidence current now age q
    exact ⟨hearned.requirement, hearned.strength⟩
  constructor
  · intro h q hq
    have hverdicts := h.verdicts
    unfold evaluateContract at hverdicts
    rw [List.map_map, List.map_map, List.map_inj_left] at hverdicts
    exact congrArg Prod.snd (hverdicts q (mem_sortBy.2 hq))
  · intro h
    have htally : ((sortBy requirementPrecedes contract.body.requirements).map
          (evaluateRequirement supplied current now age)).map RequirementEvaluation.tally =
        ((sortBy requirementPrecedes contract.body.requirements).map
          (evaluateRequirement attached current now age)).map RequirementEvaluation.tally := by
      rw [List.map_map, List.map_map, List.map_inj_left]
      intro q hq
      rw [Function.comp_apply, Function.comp_apply, RequirementEvaluation.tally, RequirementEvaluation.tally,
        (hsame q supplied).2, (hsame q attached).2, h q (mem_sortBy.1 hq)]
    constructor
    · unfold evaluateContract
      rw [List.map_map, List.map_map, List.map_inj_left]
      intro q hq
      rw [Function.comp_apply, Function.comp_apply, (hsame q supplied).1, (hsame q attached).1, h q (mem_sortBy.1 hq)]
    · show List.foldl _ _ (List.map _ _) = List.foldl _ _ (List.map _ _)
      rw [← summary_tally, htally, summary_tally]
    · show aggregateSatisfaction (List.map _ _) = aggregateSatisfaction (List.map _ _)
      rw [← aggregate_tally, htally, aggregate_tally]

theorem sameInFull_iff {contract : Contract} {supplied attached : EvidenceSet} {current : Incarnation}
    {now age : UInt64} :
    (evaluateContract contract supplied current now age).evaluation.SameInFull
        (evaluateContract contract attached current now age).evaluation ↔
      ∀ q ∈ contract.body.requirements, evaluateRequirement supplied current now age q =
        evaluateRequirement attached current now age q := by
  constructor
  · intro h q hq
    exact List.map_inj_left.1 h.requirements q (mem_sortBy.2 hq)
  · intro h
    refine ⟨sameVerdicts_iff.2 fun q hq => by rw [h q hq], ?_⟩
    exact List.map_inj_left.2 fun q hq => h q (mem_sortBy.1 hq)

/-! ## Attaching and evaluating -/

theorem attachEvidence_ok {around : Surroundings} {evidence : EvidenceSet} {r r' : Runtime} {dir dir' : Directory}
    {result : AttachEvidenceResult} (h : r.attachEvidence around evidence dir = (result, r', dir'))
    (hok : result.ok = true) : Attachable r evidence ∧
      ∃ l, r' = { r with ledger := l, state := r.state.attach (evidence.stamp r.info around.clock) } := by
  unfold Runtime.attachEvidence at h
  cases hplan : Runtime.planEvidence evidence r with
  | error f =>
    simp only [hplan, Prod.mk.injEq] at h
    rw [← h.1] at hok
    cases hok
  | ok u =>
    refine ⟨planEvidence_ok hplan, ?_⟩
    obtain ⟨committed, l, dir'', hcommit⟩ := r.commit_eq around.io .evidenceAttached
      (Runtime.evidencePayload (around.clock evidence.entries.length) (evidence.stamp r.info around.clock)) dir
    simp only [hplan, hcommit] at h
    cases committed with
    | error f =>
      simp only [Prod.mk.injEq] at h
      rw [← h.1] at hok
      cases hok
    | ok sequence =>
      simp only [Prod.mk.injEq] at h
      exact ⟨l, h.2.1.symm⟩

/-- A workload in service whose contract declares a scope of attached evidence is evaluated against that evidence. -/
theorem evaluate_after_attach {r : Runtime} {l : Ledger.Handle} {stamped : EvidenceSet} {t : UInt64} {id : WorkloadId}
    {w : WorkloadState} {current : GenerationRecord} (hfind : r.state.workloads.find? id = some w)
    (haffected : w.affected stamped.entries = true) (hcurrent : w.generations.getLast? = some current) :
    Runtime.evaluate { r with ledger := l, state := r.state.attach stamped } (fun _ => t) id =
      r.evaluateAgainst t current.body stamped := by
  have hfind' : (r.state.attach stamped).workloads.find? id = some { w with
      evidence := some stamped
      evidenceGeneration := stamped.generation
      evaluation := w.evaluation.map (.invalidate "the evidence generation changed") } := by
    unfold RuntimeState.attach
    rw [SortedMap.find?_mapVal]
    simp only [hfind, Option.map_some, haffected, if_true]
  exact evaluate_attached hfind' (WorkloadState.undecided_invalidate _) hcurrent rfl

/-- Direct and stored evaluation of evidence that both accept, while the clock stands: they give the same verdicts
exactly when no entry that is over age reports what a requirement reads from it, and the same in full exactly when no
entry that a requirement is decided from is over age. -/
theorem evaluate_attached_agrees_iff {r r' : Runtime} {io : State.AppendIo} {dir dir' : Directory} {t : UInt64}
    {id : WorkloadId} {w : WorkloadState} {current : GenerationRecord} {evidence : EvidenceSet}
    {result : AttachEvidenceResult} (hfind : r.state.workloads.find? id = some w) (hretired : w.retired = false)
    (hcurrent : w.generations.getLast? = some current)
    (hdirect : (r.evaluateWithEvidence (fun _ => t) id evidence).ok = true)
    (hattach : r.attachEvidence ⟨io, fun _ => t⟩ evidence dir = (result, r', dir')) (hok : result.ok = true) :
    ((r.evaluateWithEvidence (fun _ => t) id evidence).evaluation.SameVerdicts
        (r'.evaluate (fun _ => t) id).evaluation ↔
      ∀ q ∈ current.body.body.requirements, q.strength ≠ .informational → ∀ e, evidence.find q.scope = some e →
        e.overAge t r.evidenceMaxAgeMillis = true → e.candidate.Lacks q) ∧
    ((r.evaluateWithEvidence (fun _ => t) id evidence).evaluation.SameInFull
        (r'.evaluate (fun _ => t) id).evaluation ↔
      ∀ q ∈ current.body.body.requirements, ∀ e, evidence.find q.scope = some e →
        e.overAge t r.evidenceMaxAgeMillis = false) := by
  have heval : r.evaluateWithEvidence (fun _ => t) id evidence =
      r.evaluateSupplied (fun _ => t) current.body evidence := by
    unfold Runtime.evaluateWithEvidence Runtime.evaluateInternal
    simp only [hfind, hcurrent, Bool.false_eq_true, if_false]
  rw [heval] at hdirect ⊢
  obtain ⟨hdeclared, hsupplied⟩ := evaluateSupplied_ok hdirect
  obtain ⟨hattachable, l, rfl⟩ := attachEvidence_ok hattach hok
  have hentries := evidence.stamp_entries r.info t
  -- an entry of a declared scope brings the whole set to the workload
  have haffected : w.affected (evidence.stamp r.info fun _ => t).entries = true := by
    obtain ⟨e, he⟩ := List.exists_mem_of_ne_nil _ hattachable.entries
    obtain ⟨scope, hscope, hname⟩ := hdeclared e he
    unfold WorkloadState.affected WorkloadState.covered WorkloadState.currentBody coversScope
    rw [hretired, hcurrent, hentries]
    exact List.any_eq_true.2 ⟨_, List.mem_map_of_mem he, List.any_eq_true.2 ⟨scope, hscope, beq_iff_eq.2 hname⟩⟩
  have hs : ∀ scope, EvidenceSet.find { evidence with
      epoch := r.info.epoch
      entries := evidence.entries.map (.supplied r.info t r.evidenceMaxAgeMillis) } scope =
        (evidence.find scope).map (.supplied r.info t r.evidenceMaxAgeMillis) :=
    EvidenceSet.find_map rfl fun _ => rfl
  have ha : ∀ scope, (evidence.stamp r.info fun _ => t).find scope =
      (evidence.find scope).map (.attached r.info evidence.publisher t) := EvidenceSet.find_map hentries fun _ => rfl
  rw [hsupplied, evaluate_after_attach hfind haffected hcurrent]
  constructor
  · refine sameVerdicts_iff.trans ?_
    exact forall₂_congr fun q _ => satisfaction_agrees_iff (hs q.scope) (ha q.scope)
  · refine sameInFull_iff.trans ?_
    exact forall₂_congr fun q _ => evaluateRequirement_agrees_iff (hs q.scope) (ha q.scope)

/-! ## Evidence that is over age where it is attached -/

/-- Nothing fails, and the clock stands at one minute. -/
def aMinuteIn : Surroundings := ⟨.succeeds, fun _ => 60000⟩

/-- The aggregate of an evaluation, unless it was refused. -/
def EvaluationResult.aggregate? (result : EvaluationResult) : Option Satisfaction :=
  if result.ok then some result.evaluation.aggregate else none

/-- The registration leaves the workload with the contract as its only generation. -/
theorem Runtime.Isolated.find {r : Runtime} (h : r.Isolated) :
    r.state.workloads.find? (.repeating 1) = some (registeredWorkload isolationContract 1) := by
  rw [h.state]
  exact SortedMap.find?_set_self _ _ _

set_option maxRecDepth 100000 in
/-- Supplied a minute later, the evidence decides nothing. -/
theorem Runtime.Isolated.supplied_unknown {r : Runtime} (h : r.Isolated) :
    (r.evaluateWithEvidence aMinuteIn.clock (.repeating 1) isolationEvidence).aggregate? = some .unknown := by
  have hsupplied : r.evaluateWithEvidence aMinuteIn.clock (.repeating 1) isolationEvidence =
      r.evaluateSupplied aMinuteIn.clock isolationContract isolationEvidence := by
    unfold evaluateWithEvidence
    rw [h.find]
    rfl
  rw [hsupplied]
  unfold evaluateSupplied evaluateAgainst
  rw [h.incarnation, h.epoch, h.maxAge]
  decide +kernel

set_option maxRecDepth 100000 in
theorem stampedEvidence_minute : (Runtime.evidencePayload 60000 stampedEvidence).dump.length ≤ Ledger.maxRecordBytes ∧
    (evaluateContract isolationContract stampedEvidence .zero 60000
      defaultEvidenceMaxAgeMillis).evaluation.aggregate = .satisfied := by
  decide +kernel

theorem agreementBoot_spec : ∃ (opened registered : Runtime × Directory) (w : WorkloadState) (current : GenerationRecord)
    (result : AttachEvidenceResult) (r' : Runtime) (dir' : Directory),
    openRuntime .succeeds { trust := isolationTrust } .zero 0 (.fresh (utf8 "state")) = (.ok opened.1, opened.2) ∧
      BootStep opened (undisturbed, .registerWorkload isolationContract) registered ∧
      registered.1.state.workloads.find? (.repeating 1) = some w ∧ w.retired = false ∧
      w.generations.getLast? = some current ∧
      (registered.1.evaluateWithEvidence aMinuteIn.clock (.repeating 1) isolationEvidence).aggregate? = some .unknown ∧
      registered.1.attachEvidence aMinuteIn isolationEvidence registered.2 = (result, r', dir') ∧ result.ok = true ∧
      (r'.evaluate aMinuteIn.clock (.repeating 1)).aggregate? = some .satisfied := by
  obtain ⟨opened, registered, hopen, hregister, hisolated⟩ := isolation_registered
  obtain ⟨hok, l, hafter⟩ := hisolated.attaches (show aMinuteIn.io = .succeeds from rfl) rfl stampedEvidence_minute.1
    registered.2
  cases hattach : registered.1.attachEvidence aMinuteIn isolationEvidence registered.2 with
  | mk result rest =>
  have hresult : result.ok = true := by
    unfold Mutation.perform at hok
    simp only [hattach] at hok
    exact hok
  unfold Mutation.perform at hafter
  simp only [hattach] at hafter
  refine ⟨opened, registered, _, generationOf isolationContract 1, result, rest.1, rest.2, hopen, hregister,
    hisolated.find, rfl, rfl, hisolated.supplied_unknown, hattach, hresult, ?_⟩
  rw [hafter, evaluate_attached find_attached (fun e he => (Option.some_ne_none e he.symm).elim) rfl rfl]
  unfold Runtime.evaluateAgainst EvaluationResult.aggregate?
  rw [hisolated.incarnation, hisolated.maxAge]
  exact congrArg some stampedEvidence_minute.2

theorem EvaluationResult.ok_of_aggregate? {result : EvaluationResult} {s : Satisfaction}
    (h : result.aggregate? = some s) : result.ok = true ∧ result.evaluation.aggregate = s := by
  unfold aggregate? at h
  split at h
  · rename_i hok
    exact ⟨hok, Option.some.inj h⟩
  · cases h

theorem evaluate_attached_agrees_iff_minute : ∃ (r r' : Runtime) (current : GenerationRecord),
    ((r.evaluateWithEvidence (fun _ => 60000) (.repeating 1) isolationEvidence).evaluation.SameVerdicts
        (r'.evaluate (fun _ => 60000) (.repeating 1)).evaluation ↔
      ∀ q ∈ current.body.body.requirements, q.strength ≠ .informational →
        ∀ e, isolationEvidence.find q.scope = some e → e.overAge 60000 r.evidenceMaxAgeMillis = true →
          e.candidate.Lacks q) ∧
    ((r.evaluateWithEvidence (fun _ => 60000) (.repeating 1) isolationEvidence).evaluation.SameInFull
        (r'.evaluate (fun _ => 60000) (.repeating 1)).evaluation ↔
      ∀ q ∈ current.body.body.requirements, ∀ e, isolationEvidence.find q.scope = some e →
        e.overAge 60000 r.evidenceMaxAgeMillis = false) := by
  obtain ⟨_, registered, w, current, result, r', dir', _, _, hfind, hretired, hcurrent, hdirect, hattach, hok, _⟩ :=
    agreementBoot_spec
  exact ⟨registered.1, r', current, evaluate_attached_agrees_iff hfind hretired hcurrent
    (EvaluationResult.ok_of_aggregate? hdirect).1 hattach hok⟩

/-- What was observed a minute ago decides nothing when it is supplied, and satisfies the requirement once it is
attached. -/
theorem evaluate_attached_disagrees : ¬ ∀ (io : Ledger.OpenIo) (options : Options) (incarnation : Incarnation)
    (startedAtMillis t : UInt64) (dir dir' : Directory) (opened s : Runtime × Directory)
    (steps : List (Surroundings × Mutation)) (appends : State.AppendIo) (workload : WorkloadId) (w : WorkloadState)
    (evidence : EvidenceSet) (result : AttachEvidenceResult) (r' : Runtime),
    openRuntime io options incarnation startedAtMillis dir = (.ok opened.1, opened.2) →
    Run BootStep (fun _ _ => True) opened steps s →
    s.1.state.workloads.find? workload = some w → w.retired = false →
    (s.1.evaluateWithEvidence (fun _ => t) workload evidence).ok = true →
    s.1.attachEvidence ⟨appends, fun _ => t⟩ evidence s.2 = (result, r', dir') → result.ok = true →
    (s.1.evaluateWithEvidence (fun _ => t) workload evidence).evaluation.SameVerdicts
      (r'.evaluate (fun _ => t) workload).evaluation := by
  intro h
  obtain ⟨opened, registered, w, current, result, r', dir', hopen, hregister, hfind, hretired, hcurrent, hdirect,
    hattach, hok, hstored⟩ := agreementBoot_spec
  obtain ⟨hdirect, hunknown⟩ := EvaluationResult.ok_of_aggregate? hdirect
  have hsame := h _ _ _ _ 60000 _ dir' opened registered _ .succeeds _ w isolationEvidence result r' hopen
    (.cons trivial hregister (.nil _)) hfind hretired hdirect hattach hok
  have hsatisfied := (EvaluationResult.ok_of_aggregate? hstored).2
  exact absurd (hunknown.symm.trans (hsame.aggregate.trans hsatisfied)) (by decide)

end Wnc
