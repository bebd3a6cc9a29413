/-
More information never takes a decision back: a candidate that reports more is decided as before where it was decided
at all, and so is a contract evaluated against candidates that report more.
-/
import Wnc.Evaluation.Summary

namespace Wnc

open Lib

/-! ## Candidates that report more -/

/-- What was reported is still reported. -/
def Retained {α : Type} (before after : Option α) : Prop := ∀ v, before = some v → after = some v

theorem Retained.eq {α : Type} {before after : Option α} (h : Retained before after) (hsome : before ≠ none) :
    after = before := by
  obtain ⟨v, rfl⟩ := Option.ne_none_iff_exists'.1 hsome
  exact h v rfl

/-- A candidate that reports at least what another reports, with attribute names that are told apart. -/
structure Candidate.Extends (d c : Candidate) : Prop where
  minBandwidth : Retained c.minBandwidth d.minBandwidth
  maxLatency : Retained c.maxLatency d.maxLatency
  maxJitter : Retained c.maxJitter d.maxJitter
  maxLoss : Retained c.maxLoss d.maxLoss
  locality : Retained c.locality d.locality
  pathDiversity : Retained c.pathDiversity d.pathDiversity
  failureDomainSeparation : Retained c.failureDomainSeparation d.failureDomainSeparation
  securityClass : Retained c.securityClass d.securityClass
  trafficPriority : Retained c.trafficPriority d.trafficPriority
  burstAllowance : Retained c.burstAllowance d.burstAllowance
  collectiveSupported : Retained c.collectiveSupported d.collectiveSupported
  checkpointIsolation : Retained c.checkpointIsolation d.checkpointIsolation
  disaggregatedAffinity : Retained c.disaggregatedAffinity d.disaggregatedAffinity
  maintenanceTolerance : Retained c.maintenanceTolerance d.maintenanceTolerance
  attributes : c.attributes ⊆ d.attributes
  names : (d.attributes.map Prod.fst).Nodup

/-- Among names that are told apart a pair is what its name finds. -/
theorem lookup_of_mem {attributes : List (Bytes × Bytes)} (hnodup : (attributes.map Prod.fst).Nodup) {name value : Bytes}
    (h : (name, value) ∈ attributes) : attributes.lookup name = some value := by
  induction attributes with
  | nil => cases h
  | cons pair attributes ih =>
    rw [List.map_cons, List.nodup_cons] at hnodup
    rw [List.lookup_cons]
    rcases List.mem_cons.1 h with rfl | h
    · simp
    · have hne : (name == pair.1) = false := by
        rw [beq_eq_false_iff_ne]
        rintro rfl
        exact hnodup.1 (List.mem_map.2 ⟨_, h, rfl⟩)
      rw [hne]
      exact ih hnodup.2 h

theorem mem_of_lookup {attributes : List (Bytes × Bytes)} {name value : Bytes} (h : attributes.lookup name = some value) :
    (name, value) ∈ attributes := by
  induction attributes with
  | nil => cases h
  | cons pair attributes ih =>
    rw [List.lookup_cons] at h
    split at h
    · rename_i heq
      cases h
      rw [beq_iff_eq.1 heq]
      exact List.mem_cons_self
    · exact List.mem_cons_of_mem _ (ih h)

theorem Candidate.Extends.attribute? {c d : Candidate} (h : d.Extends c) (name : Bytes) : Retained (c.attribute? name) (d.attribute? name) :=
  fun _ hv => lookup_of_mem h.names (h.attributes (mem_of_lookup hv))

/-! ## Decisions -/

section

variable {c d : Candidate} {r : Requirement}

theorem collective_extends (h : d.Extends c) (hlacks : (collective c r).satisfaction ≠ .unknown) :
    collective d r = collective c r := by
  rw [ne_eq, collective_unknown, not_or] at hlacks
  obtain ⟨hsupported, hmembers⟩ := hlacks
  have hsame := h.collectiveSupported.eq hsupported
  unfold collective
  rw [hsame]
  rcases hs : c.collectiveSupported with _ | supported
  · rfl
  · by_cases hv : r.value = utf8 "unsupported"
    · simp only [hv, if_true]
    · cases supported with
      | false => rfl
      | true =>
        -- every member is reported, and reported as before
        have hreported : (r.members.map fun m => d.attribute? (memberAttribute m)) =
            r.members.map fun m => c.attribute? (memberAttribute m) := by
          refine List.map_congr_left fun m hm => (h.attribute? _).eq fun hnone => ?_
          exact hmembers ⟨hv, hs, m, hm, hnone⟩
        simp only [hreported]

/-- What is decided from an observation is decided alike from one that reports more. -/
theorem decideObserved_extends (h : d.Extends c) (hdecided : (decideObserved r c).satisfaction ≠ .unknown) :
    decideObserved r d = decideObserved r c := by
  have htext : ∀ {before after : Option Bytes}, Retained before after → before.getD [] ≠ [] → after = before := by
    intro before after hretained hne
    refine hretained.eq ?_
    rintro rfl
    exact hne rfl
  unfold decideObserved at hdecided ⊢
  cases hk : r.kind <;> simp only [hk] at hdecided ⊢
  case minBandwidth => rw [h.minBandwidth.eq (mt floorValue_unknown.2 hdecided)]
  case maxLatency => rw [h.maxLatency.eq (mt ceiling_unknown.2 hdecided)]
  case maxJitter => rw [h.maxJitter.eq (mt ceiling_unknown.2 hdecided)]
  case maxLoss => rw [h.maxLoss.eq (mt ceiling_unknown.2 hdecided)]
  case locality => rw [htext h.locality (mt textual_unknown.2 hdecided)]
  case pathDiversity => rw [h.pathDiversity.eq (mt floorValue_unknown.2 hdecided)]
  case failureDomainSeparation => rw [h.failureDomainSeparation.eq (mt floorValue_unknown.2 hdecided)]
  case securityClass => rw [htext h.securityClass (mt textual_unknown.2 hdecided)]
  case trafficPriority => rw [h.trafficPriority.eq (mt floorValue_unknown.2 hdecided)]
  case burstAllowance => rw [h.burstAllowance.eq (mt floorValue_unknown.2 hdecided)]
  case collective => exact collective_extends h hdecided
  case checkpointIsolation => rw [h.checkpointIsolation.eq (mt checkpointIsolation_unknown.2 hdecided)]
  case disaggregatedAffinity => rw [htext h.disaggregatedAffinity (mt textual_unknown.2 hdecided)]
  case maintenanceTolerance => rw [htext h.maintenanceTolerance (mt textual_unknown.2 hdecided)]
  · unfold attributeValue
    rw [(h.attribute? r.key).eq (mt attributeValue_unknown.2 hdecided)]

end

/-- An entry with a candidate that reports more. -/
structure EvidenceEntry.Extends (f e : EvidenceEntry) : Prop where
  candidate : f.candidate.Extends e.candidate
  same : f = { e with candidate := f.candidate }

/-- Evidence with entries that report more. -/
structure EvidenceSet.Extends (f e : EvidenceSet) : Prop where
  entries : List.Forall₂ EvidenceEntry.Extends f.entries e.entries
  same : f = { e with entries := f.entries }

theorem EvidenceSet.Extends.find {e f : EvidenceSet} (h : f.Extends e) (scope : Bytes) :
    Option.Rel EvidenceEntry.Extends (f.find scope) (e.find scope) := by
  unfold EvidenceSet.find
  have hentries := h.entries
  generalize f.entries = l at hentries
  generalize e.entries = m at hentries
  induction hentries with
  | nil => exact .none
  | @cons a b l m hab _ ih =>
    have hscope : a.scope = b.scope := by rw [hab.same]
    rw [List.find?_cons, List.find?_cons, hscope]
    split
    · exact .some hab
    · exact ih

/-- A verdict that is decided stays, with its reasons, when the evidence reports more. -/
theorem decideRequirement_extends {r : Requirement} {before after : Option EvidenceEntry} {current : Incarnation}
    {now age : UInt64} (h : Option.Rel EvidenceEntry.Extends after before)
    (hdecided : (decideRequirement r before current now age).satisfaction ≠ .unknown) :
    decideRequirement r after current now age = decideRequirement r before current now age := by
  cases h with
  | none => rfl
  | @some f e hfe =>
    have hcaptured : f.capturedBy = e.capturedBy := by rw [hfe.same]
    have hfreshness : f.freshness = e.freshness := by rw [hfe.same]
    unfold decideRequirement at hdecided ⊢
    by_cases hs : r.strength = .informational
    · simp only [hs, if_true]
    · by_cases hc : e.capturedBy = current
      · cases hf : e.freshness <;> simp only [hs, hc, hf, hcaptured, hfreshness, if_false, ne_eq, not_true] at hdecided ⊢
        exact decideObserved_extends hfe.candidate hdecided
      · simp only [hs, hc, hcaptured, if_false, if_true, ne_eq, not_false_eq_true]

/-! ## Evaluations -/

/-- Whether a verdict or an aggregate decides for or against. -/
def Satisfaction.Decides (s : Satisfaction) : Prop := s = .satisfied ∨ s = .unsatisfied

/-- A verdict on the same requirement that keeps what was decided. -/
structure RequirementEvaluation.Confirms (after before : RequirementEvaluation) : Prop where
  requirement : after.requirement = before.requirement
  scope : after.scope = before.scope
  kind : after.kind = before.kind
  strength : after.strength = before.strength
  decided : before.satisfaction.Decides → after.satisfaction = before.satisfaction

theorem evaluateRequirement_extends {e f : EvidenceSet} (h : f.Extends e) (current : Incarnation) (now age : UInt64)
    (r : Requirement) : (evaluateRequirement f current now age r).Confirms (evaluateRequirement e current now age r) := by
  have hf := earned_evaluateRequirement f current now age r
  have he := earned_evaluateRequirement e current now age r
  refine ⟨hf.requirement.trans he.requirement.symm, hf.scope.trans he.scope.symm, hf.kind.trans he.kind.symm,
    hf.strength.trans he.strength.symm, fun hdecided => ?_⟩
  rw [evaluateRequirement_decision, evaluateRequirement_decision] at *
  rw [decideRequirement_extends (h.find r.scope)]
  rintro hunknown
  rw [hunknown] at hdecided
  rcases hdecided with hs | hs <;> cases hs

/-- The aggregate of verdicts that confirm others is theirs, when it decides. -/
theorem aggregateSatisfaction_confirms {rs : List Requirement} {before after : Requirement → RequirementEvaluation}
    (hconfirms : ∀ r, (after r).Confirms (before r)) (hrated : ∀ r, (before r).Rated)
    (hdecided : (aggregateSatisfaction (rs.map before)).Decides) :
    aggregateSatisfaction (rs.map after) = aggregateSatisfaction (rs.map before) := by
  simp only [aggregateSatisfaction_eq, List.mem_map, exists_exists_and_eq_and, (hconfirms _).strength] at hdecided ⊢
  by_cases hunsatisfied : ∃ r ∈ rs, (before r).strength = .required ∧ (before r).satisfaction = .unsatisfied
  · obtain ⟨r, hr, hs, hv⟩ := hunsatisfied
    rw [if_pos ⟨r, hr, hs, ((hconfirms r).decided (.inr hv)).trans hv⟩, if_pos ⟨r, hr, hs, hv⟩]
  · by_cases hunknown : ∃ r ∈ rs, (before r).strength = .required ∧ (before r).satisfaction = .unknown
    · rw [if_neg hunsatisfied, if_pos hunknown] at hdecided
      rcases hdecided with h | h <;> cases h
    · -- every required requirement is satisfied, and stays so
      have hsatisfied : ∀ r ∈ rs, (before r).strength = .required → (after r).satisfaction = .satisfied := by
        intro r hr hs
        have hv : (before r).satisfaction = .satisfied := by
          have hna : (before r).satisfaction ≠ .notApplicable := fun h => by
            rw [(hrated r).1 h] at hs
            cases hs
          cases hv : (before r).satisfaction with
          | satisfied => rfl
          | unsatisfied => exact absurd ⟨r, hr, hs, hv⟩ hunsatisfied
          | unknown => exact absurd ⟨r, hr, hs, hv⟩ hunknown
          | notApplicable => exact absurd hv hna
        exact ((hconfirms r).decided (.inl hv)).trans hv
      have hother : ∀ v : Satisfaction, v ≠ .satisfied →
          ¬∃ r ∈ rs, (before r).strength = .required ∧ (after r).satisfaction = v := by
        rintro v hv ⟨r, hr, hs, rfl⟩
        exact hv (hsatisfied r hr hs)
      rw [if_neg hunsatisfied, if_neg hunknown, if_neg (hother .unsatisfied (by decide)),
        if_neg (hother .unknown (by decide))]

/-- A contract evaluated against evidence that reports more keeps every verdict that was decided, and its aggregate if
that was. -/
theorem evaluateContract_extends {e f : EvidenceSet} (h : f.Extends e) (contract : Contract) (current : Incarnation)
    (now age : UInt64) :
    let before := (evaluateContract contract e current now age).evaluation
    let after := (evaluateContract contract f current now age).evaluation
    List.Forall₂ RequirementEvaluation.Confirms after.requirements before.requirements ∧
      (before.aggregate.Decides → after.aggregate = before.aggregate) := by
  have hconfirms := evaluateRequirement_extends h current now age
  refine ⟨?_, aggregateSatisfaction_confirms hconfirms (rated_evaluateRequirement e current now age)⟩
  show List.Forall₂ _ (List.map _ _) (List.map _ _)
  rw [List.forall₂_map_left_iff, List.forall₂_map_right_iff, List.forall₂_same]
  exact fun r _ => hconfirms r

/-- A scope that reports an attribute, and then a latency and another attribute too. -/
def attributeEntry : EvidenceEntry := { scope := utf8 "s", candidate := { attributes := [(utf8 "k", utf8 "v")] } }

def fullerEntry : EvidenceEntry :=
  { scope := utf8 "s"
    candidate := { maxLatency := some (.ofInt 3), attributes := [(utf8 "j", utf8 "w"), (utf8 "k", utf8 "v")] } }

theorem evaluateContract_extends_fuller :
    let before := (evaluateContract twoScopes { entries := [attributeEntry] } .zero 0 0).evaluation
    let after := (evaluateContract twoScopes { entries := [fullerEntry] } .zero 0 0).evaluation
    List.Forall₂ RequirementEvaluation.Confirms after.requirements before.requirements ∧
      (before.aggregate.Decides → after.aggregate = before.aggregate) := by
  have hcandidate : fullerEntry.candidate.Extends attributeEntry.candidate := by
    constructor
    case attributes => decide
    case names => decide
    all_goals intro v hv; cases hv
  exact evaluateContract_extends ⟨.cons ⟨hcandidate, rfl⟩ .nil, rfl⟩ twoScopes .zero 0 0

end Wnc
