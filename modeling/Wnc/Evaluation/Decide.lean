/-
The decision on one requirement, and when it is that the requirement is satisfied: `Observes` is what an
observation must be for each kind.
-/
import Wnc.Contract.Validate
import Wnc.Evaluation.Evidence

namespace Wnc

open Lib

structure RequirementDecision where
  satisfaction : Satisfaction := .unknown
  reasonCode : Code := .evaluationNoEvidence
  reason : Bytes := []
  observed : Option Double := none
deriving DecidableEq

def missingDimension (dimension : String) : RequirementDecision :=
  ⟨.unknown, .evaluationMissingDimension, utf8 dimension ++ utf8 " was not supplied by the evidence", none⟩

/-- An observation that should be at or below the target, or within the band of a preferred requirement. -/
def ceiling (observed : Option Double) (r : Requirement) (dimension : String) : RequirementDecision :=
  match observed with
  | none => missingDimension dimension
  | some value =>
    if value.le r.target then
      ⟨.satisfied, .ok, utf8 dimension ++ utf8 " is within the required bound", some value⟩
    else if value.le r.minimum then
      if r.strength = .preferred then
        ⟨.satisfied, .ok, utf8 dimension ++ utf8 " is within the preferred band", some value⟩
      else
        ⟨.unsatisfied, .ok, utf8 dimension ++ utf8 " exceeds the required bound but is within the acceptable band",
          some value⟩
    else ⟨.unsatisfied, .ok, utf8 dimension ++ utf8 " exceeds the acceptable band", some value⟩

def floorValue (observed : Option Double) (r : Requirement) (dimension : String) : RequirementDecision :=
  match observed with
  | none => missingDimension dimension
  | some value =>
    if r.target.le value then ⟨.satisfied, .ok, utf8 dimension ++ utf8 " meets the required floor", some value⟩
    else if r.minimum.le value then
      if r.strength = .preferred then
        ⟨.satisfied, .ok, utf8 dimension ++ utf8 " meets the preferred floor", some value⟩
      else
        ⟨.unsatisfied, .ok, utf8 dimension ++ utf8 " is below the required floor but above the acceptable one",
          some value⟩
    else ⟨.unsatisfied, .ok, utf8 dimension ++ utf8 " is below the acceptable floor", some value⟩

/-- Whether a text stands somewhere inside another. -/
def containsText (wanted : Bytes) (text : Bytes) : Bool := text.tails.any fun t => wanted.isPrefixOf t

/-- An observed text; it is compared as a whole when `exact` is set. -/
def textual (observed : Option Bytes) (r : Requirement) (dimension : String) (exact : Bool) : RequirementDecision :=
  let text := observed.getD []
  let isMatch (wanted : Bytes) : Bool := if exact then text == wanted else containsText wanted text
  if text = [] then missingDimension dimension
  else if isMatch r.value then ⟨.satisfied, .ok, utf8 dimension ++ utf8 " matches the required value", none⟩
  else if r.strength ≠ .required ∧ r.preferredValue ≠ [] ∧ isMatch r.preferredValue then
    ⟨.satisfied, .ok, utf8 dimension ++ utf8 " matches the preferred value", none⟩
  else ⟨.unsatisfied, .ok, utf8 dimension ++ utf8 " does not match the required value", none⟩

/-- Whether a requirement asks for checkpoint isolation rather than for its absence. -/
def wantsIsolation (value : Bytes) : Bool := value != utf8 "none" && value != []

def checkpointIsolation (observed : Option Bool) (r : Requirement) : RequirementDecision :=
  match observed with
  | none => missingDimension "checkpoint isolation"
  | some isolated =>
    if (if wantsIsolation r.value then isolated else !isolated) then
      ⟨.satisfied, .ok, utf8 "checkpoint isolation matches the requirement", none⟩
    else ⟨.unsatisfied, .ok, utf8 "checkpoint isolation does not match the requirement", none⟩

/-- The attribute that reports a collective member. -/
def memberAttribute (member : RequirementId) : Bytes := utf8 "member." ++ member.view

def collective (candidate : Candidate) (r : Requirement) : RequirementDecision :=
  match candidate.collectiveSupported with
  | none => missingDimension "collective support"
  | some supported =>
    if r.value = utf8 "unsupported" then
      ⟨if supported then .unsatisfied else .satisfied, .ok, utf8 "collective support is required to be absent", none⟩
    else if !supported then
      ⟨.unsatisfied, .ok, utf8 "the scope does not support collective operations", none⟩
    else if r.members = [] then
      ⟨.satisfied, .ok, utf8 "collective operations are supported for the scope", none⟩
    else
      let reported := r.members.map fun member => candidate.attribute? (memberAttribute member)
      -- a member that is not mentioned is unknown, not satisfied
      if reported.count (some (utf8 "present")) = r.members.length then
        ⟨.satisfied, .ok, utf8 "every collective member is present in the scope", none⟩
      else if none ∈ reported then
        ⟨.unknown, .evaluationMissingDimension, utf8 "evidence does not report every collective member", none⟩
      else ⟨.unsatisfied, .ok, utf8 "at least one collective member is absent from the scope", none⟩

def attributeValue (candidate : Candidate) (r : Requirement) : RequirementDecision :=
  match candidate.attribute? r.key with
  | none =>
    ⟨.unknown, .evaluationMissingDimension, utf8 "attribute '" ++ r.key ++ utf8 "' was not supplied by the evidence",
      none⟩
  | some value =>
    if value = r.value then ⟨.satisfied, .ok, utf8 "attribute matches the requirement", none⟩
    else ⟨.unsatisfied, .ok, utf8 "attribute does not match the requirement", none⟩

/-- The decision from what was observed. -/
def decideObserved (r : Requirement) (candidate : Candidate) : RequirementDecision :=
  match r.kind with
  | .minBandwidth => floorValue candidate.minBandwidth r "available bandwidth"
  | .maxLatency => ceiling candidate.maxLatency r "latency"
  | .maxJitter => ceiling candidate.maxJitter r "jitter"
  | .maxLoss => ceiling candidate.maxLoss r "loss"
  | .pathDiversity => floorValue candidate.pathDiversity r "path diversity"
  | .failureDomainSeparation => floorValue candidate.failureDomainSeparation r "failure domain separation"
  | .trafficPriority => floorValue candidate.trafficPriority r "traffic priority"
  | .burstAllowance => floorValue candidate.burstAllowance r "burst allowance"
  | .locality => textual candidate.locality r "locality" true
  | .securityClass => textual candidate.securityClass r "security class" true
  | .disaggregatedAffinity => textual candidate.disaggregatedAffinity r "disaggregated affinity" true
  | .maintenanceTolerance => textual candidate.maintenanceTolerance r "maintenance tolerance" true
  | .checkpointIsolation => checkpointIsolation candidate.checkpointIsolation r
  | .collective => collective candidate r
  | .attribute => attributeValue candidate r

/-- Whether and how a requirement is satisfied by the entry of its scope. The clock plays no part: an
entry that has aged out carries that as its freshness. -/
def decideRequirement (r : Requirement) (entry : Option EvidenceEntry) (current : Incarnation)
    (_nowMillis _maxAgeMillis : UInt64) : RequirementDecision :=
  if r.strength = .informational then
    ⟨.notApplicable, .ok, utf8 "informational requirements are recorded but not evaluated", none⟩
  else
    match entry with
    | none => ⟨.unknown, .evaluationNoEvidence, utf8 "no evidence covers scope '" ++ r.scope ++ utf8 "'", none⟩
    | some entry =>
      let evidence := utf8 "evidence for scope '" ++ r.scope
      if entry.capturedBy ≠ current then
        ⟨.unknown, .revalidationRequired, evidence ++ utf8 "' was captured by another coordinator incarnation", none⟩
      else
        match entry.freshness with
        | .revalidationRequired =>
          ⟨.unknown, .revalidationRequired, evidence ++ utf8 ("' was captured by an earlier coordinator incarnation " ++
            "and must be re-established"), none⟩
        | .expired => ⟨.unknown, .evidenceExpired, evidence ++ utf8 "' is older than the permitted age", none⟩
        | .stale => ⟨.unknown, .evidenceStale, evidence ++ utf8 "' is stale", none⟩
        | .current => decideObserved r entry.candidate

/-! ## Satisfying observations -/

/-- The kinds by what they compare. -/
inductive KindClass
  | numeric
  | textual
  | isolation
  | collective
  | labelled
deriving DecidableEq

def kindClass : RequirementKind → KindClass
  | .locality | .securityClass | .disaggregatedAffinity | .maintenanceTolerance => .textual
  | .checkpointIsolation => .isolation
  | .collective => .collective
  | .attribute => .labelled
  | _ => .numeric

namespace Candidate

/-- The number a numeric kind reads. -/
def number (c : Candidate) : RequirementKind → Option Double
  | .minBandwidth => c.minBandwidth
  | .maxLatency => c.maxLatency
  | .maxJitter => c.maxJitter
  | .maxLoss => c.maxLoss
  | .pathDiversity => c.pathDiversity
  | .failureDomainSeparation => c.failureDomainSeparation
  | .trafficPriority => c.trafficPriority
  | .burstAllowance => c.burstAllowance
  | _ => none

/-- The text a textual kind reads. -/
def text (c : Candidate) : RequirementKind → Option Bytes
  | .locality => c.locality
  | .securityClass => c.securityClass
  | .disaggregatedAffinity => c.disaggregatedAffinity
  | .maintenanceTolerance => c.maintenanceTolerance
  | _ => none

/-- The candidate that reports one number for every numeric kind. -/
def ofNumber (v : Double) : Candidate :=
  { minBandwidth := v, maxLatency := v, maxJitter := v, maxLoss := v, pathDiversity := v,
    failureDomainSeparation := v, trafficPriority := v, burstAllowance := v }

/-- The candidate that reports one text for every textual kind. -/
def ofText (t : Bytes) : Candidate :=
  { locality := t, securityClass := t, disaggregatedAffinity := t, maintenanceTolerance := t }

/-- The candidate that supports collectives of exactly the given members. -/
def ofMembers (members : List RequirementId) : Candidate :=
  { collectiveSupported := true, attributes := members.map fun m => (memberAttribute m, utf8 "present") }

theorem number_ofNumber {kind : RequirementKind} (h : kindClass kind = .numeric) (v : Double) :
    (ofNumber v).number kind = some v := by
  cases kind <;> first | rfl | cases h

theorem text_ofText {kind : RequirementKind} (h : kindClass kind = .textual) (t : Bytes) :
    (ofText t).text kind = some t := by
  cases kind <;> first | rfl | cases h

end Candidate

/-- Whether an observed number is on the right side of a bound of a kind. -/
def meets (kind : RequirementKind) (bound value : Double) : Bool :=
  if kindIsFloor kind then bound.le value else value.le bound

/-- A number that satisfies a numeric requirement. -/
def AcceptsNumber (r : Requirement) (v : Double) : Prop :=
  meets r.kind r.target v = true ∨ r.strength = .preferred ∧ meets r.kind r.minimum v = true

/-- A text that satisfies a textual requirement. -/
def AcceptsText (r : Requirement) (t : Bytes) : Prop :=
  t ≠ [] ∧ (t = r.value ∨ r.strength ≠ .required ∧ r.preferredValue ≠ [] ∧ t = r.preferredValue)

/-- What a candidate must report for a requirement to be satisfied by it. -/
def Observes (r : Requirement) (c : Candidate) : Prop :=
  match kindClass r.kind with
  | .numeric => ∃ v, c.number r.kind = some v ∧ AcceptsNumber r v
  | .textual => ∃ t, c.text r.kind = some t ∧ AcceptsText r t
  | .isolation => c.checkpointIsolation = some (wantsIsolation r.value)
  | .collective =>
    if r.value = utf8 "unsupported" then c.collectiveSupported = some false
    else c.collectiveSupported = some true ∧
      ∀ m ∈ r.members, c.attribute? (memberAttribute m) = some (utf8 "present")
  | .labelled => c.attribute? r.key = some r.value

theorem ceiling_satisfied {observed : Option Double} {r : Requirement} {dimension : String}
    (h : kindIsFloor r.kind = false) :
    (ceiling observed r dimension).satisfaction = .satisfied ↔ ∃ v, observed = some v ∧ AcceptsNumber r v := by
  cases observed with
  | none => simp [ceiling, missingDimension]
  | some v =>
    simp only [ceiling, AcceptsNumber, meets, h, Bool.false_eq_true, if_false, Option.some.injEq, exists_eq_left']
    split
    · simp [*]
    · split
      · split <;> simp [*]
      · simp [*]

theorem floorValue_satisfied {observed : Option Double} {r : Requirement} {dimension : String}
    (h : kindIsFloor r.kind = true) :
    (floorValue observed r dimension).satisfaction = .satisfied ↔ ∃ v, observed = some v ∧ AcceptsNumber r v := by
  cases observed with
  | none => simp [floorValue, missingDimension]
  | some v =>
    simp only [floorValue, AcceptsNumber, meets, h, if_true, Option.some.injEq, exists_eq_left']
    split
    · simp [*]
    · split
      · split <;> simp [*]
      · simp [*]

theorem textual_satisfied {observed : Option Bytes} {r : Requirement} {dimension : String} :
    (textual observed r dimension true).satisfaction = .satisfied ↔ ∃ t, observed = some t ∧ AcceptsText r t := by
  cases observed with
  | none => simp [textual, missingDimension]
  | some t =>
    simp only [textual, AcceptsText, Option.getD_some, Option.some.injEq, exists_eq_left']
    by_cases ht : t = []
    · simp [ht, missingDimension]
    · by_cases hv : t = r.value
      · simp [← hv, ht]
      · simp only [ht, hv, if_false, if_true, beq_iff_eq, not_false_eq_true, true_and, false_or, ne_eq]
        split <;> simp [*]

theorem checkpointIsolation_satisfied {observed : Option Bool} {r : Requirement} :
    (checkpointIsolation observed r).satisfaction = .satisfied ↔ observed = some (wantsIsolation r.value) := by
  rcases observed with _ | isolated
  · simp [checkpointIsolation, missingDimension]
  · cases isolated <;> cases hw : wantsIsolation r.value <;> simp [checkpointIsolation, hw]

theorem collective_satisfied {c : Candidate} {r : Requirement} :
    (collective c r).satisfaction = .satisfied ↔
      if r.value = utf8 "unsupported" then c.collectiveSupported = some false
      else c.collectiveSupported = some true ∧
        ∀ m ∈ r.members, c.attribute? (memberAttribute m) = some (utf8 "present") := by
  unfold collective
  rcases hs : c.collectiveSupported with _ | supported
  · simp [missingDimension]
  · by_cases hv : r.value = utf8 "unsupported"
    · cases supported <;> simp [hv]
    · cases supported with
      | false => simp [hv]
      | true =>
        by_cases hm : r.members = []
        · simp [hv, hm]
        · -- every member is reported present exactly when all of them are counted
          have hcount : ((r.members.map fun m => c.attribute? (memberAttribute m)).count (some (utf8 "present")) =
              r.members.length) ↔ ∀ m ∈ r.members, c.attribute? (memberAttribute m) = some (utf8 "present") := by
            rw [← List.length_map fun m => c.attribute? (memberAttribute m), List.count_eq_length,
              List.forall_mem_map]
            exact forall₂_congr fun _ _ => eq_comm
          simp only [hv, hm, if_false, Bool.not_true, Bool.false_eq_true, true_and, hcount]
          split
          · rename_i hall
            exact ⟨fun _ => hall, fun _ => rfl⟩
          · rename_i hall
            split <;> simp [hall]

theorem attributeValue_satisfied {c : Candidate} {r : Requirement} :
    (attributeValue c r).satisfaction = .satisfied ↔ c.attribute? r.key = some r.value := by
  unfold attributeValue
  split
  · simp [*]
  · split <;> simp [*]

theorem decideObserved_satisfied (r : Requirement) (c : Candidate) :
    (decideObserved r c).satisfaction = .satisfied ↔ Observes r c := by
  unfold decideObserved Observes
  cases hk : r.kind <;>
    first
      | exact ceiling_satisfied (by rw [hk]; rfl)
      | exact floorValue_satisfied (by rw [hk]; rfl)
      | exact textual_satisfied
      | exact checkpointIsolation_satisfied
      | exact collective_satisfied
      | exact attributeValue_satisfied

/-- A requirement is satisfied exactly by a current entry of this incarnation whose candidate it observes. -/
theorem decideRequirement_satisfied {r : Requirement} {entry : Option EvidenceEntry} {current : Incarnation}
    {now age : UInt64} :
    (decideRequirement r entry current now age).satisfaction = .satisfied ↔
      r.strength ≠ .informational ∧
        ∃ e, entry = some e ∧ e.capturedBy = current ∧ e.freshness = .current ∧ Observes r e.candidate := by
  unfold decideRequirement
  by_cases hs : r.strength = .informational
  · simp [hs]
  · cases entry with
    | none => simp [hs]
    | some e =>
      by_cases hc : e.capturedBy = current
      · cases hf : e.freshness <;> simp [hs, hc, hf, decideObserved_satisfied]
      · simp [hs, hc]

theorem decideObserved_ne_notApplicable (r : Requirement) (c : Candidate) :
    (decideObserved r c).satisfaction ≠ .notApplicable := by
  unfold decideObserved ceiling floorValue textual checkpointIsolation collective attributeValue missingDimension
  split <;> repeat' first | split | simp

/-- Only informational requirements are not applicable. -/
theorem decideRequirement_ne_notApplicable {r : Requirement} (h : r.strength ≠ .informational)
    (entry : Option EvidenceEntry) (current : Incarnation) (now age : UInt64) :
    (decideRequirement r entry current now age).satisfaction ≠ .notApplicable := by
  unfold decideRequirement
  rw [if_neg h]
  cases entry with
  | none => simp
  | some e =>
    by_cases hc : e.capturedBy = current
    · cases hf : e.freshness <;> simp [hc, hf, decideObserved_ne_notApplicable]
    · simp [hc]

theorem decideRequirement_informational {r : Requirement} (h : r.strength = .informational)
    (entry : Option EvidenceEntry) (current : Incarnation) (now age : UInt64) :
    (decideRequirement r entry current now age).satisfaction = .notApplicable := by
  unfold decideRequirement
  rw [if_pos h]

/-! ## Missing observations -/

/-- A candidate that does not report what a requirement reads. -/
def Candidate.Lacks (c : Candidate) (r : Requirement) : Prop :=
  match kindClass r.kind with
  | .numeric => c.number r.kind = none
  | .textual => (c.text r.kind).getD [] = []
  | .isolation => c.checkpointIsolation = none
  | .collective =>
    c.collectiveSupported = none ∨ r.value ≠ utf8 "unsupported" ∧ c.collectiveSupported = some true ∧
      ∃ m ∈ r.members, c.attribute? (memberAttribute m) = none
  | .labelled => c.attribute? r.key = none

theorem ceiling_unknown {observed : Option Double} {r : Requirement} {dimension : String} :
    (ceiling observed r dimension).satisfaction = .unknown ↔ observed = none := by
  cases observed with
  | none => simp [ceiling, missingDimension]
  | some v =>
    simp only [ceiling, reduceCtorEq, iff_false]
    repeat' first | split | simp

theorem floorValue_unknown {observed : Option Double} {r : Requirement} {dimension : String} :
    (floorValue observed r dimension).satisfaction = .unknown ↔ observed = none := by
  cases observed with
  | none => simp [floorValue, missingDimension]
  | some v =>
    simp only [floorValue, reduceCtorEq, iff_false]
    repeat' first | split | simp

theorem textual_unknown {observed : Option Bytes} {r : Requirement} {dimension : String} {exact : Bool} :
    (textual observed r dimension exact).satisfaction = .unknown ↔ observed.getD [] = [] := by
  unfold textual
  by_cases h : observed.getD [] = []
  · simp [h, missingDimension]
  · simp only [h, if_false, iff_false]
    repeat' first | split | simp

theorem checkpointIsolation_unknown {observed : Option Bool} {r : Requirement} :
    (checkpointIsolation observed r).satisfaction = .unknown ↔ observed = none := by
  cases observed with
  | none => simp [checkpointIsolation, missingDimension]
  | some isolated =>
    simp only [checkpointIsolation, reduceCtorEq, iff_false]
    cases wantsIsolation r.value <;> cases isolated <;> simp

theorem collective_unknown {c : Candidate} {r : Requirement} :
    (collective c r).satisfaction = .unknown ↔
      c.collectiveSupported = none ∨ r.value ≠ utf8 "unsupported" ∧ c.collectiveSupported = some true ∧
        ∃ m ∈ r.members, c.attribute? (memberAttribute m) = none := by
  unfold collective
  rcases hs : c.collectiveSupported with _ | supported
  · simp [missingDimension]
  · by_cases hv : r.value = utf8 "unsupported"
    · cases supported <;> simp [hv]
    · cases supported with
      | false => simp [hv]
      | true =>
        by_cases hm : r.members = []
        · simp [hv, hm]
        · simp only [hv, hm, if_false, Bool.not_true, Bool.false_eq_true, ne_eq, not_false_eq_true, true_and,
            reduceCtorEq, false_or]
          have hmissing : none ∈ (r.members.map fun m => c.attribute? (memberAttribute m)) ↔
              ∃ m ∈ r.members, c.attribute? (memberAttribute m) = none := List.mem_map
          split
          · -- a member that is not reported is not counted
            rename_i hcount
            rw [← List.length_map fun m => c.attribute? (memberAttribute m), List.count_eq_length] at hcount
            simp only [reduceCtorEq, false_iff, ← hmissing]
            intro hnone
            cases hcount _ hnone
          · split
            · rename_i hnone
              simp [hmissing.1 hnone]
            · rename_i hnone
              simpa using mt hmissing.2 hnone

theorem attributeValue_unknown {c : Candidate} {r : Requirement} :
    (attributeValue c r).satisfaction = .unknown ↔ c.attribute? r.key = none := by
  unfold attributeValue
  split
  · simp [*]
  · split <;> simp [*]

theorem decideObserved_unknown (r : Requirement) (c : Candidate) :
    (decideObserved r c).satisfaction = .unknown ↔ c.Lacks r := by
  unfold decideObserved Candidate.Lacks
  cases r.kind <;>
    first
      | exact ceiling_unknown
      | exact floorValue_unknown
      | exact textual_unknown
      | exact checkpointIsolation_unknown
      | exact collective_unknown
      | exact attributeValue_unknown

/-- A requirement that is evaluated is unknown exactly when no current entry of this incarnation reports what it
reads. -/
theorem decideRequirement_unknown {r : Requirement} {entry : Option EvidenceEntry} {current : Incarnation}
    {now age : UInt64} :
    (decideRequirement r entry current now age).satisfaction = .unknown ↔
      r.strength ≠ .informational ∧
        ∀ e, entry = some e → e.capturedBy = current → e.freshness = .current → e.candidate.Lacks r := by
  unfold decideRequirement
  by_cases hs : r.strength = .informational
  · simp [hs]
  · cases entry with
    | none => simp [hs]
    | some e =>
      by_cases hc : e.capturedBy = current
      · cases hf : e.freshness <;> simp [hs, hc, hf, decideObserved_unknown]
      · simp [hs, hc]

/-! ## One requirement entailing another -/

/-- Whatever satisfies `q` satisfies `r`. -/
def Entails (q r : Requirement) : Prop := ∀ c, Observes q c → Observes r c

/-- Entailment is what the decisions say about it, over all entries, incarnations and readings of the clock. -/
theorem entails_iff_decide {q r : Requirement} (hq : q.strength ≠ .informational) (hr : r.strength ≠ .informational) :
    Entails q r ↔ ∀ entry current now age,
      (decideRequirement q entry current now age).satisfaction = .satisfied →
        (decideRequirement r entry current now age).satisfaction = .satisfied := by
  simp only [decideRequirement_satisfied]
  constructor
  · rintro h entry current now age ⟨-, e, he, hc, hf, ho⟩
    exact ⟨hr, e, he, hc, hf, h _ ho⟩
  · intro h c hc
    obtain ⟨-, e, he, -, -, ho⟩ := h (some { candidate := c }) .zero 0 0 ⟨hq, _, rfl, rfl, rfl, hc⟩
    cases he
    exact ho

theorem memberAttribute_injective {m n : RequirementId} (h : memberAttribute m = memberAttribute n) : m = n :=
  Id.view_injective (List.append_cancel_left h)

theorem attribute_ofMembers {members : List RequirementId} {m : RequirementId} :
    (Candidate.ofMembers members).attribute? (memberAttribute m) = some (utf8 "present") ↔ m ∈ members := by
  show (members.map fun n => (memberAttribute n, utf8 "present")).lookup (memberAttribute m) = _ ↔ _
  induction members with
  | nil => simp
  | cons n members ih =>
    rw [List.map_cons, List.lookup_cons, List.mem_cons]
    by_cases hn : m = n
    · simp [hn]
    · have hne : (memberAttribute m == memberAttribute n) = false :=
        beq_eq_false_iff_ne.2 fun h => hn (memberAttribute_injective h)
      simp only [hne, hn, false_or]
      exact ih

section

variable {q r : Requirement} (hk : q.kind = r.kind)
include hk

theorem entails_numeric (hc : kindClass r.kind = .numeric) :
    Entails q r ↔ ∀ v, AcceptsNumber q v → AcceptsNumber r v := by
  unfold Entails Observes
  simp only [hk, hc]
  constructor
  · intro h v hv
    obtain ⟨w, hw, ha⟩ := h (.ofNumber v) ⟨v, Candidate.number_ofNumber hc v, hv⟩
    rw [Candidate.number_ofNumber hc] at hw
    cases hw
    exact ha
  · rintro h c ⟨v, hv, ha⟩
    exact ⟨v, hv, h v ha⟩

theorem entails_textual (hc : kindClass r.kind = .textual) :
    Entails q r ↔ ∀ t, AcceptsText q t → AcceptsText r t := by
  unfold Entails Observes
  simp only [hk, hc]
  constructor
  · intro h t ht
    obtain ⟨u, hu, ha⟩ := h (.ofText t) ⟨t, Candidate.text_ofText hc t, ht⟩
    rw [Candidate.text_ofText hc] at hu
    cases hu
    exact ha
  · rintro h c ⟨t, ht, ha⟩
    exact ⟨t, ht, h t ha⟩

theorem entails_isolation (hc : kindClass r.kind = .isolation) :
    Entails q r ↔ wantsIsolation q.value = wantsIsolation r.value := by
  unfold Entails Observes
  simp only [hk, hc]
  constructor
  · intro h
    have := h { checkpointIsolation := some (wantsIsolation q.value) } rfl
    exact Option.some.inj this
  · rintro h c hc
    rw [hc, h]

theorem entails_labelled (hc : kindClass r.kind = .labelled) (hkey : q.key = r.key) :
    Entails q r ↔ q.value = r.value := by
  unfold Entails Observes
  simp only [hk, hc, hkey]
  constructor
  · intro h
    have hq : ({ attributes := [(r.key, q.value)] } : Candidate).attribute? r.key = some q.value := by
      simp [Candidate.attribute?]
    exact Option.some.inj (hq.symm.trans (h _ hq))
  · rintro h c hc
    rw [hc, h]

theorem entails_collective (hc : kindClass r.kind = .collective) :
    Entails q r ↔ (q.value = utf8 "unsupported" ↔ r.value = utf8 "unsupported") ∧
      (r.value ≠ utf8 "unsupported" → r.members ⊆ q.members) := by
  unfold Entails Observes
  simp only [hk, hc]
  by_cases hq : q.value = utf8 "unsupported" <;> by_cases hr : r.value = utf8 "unsupported"
  · simp [hq, hr]
  · -- a scope without collectives satisfies `q` alone
    simp only [hq, hr, if_true, if_false, iff_false, not_true_eq_false, false_and, iff_false]
    intro h
    simpa using h { collectiveSupported := some false } rfl
  · simp only [hq, hr, if_true, if_false, iff_true, false_and, iff_false]
    intro h
    have := h (.ofMembers q.members) ⟨rfl, fun m hm => attribute_ofMembers.2 hm⟩
    cases this
  · simp only [hq, hr, if_false, true_and, ne_eq, not_false_eq_true, true_implies]
    constructor
    · intro h m hm
      exact attribute_ofMembers.1 ((h (.ofMembers q.members) ⟨rfl, fun m hm => attribute_ofMembers.2 hm⟩).2 m hm)
    · rintro h c ⟨hs, hm⟩
      exact ⟨hs, fun m hr => hm m (h hr)⟩

end

/-! ## Bounds -/

/-- Whether the bound `a` lets more through than the bound `b`. -/
def looser (kind : RequirementKind) (a b : Double) : Bool := if kindIsFloor kind then a.lt b else b.lt a

theorem meets_trans {kind : RequirementKind} {a b v : Double} (hab : meets kind b a = true) (h : meets kind a v = true) :
    meets kind b v = true := by
  unfold meets at *
  split at hab
  · rename_i hf
    rw [if_pos hf] at h ⊢
    exact Double.le_trans hab h
  · rename_i hf
    rw [if_neg hf] at h ⊢
    exact Double.le_trans h hab

/-- A bound is at least as tight as a number exactly when whatever meets the bound meets the number. -/
theorem forall_meets_iff {kind : RequirementKind} {a b : Double} (hb : b.isNan = false) :
    (∀ v, meets kind a v = true → meets kind b v = true) ↔ looser kind a b = false := by
  constructor
  · intro h
    by_contra hl
    rw [Bool.not_eq_false] at hl
    unfold looser at hl
    unfold meets at h
    split at hl
    · rename_i hf
      obtain ⟨ha, -⟩ := Double.not_isNan_of_lt hl
      have hle := h a (by rw [if_pos hf]; exact Double.le_refl ha)
      rw [if_pos hf, ← Double.lt_eq_false_iff ha hb, hl] at hle
      cases hle
    · rename_i hf
      obtain ⟨-, ha⟩ := Double.not_isNan_of_lt hl
      have hle := h a (by rw [if_neg hf]; exact Double.le_refl ha)
      rw [if_neg hf, ← Double.lt_eq_false_iff hb ha, hl] at hle
      cases hle
  · intro hl v hv
    refine meets_trans ?_ hv
    unfold looser at hl
    unfold meets at hv ⊢
    split at hl
    · rename_i hf
      rw [if_pos hf] at hv ⊢
      exact (Double.lt_eq_false_iff (Double.not_isNan_of_le hv).1 hb).1 hl
    · rename_i hf
      rw [if_neg hf] at hv ⊢
      exact (Double.lt_eq_false_iff hb (Double.not_isNan_of_le hv).2).1 hl

/-- Of a requirement that fits, the minimum is the bound that counts when it is preferred. -/
theorem acceptsNumber_preferred {r : Requirement} (h : RequirementFits r) (hn : r.hasNumeric = true)
    (hs : r.strength = .preferred) (v : Double) : AcceptsNumber r v ↔ meets r.kind r.minimum v = true := by
  have ho : meets r.kind r.minimum r.target = true := h.ordered hn
  constructor
  · rintro (ht | ⟨-, hm⟩)
    · exact meets_trans ho ht
    · exact hm
  · exact fun hm => .inr ⟨hs, hm⟩

theorem acceptsNumber_required {r : Requirement} (hs : r.strength = .required) (v : Double) :
    AcceptsNumber r v ↔ meets r.kind r.target v = true := by
  simp [AcceptsNumber, hs]

theorem kindIsNumeric_iff {kind : RequirementKind} : kindIsNumeric kind = true ↔ kindClass kind = .numeric := by
  cases kind <;> decide

end Wnc
