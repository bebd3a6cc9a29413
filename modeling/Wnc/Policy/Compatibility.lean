/-
Compatibility of a contract body with the one before it, and what it promises a consumer: when whatever
satisfies a required requirement of the next body satisfies the required requirement of the previous one.
-/
import Wnc.Evaluation.Decide
import Wnc.Lib.Keyed

namespace Wnc

open Lib

inductive CompatibilityVerdict
  | compatible
  | compatibleWithAdditions
  | incompatible
deriving DecidableEq

structure CompatibilityResult where
  verdict : CompatibilityVerdict
  diagnostics : DiagnosticLog

namespace CompatibilityResult

def compatible (r : CompatibilityResult) : Bool := r.verdict != .incompatible

end CompatibilityResult

/-! ## The check -/

/-- The diagnostics of the headers: major version, workload and generation. -/
def headerChanges (previous next : ContractBody) : List Diagnostic :=
  diagnose (previous.major != next.major)
      ⟨.incompatibleMajor, utf8 "major version changed from " ++ toDecimal previous.major.toNat ++ utf8 " to " ++
        toDecimal next.major.toNat, .zero, .zero⟩ ++
    diagnose (previous.workload.id != next.workload.id)
      ⟨.incompatibleKindChanged, utf8 "compatibility is only defined within one workload identity", .zero, .zero⟩ ++
    diagnose (next.generation ≤ previous.generation)
      ⟨.staleGeneration, utf8 "candidate generation is not ahead of the previous generation", .zero, .zero⟩

/-- A requirement without a successor: a required one must not go, nor may the scope of another. -/
def removalChanges (next : ContractBody) (r : Requirement) : List Diagnostic :=
  if r.strength = .required then
    [⟨.incompatibleRequirementRemoved, utf8 "required requirement of kind " ++ requirementKindToken r.kind ++
      utf8 " in scope '" ++ r.scope ++ utf8 "' was removed", .zero, r.id⟩]
  else
    diagnose (!next.scopes.any fun s => s.name == r.scope)
      ⟨.incompatibleScopeRemoved, utf8 "scope '" ++ r.scope ++ utf8 "' was removed", .zero, r.id⟩

/-- A bound of a kind that lets more through than it did. -/
def boundChange (r : Requirement) (described : String) (before after : Double) : List Diagnostic :=
  diagnose (looser r.kind after before)
    ⟨.incompatibleRequirementWeakened, utf8 "requirement " ++ utf8 described ++ utf8 " moved from " ++
      before.toFixedSix ++ utf8 " to " ++ after.toFixedSix, .zero, r.id⟩

def successorChanges (r candidate : Requirement) : List Diagnostic :=
  diagnose (candidate.strength.value < r.strength.value)
      ⟨.incompatibleRequirementWeakened, utf8 "requirement strength fell from " ++ requirementStrengthToken r.strength ++
        utf8 " to " ++ requirementStrengthToken candidate.strength, .zero, r.id⟩ ++
    (if r.hasNumeric && candidate.hasNumeric then
      boundChange r "weakest bound (minimum)" r.minimum candidate.minimum ++
        boundChange r "strict bound (target)" r.target candidate.target
    else if r.hasNumeric != candidate.hasNumeric then
      [⟨.incompatibleKindChanged, utf8 "requirement changed between numeric and textual form", .zero, r.id⟩]
    else
      diagnose (r.strength == .required && (r.value != candidate.value || r.preferredValue != candidate.preferredValue))
        ⟨.incompatibleKindChanged, utf8 "required requirement value changed from '" ++ r.value ++ utf8 "' to '" ++
          candidate.value ++ utf8 "'", .zero, r.id⟩)

def requirementChanges (next : ContractBody) (r : Requirement) : List Diagnostic :=
  match Keyed.get Requirement.compositeKey r.compositeKey next.requirements with
  | none => removalChanges next r
  | some candidate => successorChanges r candidate

/-- The diagnostics of a pair of bodies, in the order they are added. -/
def compatibilityDiagnostics (previous next : ContractBody) : List Diagnostic :=
  headerChanges previous next ++ previous.requirements.flatMap (requirementChanges next)

/-- Whether the next body declares what the previous one does not. -/
def hasAdditions (previous next : ContractBody) : Bool :=
  next.requirements.length > previous.requirements.length ||
    next.requirements.any fun r => !previous.requirements.any fun old => old.compositeKey == r.compositeKey

def checkCompatibility (previous next : ContractBody) : CompatibilityResult :=
  let log := DiagnosticLog.ofList (compatibilityDiagnostics previous next)
  { verdict :=
      if log.hasErrors then .incompatible
      else if hasAdditions previous next then .compatibleWithAdditions else .compatible
    diagnostics := log }

/-! ## What compatible bodies have -/

theorem allErrors_requirementChanges (next : ContractBody) (r : Requirement) :
    AllErrors (requirementChanges next r) := by
  unfold requirementChanges
  split
  · unfold removalChanges
    split <;> simp
  · unfold successorChanges boundChange
    split
    · simp
    · split <;> simp

theorem allErrors_compatibilityDiagnostics (previous next : ContractBody) :
    AllErrors (compatibilityDiagnostics previous next) := by
  have hr : AllErrors (previous.requirements.flatMap (requirementChanges next)) :=
    allErrors_flatMap fun r _ => allErrors_requirementChanges next r
  simp [compatibilityDiagnostics, headerChanges, hr]

/-- Bodies are compatible exactly when there is nothing to report. -/
theorem compatible_iff {previous next : ContractBody} :
    (checkCompatibility previous next).compatible = true ↔ compatibilityDiagnostics previous next = [] := by
  rw [← DiagnosticLog.hasErrors_ofList_of_errors (allErrors_compatibilityDiagnostics previous next)]
  unfold checkCompatibility CompatibilityResult.compatible
  cases he : (DiagnosticLog.ofList (compatibilityDiagnostics previous next)).hasErrors with
  | false => cases hasAdditions previous next <;> simp [he]
  | true => simp [he]

/-- A requirement that may come after `r` under the same key: no weaker in strength, of the same form, with bounds
no looser, or with the same texts where `r` is required. -/
structure Succeeds (q r : Requirement) : Prop where
  strength : r.strength.value ≤ q.strength.value
  form : q.hasNumeric = r.hasNumeric
  bounds : r.hasNumeric = true → looser r.kind q.minimum r.minimum = false ∧ looser r.kind q.target r.target = false
  texts : r.hasNumeric = false → r.strength = .required → q.value = r.value ∧ q.preferredValue = r.preferredValue

theorem successorChanges_eq_nil {r q : Requirement} : successorChanges r q = [] ↔ Succeeds q r := by
  have hstrength : decide (q.strength.value < r.strength.value) = false ↔ r.strength.value ≤ q.strength.value := by
    rw [decide_eq_false_iff_not, not_lt]
  unfold successorChanges boundChange
  rw [List.append_eq_nil_iff, diagnose_eq_nil, hstrength]
  constructor
  · rintro ⟨hs, h⟩
    split at h
    · rename_i hn
      rw [Bool.and_eq_true] at hn
      simp only [List.append_eq_nil_iff, diagnose_eq_nil] at h
      exact ⟨hs, hn.2.trans hn.1.symm, fun _ => h, fun hr => by rw [hn.1] at hr; cases hr⟩
    · rename_i hn
      split at h
      · cases h
      · rename_i he
        rw [bne_iff_ne, ne_eq, not_not] at he
        refine ⟨hs, he.symm, fun hr => absurd (by rw [← he, hr]; rfl) hn, fun _ hreq => ?_⟩
        rw [diagnose_eq_nil, hreq] at h
        simp only [beq_self_eq_true, Bool.true_and, Bool.or_eq_false_iff, bne_eq_false_iff_eq] at h
        exact ⟨h.1.symm, h.2.symm⟩
  · rintro ⟨hs, hform, hbounds, htexts⟩
    refine ⟨hs, ?_⟩
    cases hr : r.hasNumeric with
    | true => simp [hform, hr, hbounds hr]
    | false =>
      simp only [hform, hr, Bool.and_self, Bool.false_eq_true, if_false, bne_self_eq_false, diagnose_eq_nil,
        Bool.and_eq_false_iff, Bool.or_eq_false_iff, bne_eq_false_iff_eq, beq_eq_false_iff_ne]
      by_cases hreq : r.strength = .required
      · obtain ⟨hv, hp⟩ := htexts hr hreq
        exact .inr ⟨hv.symm, hp.symm⟩
      · exact .inl hreq

/-- A body that lets a requirement go on: with a successor, or without one if it is not required and its scope
stays. -/
def Carries (next : ContractBody) (r : Requirement) : Prop :=
  match Keyed.get Requirement.compositeKey r.compositeKey next.requirements with
  | none => r.strength ≠ .required ∧ ∃ s ∈ next.scopes, s.name = r.scope
  | some q => Succeeds q r

theorem requirementChanges_eq_nil {next : ContractBody} {r : Requirement} :
    requirementChanges next r = [] ↔ Carries next r := by
  unfold requirementChanges Carries
  split
  · unfold removalChanges
    split
    · rename_i hs
      simp [hs]
    · rename_i hs
      simp [hs]
  · exact successorChanges_eq_nil

/-- What the check asks of a pair of bodies. -/
structure Compatible (previous next : ContractBody) : Prop where
  major : previous.major = next.major
  workload : previous.workload.id = next.workload.id
  generation : previous.generation < next.generation
  carries : ∀ r ∈ previous.requirements, Carries next r

theorem compatible_spec {previous next : ContractBody} :
    (checkCompatibility previous next).compatible = true ↔ Compatible previous next := by
  have hheader : headerChanges previous next = [] ↔
      previous.major = next.major ∧ previous.workload.id = next.workload.id ∧ previous.generation < next.generation := by
    simp only [headerChanges, List.append_eq_nil_iff, diagnose_eq_nil, bne_eq_false_iff_eq, decide_eq_false_iff_not,
      UInt64.not_le, and_assoc]
  rw [compatible_iff, compatibilityDiagnostics, List.append_eq_nil_iff, hheader, List.flatMap_eq_nil_iff]
  simp only [requirementChanges_eq_nil]
  constructor
  · rintro ⟨⟨hm, hw, hg⟩, hc⟩
    exact ⟨hm, hw, hg, hc⟩
  · rintro ⟨hm, hw, hg, hc⟩
    exact ⟨⟨hm, hw, hg⟩, hc⟩

theorem required_of_value_le {s t : RequirementStrength} (hs : s = .required) (h : s.value ≤ t.value) : t = .required := by
  subst hs
  revert h
  cases t <;> decide

/-- The successor of a required requirement: of the same key, required, of the same form, with bounds no looser
or with the same texts. -/
theorem successor_of_compatible {previous next : ContractBody}
    (h : (checkCompatibility previous next).compatible = true) {r : Requirement} (hr : r ∈ previous.requirements)
    (hs : r.strength = .required) :
    ∃ q, Keyed.get Requirement.compositeKey r.compositeKey next.requirements = some q ∧ q.strength = .required ∧
      (r.hasNumeric = true ∧ q.hasNumeric = true ∧ looser r.kind q.minimum r.minimum = false ∧
          looser r.kind q.target r.target = false ∨
        r.hasNumeric = false ∧ q.hasNumeric = false ∧ q.value = r.value ∧ q.preferredValue = r.preferredValue) := by
  have hcarries := (compatible_spec.1 h).carries r hr
  unfold Carries at hcarries
  split at hcarries
  · exact absurd hs hcarries.1
  · rename_i q hq
    refine ⟨q, hq, required_of_value_le hs hcarries.strength, ?_⟩
    cases hn : r.hasNumeric with
    | true => exact .inl ⟨rfl, hcarries.form.trans hn, hcarries.bounds hn⟩
    | false => exact .inr ⟨rfl, hcarries.form.trans hn, hcarries.texts hn hs⟩

/-! ## What a consumer keeps -/

/-- Whether a required collective's successor still names all of its members. -/
def keepsMembers (next : ContractBody) (r : Requirement) : Bool :=
  match Keyed.get Requirement.compositeKey r.compositeKey next.requirements with
  | none => false
  | some q => r.members.all (· ∈ q.members)

/-- Whatever satisfies some requirement of the body with the key of `r` satisfies `r`. -/
def Serves (next : ContractBody) (r : Requirement) : Prop :=
  ∃ r' ∈ next.requirements, r'.compositeKey = r.compositeKey ∧ ∀ entry current now age,
    (decideRequirement r' entry current now age).satisfaction = .satisfied →
      (decideRequirement r entry current now age).satisfaction = .satisfied

/-- Of a compatible pair the successor of a required requirement entails it, unless it is a collective that lost
members. -/
theorem entails_successor_iff {previous next : ContractBody} (hp : (validateContractBody previous).ok = true)
    (h : (checkCompatibility previous next).compatible = true) {r q : Requirement} (hr : r ∈ previous.requirements)
    (hs : r.strength = .required)
    (hq : Keyed.get Requirement.compositeKey r.compositeKey next.requirements = some q) :
    Entails q r ↔ (r.kind = .collective → r.value ≠ utf8 "unsupported" → keepsMembers next r = true) := by
  obtain ⟨q', hq', hqs, hform⟩ := successor_of_compatible h hr hs
  rw [hq] at hq'
  cases hq'
  have hfits := requirementFits_of_valid hp hr
  have hkey := Keyed.key_of_get hq
  have hk : q.kind = r.kind := congrArg RequirementKey.kind hkey
  have hcollective : r.kind = .collective ↔ kindClass r.kind = .collective := by cases r.kind <;> decide
  have hvalue : kindClass r.kind ≠ .numeric → q.value = r.value := by
    intro hc
    rcases hform with ⟨hn, -⟩ | ⟨-, -, hv, -⟩
    · rw [hfits.numeric, kindIsNumeric_iff] at hn
      exact absurd hn hc
    · exact hv
  cases hc : kindClass r.kind with
  | numeric =>
    rw [entails_numeric hk hc]
    refine iff_of_true ?_ (fun hcol => by rw [hcollective, hc] at hcol; cases hcol)
    rcases hform with ⟨hn, -, -, ht⟩ | ⟨hn, -⟩
    · have hnan := Double.not_isNan_of_isFinite (hfits.finite hn).1
      simp only [acceptsNumber_required hqs, acceptsNumber_required hs, hk]
      exact (forall_meets_iff hnan).2 ht
    · rw [hfits.numeric, Bool.eq_false_iff, ne_eq, kindIsNumeric_iff] at hn
      exact absurd hc hn
  | textual =>
    rw [entails_textual hk hc]
    refine iff_of_true (fun t ht => ?_) (fun hcol => by rw [hcollective, hc] at hcol; cases hcol)
    rw [AcceptsText, hs]
    rw [AcceptsText, hqs, hvalue (by rw [hc]; decide)] at ht
    simpa using ht
  | isolation =>
    rw [entails_isolation hk hc, hvalue (by rw [hc]; decide)]
    exact iff_of_true rfl (fun hcol => by rw [hcollective, hc] at hcol; cases hcol)
  | labelled =>
    rw [entails_labelled hk hc (congrArg RequirementKey.key hkey), hvalue (by rw [hc]; decide)]
    exact iff_of_true rfl (fun hcol => by rw [hcollective, hc] at hcol; cases hcol)
  | collective =>
    rw [entails_collective hk hc, hvalue (by rw [hc]; decide), hcollective, hc, keepsMembers, hq]
    simp [List.subset_def]

/-- A compatible next body serves every required requirement of the previous one exactly when no required
collective, other than one that asks for no support, lost a member. -/
theorem compatible_serves_iff {previous next : ContractBody} (hp : (validateContractBody previous).ok = true)
    (hn : (validateContractBody next).ok = true) (h : (checkCompatibility previous next).compatible = true) :
    (∀ r ∈ previous.requirements, r.strength = .required → Serves next r) ↔
      ∀ r ∈ previous.requirements, r.strength = .required → r.kind = .collective → r.value ≠ utf8 "unsupported" →
        keepsMembers next r = true := by
  refine forall₂_congr fun r hr => forall_congr' fun hs => ?_
  obtain ⟨q, hq, hqs, -⟩ := successor_of_compatible h hr hs
  rw [← entails_successor_iff hp h hr hs hq,
    entails_iff_decide (by rw [hqs]; decide) (by rw [hs]; decide)]
  constructor
  · rintro ⟨r', hmem, hkey, hsat⟩
    have hget := Keyed.get_of_mem (compositeKey_nodup_of_valid hn) hmem
    rw [hkey, hq] at hget
    cases hget
    exact hsat
  · intro hsat
    exact ⟨q, Keyed.mem_of_get hq, Keyed.key_of_get hq, hsat⟩

/-! ## A collective that loses a member -/

/-- A generation that requires a collective of the members of the given digits. -/
def collectiveBody (generation : ContractGeneration) (members : List Nat) : ContractBody :=
  singleRequirement generation
    { kind := .collective, strength := .required, members := members.map .repeating }

set_option maxRecDepth 100000 in
theorem compatible_serves_iff_collective :
    (∀ r ∈ (collectiveBody 1 [2]).requirements, r.strength = .required → Serves (collectiveBody 2 [2, 3]) r) ↔
      ∀ r ∈ (collectiveBody 1 [2]).requirements, r.strength = .required → r.kind = .collective →
        r.value ≠ utf8 "unsupported" → keepsMembers (collectiveBody 2 [2, 3]) r = true :=
  compatible_serves_iff (by decide +kernel) (by decide +kernel) (by decide +kernel)

/-- The requirement of the generation that still names both members. -/
def fullCollective : Requirement := (collectiveBody 1 [2, 3]).requirements.headD {}

/-- A scope that supports collectives and reports the member of the digit 2 alone. -/
def partialEntry : EvidenceEntry :=
  { scope := utf8 "s", candidate := .ofMembers [.repeating 2] }

set_option maxRecDepth 100000 in
/-- A generation that drops a member of a required collective is compatible, and a scope without that member
satisfies it but not the generation before. -/
theorem compatible_loses_member :
    (validateContractBody (collectiveBody 1 [2, 3])).ok = true ∧ (validateContractBody (collectiveBody 2 [2])).ok = true ∧
      (checkCompatibility (collectiveBody 1 [2, 3]) (collectiveBody 2 [2])).compatible = true ∧
      ¬∀ r ∈ (collectiveBody 1 [2, 3]).requirements, r.strength = .required → Serves (collectiveBody 2 [2]) r := by
  have hmem : fullCollective ∈ (collectiveBody 1 [2, 3]).requirements := List.mem_cons_self
  have hbad : ∀ r' ∈ (collectiveBody 2 [2]).requirements,
      (decideRequirement r' (some partialEntry) .zero 0 0).satisfaction = .satisfied ∧
        (decideRequirement fullCollective (some partialEntry) .zero 0 0).satisfaction = .unknown := by
    decide +kernel
  refine ⟨by decide +kernel, by decide +kernel, by decide +kernel, fun h => ?_⟩
  obtain ⟨r', hr', -, hsat⟩ := h _ hmem (by decide +kernel)
  obtain ⟨hyes, hno⟩ := hbad r' hr'
  have hs := hsat _ _ _ _ hyes
  rw [hno] at hs
  cases hs

end Wnc
