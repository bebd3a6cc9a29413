/-
The check of a contract body against a policy, and what a body that passes it may still violate: the
diagnostics go into a bounded log, which entries that are not errors take room in as well.
-/
import Wnc.Contract.Validate
import Wnc.Policy.Model

namespace Wnc

open Lib

/-! ## The check -/

/-- Whether a rule applies to a requirement. An empty scope or key of a rule matches any. -/
def ruleApplies (rule : PolicyRule) (r : Requirement) : Bool :=
  rule.kind == r.kind && (rule.scope == [] || rule.scope == r.scope) && (rule.key == [] || rule.key == r.key)

def valueAllowed (rule : PolicyRule) (value : Bytes) : Bool :=
  rule.allowedValues == [] || rule.allowedValues.contains value

/-- The attributes whose value a rule does not permit. -/
def attributeViolations (r : Requirement) (rule : PolicyRule) : List Diagnostic :=
  r.attributes.flatMap fun pair => diagnose (!valueAllowed rule pair.2)
    ⟨.policyDenied, utf8 "attribute '" ++ pair.1 ++ utf8 "' is not permitted by the policy", .zero, r.id⟩

/-- The violations of a rule that applies. -/
def ruleViolations (r : Requirement) (rule : PolicyRule) : List Diagnostic :=
  if !rule.allow then
    [⟨.policyDenied, utf8 "requirement kind " ++ requirementKindToken r.kind ++ utf8 " is not permitted in this scope",
      .zero, r.id⟩]
  else
    diagnose (r.strength.value < rule.minimumStrength.value)
        ⟨.policyDenied, utf8 "requirement strength " ++ requirementStrengthToken r.strength ++
          utf8 " is below the policy floor " ++ requirementStrengthToken rule.minimumStrength, .zero, r.id⟩ ++
      diagnose (r.strength.value > rule.maximumStrength.value)
        ⟨.policyDenied, utf8 "requirement strength " ++ requirementStrengthToken r.strength ++
          utf8 " is above the policy ceiling " ++ requirementStrengthToken rule.maximumStrength, .zero, r.id⟩ ++
      (if r.hasNumeric then
        diagnose (r.target.lt rule.minTarget || rule.maxTarget.lt r.target)
            ⟨.policyDenied, utf8 "requirement target is outside the permitted range", .zero, r.id⟩ ++
          diagnose (r.minimum.lt rule.minMinimum || rule.maxMinimum.lt r.minimum)
            ⟨.policyDenied, utf8 "requirement minimum is outside the permitted range", .zero, r.id⟩
      else []) ++
      diagnose (!valueAllowed rule r.value)
        ⟨.policyDenied, utf8 "requirement value '" ++ r.value ++ utf8 "' is not permitted by the policy", .zero, r.id⟩ ++
      attributeViolations r rule

/-- Whether no rule of a policy applies to a requirement. -/
def unconstrained (policy : Policy) (r : Requirement) : Bool := !policy.rules.any fun rule => ruleApplies rule r

/-- The violations of a requirement, or the note that nothing constrains it. -/
def requirementChecks (policy : Policy) (r : Requirement) : List Diagnostic :=
  (policy.rules.filter fun rule => ruleApplies rule r).flatMap (ruleViolations r) ++
    diagnose (unconstrained policy r) ⟨.ok, utf8 "requirement is not constrained by any policy rule", .zero, r.id⟩

/-- A policy without rules checks nothing and lets nothing pass. -/
def checkContractAgainstPolicy (policy : Policy) (body : ContractBody) : ValidationResult :=
  if policy.rules = [] then ⟨false, .new⟩
  else .ofDiagnostics (body.requirements.flatMap (requirementChecks policy))

/-! ## What a rule permits -/

/-- Whether a number lies within a range; nothing lies within a range one bound of which is not a number. -/
def within (low high value : Double) : Bool := low.le value && value.le high

/-- Whether a requirement respects a rule. -/
def permits (rule : PolicyRule) (r : Requirement) : Bool :=
  rule.allow && rule.minimumStrength.value ≤ r.strength.value && r.strength.value ≤ rule.maximumStrength.value &&
    (!r.hasNumeric || within rule.minTarget rule.maxTarget r.target && within rule.minMinimum rule.maxMinimum r.minimum) &&
    valueAllowed rule r.value && r.attributes.all fun pair => valueAllowed rule pair.2

/-- Whether the bounds a rule has for a requirement are numbers. -/
def numericBounds (rule : PolicyRule) (r : Requirement) : Bool :=
  !r.hasNumeric ||
    !rule.minTarget.isNan && !rule.maxTarget.isNan && !rule.minMinimum.isNan && !rule.maxMinimum.isNan

/-- Whether a requirement respects every rule of a policy that applies to it. -/
def Respects (policy : Policy) (r : Requirement) : Prop :=
  ∀ rule ∈ policy.rules, ruleApplies rule r = true → permits rule r = true

/-- Whether the check finds a violation of a requirement. -/
def violates (policy : Policy) (r : Requirement) : Bool :=
  policy.rules.any fun rule => ruleApplies rule r && !(ruleViolations r rule).isEmpty

theorem allErrors_ruleViolations (r : Requirement) (rule : PolicyRule) : AllErrors (ruleViolations r rule) := by
  have ha : AllErrors (attributeViolations r rule) := allErrors_flatMap fun _ _ => by simp
  unfold ruleViolations
  split
  · simp
  · split <;> simp [ha]

theorem within_iff {low high v : Double} (hv : v.isNan = false) :
    within low high v = true ↔ (v.lt low || high.lt v) = false ∧ low.isNan = false ∧ high.isNan = false := by
  rw [within, Bool.and_eq_true, Bool.or_eq_false_iff]
  constructor
  · rintro ⟨hl, hh⟩
    have hln := (Double.not_isNan_of_le hl).1
    have hhn := (Double.not_isNan_of_le hh).2
    exact ⟨⟨(Double.lt_eq_false_iff hv hln).2 hl, (Double.lt_eq_false_iff hhn hv).2 hh⟩, hln, hhn⟩
  · rintro ⟨⟨hl, hh⟩, hln, hhn⟩
    exact ⟨(Double.lt_eq_false_iff hv hln).1 hl, (Double.lt_eq_false_iff hhn hv).1 hh⟩

/-- A rule permits a requirement exactly when it finds no violation and its bounds are numbers. -/
theorem permits_iff {rule : PolicyRule} {r : Requirement} (hfits : RequirementFits r) :
    permits rule r = true ↔ ruleViolations r rule = [] ∧ numericBounds rule r = true := by
  unfold permits ruleViolations numericBounds
  cases rule.allow with
  | false => simp
  | true =>
    have hattr : attributeViolations r rule = [] ↔ (r.attributes.all fun pair => valueAllowed rule pair.2) = true := by
      rw [attributeViolations, List.flatMap_eq_nil_iff, List.all_eq_true]
      simp
    cases hn : r.hasNumeric with
    | false => simp [hattr, and_assoc]
    | true =>
      obtain ⟨ht, hm⟩ := hfits.finite hn
      have ht' := @within_iff rule.minTarget rule.maxTarget _ (Double.not_isNan_of_isFinite ht)
      have hm' := @within_iff rule.minMinimum rule.maxMinimum _ (Double.not_isNan_of_isFinite hm)
      simp only [Bool.not_true, Bool.false_or, Bool.and_eq_true, ht', hm', hattr, List.append_eq_nil_iff,
        diagnose_eq_nil, if_true, Bool.false_eq_true, if_false, decide_eq_true_eq, decide_eq_false_iff_not, not_lt,
        Bool.not_eq_true', Bool.not_eq_false']
      tauto

/-- A requirement respects a policy exactly when the check finds no violation of it and the bounds of the rules
that apply to it are numbers. -/
theorem respects_iff {policy : Policy} {r : Requirement} (hfits : RequirementFits r) :
    Respects policy r ↔ violates policy r = false ∧
      ∀ rule ∈ policy.rules, ruleApplies rule r = true → numericBounds rule r = true := by
  have hv : violates policy r = false ↔ ∀ rule ∈ policy.rules, ruleApplies rule r = true → ruleViolations r rule = [] := by
    rw [violates, List.any_eq_false]
    refine forall₂_congr fun rule _ => ?_
    cases ruleApplies rule r <;> simp
  rw [hv, Respects, ← forall₂_and]
  refine forall₂_congr fun rule _ => ?_
  rw [permits_iff hfits]
  exact ⟨fun h => ⟨fun ha => (h ha).1, fun ha => (h ha).2⟩, fun h ha => ⟨h.1 ha, h.2 ha⟩⟩

/-! ## What the bounded log lets through -/

/-- Every requirement that violates the policy comes before the log is full of notes: fewer than 64 requirements
that nothing constrains stand before it. -/
def ViolationsLogged (policy : Policy) (body : ContractBody) : Prop :=
  ∀ before r after, body.requirements = before ++ r :: after → violates policy r = true →
    before.countP (unconstrained policy) < 64

theorem requirementChecks_of_not_violates {policy : Policy} {r : Requirement} (h : violates policy r = false) :
    (requirementChecks policy r).length = if unconstrained policy r = true then 1 else 0 := by
  have hn : (policy.rules.filter fun rule => ruleApplies rule r).flatMap (ruleViolations r) = [] := by
    rw [List.flatMap_eq_nil_iff]
    intro rule hrule
    obtain ⟨hmem, ha⟩ := List.mem_filter.1 hrule
    rw [violates, List.any_eq_false] at h
    simpa [ha] using h rule hmem
  rw [requirementChecks, hn, List.nil_append]
  unfold diagnose
  split <;> rfl

theorem length_checks_of_not_violates {policy : Policy} {rs : List Requirement}
    (h : ∀ r ∈ rs, violates policy r = false) :
    (rs.flatMap (requirementChecks policy)).length = rs.countP (unconstrained policy) := by
  induction rs with
  | nil => rfl
  | cons r rs ih =>
    rw [List.forall_mem_cons] at h
    rw [List.flatMap_cons, List.length_append, requirementChecks_of_not_violates h.1, ih h.2, List.countP_cons, Nat.add_comm]

/-- The checks of a violated requirement begin with an error. -/
theorem requirementChecks_of_violates {policy : Policy} {r : Requirement} (h : violates policy r = true) :
    ∃ d ds, requirementChecks policy r = d :: ds ∧ d.code ≠ .ok := by
  have herr : AllErrors ((policy.rules.filter fun rule => ruleApplies rule r).flatMap (ruleViolations r)) :=
    allErrors_flatMap fun rule _ => allErrors_ruleViolations r rule
  rw [requirementChecks]
  cases hl : (policy.rules.filter fun rule => ruleApplies rule r).flatMap (ruleViolations r) with
  | cons d ds => exact ⟨d, ds ++ _, rfl, herr d (hl ▸ List.mem_cons_self)⟩
  | nil =>
    obtain ⟨rule, hmem, hv⟩ := List.any_eq_true.1 h
    rw [Bool.and_eq_true, Bool.not_eq_true', List.isEmpty_eq_false_iff] at hv
    exact absurd (List.flatMap_eq_nil_iff.1 hl rule (List.mem_filter.2 ⟨hmem, hv.1⟩)) hv.2

/-- Of a body that passes the check nothing violates the policy exactly when every violation would have found
room in the log. -/
theorem not_violates_iff_logged {policy : Policy} {body : ContractBody}
    (h : (checkContractAgainstPolicy policy body).ok = true) :
    (∀ r ∈ body.requirements, violates policy r = false) ↔ ViolationsLogged policy body := by
  constructor
  · intro hall before r after he hv
    rw [hall r (he ▸ List.mem_append_right _ List.mem_cons_self)] at hv
    cases hv
  · intro hlogged
    by_contra hex
    push Not at hex
    obtain ⟨r, hr, hv⟩ := hex
    -- the first requirement that violates the policy
    obtain ⟨q, hq⟩ : ∃ q, body.requirements.find? (violates policy) = some q := by
      rw [← Option.isSome_iff_exists, List.find?_isSome]
      exact ⟨r, hr, by simpa using hv⟩
    obtain ⟨hq, before, after, he, hbefore⟩ := List.find?_eq_some_iff_append.1 hq
    have hlen : (before.flatMap (requirementChecks policy)).length < 64 := by
      rw [length_checks_of_not_violates fun a ha => by simpa using hbefore a ha]
      exact hlogged before q after he hq
    obtain ⟨d, ds, hd, herr⟩ := requirementChecks_of_violates hq
    unfold checkContractAgainstPolicy at h
    split at h
    · cases h
    · rw [ValidationResult.ofDiagnostics, Bool.not_eq_true', Bool.eq_false_iff, ne_eq, DiagnosticLog.hasErrors_ofList] at h
      refine h ⟨d, ?_, herr⟩
      rw [he, List.flatMap_append, List.flatMap_cons, hd, List.take_append, List.mem_append]
      refine .inr ?_
      obtain ⟨k, hk⟩ : ∃ k, 64 - (before.flatMap (requirementChecks policy)).length = k + 1 :=
        ⟨_, (Nat.succ_pred (by omega)).symm⟩
      rw [hk, List.cons_append, List.take_succ_cons]
      exact List.mem_cons_self

/-! ## What violates no rule -/

/-- A requirement is outside what a rule permits. -/
inductive Violates (rule : PolicyRule) (r : Requirement) : Prop
  | forbidden (h : rule.allow = false)
  | floor (h : r.strength.value < rule.minimumStrength.value)
  | ceiling (h : rule.maximumStrength.value < r.strength.value)
  | target (hn : r.hasNumeric = true) (h : r.target.lt rule.minTarget = true ∨ rule.maxTarget.lt r.target = true)
  | minimum (hn : r.hasNumeric = true) (h : r.minimum.lt rule.minMinimum = true ∨ rule.maxMinimum.lt r.minimum = true)
  | value (hv : rule.allowedValues ≠ []) (h : r.value ∉ rule.allowedValues)
  | attributes (hv : rule.allowedValues ≠ []) {pair : Bytes × Bytes} (hpair : pair ∈ r.attributes)
      (h : pair.2 ∉ rule.allowedValues)

/-- No requirement of a body violates a rule of the policy that applies to it. -/
def PermitsBody (policy : Policy) (body : ContractBody) : Prop :=
  ∀ r ∈ body.requirements, ∀ rule ∈ policy.rules, ruleApplies rule r = true → ¬Violates rule r

theorem valueAllowed_of {rule : PolicyRule} {value : Bytes} (h : rule.allowedValues ≠ [] → value ∈ rule.allowedValues) :
    valueAllowed rule value = true := by
  unfold valueAllowed
  by_cases he : rule.allowedValues = []
  · simp [he]
  · simp [h he]

/-- The check raises nothing against a requirement that violates no part of a rule. -/
theorem ruleViolations_of_not_violates {rule : PolicyRule} {r : Requirement} (h : ¬Violates rule r) :
    ruleViolations r rule = [] := by
  have hallow : rule.allow = true := by
    rw [← Bool.not_eq_false]
    exact fun hf => h (.forbidden hf)
  have hvalue : valueAllowed rule r.value = true := by
    refine valueAllowed_of fun hv => ?_
    by_contra hn
    exact h (.value hv hn)
  have hattributes : attributeViolations r rule = [] := by
    refine List.flatMap_eq_nil_iff.2 fun pair hpair => ?_
    rw [diagnose_eq_nil, Bool.not_eq_false']
    refine valueAllowed_of fun hv => ?_
    by_contra hn
    exact h (.attributes hv hpair hn)
  have hnumeric : r.hasNumeric = true → (r.target.lt rule.minTarget || rule.maxTarget.lt r.target) = false ∧
      (r.minimum.lt rule.minMinimum || rule.maxMinimum.lt r.minimum) = false := by
    intro hn
    rw [← Bool.not_eq_true, ← Bool.not_eq_true, Bool.or_eq_true, Bool.or_eq_true]
    exact ⟨fun ht => h (.target hn ht), fun hm => h (.minimum hn hm)⟩
  unfold ruleViolations
  rw [if_neg (by rw [hallow]; decide)]
  simp only [List.append_eq_nil_iff, diagnose_eq_nil, decide_eq_false_iff_not, hvalue, Bool.not_true, hattributes,
    and_true]
  refine ⟨⟨fun hf => h (.floor hf), fun hc => h (.ceiling hc)⟩, ?_⟩
  split
  · rename_i hn
    rw [List.append_eq_nil_iff, diagnose_eq_nil, diagnose_eq_nil]
    exact hnumeric hn
  · rfl

/-- What is logged about a requirement that violates no rule is no error. -/
theorem requirementChecks_of_permitted {policy : Policy} {r : Requirement}
    (h : ∀ rule ∈ policy.rules, ruleApplies rule r = true → ¬Violates rule r) :
    ∀ d ∈ requirementChecks policy r, d.code = .ok := by
  have hn : (policy.rules.filter fun rule => ruleApplies rule r).flatMap (ruleViolations r) = [] := by
    refine List.flatMap_eq_nil_iff.2 fun rule hrule => ?_
    obtain ⟨hmem, happlies⟩ := List.mem_filter.1 hrule
    exact ruleViolations_of_not_violates (h rule hmem happlies)
  intro d hd
  rw [requirementChecks, hn, List.nil_append] at hd
  unfold diagnose at hd
  split at hd
  · rw [List.mem_singleton.1 hd]
  · cases hd

/-- A body that violates no rule passes the check of every policy but one without rules. -/
theorem checkContractAgainstPolicy_of_permits {policy : Policy} {body : ContractBody} (h : PermitsBody policy body) :
    (checkContractAgainstPolicy policy body).ok = true ↔ policy.rules ≠ [] := by
  unfold checkContractAgainstPolicy
  split
  · rename_i he
    simp [he]
  · rename_i he
    refine iff_of_true ?_ he
    rw [ValidationResult.ofDiagnostics, Bool.not_eq_true', Bool.eq_false_iff, ne_eq, DiagnosticLog.hasErrors_ofList]
    rintro ⟨d, hd, herror⟩
    obtain ⟨r, hr, hd⟩ := List.mem_flatMap.1 (List.mem_of_mem_take hd)
    exact herror (requirementChecks_of_permitted (h r hr) d hd)

end Wnc
