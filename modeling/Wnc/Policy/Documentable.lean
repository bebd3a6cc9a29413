/-
Policies that their own documents give back. The document of a policy is decoded, to the policy as it documents it,
exactly when every field is within the bounds of the decoder and the identity is the one of the content. Validation
asks for neither.
-/
import Wnc.Contract.Documentable
import Wnc.Policy.Model

namespace Wnc

open Lib

/-! ## Documents -/

/-- A rule as its document gives it back: without the requirement it was derived from. -/
def PolicyRule.documented (rule : PolicyRule) : PolicyRule :=
  { rule with
    requirement := .zero
    minTarget := documentedReal rule.minTarget
    maxTarget := documentedReal rule.maxTarget
    minMinimum := documentedReal rule.minMinimum
    maxMinimum := documentedReal rule.maxMinimum }

def Policy.documented (policy : Policy) : Policy := { policy with rules := policy.rules.map PolicyRule.documented }

theorem policyRuleToJson_documented (rule : PolicyRule) : policyRuleToJson rule.documented = policyRuleToJson rule := by
  simp only [policyRuleToJson, PolicyRule.documented, ofReal_documentedReal]

/-- The members of the document of a rule. -/
structure PolicyRule.Written (rule : PolicyRule) (document : Json) : Prop where
  kind : document.find (utf8 "kind") = some (.string (requirementKindToken rule.kind))
  scope : document.find (utf8 "scope") = some (.string rule.scope)
  key : document.find (utf8 "key") = some (.string rule.key)
  allow : document.find (utf8 "allow") = some (.bool rule.allow)
  minTarget : document.find (utf8 "min_target") = some (.ofReal rule.minTarget)
  maxTarget : document.find (utf8 "max_target") = some (.ofReal rule.maxTarget)
  minMinimum : document.find (utf8 "min_minimum") = some (.ofReal rule.minMinimum)
  maxMinimum : document.find (utf8 "max_minimum") = some (.ofReal rule.maxMinimum)
  minimumStrength :
    document.find (utf8 "minimum_strength") = some (.string (requirementStrengthToken rule.minimumStrength))
  maximumStrength :
    document.find (utf8 "maximum_strength") = some (.string (requirementStrengthToken rule.maximumStrength))
  allowedValues : document.find (utf8 "allowed_values") =
    if rule.allowedValues ≠ [] then some (.array (rule.allowedValues.map .string)) else none

theorem policyRuleToJson_written (rule : PolicyRule) : rule.Written (policyRuleToJson rule) := by
  constructor <;> simp [policyRuleToJson, Json.find_put, find_ite, Json.find_null]

/-- The members of the document of a policy. -/
structure Policy.Written (policy : Policy) (document : Json) : Prop where
  schemaVersion : document.find (utf8 "schema_version") = some (jsonUint policy.schemaVersion.toUInt64)
  policyId : document.find (utf8 "policy_id") = some (.string policy.policyId.view)
  generation : document.find (utf8 "policy_generation") = some (jsonUint policy.generation)
  description : document.find (utf8 "description") = some (.string policy.description)
  rules : document.find (utf8 "rules") = some (.array (policy.rules.map policyRuleToJson))

theorem policyToJson_written (policy : Policy) : policy.Written (policyToJson policy) := by
  constructor <;> simp [policyToJson, Json.find_put]

/-! ## Readers -/

section Readers

variable {document : Json} {field : String} {path : Bytes}

theorem readStringField_iff {maxBytes : Nat} {required : Bool} {s v : Bytes}
    (hf : document.find (utf8 field) = some (.string s)) :
    readStringField document field path maxBytes required = .ok v ↔ v = s ∧ s.length ≤ maxBytes := by
  unfold readStringField
  rw [hf]
  simp only
  split
  · rename_i hlong
    exact iff_of_false (fun h => nomatch h) fun h => absurd h.2 (not_le.2 hlong)
  · rename_i hfits
    rw [Except.ok.injEq]
    exact ⟨fun h => ⟨h.symm, not_lt.1 hfits⟩, fun h => h.1.symm⟩

theorem readNumberField_iff {d v : Double} (hf : document.find (utf8 field) = some (.ofReal d)) :
    readNumberField document field path = .ok v ↔ v = documentedReal d ∧ d.Documentable := by
  unfold readNumberField
  rw [hf]
  simp only [asReal_ofReal]
  constructor
  · intro h
    split at h
    · cases h
    · rename_i hrange
      cases h
      simp only [Bool.or_eq_true, Bool.not_eq_true', not_or, Bool.not_eq_true, Bool.not_eq_false] at hrange
      exact ⟨rfl, hrange.1.1, hrange.1.2, hrange.2⟩
  · rintro ⟨rfl, hfinite, hnonnegative, hbounded⟩
    have hbounded : (Double.ofInt maxPolicyParameter).lt (documentedReal d) = false := hbounded
    rw [hfinite, hnonnegative, hbounded]
    rfl

theorem readStrength_iff {default strength v : RequirementStrength} :
    readStrength field path default (requirementStrengthToken strength) = .ok v ↔ v = strength := by
  have htoken : requirementStrengthToken strength ≠ [] := by cases strength <;> decide
  unfold readStrength
  rw [if_neg htoken, parseRequirementStrength_token]
  simp only [Except.ok.injEq]
  exact eq_comm

theorem readAllow_iff {b v : Bool} (hf : document.find (utf8 "allow") = some (.bool b)) :
    readAllow document path = .ok v ↔ v = b := by
  unfold readAllow
  rw [hf]
  simp only [Except.ok.injEq]
  exact eq_comm

theorem readAllowedValues_iff {l vs : List Bytes}
    (hf : document.find (utf8 "allowed_values") = if l ≠ [] then some (.array (l.map .string)) else none) :
    readAllowedValues document path = .ok vs ↔ vs = l ∧ l.length ≤ maxAllowedValues := by
  unfold readAllowedValues
  rw [hf]
  by_cases hl : l = []
  · subst hl
    simp only [ne_eq, not_true, if_false, Except.ok.injEq]
    exact ⟨fun h => ⟨h.symm, Nat.zero_le _⟩, fun h => h.1.symm⟩
  · rw [if_pos hl]
    simp only [List.length_map]
    have hitem : ∀ a ∈ l, ∀ (i : Nat) v, (fun item (_ : Nat) => readAllowedValue path item) (.string a) i = .ok v ↔
        v = id a ∧ True := fun a _ _ v => by
      simp only [readAllowedValue, Except.ok.injEq, and_true]
      exact eq_comm
    split
    · rename_i hlong
      exact iff_of_false (fun h => nomatch h) fun h => absurd h.2 (not_le.2 hlong)
    · rename_i hfits
      rw [decodeEach_iff hitem, List.map_id]
      exact ⟨fun h => ⟨h.1, not_lt.1 hfits⟩, fun h => ⟨h.1, fun _ _ => trivial⟩⟩

/-- A rule whose fields are within the bounds of the decoder. -/
structure PolicyRule.Documentable (rule : PolicyRule) : Prop where
  scope : rule.scope.length ≤ maxStringBytes
  key : rule.key.length ≤ maxStringBytes
  minTarget : rule.minTarget.Documentable
  maxTarget : rule.maxTarget.Documentable
  minMinimum : rule.minMinimum.Documentable
  maxMinimum : rule.maxMinimum.Documentable
  allowedValues : rule.allowedValues.length ≤ maxAllowedValues

theorem isObject_policyRuleToJson (rule : PolicyRule) : (policyRuleToJson rule).isObject = true := by
  unfold policyRuleToJson
  simp only
  split <;> exact Json.isObject_put _ _ _

theorem decodePolicyRule_iff {rule v : PolicyRule} {index : Nat} :
    decodePolicyRule (policyRuleToJson rule) index = .ok v ↔ v = rule.documented ∧ rule.Documentable := by
  have hw := policyRuleToJson_written rule
  have hkind : (requirementKindToken rule.kind).length ≤ 64 := by cases rule.kind <;> decide
  have hstrength : ∀ s, (requirementStrengthToken s).length ≤ 32 := fun s => by cases s <;> decide
  unfold decodePolicyRule
  simp only [bind_eq_ok, require_eq_ok, isObject_policyRuleToJson, readStringField_iff hw.kind, readStringField_iff hw.scope,
    readStringField_iff hw.key, readAllow_iff hw.allow, readNumberField_iff hw.minTarget,
    readNumberField_iff hw.maxTarget, readNumberField_iff hw.minMinimum, readNumberField_iff hw.maxMinimum,
    readStringField_iff hw.minimumStrength, readStringField_iff hw.maximumStrength, readAllowedValues_iff hw.allowedValues,
    and_assoc, exists_eq_left, exists_const, hkind, hstrength, true_and, parseRequirementKind_token, readStrength_iff,
    Except.ok.injEq, exists_eq_left']
  constructor
  · rintro ⟨hscope, hkey, h₁, h₂, h₃, h₄, hallowed, rfl⟩
    exact ⟨rfl, hscope, hkey, h₁, h₂, h₃, h₄, hallowed⟩
  · rintro ⟨rfl, hscope, hkey, h₁, h₂, h₃, h₄, hallowed⟩
    exact ⟨hscope, hkey, h₁, h₂, h₃, h₄, hallowed, rfl⟩

end Readers

/-! ## Policies -/

theorem toInt_toInt64_toUInt64 (n : UInt32) : n.toUInt64.toInt64.toInt = n.toNat := by
  have hlt := n.toNat_lt
  have hsigned : n.toUInt64.toInt64.toInt = n.toUInt64.toBitVec.toInt := rfl
  rw [hsigned, BitVec.toInt_eq_toNat_of_lt (by simp; omega)]
  simp

theorem readSchemaVersion_iff {document : Json} {n v : UInt32}
    (hf : document.find (utf8 "schema_version") = some (jsonUint n.toUInt64)) :
    readSchemaVersion document = .ok v ↔ v = n ∧ n.toNat ≤ 1000 := by
  have hrange : (n.toUInt64.toInt64 < 0 ∨ n.toUInt64.toInt64 > 1000) ↔ 1000 < n.toNat := by
    rw [gt_iff_lt, Int64.lt_iff_toInt_lt, Int64.lt_iff_toInt_lt, toInt_toInt64_toUInt64]
    have hbound : (1000 : Int64).toInt = 1000 := rfl
    have hzero : (0 : Int64).toInt = 0 := rfl
    omega
  unfold readSchemaVersion
  rw [hf, jsonUint]
  simp only [hrange]
  split
  · rename_i hlong
    exact iff_of_false (by rintro ⟨⟩) fun h => absurd h.2 (not_le.2 hlong)
  · rename_i hfits
    rw [Except.ok.injEq, toUInt64_jsonUint, UInt32.toUInt32_toUInt64]
    exact ⟨fun h => ⟨h.symm, not_lt.1 hfits⟩, fun h => h.1.symm⟩

theorem readPolicyGeneration_iff {document : Json} {n v : PolicyGeneration}
    (hf : document.find (utf8 "policy_generation") = some (jsonUint n)) :
    readPolicyGeneration document = .ok v ↔ v = n ∧ IsPositive n := by
  unfold readPolicyGeneration
  rw [hf, jsonUint]
  simp only
  split
  · rename_i hbelow
    exact iff_of_false (by rintro ⟨⟩) fun h => h.2 hbelow
  · rename_i hpositive
    rw [Except.ok.injEq, toUInt64_jsonUint]
    exact ⟨fun h => ⟨h.symm, hpositive⟩, fun h => h.1.symm⟩

/-- The identity of the content of a policy. -/
def Policy.contentId (policy : Policy) : PolicyId := derivePolicyId (policyDigest { policy with policyId := .zero })

/-- A policy whose fields are within the bounds of the decoder, under the identity of its content. -/
structure Policy.Documentable (policy : Policy) : Prop where
  schemaVersion : policy.schemaVersion.toNat ≤ 1000
  generation : IsPositive policy.generation
  description : policy.description.length ≤ maxStringBytes
  rules : policy.rules.length ≤ maxPolicyRules ∧ ∀ rule ∈ policy.rules, rule.Documentable
  identity : policy.policyId = policy.contentId

theorem contentId_documented (policy : Policy) : policy.documented.contentId = policy.contentId := by
  have hrules : (policy.rules.map PolicyRule.documented).map policyRuleToJson = policy.rules.map policyRuleToJson := by
    rw [List.map_map]
    exact List.map_congr_left fun rule _ => policyRuleToJson_documented rule
  simp only [Policy.contentId, policyDigest, policyToJson, Policy.documented, hrules]

/-- The document of a policy gives the policy back, as it documents it, exactly when every field is within the bounds
of the decoder and the identity is the one of the content. -/
theorem policyFromJson_iff {policy v : Policy} :
    policyFromJson (policyToJson policy) = .ok v ↔ v = policy.documented ∧ policy.Documentable := by
  have hw := policyToJson_written policy
  have hid : policy.policyId.view.length ≤ sha256HexChars := (Id.length_view _).le
  have hnonempty : policy.policyId.view ≠ [] := List.ne_nil_of_length_pos (by rw [Id.length_view]; decide)
  unfold policyFromJson
  simp only [hw.rules, bind_eq_ok, require_eq_ok, readSchemaVersion_iff hw.schemaVersion,
    readPolicyGeneration_iff hw.generation, readStringField_iff hw.description, readStringField_iff hw.policyId,
    decodeEach_iff fun _ _ _ _ => decodePolicyRule_iff, List.length_map, decide_eq_true_eq, and_assoc, exists_eq_left,
    exists_const, hid, hnonempty, false_or, true_and, Id.parse_view, Option.some.injEq, Except.ok.injEq]
  have hcontent : derivePolicyId (policyDigest
      { schemaVersion := policy.schemaVersion, generation := policy.generation, description := policy.description
        rules := policy.rules.map PolicyRule.documented }) = policy.contentId := contentId_documented policy
  rw [hcontent]
  constructor
  · rintro ⟨-, hversion, hgeneration, hdescription, hcount, hrules, hidentity, rfl⟩
    refine ⟨?_, hversion, hgeneration, hdescription, ⟨hcount, hrules⟩, hidentity⟩
    rw [← hidentity]
    rfl
  · rintro ⟨rfl, hversion, hgeneration, hdescription, ⟨hcount, hrules⟩, hidentity⟩
    refine ⟨rfl, hversion, hgeneration, hdescription, hcount, hrules, hidentity, ?_⟩
    rw [← hidentity]
    rfl

end Wnc
