/-
Policies in records. The document of a policy is read when its texts are valid and the text of every number in it fits
a number literal. What is read may be another policy: the text of a number that is written without an exponent has no
sign.
-/
import Wnc.Contract.Recorded
import Wnc.Policy.Documentable

namespace Wnc

open Lib

/-! ## The texts and the numbers of a policy -/

/-- The texts of a rule are valid. The decoder of rules has no bound for a permitted value. -/
structure PolicyRule.Textual (o : JsonDecodeOptions) (rule : PolicyRule) : Prop where
  scope : IsText rule.scope
  key : IsText rule.key
  allowedValues : ∀ value ∈ rule.allowedValues, Parser.ValidUtf8 value ∧ value.length ≤ o.maxStringBytes

structure Policy.Textual (o : JsonDecodeOptions) (policy : Policy) : Prop where
  description : IsText policy.description
  rules : ∀ rule ∈ policy.rules, rule.Textual o

/-- The text of every number of a rule fits a number literal. -/
structure PolicyRule.NumbersFit (rule : PolicyRule) : Prop where
  minTarget : rule.minTarget.Fits
  maxTarget : rule.maxTarget.Fits
  minMinimum : rule.minMinimum.Fits
  maxMinimum : rule.maxMinimum.Fits

def Policy.NumbersFit (policy : Policy) : Prop := ∀ rule ∈ policy.rules, rule.NumbersFit

/-- A rule as the text of its document reads. -/
def PolicyRule.reread (rule : PolicyRule) : PolicyRule :=
  { rule with
    minTarget := rule.minTarget.canonical
    maxTarget := rule.maxTarget.canonical
    minMinimum := rule.minMinimum.canonical
    maxMinimum := rule.maxMinimum.canonical }

def Policy.reread (policy : Policy) : Policy := { policy with rules := policy.rules.map PolicyRule.reread }

theorem reread_policyRuleToJson {rule : PolicyRule} (h : rule.NumbersFit) :
    (policyRuleToJson rule).reread = policyRuleToJson rule.reread := by
  have hallowed : (rule.allowedValues.map Json.string).map Json.reread = rule.allowedValues.map .string := by
    rw [List.map_map]
    rfl
  unfold policyRuleToJson PolicyRule.reread
  simp only [reread_ite, Json.reread_put, Json.reread_string, Json.reread_null, Json.reread_array, hallowed,
    Json.reread_ofReal_canonical h.minTarget.isFinite, Json.reread_ofReal_canonical h.maxTarget.isFinite,
    Json.reread_ofReal_canonical h.minMinimum.isFinite, Json.reread_ofReal_canonical h.maxMinimum.isFinite]
  rfl

theorem reread_policyToJson {policy : Policy} (h : policy.NumbersFit) :
    (policyToJson policy).reread = policyToJson policy.reread := by
  have hrules : (policy.rules.map policyRuleToJson).map Json.reread =
      (policy.rules.map PolicyRule.reread).map policyRuleToJson := by
    rw [List.map_map, List.map_map]
    exact List.map_congr_left fun rule hrule => reread_policyRuleToJson (h rule hrule)
  unfold policyToJson Policy.reread
  simp only [Json.reread_put, Json.reread_string, Json.reread_null, reread_jsonUint, Json.reread_array, hrules]

/-! ## Documents that are read -/

section Readable

variable {o : JsonDecodeOptions} {depth : Nat}

theorem readable_policyRuleToJson (ho : o.Roomy) (h : depth ≤ 6) {rule : PolicyRule} (ht : rule.Textual o)
    (hfit : rule.NumbersFit) : (policyRuleToJson rule).Readable o depth := by
  have hallowed : (Json.array (rule.allowedValues.map .string)).Readable o (depth + 1) :=
    ho.mapped (by omega) fun value hvalue => ⟨ho.within (by omega), ht.allowedValues value hvalue⟩
  unfold policyRuleToJson
  repeat' first
    | exact hallowed
    | exact ho.null (by omega)
    | exact ho.within (by omega)
    | exact ho.text (by omega) (isText_kindToken _)
    | exact ho.text (by omega) (isText_strengthToken _)
    | exact ho.text (by omega) ht.scope
    | exact ho.text (by omega) ht.key
    | exact ho.number (by omega) hfit.minTarget
    | exact ho.number (by omega) hfit.maxTarget
    | exact ho.number (by omega) hfit.minMinimum
    | exact ho.number (by omega) hfit.maxMinimum
    | decide
    | refine ho.put ?_ ?_ ?_
    | refine Json.Readable.ite (fun _ => ?_) fun _ => ?_

theorem PolicyRule.numbersFit_of_readable {rule : PolicyRule} (h : (policyRuleToJson rule).Readable o depth) :
    rule.NumbersFit := by
  have hw := policyRuleToJson_written rule
  exact ⟨(Json.readable_ofReal_iff.1 (h.find hw.minTarget)).2, (Json.readable_ofReal_iff.1 (h.find hw.maxTarget)).2,
    (Json.readable_ofReal_iff.1 (h.find hw.minMinimum)).2, (Json.readable_ofReal_iff.1 (h.find hw.maxMinimum)).2⟩

theorem PolicyRule.textual_of_readable {rule : PolicyRule} (hscope : rule.scope.length ≤ maxStringBytes)
    (hkey : rule.key.length ≤ maxStringBytes) (h : (policyRuleToJson rule).Readable o depth) : rule.Textual o := by
  have hw := policyRuleToJson_written rule
  refine ⟨.of_find h hw.scope hscope, .of_find h hw.key hkey, fun value hvalue => ?_⟩
  have hallowed := hw.allowedValues
  rw [if_pos (List.ne_nil_of_mem hvalue)] at hallowed
  exact ((h.find hallowed).items (List.mem_map_of_mem hvalue)).2

theorem Policy.rule_readable {policy : Policy} (h : (policyToJson policy).Readable o depth) {rule : PolicyRule}
    (hrule : rule ∈ policy.rules) : (policyRuleToJson rule).Readable o (depth + 1 + 1) :=
  (h.find (policyToJson_written policy).rules).items (List.mem_map_of_mem hrule)

/-- The text of every number of a document that is read fits. -/
theorem Policy.numbersFit_of_readable {policy : Policy} (h : (policyToJson policy).Readable o depth) :
    policy.NumbersFit := fun _ hrule => PolicyRule.numbersFit_of_readable (rule_readable h hrule)

/-- A document within the bounds of the decoder is read exactly when its texts are valid and its numbers fit. -/
theorem readable_policyToJson_iff (ho : o.Roomy) (h : depth ≤ 4) {policy : Policy} (hp : policy.reread.Documentable) :
    (policyToJson policy).Readable o depth ↔ policy.Textual o ∧ policy.NumbersFit := by
  have hw := policyToJson_written policy
  constructor
  · intro hread
    refine ⟨⟨.of_find hread hw.description hp.description, fun rule hrule => ?_⟩, Policy.numbersFit_of_readable hread⟩
    have hbounds := hp.rules.2 rule.reread (List.mem_map_of_mem hrule)
    exact PolicyRule.textual_of_readable hbounds.scope hbounds.key (Policy.rule_readable hread hrule)
  · rintro ⟨ht, hfit⟩
    have hrules : (Json.array (policy.rules.map policyRuleToJson)).Readable o (depth + 1) :=
      ho.mapped (by omega) fun rule hr => readable_policyRuleToJson ho (by omega) (ht.rules rule hr) (hfit rule hr)
    unfold policyToJson
    repeat' first
      | exact hrules
      | exact ho.null (by omega)
      | exact ho.uint (by omega)
      | exact ho.text (by omega) (isText_view _)
      | exact ho.text (by omega) ht.description
      | decide
      | refine ho.put ?_ ?_ ?_

end Readable

/-! ## Policies that a record gives back -/

/-- A policy whose document is read, and decoded to the policy as the text documents it. -/
structure Policy.Recordable (o : JsonDecodeOptions) (policy : Policy) : Prop where
  documentable : policy.reread.Documentable
  textual : policy.Textual o
  numbers : policy.NumbersFit

theorem policy_recordable_iff {o : JsonDecodeOptions} (ho : o.Roomy) {depth : Nat} (h : depth ≤ 4) {policy v : Policy} :
    (policyToJson policy).Readable o depth ∧ policyFromJson (policyToJson policy).reread = .ok v ↔
      v = policy.reread.documented ∧ policy.Recordable o := by
  constructor
  · rintro ⟨hread, hdecode⟩
    have hfit := Policy.numbersFit_of_readable hread
    rw [reread_policyToJson hfit, policyFromJson_iff] at hdecode
    obtain ⟨rfl, hd⟩ := hdecode
    exact ⟨rfl, hd, ((readable_policyToJson_iff ho h hd).1 hread).1, hfit⟩
  · rintro ⟨rfl, hd, ht, hfit⟩
    rw [reread_policyToJson hfit, policyFromJson_iff]
    exact ⟨(readable_policyToJson_iff ho h hd).2 ⟨ht, hfit⟩, rfl, hd⟩

end Wnc
