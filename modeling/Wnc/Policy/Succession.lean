/-
What a compatible body keeps of the one before it, and of those before that: a requirement that is not required
may go while its scope stays, so the rule that nothing is removed holds of the pairs where nothing was, and
compatibility is passed on where whatever was dropped comes back no weaker.
-/
import Wnc.Policy.Compatibility

namespace Wnc

open Lib

/-! ## Bounds -/

/-- A bound that lets no more through than another, for a kind. -/
def NoWeaker (kind : RequirementKind) (after before : Double) : Prop :=
  if kindIsFloor kind then before.le after = true else after.le before = true

theorem NoWeaker.trans {kind : RequirementKind} {a b c : Double} (hab : NoWeaker kind a b) (hbc : NoWeaker kind b c) :
    NoWeaker kind a c := by
  unfold NoWeaker at *
  split
  · rename_i hk
    rw [if_pos hk] at hab hbc
    exact Double.le_trans hbc hab
  · rename_i hk
    rw [if_neg hk] at hab hbc
    exact Double.le_trans hab hbc

/-- Of numbers, a bound is not looser exactly when it is no weaker. -/
theorem not_looser_iff {kind : RequirementKind} {after before : Double} (ha : after.isNan = false)
    (hb : before.isNan = false) : looser kind after before = false ↔ NoWeaker kind after before := by
  unfold looser NoWeaker
  split
  · exact Double.lt_eq_false_iff ha hb
  · exact Double.lt_eq_false_iff hb ha

/-- A body whose declared bounds are numbers. -/
def Sane (b : ContractBody) : Prop :=
  ∀ r ∈ b.requirements, r.hasNumeric = true → r.target.isNan = false ∧ r.minimum.isNan = false

theorem sane_of_validBody {body : ContractBody} (h : (validateContractBody body).ok = true) : Sane body := by
  intro r hr hn
  have hfits := requirementFits_of_valid h hr
  exact ⟨Double.not_isNan_of_isFinite (hfits.finite hn).1, Double.not_isNan_of_isFinite (hfits.finite hn).2⟩

/-! ## The rule -/

/-- A requirement of the same key that is no weaker, in strength or in its bounds. -/
structure NotWeakened (r q : Requirement) : Prop where
  key : q.compositeKey = r.compositeKey
  strength : r.strength.value ≤ q.strength.value
  bounds : r.hasNumeric = true → NoWeaker r.kind q.target r.target ∧ NoWeaker r.kind q.minimum r.minimum

/-- The rule that compatibility is to follow: one major version and workload, no requirement removed or weakened,
and no scope gone that carried a required one. -/
structure FollowsRule (previous next : ContractBody) : Prop where
  major : next.major = previous.major
  workload : next.workload.id = previous.workload.id
  requirements : ∀ r ∈ previous.requirements, ∃ q ∈ next.requirements, NotWeakened r q
  scopes : ∀ s ∈ previous.scopes, (∃ r ∈ previous.requirements, r.strength = .required ∧ r.scope = s.name) →
    ∃ s' ∈ next.scopes, s'.name = s.name

/-- A successor is no weaker than what it comes after. -/
theorem Succeeds.notWeakened {previous next : ContractBody} (hp : Sane previous) (hn : Sane next) {r q : Requirement}
    (hr : r ∈ previous.requirements)
    (hq : Keyed.get Requirement.compositeKey r.compositeKey next.requirements = some q) (h : Succeeds q r) :
    NotWeakened r q := by
  refine ⟨Keyed.key_of_get hq, h.strength, fun hnumeric => ?_⟩
  obtain ⟨hrt, hrm⟩ := hp r hr hnumeric
  obtain ⟨hqt, hqm⟩ := hn q (Keyed.mem_of_get hq) (h.form.trans hnumeric)
  obtain ⟨hminimum, htarget⟩ := h.bounds hnumeric
  exact ⟨(not_looser_iff hqt hrt).1 htarget, (not_looser_iff hqm hrm).1 hminimum⟩

/-- A compatible pair of valid bodies follows the rule exactly when no requirement is gone that was not required. -/
theorem compatible_follows_iff {previous next : ContractBody} (hp : (validateContractBody previous).ok = true)
    (hn : (validateContractBody next).ok = true) (h : (checkCompatibility previous next).compatible = true) :
    FollowsRule previous next ↔ ∀ r ∈ previous.requirements, r.strength ≠ .required →
      ∃ q ∈ next.requirements, q.compositeKey = r.compositeKey := by
  have hc := compatible_spec.1 h
  constructor
  · intro hrule r hr _
    obtain ⟨q, hq, hw⟩ := hrule.requirements r hr
    exact ⟨q, hq, hw.key⟩
  · intro hkept
    have hrequirements : ∀ r ∈ previous.requirements, ∃ q ∈ next.requirements, NotWeakened r q := by
      intro r hr
      have hcarries := hc.carries r hr
      unfold Carries at hcarries
      split at hcarries
      · -- without a successor it was not required, and then it was kept
        rename_i hnone
        obtain ⟨q, hq, hkey⟩ := hkept r hr hcarries.1
        exact absurd (hkey ▸ List.mem_map_of_mem hq) (Keyed.get_eq_none_iff.1 hnone)
      · rename_i q hq
        exact ⟨q, Keyed.mem_of_get hq, hcarries.notWeakened (sane_of_validBody hp) (sane_of_validBody hn) hr hq⟩
    refine ⟨hc.major.symm, hc.workload.symm, hrequirements, fun s _ ⟨r, hr, _, hscope⟩ => ?_⟩
    obtain ⟨q, hq, hw⟩ := hrequirements r hr
    obtain ⟨s', hs', hname⟩ := scope_of_valid hn hq
    exact ⟨s', hs', by rw [hname, show q.scope = r.scope from congrArg RequirementKey.scope hw.key, hscope]⟩

/-- A generation that asks for a locality, in a strength. -/
def localityBody (generation : ContractGeneration) (strength : RequirementStrength) : ContractBody :=
  singleRequirement generation { kind := .locality, strength := strength, value := utf8 "rack" }

/-- A generation that asks for a security class alone, in a strength. -/
def securityBody (generation : ContractGeneration) (strength : RequirementStrength) : ContractBody :=
  singleRequirement generation { kind := .securityClass, strength := strength, value := utf8 "sealed" }

set_option maxRecDepth 100000 in
theorem compatible_follows_iff_locality :
    FollowsRule (localityBody 1 .preferred) (localityBody 2 .required) ↔
      ∀ r ∈ (localityBody 1 .preferred).requirements, r.strength ≠ .required →
        ∃ q ∈ (localityBody 2 .required).requirements, q.compositeKey = r.compositeKey :=
  compatible_follows_iff (by decide +kernel) (by decide +kernel) (by decide +kernel)

set_option maxRecDepth 100000 in
/-- A generation that drops a preferred requirement is compatible, and the rule is broken. -/
theorem compatible_removes : ¬∀ previous next : ContractBody, (validateContractBody previous).ok = true →
    (validateContractBody next).ok = true → (checkCompatibility previous next).compatible = true →
    FollowsRule previous next := by
  intro h
  have hrule := h (localityBody 1 .preferred) (securityBody 2 .required) (by decide +kernel) (by decide +kernel)
    (by decide +kernel)
  obtain ⟨q, hq, hw⟩ := hrule.requirements _ List.mem_cons_self
  have hkeys : ∀ q ∈ (securityBody 2 .required).requirements, ∀ r ∈ (localityBody 1 .preferred).requirements,
      q.compositeKey ≠ r.compositeKey := by decide +kernel
  exact hkeys q hq _ List.mem_cons_self hw.key

/-! ## From body to body -/

/-- A body whose requirements declare bounds exactly where their kinds have them, and numbers as bounds. -/
structure Regular (b : ContractBody) : Prop where
  sane : Sane b
  form : ∀ r ∈ b.requirements, r.hasNumeric = kindIsNumeric r.kind

theorem regular_of_validBody {body : ContractBody} (h : (validateContractBody body).ok = true) : Regular body :=
  ⟨sane_of_validBody h, fun _ hr => (requirementFits_of_valid h hr).numeric⟩

/-- What a body does with a requirement that an earlier one dropped: it keeps the scope without it, or declares it
again no weaker. -/
structure Readmits (next : ContractBody) (r : Requirement) : Prop where
  scope : r.compositeKey ∉ next.requirements.map Requirement.compositeKey → ∃ s ∈ next.scopes, s.name = r.scope
  again : ∀ q ∈ next.requirements, q.compositeKey = r.compositeKey → NotWeakened r q

/-- A successor of a successor. -/
theorem Succeeds.trans {a b c : ContractBody} (ha : Sane a) (hb : Sane b) (hc : Sane c) {r q p : Requirement}
    (hr : r ∈ a.requirements) (hq : q ∈ b.requirements) (hp : p ∈ c.requirements) (hkind : q.kind = r.kind)
    (hqr : Succeeds q r) (hpq : Succeeds p q) : Succeeds p r := by
  refine ⟨hqr.strength.trans hpq.strength, hpq.form.trans hqr.form, fun hn => ?_, fun hn hs => ?_⟩
  · have hqn := hqr.form.trans hn
    obtain ⟨hrt, hrm⟩ := ha r hr hn
    obtain ⟨hqt, hqm⟩ := hb q hq hqn
    obtain ⟨hpt, hpm⟩ := hc p hp (hpq.form.trans hqn)
    have hfirst := hqr.bounds hn
    have hsecond := hpq.bounds hqn
    rw [not_looser_iff hqm hrm, not_looser_iff hqt hrt] at hfirst
    rw [not_looser_iff hpm hqm, not_looser_iff hpt hqt, hkind] at hsecond
    rw [not_looser_iff hpm hrm, not_looser_iff hpt hrt]
    exact ⟨hsecond.1.trans hfirst.1, hsecond.2.trans hfirst.2⟩
  · obtain ⟨hv, hpv⟩ := hqr.texts hn hs
    obtain ⟨hv', hpv'⟩ := hpq.texts (hqr.form.trans hn) (required_of_value_le hs hqr.strength)
    exact ⟨hv'.trans hv, hpv'.trans hpv⟩

/-- Compatibility is passed on from body to body exactly when the last readmits what the middle one dropped. -/
theorem compatible_trans_iff {a b c : ContractBody} (ha : Regular a) (hb : Regular b) (hc : Regular c)
    (hnodup : (c.requirements.map Requirement.compositeKey).Nodup) (hab : (checkCompatibility a b).compatible = true)
    (hbc : (checkCompatibility b c).compatible = true) :
    (checkCompatibility a c).compatible = true ↔ ∀ r ∈ a.requirements,
      r.compositeKey ∉ b.requirements.map Requirement.compositeKey → Readmits c r := by
  rw [compatible_spec] at hab hbc ⊢
  constructor
  · intro hac r hr _
    have hcarries := hac.carries r hr
    unfold Carries at hcarries
    split at hcarries
    · rename_i hnone
      rw [Keyed.get_eq_none_iff] at hnone
      exact ⟨fun _ => hcarries.2, fun q hq hkey => absurd (hkey ▸ List.mem_map_of_mem hq) hnone⟩
    · rename_i p hp
      have hkey := Keyed.key_of_get hp
      refine ⟨fun hnone => absurd (hkey ▸ List.mem_map_of_mem (Keyed.mem_of_get hp)) hnone, fun q hq hq' => ?_⟩
      have hget := Keyed.get_of_mem hnodup hq
      rw [hq', hp] at hget
      cases hget
      exact hcarries.notWeakened ha.sane hc.sane hr hp
  · intro hreadmits
    refine ⟨hab.major.trans hbc.major, hab.workload.trans hbc.workload, UInt64.lt_trans hab.generation hbc.generation,
      fun r hr => ?_⟩
    have hcarries := hab.carries r hr
    unfold Carries at hcarries
    split at hcarries
    · -- the middle body dropped it
      rename_i hdropped
      obtain ⟨hscope, hagain⟩ := hreadmits r hr (Keyed.get_eq_none_iff.1 hdropped)
      unfold Carries
      split
      · rename_i hnone
        exact ⟨hcarries.1, hscope (Keyed.get_eq_none_iff.1 hnone)⟩
      · rename_i p hp
        have hmem := Keyed.mem_of_get hp
        have hw := hagain p hmem (Keyed.key_of_get hp)
        have hform : p.hasNumeric = r.hasNumeric := by
          rw [hc.form p hmem, ha.form r hr, show p.kind = r.kind from congrArg RequirementKey.kind hw.key]
        refine ⟨hw.strength, hform, fun hn => ?_, fun _ hs => absurd hs hcarries.1⟩
        obtain ⟨hrt, hrm⟩ := ha.sane r hr hn
        obtain ⟨hpt, hpm⟩ := hc.sane p hmem (hform.trans hn)
        exact ⟨(not_looser_iff hpm hrm).2 (hw.bounds hn).2, (not_looser_iff hpt hrt).2 (hw.bounds hn).1⟩
    · -- the middle body has a successor, which the last one carries
      rename_i q hq
      have hkey := Keyed.key_of_get hq
      have hmem := Keyed.mem_of_get hq
      have hlast := hbc.carries q hmem
      unfold Carries at hlast ⊢
      rw [hkey] at hlast
      split at hlast
      · obtain ⟨hs, s, hs', hname⟩ := hlast
        exact ⟨fun hr' => hs (required_of_value_le hr' hcarries.strength), s, hs',
          hname.trans (congrArg RequirementKey.scope hkey)⟩
      · rename_i p hp
        exact hcarries.trans ha.sane hb.sane hc.sane hr hmem (Keyed.mem_of_get hp)
          (congrArg RequirementKey.kind hkey) hlast

end Wnc
