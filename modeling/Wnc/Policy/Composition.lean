/-
Compositions as successors. A composition follows its base as a compatible generation unless a layer raises the strength of
a requirement and gives up its form or loosens its band.
-/
import Wnc.Contract.Staging
import Wnc.Policy.Compatibility

namespace Wnc

open Lib

/-- The requirement `q` in place of `r` has its form, and when that is numeric a band that is no looser. -/
structure KeepsBand (q r : Requirement) : Prop where
  form : q.hasNumeric = r.hasNumeric
  bounds : r.hasNumeric = true → looser r.kind q.minimum r.minimum = false ∧ looser r.kind q.target r.target = false

theorem looser_of_dominates {kind : RequirementKind} {q r : Requirement} (h : dominates kind q r = true) :
    looser kind q.minimum r.minimum = false ∧ looser kind q.target r.target = false := by
  have hlt : ∀ {a b : Double}, a.le b = true → b.lt a = false := fun hab =>
    (Double.lt_eq_false_iff (Double.not_isNan_of_le hab).2 (Double.not_isNan_of_le hab).1).2 hab
  unfold dominates at h
  unfold looser
  split at h
  · rename_i hf
    rw [Bool.and_eq_true] at h
    rw [if_pos hf, if_pos hf]
    exact ⟨hlt h.2, hlt h.1⟩
  · rename_i hf
    rw [Bool.and_eq_true] at h
    rw [if_neg hf, if_neg hf]
    exact ⟨hlt h.2, hlt h.1⟩

/-- What takes the place of a requirement succeeds it when it has the same strength, and otherwise exactly when it keeps
the band. -/
theorem succeeds_iff_of_outranks {q r : Requirement} (h : Outranks q r) :
    Succeeds q r ↔ q.strength = r.strength ∨ KeepsBand q r := by
  obtain ⟨hkind, h⟩ := h
  constructor
  · rintro ⟨-, hform, hbounds, -⟩
    exact .inr ⟨hform, hbounds⟩
  · rintro hkeeps
    -- either the strength is raised, or it stays and a band is within the other, or the values stay
    rcases h with hraised | ⟨hsame, ⟨hq, hr, hdominates⟩ | ⟨hq, hr, hvalue, hpreferred⟩⟩
    · have hne : q.strength ≠ r.strength := by
        intro heq
        rw [heq] at hraised
        exact lt_irrefl _ hraised
      obtain ⟨hform, hbounds⟩ := hkeeps.resolve_left hne
      -- nothing is stronger than what is required
      have hstrongest : ∀ s : RequirementStrength, ¬RequirementStrength.required.value < s.value := by
        intro s
        cases s <;> decide
      refine ⟨hraised.le, hform, hbounds, fun _ hrequired => ?_⟩
      rw [hrequired] at hraised
      exact absurd hraised (hstrongest _)
    · refine ⟨hsame ▸ le_rfl, hq.trans hr.symm, fun _ => looser_of_dominates (hkind ▸ hdominates), fun hn => ?_⟩
      rw [hr] at hn
      cases hn
    · refine ⟨hsame ▸ le_rfl, hq.trans hr.symm, fun hn => ?_, fun _ _ => ⟨hvalue, hpreferred⟩⟩
      rw [hr] at hn
      cases hn

theorem succeeds_canonicalizeRequirement {q r : Requirement} : Succeeds (canonicalizeRequirement q) r ↔ Succeeds q r := by
  constructor
  · rintro ⟨hstrength, hform, hbounds, htexts⟩
    exact ⟨hstrength, hform, hbounds, htexts⟩
  · rintro ⟨hstrength, hform, hbounds, htexts⟩
    exact ⟨hstrength, hform, hbounds, htexts⟩

section Composed

variable {base : ContractBody} {layers : List OverlayLayer} {maxLayers : Nat}

/-- A composition has the header of its base. -/
theorem compose_header (h : (compose base layers maxLayers).ok = true) :
    (compose base layers maxLayers).body.major = base.major ∧
      (compose base layers maxLayers).body.workload = base.workload := by
  obtain ⟨c, hlayers, -, hbody⟩ := compose_ok h
  rw [hbody]
  show c.body.major = base.major ∧ c.body.workload = base.workload
  rw [applyLayers_body hlayers]
  exact ⟨rfl, rfl⟩

/-- What a composition finds under the key of a requirement of its base. -/
theorem compose_get (h : (compose base layers maxLayers).ok = true) {r : Requirement} (hr : r ∈ base.requirements)
    (hfits : RequirementFits r) :
    Keyed.get Requirement.compositeKey r.compositeKey (compose base layers maxLayers).body.requirements =
      some (canonicalizeRequirement (lastDeclared layers r)) := by
  obtain ⟨-, -, hunique⟩ := compose_requirement h hr hfits
  obtain ⟨hmem, hkey⟩ := (hunique _).2 rfl
  cases hget : Keyed.get Requirement.compositeKey r.compositeKey (compose base layers maxLayers).body.requirements with
  | none => exact absurd (List.mem_map.2 ⟨_, hmem, hkey⟩) (Keyed.get_eq_none_iff.1 hget)
  | some q => rw [(hunique q).1 ⟨Keyed.mem_of_get hget, Keyed.key_of_get hget⟩]

/-- A composition, under a generation ahead of its base, is compatible with the base exactly when what the layers declare
last in place of each requirement has its strength or keeps its band. -/
theorem compose_compatible_iff (hbase : (validateContractBody base).ok = true)
    (hok : (compose base layers maxLayers).ok = true) {generation : ContractGeneration}
    (hahead : base.generation < generation) :
    (checkCompatibility base { (compose base layers maxLayers).body with generation := generation }).compatible = true ↔
      ∀ r ∈ base.requirements, (lastDeclared layers r).strength = r.strength ∨ KeepsBand (lastDeclared layers r) r := by
  obtain ⟨hmajor, hworkload⟩ := compose_header hok
  -- the composition carries a requirement when what it finds under its key succeeds it
  have hcarries : ∀ r ∈ base.requirements,
      (Carries { (compose base layers maxLayers).body with generation := generation } r ↔
        (lastDeclared layers r).strength = r.strength ∨ KeepsBand (lastDeclared layers r) r) := by
    intro r hr
    have hfits := requirementFits_of_valid hbase hr
    rw [← succeeds_iff_of_outranks (compose_requirement hok hr hfits).1, ← succeeds_canonicalizeRequirement]
    unfold Carries
    rw [compose_get hok hr hfits]
  rw [compatible_spec]
  constructor
  · rintro ⟨-, -, -, h⟩ r hr
    exact (hcarries r hr).1 (h r hr)
  · intro h
    exact ⟨hmajor.symm, by rw [hworkload], hahead, fun r hr => (hcarries r hr).2 (h r hr)⟩

end Composed

/-- A required latency of 90 in place of a preferred one of 100. -/
theorem compose_compatible_iff_latency : (checkCompatibility latencyBase
    { (compose latencyBase [latencyLayer 90] 16).body with generation := 2 }).compatible = true := by
  refine (compose_compatible_iff (by decide +kernel) (by decide +kernel) (by decide)).2 fun r hr => .inr ?_
  obtain rfl := List.mem_singleton.1 hr
  exact ⟨by decide +kernel, fun _ => by decide +kernel⟩

end Wnc
