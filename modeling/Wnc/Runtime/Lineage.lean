/-
Compatibility over the whole history of a workload: the check at publication compares a generation with the one
it supersedes, and holds of every later pair as well in the histories whose publications readmit what was dropped
before them.
-/
import Wnc.Runtime.Acceptance
import Wnc.Runtime.Admission
import Wnc.Runtime.Conditional
import Wnc.Runtime.Continuity
import Wnc.Runtime.Counters

namespace Wnc

open Lib

/-! ## Compatibility and documents -/

theorem documentedReal_lt (a b : Double) : (documentedReal a).lt (documentedReal b) = a.lt b := by
  unfold Double.lt
  rw [(documentedReal_spec a).1, (documentedReal_spec a).2, (documentedReal_spec b).1, (documentedReal_spec b).2]

theorem succeeds_documented {q r : Requirement} : Succeeds q.documented r.documented ↔ Succeeds q r := by
  have hbounds : q.hasNumeric = r.hasNumeric → r.hasNumeric = true →
      (looser r.kind q.documented.minimum r.documented.minimum = looser r.kind q.minimum r.minimum ∧
        looser r.kind q.documented.target r.documented.target = looser r.kind q.target r.target) := by
    intro hform hn
    unfold Requirement.documented looser
    simp only [hform, hn, if_true, documentedReal_lt, and_self]
  constructor
  · intro h
    have hform : q.hasNumeric = r.hasNumeric := h.form
    exact ⟨h.strength, hform, fun hn => (hbounds hform hn).1 ▸ (hbounds hform hn).2 ▸ h.bounds hn, h.texts⟩
  · intro h
    refine ⟨h.strength, h.form, fun hn => ?_, h.texts⟩
    obtain ⟨hm, ht⟩ := hbounds h.form hn
    exact ⟨hm.trans (h.bounds hn).1, ht.trans (h.bounds hn).2⟩

theorem carries_documented {b : ContractBody} {r : Requirement} : Carries b.documented r.documented ↔ Carries b r := by
  have hget : Keyed.get Requirement.compositeKey r.documented.compositeKey b.documented.requirements =
      (Keyed.get Requirement.compositeKey r.compositeKey b.requirements).map Requirement.documented := by
    unfold Keyed.get ContractBody.documented
    rw [List.find?_map]
    rfl
  have hscopes : (∃ s ∈ b.documented.scopes, s.name = r.scope) ↔ ∃ s ∈ b.scopes, s.name = r.scope := by
    unfold ContractBody.documented
    simp only [List.mem_map, exists_exists_and_eq_and]
    rfl
  unfold Carries
  rw [hget]
  cases Keyed.get Requirement.compositeKey r.compositeKey b.requirements with
  | none => exact and_congr_right fun _ => hscopes
  | some q => exact succeeds_documented

theorem compatible_documented {a b : ContractBody} :
    (checkCompatibility a.documented b.documented).compatible = true ↔ (checkCompatibility a b).compatible = true := by
  have hcarries : (∀ r ∈ a.documented.requirements, Carries b.documented r) ↔ ∀ r ∈ a.requirements, Carries b r := by
    show (∀ r ∈ a.requirements.map Requirement.documented, Carries b.documented r) ↔ _
    simp only [List.mem_map, forall_exists_index, and_imp, forall_apply_eq_imp_iff₂, carries_documented]
  rw [compatible_spec, compatible_spec]
  exact ⟨fun h => ⟨h.major, h.workload, h.generation, hcarries.1 h.carries⟩,
    fun h => ⟨h.major, h.workload, h.generation, hcarries.2 h.carries⟩⟩

theorem regular_documented {b : ContractBody} : Regular b.documented ↔ Regular b := by
  have hform : (∀ r ∈ b.documented.requirements, r.hasNumeric = kindIsNumeric r.kind) ↔
      ∀ r ∈ b.requirements, r.hasNumeric = kindIsNumeric r.kind := by
    show (∀ r ∈ b.requirements.map Requirement.documented, r.hasNumeric = kindIsNumeric r.kind) ↔ _
    simp only [List.mem_map, forall_exists_index, and_imp, forall_apply_eq_imp_iff₂]
    rfl
  exact ⟨fun h => ⟨sane_documented.1 h.sane, hform.1 h.form⟩, fun h => ⟨sane_documented.2 h.sane, hform.2 h.form⟩⟩

/-! ## Generations that are compatible with every later one -/

/-- Every generation is compatible with every later one. -/
def WorkloadState.Lineal (w : WorkloadState) : Prop :=
  ∀ (i j : Nat) (g h : GenerationRecord), i < j → w.generations[i]? = some g → w.generations[j]? = some h →
    (checkCompatibility g.body.body h.body.body).compatible = true

/-- The same, of generations whose bodies are regular. -/
structure WorkloadState.RegularLine (w : WorkloadState) : Prop where
  regular : ∀ (i : Nat) (g : GenerationRecord), w.generations[i]? = some g → Regular g.body.body
  lineal : w.Lineal

/-- A publication readmits what the current generation dropped of the earlier ones: it keeps the scope of such a
requirement, or declares the requirement again no weaker. -/
def Mutation.Remembers (s : RuntimeState) : Mutation → Prop
  | .publish c => ∀ w current g, s.workloads.find? c.body.workload.id = some w → w.generations.getLast? = some current →
      g ∈ w.generations → ∀ r ∈ g.body.body.requirements,
        r.compositeKey ∉ current.body.body.requirements.map Requirement.compositeKey → Readmits c.body r
  | _ => True

theorem lineal_published {r : Runtime} {c : Contract} {w : WorkloadState} {publisher : PublisherId} (t : UInt64)
    (hm : Mutation.Remembers r.state (.publish c)) (h : Publishable r c w publisher) (hc : w.Chained)
    (hw : w.RegularLine) : (w.publish c t).RegularLine := by
  obtain ⟨last, hlast, hlastAt, hpos⟩ := hc.last
  have hbody := validBody_of_valid h.valid
  have hnew : (checkCompatibility last.body.body c.body).compatible = true := h.compatible last hlast
  refine ⟨fun i g hg => ?_, fun i j g k hij hg hk => ?_⟩
  · rcases getElem?_map_snoc hg with ⟨-, g₀, hg₀, rfl⟩ | ⟨-, rfl⟩
    · exact hw.regular i g₀ hg₀
    · exact regular_of_validBody hbody
  · rcases getElem?_map_snoc hg with ⟨hi, g₀, hg₀, rfl⟩ | ⟨hi, -⟩
    · rcases getElem?_map_snoc hk with ⟨-, k₀, hk₀, rfl⟩ | ⟨-, rfl⟩
      · exact hw.lineal i j g₀ k₀ hij hg₀ hk₀
      · by_cases hil : i = w.generations.length - 1
        · rw [hil, hlastAt] at hg₀
          cases hg₀
          exact hnew
        · -- through the generation that the new one supersedes
          have hmiddle := hw.lineal i _ g₀ last (by omega) hg₀ hlastAt
          exact (compatible_trans_iff (hw.regular i g₀ hg₀) (hw.regular _ last hlastAt) (regular_of_validBody hbody)
            (compositeKey_nodup_of_valid hbody) hmiddle hnew).2
            (hm w last g₀ h.found hlast (List.mem_of_getElem? hg₀))
    · rcases getElem?_map_snoc hk with ⟨hj, -⟩ | ⟨hj, -⟩ <;> omega

theorem historicWhen_lineal : HistoricWhen Mutation.Remembers WorkloadState.RegularLine where
  ofChain := by
    intro w w' h hchain
    have hgen : ∀ {i : Nat} {g' : GenerationRecord}, w'.generations[i]? = some g' →
        ∃ g, w.generations[i]? = some g ∧ g.body.body.documented = g'.body.body.documented := by
      intro i g' hg'
      obtain ⟨g, hg, hcore⟩ := WorkloadState.generation_of_chain hchain hg'
      exact ⟨g, hg, (GenerationRecord.alike_of_core hcore).body⟩
    refine ⟨fun i g' hg' => ?_, fun i j g' k' hij hg' hk' => ?_⟩
    · obtain ⟨g, hg, hbody⟩ := hgen hg'
      rw [← regular_documented, ← hbody, regular_documented]
      exact h.regular i g hg
    · obtain ⟨g, hg, hgbody⟩ := hgen hg'
      obtain ⟨k, hk, hkbody⟩ := hgen hk'
      rw [← compatible_documented, ← hgbody, ← hkbody, compatible_documented]
      exact h.lineal i j g k hij hg hk
  registered := by
    intro r c t h
    refine ⟨fun i g hg => ?_, fun i j g k hij hg hk => ?_⟩
    · obtain ⟨-, rfl⟩ := getElem?_singleton_eq hg
      exact regular_of_validBody (validBody_of_valid h.valid)
    · obtain ⟨rfl, -⟩ := getElem?_singleton_eq hk
      exact absurd hij (Nat.not_lt_zero i)
  published _ _ _ _ t hm h hc hw := lineal_published t hm h hc hw

/-- In every history whose publications readmit what was dropped before them, every generation of a workload is
compatible with every later one. -/
theorem history_lineal {s₀ s : System} {events : List Event} (hstart : s₀.Started)
    (hrun : Run System.Step (System.Meeting Mutation.Remembers) s₀ events s) :
    s.runtime.state.workloads.All WorkloadState.Lineal :=
  fun id w hw => (historicWhen_lineal.run hstart hrun id w hw).lineal

/-! ## A requirement that comes back weaker -/

/-- The generation that drops the locality. -/
def droppingContract : Contract := supersedingContract preferringContract (securityBody 2 .informational)

/-- The generation that has the locality again, and no longer prefers it. -/
def weakerContract : Contract := supersedingContract droppingContract (localityBody 3 .informational)

set_option maxRecDepth 100000 in
theorem dropping_supersedes : Supersedes preferringContract droppingContract :=
  ContractBody.Sole.supersedes ⟨by decide +kernel, ⟨_, rfl, by decide +kernel⟩, by decide +kernel⟩ (by decide +kernel)
    rfl rfl (by decide) rfl (by decide +kernel) (by decide +kernel)

set_option maxRecDepth 100000 in
theorem weaker_supersedes : Supersedes droppingContract weakerContract :=
  ContractBody.Sole.supersedes ⟨by decide +kernel, ⟨_, rfl, by decide +kernel⟩, by decide +kernel⟩ (by decide +kernel)
    rfl rfl (by decide) rfl (by decide +kernel) (by decide +kernel)

/-- The history in which the locality is preferred, dropped, and no longer preferred. -/
theorem weaker_history : ∃ s₀ : System, s₀.Started ∧
    let registered := s₀.mutate undisturbed (.registerWorkload preferringContract)
    let dropped := registered.mutate undisturbed (.publish droppingContract)
    let weaker := dropped.mutate undisturbed (.publish weakerContract)
    let first := registeredWorkload preferringContract 1
    registered.runtime.Current first preferringContract 14 ∧
      dropped.runtime.Current (first.publish droppingContract 1) droppingContract 13 ∧
      weaker.runtime.Current ((first.publish droppingContract 1).publish weakerContract 1) weakerContract 12 := by
  obtain ⟨opened, -, -, hopen, -⟩ := isolationBoot_spec
  have hblank := openRuntime_blank hopen
  refine ⟨⟨opened.1, opened.2, [], []⟩, started_of_fresh hopen, ?_⟩
  have hregistered := System.current_register (s := ⟨opened.1, opened.2, [], []⟩) hblank preferringContract_workload
    preferringContract_signed preferringContract_checks.1 rfl rfl preferringContract_checks.2
  have hdropped := System.current_publish hregistered dropping_supersedes (by decide)
  exact ⟨hregistered, hdropped, System.current_publish hdropped weaker_supersedes (by decide)⟩

/-- The generation that has the locality again as it was preferred. -/
def readmittingContract : Contract := supersedingContract droppingContract (localityBody 3 .preferred)

set_option maxRecDepth 100000 in
theorem readmitting_checks : Supersedes droppingContract readmittingContract ∧
    (checkCompatibility preferringContract.body readmittingContract.body).compatible = true :=
  ⟨ContractBody.Sole.supersedes ⟨by decide +kernel, ⟨_, rfl, by decide +kernel⟩, by decide +kernel⟩ (by decide +kernel)
    rfl rfl (by decide) rfl (by decide +kernel) (by decide +kernel), by decide +kernel⟩

/-- A history in which the locality is dropped, and comes back as it was. -/
theorem history_lineal_readmitted : ∃ (s : System) (w : WorkloadState),
    s.runtime.state.workloads.find? (.repeating 1) = some w ∧ w.generations.length = 3 ∧ w.Lineal := by
  obtain ⟨s₀, hstart, hregistered, hdropped, -⟩ := weaker_history
  have hreadmitted := System.current_publish hdropped readmitting_checks.1 (by decide)
  have hdropping : Mutation.Remembers (s₀.mutate undisturbed (.registerWorkload preferringContract)).runtime.state
      (.publish droppingContract) := by
    intro w current g hw hcurrent hg r hr hdropped'
    rw [show droppingContract.body.workload.id = .repeating 1 from rfl, hregistered.found] at hw
    cases hw
    -- the only generation is the current one
    cases hcurrent
    rw [List.mem_singleton.1 hg] at hr
    exact absurd (List.mem_map_of_mem hr) hdropped'
  have hreadmits : Mutation.Remembers ((s₀.mutate undisturbed (.registerWorkload preferringContract)).mutate undisturbed
      (.publish droppingContract)).runtime.state (.publish readmittingContract) := by
    intro w current g hw hcurrent hg r hr hdropped'
    rw [show readmittingContract.body.workload.id = .repeating 1 from rfl, hdropped.found] at hw
    cases hw
    cases hcurrent
    rcases List.mem_cons.1 hg with rfl | hg
    · have hlast := validBody_of_valid readmitting_checks.1.valid
      exact (compatible_trans_iff (regular_of_validBody (validBody_of_valid preferringContract_checks.1))
        (regular_of_validBody (validBody_of_valid dropping_supersedes.valid)) (regular_of_validBody hlast)
        (compositeKey_nodup_of_valid hlast) dropping_supersedes.compatible readmitting_checks.1.compatible).1
        readmitting_checks.2 r hr hdropped'
    · rw [List.mem_singleton.1 hg] at hr
      exact absurd (List.mem_map_of_mem hr) hdropped'
  have hrun : Run System.Step (System.Meeting Mutation.Remembers) s₀
      [.mutate undisturbed (.registerWorkload preferringContract), .mutate undisturbed (.publish droppingContract),
        .mutate undisturbed (.publish readmittingContract)] _ :=
    .cons (fun _ => trivial) (.mutate _ _ _) (.cons (fun _ => hdropping) (.mutate _ _ _)
      (.cons (fun _ => hreadmits) (.mutate _ _ _) (.nil _)))
  exact ⟨_, _, hreadmitted.found, rfl, history_lineal hstart hrun _ _ hreadmitted.found⟩

set_option maxRecDepth 100000 in
/-- Each generation of that history is accepted, and the last is not compatible with the first. -/
theorem history_not_lineal : ¬∀ (s₀ s : System) (events : List Event), s₀.Started →
    Run System.Step (fun _ _ => True) s₀ events s → s.runtime.state.workloads.All WorkloadState.Lineal := by
  intro h
  obtain ⟨s₀, hstart, -, -, hweaker⟩ := weaker_history
  have hrun : Run System.Step (fun _ _ => True) s₀
      [.mutate undisturbed (.registerWorkload preferringContract), .mutate undisturbed (.publish droppingContract),
        .mutate undisturbed (.publish weakerContract)] _ :=
    .cons trivial (.mutate _ _ _) (.cons trivial (.mutate _ _ _) (.cons trivial (.mutate _ _ _) (.nil _)))
  have hcompatible := h _ _ _ hstart hrun _ _ hweaker.found 0 2 _ _ (by decide) rfl rfl
  have hincompatible : (checkCompatibility preferringContract.body weakerContract.body).compatible = false := by
    decide +kernel
  exact absurd (hincompatible.symm.trans hcompatible) (by decide)

end Wnc
