/-
What the policy gate lets through: a contract that a runtime accepts respects the installed policy exactly when
every violation found room in the log of the check, and the bounds of the rules are numbers.
-/
import Wnc.Policy.Succession
import Wnc.Runtime.Floor

namespace Wnc

open Lib

/-- The contract that a mutation submits. -/
def Mutation.submitted : Mutation → Option Contract
  | .registerWorkload c => some c
  | .publish c => some c
  | _ => none

section Gate

variable {r : Runtime} {c : Contract} {policy : Policy}

theorem checkPolicy_ok {u : Unit} {s : RuntimeState} (h : Runtime.checkPolicy c s = .ok u) (hp : s.policy = some policy) :
    (checkContractAgainstPolicy policy c.body).ok = true := by
  unfold Runtime.checkPolicy at h
  simp only [hp] at h
  split at h
  · cases h
  · split at h
    · cases h
    · rename_i hok
      simpa using hok

/-- A registration that passed its checks passed the gate. -/
theorem planRegistration_gated {u : Unit} (h : Runtime.planRegistration c r = .ok u) :
    Runtime.checkPolicy c r.state = .ok () := by
  simp only [Runtime.planRegistration, bind_eq_ok] at h
  obtain ⟨_, _, _, _, _, _, _, _, _, hpolicy, _⟩ := h
  exact hpolicy

/-- So did a publication. -/
theorem planPublication_gated {planned : WorkloadState × PublisherId} (h : Runtime.planPublication c r = .ok planned) :
    Runtime.checkPolicy c r.state = .ok () := by
  unfold Runtime.planPublication at h
  simp only [bind_eq_ok] at h
  obtain ⟨_, -, h⟩ := h
  cases hfind : r.state.workloads.find? c.body.workload.id with
  | none =>
    rw [hfind] at h
    obtain ⟨_, hnone, _⟩ := bind_eq_ok.1 h
    cases hnone
  | some w =>
    rw [hfind] at h
    simp only [bind_eq_ok, Except.ok.injEq, exists_eq_left'] at h
    obtain ⟨_, _, _, _, _, _, _, _, _, _, _, _, _, _, _, hpolicy, _⟩ := h
    exact hpolicy

/-- A contract that is accepted is well formed and passed the check against the installed policy. -/
theorem submitted_permitted {around : Surroundings} {m : Mutation} {p : Planned} (hplan : m.plan around r = .ok p)
    (hm : m.submitted = some c) (hp : r.state.policy = some policy) :
    (checkContractAgainstPolicy policy c.body).ok = true ∧ ∀ q ∈ c.body.requirements, RequirementFits q := by
  cases m with
  | registerWorkload c' =>
    obtain rfl : c' = c := Option.some.inj hm
    rw [Mutation.plan] at hplan
    obtain ⟨u, hplanned, -⟩ := except_map_eq_ok.1 hplan
    exact ⟨checkPolicy_ok (planRegistration_gated hplanned) hp, (valid_spec (planRegistration_ok hplanned).valid).2⟩
  | publish c' =>
    obtain rfl : c' = c := Option.some.inj hm
    rw [Mutation.plan] at hplan
    obtain ⟨planned, hplanned, -⟩ := except_map_eq_ok.1 hplan
    exact ⟨checkPolicy_ok (planPublication_gated hplanned) hp, (valid_spec (planPublication_ok hplanned).valid).2⟩
  | attachEvidence _ => cases hm
  | installPolicy _ => cases hm
  | retire _ => cases hm

theorem plan_of_accepted {around : Surroundings} {m : Mutation} {dir : Directory}
    (h : (m.perform around r dir).1.ok = true) : ∃ p, m.plan around r = .ok p := by
  rcases Mutation.perform_cases around r dir m with ⟨f, -, hrefused, -⟩ | ⟨p, hplan, -⟩
  · rw [hrefused] at h
    cases h
  · exact ⟨p, hplan⟩

end Gate

/-- What an accepted contract requires respects the installed policy exactly when no violation came behind a full
log and the bounds of every rule that applies are numbers. -/
theorem accepted_respects_iff {r : Runtime} {dir : Directory} {around : Surroundings} {m : Mutation} {c : Contract}
    {policy : Policy} (hp : r.state.policy = some policy) (hm : m.submitted = some c)
    (haccepted : (m.perform around r dir).1.ok = true) :
    (∀ q ∈ c.body.requirements, Respects policy q) ↔
      ViolationsLogged policy c.body ∧ ∀ q ∈ c.body.requirements, ∀ rule ∈ policy.rules,
        ruleApplies rule q = true → numericBounds rule q = true := by
  obtain ⟨p, hplan⟩ := plan_of_accepted haccepted
  obtain ⟨hpermitted, hfits⟩ := submitted_permitted hplan hm hp
  rw [← not_violates_iff_logged hpermitted, ← forall₂_and]
  exact forall₂_congr fun q hq => respects_iff (hfits q hq)

/-! ## A rule without numbers -/

def notANumber : Double := ⟨false, Double.infinityMagnitude + 1, by decide⟩

/-- A contract that requires a bandwidth of zero. -/
def bandwidthContract : Contract :=
  signed domainRegistration (canonicalize
    { body := { isolationBody 1 with
        requirements := [{ scope := utf8 "s", kind := .minBandwidth, hasNumeric := true }] } })

/-- A policy whose bounds on bandwidths are no numbers. -/
def boundless : Policy :=
  { generation := 1
    rules := [
      { kind := .minBandwidth
        minTarget := notANumber
        maxTarget := notANumber
        minMinimum := notANumber
        maxMinimum := notANumber }] }

theorem bandwidthContract_signed : ∃ c, bandwidthContract = signed domainRegistration c := ⟨_, rfl⟩

set_option maxRecDepth 100000 in
theorem bandwidthContract_checks : (validateContract bandwidthContract).ok = true ∧
    (Runtime.registrationPayload 1 bandwidthContract).dump.length ≤ Ledger.maxRecordBytes :=
  ⟨ContractBody.Sole.valid ⟨by decide +kernel, ⟨_, rfl, by decide +kernel⟩, by decide +kernel⟩ (.inl ⟨rfl, rfl⟩) _,
    (Json.length_dump_le _).trans (by decide +kernel)⟩

set_option maxRecDepth 100000 in
theorem boundless_checks : (validatePolicy boundless).ok = true ∧
    (Runtime.policyPayload 1 boundless).dump.length ≤ Ledger.maxRecordBytes ∧
    (checkContractAgainstPolicy boundless bandwidthContract.body).ok = true :=
  ⟨by decide +kernel, (Json.length_dump_le _).trans (by decide +kernel), by decide +kernel⟩

set_option maxRecDepth 100000 in
/-- The rule applies to the requirement, and permits nothing. -/
theorem boundless_violated : ∃ q ∈ bandwidthContract.body.requirements, ¬ Respects boundless q := by
  have h : (bandwidthContract.body.requirements.any fun q => boundless.rules.any fun rule =>
      ruleApplies rule q && !permits rule q) = true := by decide +kernel
  obtain ⟨q, hq, hviolated⟩ := List.any_eq_true.1 h
  obtain ⟨rule, hrule, hviolated⟩ := List.any_eq_true.1 hviolated
  rw [Bool.and_eq_true, Bool.not_eq_true'] at hviolated
  refine ⟨q, hq, fun hrespects => ?_⟩
  rw [hrespects rule hrule hviolated.1] at hviolated
  cases hviolated.2

/-- The boot in which the policy is installed and the contract registered: both are accepted. -/
theorem boundlessBoot_spec : ∃ opened installed : Runtime × Directory,
    openRuntime .succeeds { trust := isolationTrust } .zero 0 (.fresh (utf8 "state")) = (.ok opened.1, opened.2) ∧
      BootStep opened (undisturbed, .installPolicy boundless) installed ∧
      installed.1.state.policy = some boundless ∧
      ((Mutation.registerWorkload bandwidthContract).perform undisturbed installed.1 installed.2).1.ok = true ∧
      ∃ q ∈ bandwidthContract.body.requirements, ¬ Respects boundless q := by
  obtain ⟨r, head, hopen, hblank, -⟩ :=
    openRuntime_fresh { trust := isolationTrust } .zero 0 (show utf8 "state" ≠ [] by decide +kernel)
  have hplan : (Mutation.installPolicy boundless).plan undisturbed r = .ok
      ⟨.policyInstalled, Runtime.policyPayload 1 boundless, r.state.installPolicy boundless⟩ := by
    rw [Mutation.plan, planPolicy_of boundless_checks.1 hblank.policy]
    rfl
  generalize hinstall : ((Mutation.installPolicy boundless).perform undisturbed r ⟨utf8 "state", head, none, .empty⟩).2 =
    installed
  obtain ⟨-, l, hafter, hroom⟩ := Mutation.perform_accepted rfl hblank.room hplan boundless_checks.2.1
    ⟨utf8 "state", head, none, .empty⟩
  rw [hinstall] at hafter
  have hpolicy : installed.1.state.policy = some boundless := by
    rw [hafter]
    rfl
  have hgate : Runtime.checkPolicy bandwidthContract installed.1.state = .ok () := by
    rw [hafter]
    exact checkPolicy_of rfl rfl boundless_checks.2.2
  have hnew : installed.1.state.workloads.find? bandwidthContract.body.workload.id = none := by
    rw [hafter]
    show (r.state.workloads.mapVal _).find? _ = none
    rw [hblank.workloads]
    rfl
  refine ⟨⟨r, _⟩, installed, hopen, hinstall, hpolicy, ?_, boundless_violated⟩
  exact (Mutation.registers (by rw [hafter]; exact hblank.trust) (by rw [hafter]; exact hroom) hnew hgate
    bandwidthContract_signed bandwidthContract_checks.1 rfl rfl bandwidthContract_checks.2 installed.2).1

theorem accepted_respects_iff_boundless : ∃ installed : Runtime × Directory,
    installed.1.state.policy = some boundless ∧
      ((∀ q ∈ bandwidthContract.body.requirements, Respects boundless q) ↔
        ViolationsLogged boundless bandwidthContract.body ∧ ∀ q ∈ bandwidthContract.body.requirements,
          ∀ rule ∈ boundless.rules, ruleApplies rule q = true → numericBounds rule q = true) := by
  obtain ⟨_, installed, -, -, hpolicy, haccepted, -⟩ := boundlessBoot_spec
  exact ⟨installed, hpolicy, @accepted_respects_iff _ _ _ (.registerWorkload bandwidthContract) _ _ hpolicy rfl haccepted⟩

/-- Whether the gate lets through only what respects the installed policy, in every state of every history. -/
def GateSound : Prop :=
  ∀ (s₀ s : System) (events : List Event) (policy : Policy) (around : Surroundings) (m : Mutation) (c : Contract),
    s₀.Started → Run System.Step (fun _ _ => True) s₀ events s → s.runtime.state.policy = some policy →
    m.submitted = some c → (m.perform around s.runtime s.dir).1.ok = true →
    ∀ q ∈ c.body.requirements, Respects policy q

theorem not_gateSound {options : Options} {path : Bytes} {opened installed : Runtime × Directory}
    {around : Surroundings} {policy : Policy} {c : Contract} {q : Requirement}
    (hopen : openRuntime .succeeds options .zero 0 (.fresh path) = (.ok opened.1, opened.2))
    (hinstall : BootStep opened (around, .installPolicy policy) installed)
    (hpolicy : installed.1.state.policy = some policy)
    (haccepted : ((Mutation.registerWorkload c).perform around installed.1 installed.2).1.ok = true)
    (hq : q ∈ c.body.requirements) (hviolated : ¬ Respects policy q) : ¬ GateSound := by
  intro h
  unfold BootStep at hinstall
  subst hinstall
  have hrun : Run System.Step (fun _ _ => True) ⟨opened.1, opened.2, [], []⟩ [.mutate around (.installPolicy policy)]
      (System.mutate ⟨opened.1, opened.2, [], []⟩ around (.installPolicy policy)) :=
    .cons trivial (.mutate _ _ _) (.nil _)
  refine hviolated (h _ _ _ policy around (.registerWorkload c) c (started_of_fresh hopen) hrun ?_ rfl ?_ q hq)
  · simpa only [System.mutate_runtime] using hpolicy
  · simpa only [System.mutate_runtime, System.mutate_dir] using haccepted

/-- No bandwidth lies between bounds that are no numbers, and yet the contract that requires one is accepted. -/
theorem accepts_boundless : ¬ GateSound := by
  obtain ⟨opened, installed, hopen, hinstall, hpolicy, haccepted, q, hq, hviolated⟩ := boundlessBoot_spec
  exact not_gateSound hopen hinstall hpolicy haccepted hq hviolated

/-! ## Contracts that the policy permits -/

/-- The same runtime without a policy. -/
def Runtime.ungoverned (r : Runtime) : Runtime := { r with state := { r.state with policy := none } }

section Permitted

variable {r : Runtime} {c : Contract}

/-- A registration passes exactly when it passes the gate and would pass without a policy. -/
theorem planRegistration_gate : (∃ u, Runtime.planRegistration c r = .ok u) ↔
    Runtime.checkPolicy c r.state = .ok () ∧ ∃ u, Runtime.planRegistration c r.ungoverned = .ok u := by
  have hsame : Runtime.checkPolicy c r.state = .ok () →
      Runtime.planRegistration c r = Runtime.planRegistration c r.ungoverned := by
    -- no other check looks at the policy
    intro hgate
    unfold Runtime.planRegistration
    rw [hgate]
    rfl
  constructor
  · rintro ⟨u, h⟩
    have hgate := planRegistration_gated h
    exact ⟨hgate, u, hsame hgate ▸ h⟩
  · rintro ⟨hgate, u, h⟩
    exact ⟨u, (hsame hgate).trans h⟩

/-- So does a publication. -/
theorem planPublication_gate : (∃ planned, Runtime.planPublication c r = .ok planned) ↔
    Runtime.checkPolicy c r.state = .ok () ∧ ∃ planned, Runtime.planPublication c r.ungoverned = .ok planned := by
  have hsame : Runtime.checkPolicy c r.state = .ok () →
      Runtime.planPublication c r = Runtime.planPublication c r.ungoverned := by
    intro hgate
    unfold Runtime.planPublication
    rw [hgate]
    rfl
  constructor
  · rintro ⟨planned, h⟩
    have hgate := planPublication_gated h
    exact ⟨hgate, planned, hsame hgate ▸ h⟩
  · rintro ⟨hgate, planned, h⟩
    exact ⟨planned, (hsame hgate).trans h⟩

theorem exists_map_eq_ok {ε α β : Type} {x : Except ε α} {f : α → β} :
    (∃ b, x.map f = .ok b) ↔ ∃ a, x = .ok a := by
  cases x with
  | error e => simp [Except.map]
  | ok a => simp [Except.map]

/-- Whatever submits a contract passes exactly when it passes the gate and would pass without a policy. -/
theorem plan_gate {around : Surroundings} {m : Mutation} (hm : m.submitted = some c) :
    (∃ p, m.plan around r = .ok p) ↔
      Runtime.checkPolicy c r.state = .ok () ∧ ∃ p, m.plan around r.ungoverned = .ok p := by
  cases m with
  | registerWorkload c' =>
    obtain rfl : c' = c := Option.some.inj hm
    simp only [Mutation.plan, exists_map_eq_ok]
    exact planRegistration_gate
  | publish c' =>
    obtain rfl : c' = c := Option.some.inj hm
    simp only [Mutation.plan, exists_map_eq_ok]
    exact planPublication_gate
  | attachEvidence _ => cases hm
  | installPolicy _ => cases hm
  | retire _ => cases hm

theorem checkPolicy_ok_iff {s : RuntimeState} {policy : Policy} (hp : s.policy = some policy)
    (hg : c.body.policyGeneration = s.policyGeneration) :
    Runtime.checkPolicy c s = .ok () ↔ (checkContractAgainstPolicy policy c.body).ok = true := by
  refine ⟨fun h => checkPolicy_ok h hp, fun h => ?_⟩
  unfold Runtime.checkPolicy
  rw [hp]
  simp only [h, Bool.not_true, Bool.false_eq_true, if_false]
  rw [if_neg (not_not.2 hg)]

end Permitted

/-- A body that violates no rule of a policy passes its check, and is refused by no gate behind which the policy is
installed, exactly when the policy has a rule. -/
theorem permitted_accepted_iff {policy : Policy} {body : ContractBody} (h : PermitsBody policy body) :
    ((checkContractAgainstPolicy policy body).ok = true ↔ policy.rules ≠ []) ∧
      ∀ (around : Surroundings) (r : Runtime) (m : Mutation) (c : Contract), r.state.policy = some policy →
        m.submitted = some c → c.body = body → body.policyGeneration = r.state.policyGeneration →
        ((∃ p, m.plan around r = .ok p) ↔ policy.rules ≠ [] ∧ ∃ p, m.plan around r.ungoverned = .ok p) := by
  refine ⟨checkContractAgainstPolicy_of_permits h, ?_⟩
  rintro around r m c hp hm rfl hg
  rw [plan_gate hm, checkPolicy_ok_iff hp hg, checkContractAgainstPolicy_of_permits h]

/-- A policy that lets localities through in any strength. -/
def localityPolicy : Policy := { generation := 1, rules := [{ kind := .locality, allowedValues := [utf8 "rack"] }] }

theorem permitted_accepted_iff_locality :
    (checkContractAgainstPolicy localityPolicy (localityBody 1 .preferred)).ok = true ↔ localityPolicy.rules ≠ [] := by
  refine (permitted_accepted_iff fun r hr rule hrule _ hviolates => ?_).1
  rw [List.mem_singleton.1 hr, List.mem_singleton.1 hrule] at hviolates
  cases hviolates with
  | forbidden h => exact absurd h (by decide)
  | floor h => exact absurd h (by decide)
  | ceiling h => exact absurd h (by decide)
  | target hn h => exact absurd hn (by decide)
  | minimum hn h => exact absurd hn (by decide)
  | value hv h => exact absurd h (by decide)
  | attributes hv hpair h => cases hpair

set_option maxRecDepth 100000 in
/-- A policy without rules passes validation, and no contract passes its check. -/
theorem ruleless_refuses : ¬∀ (policy : Policy) (body : ContractBody), (validatePolicy policy).ok = true →
    (validateContractBody body).ok = true → PermitsBody policy body →
    (checkContractAgainstPolicy policy body).ok = true := by
  intro h
  have hok := h { generation := 1 } (localityBody 1 .preferred) (by decide +kernel) (by decide +kernel)
    (fun r hr rule hrule => absurd hrule List.not_mem_nil)
  exact absurd hok (by decide)

end Wnc
