/-
One boot of a runtime: the mutations that a caller can make after an open, in any order and whatever becomes of
their appends, and what holds of every evaluation meanwhile. Restored evidence stays without effect until new
evidence is attached; evidence that was attached keeps its effect however old it grows.
-/
import Wnc.Lib.Run
import Wnc.Runtime.Evaluate
import Wnc.Runtime.Recovery

namespace Wnc

open Lib

/-! ## Mutations -/

/-- Of the runtime an append changes the ledger alone. -/
theorem Runtime.commit_eq (io : State.AppendIo) (type : Ledger.RecordType) (payload : Json) (r : Runtime)
    (dir : Directory) : ∃ result l dir', r.commit io type payload dir = (result, { r with ledger := l }, dir') := by
  unfold commit
  simp only
  split
  · exact ⟨_, r.ledger, dir, rfl⟩
  · exact ⟨_, _, _, rfl⟩

/-- What a caller can ask of an open runtime to change. -/
inductive Mutation
  | registerWorkload (submitted : Contract)
  | publish (submitted : Contract)
  | attachEvidence (submitted : EvidenceSet)
  | installPolicy (policy : Policy)
  | retire (workload : WorkloadId)

/-- What a mutation that passed its checks is about to do: the record it appends and the state behind it. -/
structure Planned where
  type : Ledger.RecordType
  payload : Json
  state : RuntimeState

namespace Mutation

def isAttachment : Mutation → Bool
  | .attachEvidence _ => true
  | _ => false

/-- A mutation made through the runtime. -/
def perform (around : Surroundings) (r : Runtime) (dir : Directory) : Mutation → MutationResult × Runtime × Directory
  | .registerWorkload c => match r.registerWorkload around c dir with
    | (result, r, dir) => (result.toMutationResult, r, dir)
  | .publish c => match r.publish around c dir with
    | (result, r, dir) => (result.toMutationResult, r, dir)
  | .attachEvidence e => match r.attachEvidence around e dir with
    | (result, r, dir) => (result.toMutationResult, r, dir)
  | .installPolicy p => match r.installPolicy around p dir with
    | (result, r, dir) => (result.toMutationResult, r, dir)
  | .retire id => r.retire around id dir

/-- The checks of a mutation and the change they lead to. -/
def plan (around : Surroundings) (r : Runtime) : Mutation → Except Failure Planned
  | .registerWorkload c => (Runtime.planRegistration c r).map fun _ =>
      ⟨.workloadRegistered, Runtime.registrationPayload (around.clock 0) c, r.state.register c (around.clock 1)⟩
  | .publish c => (Runtime.planPublication c r).map fun planned =>
      ⟨.contractPublished, Runtime.publicationPayload (around.clock 0) planned.2 c,
        r.state.publish planned.1 c (around.clock 1)⟩
  | .attachEvidence e => (Runtime.planEvidence e r).map fun _ =>
      ⟨.evidenceAttached, Runtime.evidencePayload (around.clock e.entries.length) (e.stamp r.info around.clock),
        r.state.attach (e.stamp r.info around.clock)⟩
  | .installPolicy p => (Runtime.planPolicy p r).map fun _ =>
      ⟨.policyInstalled, Runtime.policyPayload (around.clock 0) p, r.state.installPolicy p⟩
  | .retire id => (Runtime.planRetirement id r).map fun w =>
      ⟨.workloadRetired, Runtime.retirementPayload (around.clock 0) id, r.state.retire w id⟩

/-- Every mutation plans, appends its record, and only then changes the state. -/
theorem perform_cases (around : Surroundings) (r : Runtime) (dir : Directory) (m : Mutation) :
    (∃ f, m.plan around r = .error f ∧ (m.perform around r dir).1.ok = false ∧
        (m.perform around r dir).2 = (r, dir)) ∨
      ∃ p, m.plan around r = .ok p ∧
        ((∃ f l dir', r.commit around.io p.type p.payload dir = (.error f, { r with ledger := l }, dir') ∧
            (m.perform around r dir).1.ok = false ∧ (m.perform around r dir).2 = ({ r with ledger := l }, dir')) ∨
          ∃ n l dir', r.commit around.io p.type p.payload dir = (.ok n, { r with ledger := l }, dir') ∧
            (m.perform around r dir).1.ok = true ∧
            (m.perform around r dir).2 = ({ r with state := p.state, ledger := l }, dir')) := by
  cases m with
  | registerWorkload c =>
    cases hplan : Runtime.planRegistration c r with
    | error f => exact .inl ⟨f, by simp only [plan, hplan, Except.map], by simp only [perform, Runtime.registerWorkload, hplan]; rfl,
        by simp only [perform, Runtime.registerWorkload, hplan]⟩
    | ok u =>
      refine .inr ⟨_, by simp only [plan, hplan, Except.map]; rfl, ?_⟩
      obtain ⟨result, l, dir', hcommit⟩ := r.commit_eq around.io .workloadRegistered
        (Runtime.registrationPayload (around.clock 0) c) dir
      simp only [hcommit, perform, Runtime.registerWorkload, hplan]
      cases result with
      | error f => exact .inl ⟨f, l, dir', rfl, rfl, rfl⟩
      | ok n => exact .inr ⟨n, l, dir', rfl, rfl, rfl⟩
  | publish c =>
    cases hplan : Runtime.planPublication c r with
    | error f => exact .inl ⟨f, by simp only [plan, hplan, Except.map], by simp only [perform, Runtime.publish, hplan]; rfl,
        by simp only [perform, Runtime.publish, hplan]⟩
    | ok planned =>
      refine .inr ⟨_, by simp only [plan, hplan, Except.map]; rfl, ?_⟩
      obtain ⟨result, l, dir', hcommit⟩ := r.commit_eq around.io .contractPublished
        (Runtime.publicationPayload (around.clock 0) planned.2 c) dir
      simp only [hcommit, perform, Runtime.publish, hplan]
      cases result with
      | error f => exact .inl ⟨f, l, dir', rfl, rfl, rfl⟩
      | ok n => exact .inr ⟨n, l, dir', rfl, rfl, rfl⟩
  | attachEvidence e =>
    cases hplan : Runtime.planEvidence e r with
    | error f => exact .inl ⟨f, by simp only [plan, hplan, Except.map], by simp only [perform, Runtime.attachEvidence, hplan]; rfl,
        by simp only [perform, Runtime.attachEvidence, hplan]⟩
    | ok u =>
      refine .inr ⟨_, by simp only [plan, hplan, Except.map]; rfl, ?_⟩
      obtain ⟨result, l, dir', hcommit⟩ := r.commit_eq around.io .evidenceAttached
        (Runtime.evidencePayload (around.clock e.entries.length) (e.stamp r.info around.clock)) dir
      simp only [hcommit, perform, Runtime.attachEvidence, hplan]
      cases result with
      | error f => exact .inl ⟨f, l, dir', rfl, rfl, rfl⟩
      | ok n => exact .inr ⟨n, l, dir', rfl, rfl, rfl⟩
  | installPolicy p =>
    cases hplan : Runtime.planPolicy p r with
    | error f => exact .inl ⟨f, by simp only [plan, hplan, Except.map], by simp only [perform, Runtime.installPolicy, hplan]; rfl,
        by simp only [perform, Runtime.installPolicy, hplan]⟩
    | ok u =>
      refine .inr ⟨_, by simp only [plan, hplan, Except.map]; rfl, ?_⟩
      obtain ⟨result, l, dir', hcommit⟩ := r.commit_eq around.io .policyInstalled
        (Runtime.policyPayload (around.clock 0) p) dir
      simp only [hcommit, perform, Runtime.installPolicy, hplan]
      cases result with
      | error f => exact .inl ⟨f, l, dir', rfl, rfl, rfl⟩
      | ok n => exact .inr ⟨n, l, dir', rfl, rfl, rfl⟩
  | retire id =>
    cases hplan : Runtime.planRetirement id r with
    | error f => exact .inl ⟨f, by simp only [plan, hplan, Except.map], by simp only [perform, Runtime.retire, hplan]; rfl,
        by simp only [perform, Runtime.retire, hplan]⟩
    | ok w =>
      refine .inr ⟨_, by simp only [plan, hplan, Except.map]; rfl, ?_⟩
      obtain ⟨result, l, dir', hcommit⟩ := r.commit_eq around.io .workloadRetired
        (Runtime.retirementPayload (around.clock 0) id) dir
      simp only [hcommit, perform, Runtime.retire, hplan]
      cases result with
      | error f => exact .inl ⟨f, l, dir', rfl, rfl, rfl⟩
      | ok n => exact .inr ⟨n, l, dir', rfl, rfl, rfl⟩

end Mutation

/-! ## What the checks establish -/

section Checks

variable {r : Runtime} {c : Contract}

theorem checkValid_ok {u : Unit} (h : Runtime.checkValid c = .ok u) : (validateContract c).ok = true := by
  unfold Runtime.checkValid at h
  simp only at h
  split at h
  · cases h
  · rename_i hv
    simpa using hv

/-- What a registration that passed its checks is: the first generation of a workload that is not there yet. -/
structure Registrable (r : Runtime) (c : Contract) : Prop where
  valid : (validateContract c).ok = true
  first : c.body.generation = 1
  original : c.hasSupersedes = false
  verified : ∃ v, verifySignature r.trust c.envelope.publisher domainRegistration (submissionBytes c)
    (signatureOf c.envelope) = .ok v
  new : r.state.workloads.find? c.body.workload.id = none

theorem planRegistration_ok {u : Unit} (h : Runtime.planRegistration c r = .ok u) : Registrable r c := by
  simp only [Runtime.planRegistration, bind_eq_ok, require_eq_ok, decide_eq_true_eq, Bool.not_eq_true',
    Option.isNone_iff_eq_none] at h
  obtain ⟨_, hvalid, _, hgeneration, _, hsupersedes, v, hverified, _, hpolicy, hnew⟩ := h
  exact ⟨checkValid_ok hvalid, hgeneration, hsupersedes, ⟨v, hverified⟩, hnew⟩

/-- What a publication that passed its checks goes to: the current generation of a workload, which it supersedes
under the publisher that owns it and stays compatible with. -/
structure Publishable (r : Runtime) (c : Contract) (w : WorkloadState) (publisher : PublisherId) : Prop where
  valid : (validateContract c).ok = true
  found : r.state.workloads.find? c.body.workload.id = some w
  active : w.retired = false
  generation : c.body.generation = w.contractGeneration + 1
  supersedes : c.hasSupersedes = true ∧ c.supersedes = w.contractGeneration ∧ c.supersedesDigest = w.digest
  major : ∀ g, w.generations.getLast? = some g → c.body.major = g.body.body.major
  verified : ∃ v, verifySignature r.trust c.envelope.publisher domainPublication (submissionBytes c)
    (signatureOf c.envelope) = .ok v ∧ v.publisher = publisher
  owner : ∀ g, w.generations.getLast? = some g → g.body.envelope.publisher = publisher
  compatible : ∀ g, w.generations.getLast? = some g → (checkCompatibility g.body.body c.body).compatible = true
  retained : w.generations.length < maxRetainedGenerations

theorem planPublication_ok {planned : WorkloadState × PublisherId} (h : Runtime.planPublication c r = .ok planned) :
    Publishable r c planned.1 planned.2 := by
  unfold Runtime.planPublication at h
  simp only [bind_eq_ok] at h
  obtain ⟨_, hvalid, h⟩ := h
  cases hfind : r.state.workloads.find? c.body.workload.id with
  | none =>
    rw [hfind] at h
    obtain ⟨_, hnone, _⟩ := bind_eq_ok.1 h
    cases hnone
  | some w =>
    rw [hfind] at h
    simp only [bind_eq_ok, require_eq_ok, Except.ok.injEq, exists_eq_left', Bool.not_eq_true', Bool.and_eq_true,
      decide_eq_true_eq, decide_eq_false_iff_not] at h
    obtain ⟨_, hactive, _, hlow, _, hhigh, _, hsupersedes, _, hmajor, v, hverified, _, howner, _, hpolicy, h⟩ := h
    split at h
    · obtain ⟨_, hincompatible, _⟩ := bind_eq_ok.1 h
      cases hincompatible
    · rename_i hcompatible
      simp only [bind_eq_ok, require_eq_ok, decide_eq_true_eq] at h
      obtain ⟨_, hretained, h⟩ := h
      cases h
      refine ⟨checkValid_ok hvalid, hfind, hactive, UInt64.le_antisymm (UInt64.not_lt.1 hhigh) (UInt64.not_lt.1 hlow),
        ⟨hsupersedes.1.1, hsupersedes.1.2, hsupersedes.2⟩, ?_, ⟨v, hverified, rfl⟩, ?_, ?_, hretained⟩
      · intro g hg
        rw [hg] at hmajor
        exact hmajor
      · intro g hg
        rw [hg] at howner
        exact howner
      · intro g hg
        rw [hg] at hcompatible
        simpa using hcompatible

/-- What an attachment that passed its checks is. -/
structure Attachable (r : Runtime) (e : EvidenceSet) : Prop where
  entries : e.entries ≠ []
  advances : e.generation = 0 ∨ r.state.evidenceFloor < e.generation
  trusted : (r.trust.find e.publisher).isSome = true

theorem planEvidence_ok {e : EvidenceSet} {u : Unit} (h : Runtime.planEvidence e r = .ok u) : Attachable r e := by
  simp only [Runtime.planEvidence, bind_eq_ok, require_eq_ok, decide_eq_true_eq, Bool.or_eq_true, Bool.not_eq_true',
    decide_eq_false_iff_not, UInt64.not_le] at h
  obtain ⟨_, hentries, _, hadvances, htrusted⟩ := h
  exact ⟨hentries, hadvances, htrusted⟩

theorem planRetirement_ok {id : WorkloadId} {w : WorkloadState} (h : Runtime.planRetirement id r = .ok w) :
    r.state.workloads.find? id = some w ∧ w.retired = false := by
  unfold Runtime.planRetirement at h
  split at h
  · cases h
  · rename_i w' hfind
    split at h
    · cases h
    · rename_i hactive
      cases h
      exact ⟨hfind, Bool.eq_false_iff.2 hactive⟩

end Checks

/-- What a mutation that passed its checks is about to do, and what the checks established. -/
inductive Effect (around : Surroundings) (r : Runtime) : Mutation → Planned → Prop
  | registerWorkload {c : Contract} (h : Registrable r c) : Effect around r (.registerWorkload c)
      ⟨.workloadRegistered, Runtime.registrationPayload (around.clock 0) c, r.state.register c (around.clock 1)⟩
  | publish {c : Contract} {w : WorkloadState} {publisher : PublisherId} (h : Publishable r c w publisher) :
      Effect around r (.publish c) ⟨.contractPublished, Runtime.publicationPayload (around.clock 0) publisher c,
        r.state.publish w c (around.clock 1)⟩
  | attachEvidence {e : EvidenceSet} (h : Attachable r e) : Effect around r (.attachEvidence e)
      ⟨.evidenceAttached, Runtime.evidencePayload (around.clock e.entries.length) (e.stamp r.info around.clock),
        r.state.attach (e.stamp r.info around.clock)⟩
  | installPolicy {p : Policy} : Effect around r (.installPolicy p)
      ⟨.policyInstalled, Runtime.policyPayload (around.clock 0) p, r.state.installPolicy p⟩
  | retire {id : WorkloadId} {w : WorkloadState} (hfound : r.state.workloads.find? id = some w)
      (hactive : w.retired = false) : Effect around r (.retire id)
      ⟨.workloadRetired, Runtime.retirementPayload (around.clock 0) id, r.state.retire w id⟩

theorem effect_of_plan {around : Surroundings} {r : Runtime} {m : Mutation} {p : Planned}
    (h : m.plan around r = .ok p) : Effect around r m p := by
  cases m with
  | registerWorkload c =>
    rw [Mutation.plan] at h
    obtain ⟨u, hplan, rfl⟩ := except_map_eq_ok.1 h
    exact .registerWorkload (planRegistration_ok hplan)
  | publish c =>
    rw [Mutation.plan] at h
    obtain ⟨planned, hplan, rfl⟩ := except_map_eq_ok.1 h
    exact .publish (planPublication_ok hplan)
  | attachEvidence e =>
    rw [Mutation.plan] at h
    obtain ⟨u, hplan, rfl⟩ := except_map_eq_ok.1 h
    exact .attachEvidence (planEvidence_ok hplan)
  | installPolicy p =>
    rw [Mutation.plan] at h
    obtain ⟨u, hplan, rfl⟩ := except_map_eq_ok.1 h
    exact .installPolicy
  | retire id =>
    rw [Mutation.plan] at h
    obtain ⟨w, hplan, rfl⟩ := except_map_eq_ok.1 h
    obtain ⟨hfound, hactive⟩ := planRetirement_ok hplan
    exact .retire hfound hactive

/-! ## Properties of every workload -/

/-- A property of workloads that every mutation but an attachment keeps. -/
structure Kept (P : WorkloadState → Prop) : Prop where
  registered : ∀ c t, P (registeredWorkload c t)
  published : ∀ w c t, P w → P (w.publish c t)
  retired : ∀ w, P w → P
    { w with
      retired := true
      generations := w.generations.map fun g => { g with retired := true }
      evaluation := w.evaluation.map (.invalidate "the workload was retired") }
  unsettled : ∀ w, P w → P { w with evaluation := w.evaluation.map (.invalidate "the policy generation changed") }

/-- A property of workloads that attached evidence keeps. -/
def KeptByEvidence (P : WorkloadState → Prop) : Prop := ∀ w stamped, P w → P
  { w with
    evidence := some stamped
    evidenceGeneration := stamped.generation
    evaluation := w.evaluation.map (.invalidate "the evidence generation changed") }

theorem Kept.effect {P : WorkloadState → Prop} (hP : Kept P) {around : Surroundings} {r : Runtime} {m : Mutation}
    {p : Planned} (hattach : m.isAttachment = true → KeptByEvidence P) (h : Effect around r m p)
    (hr : r.state.workloads.All P) : p.state.workloads.All P := by
  cases h with
  | registerWorkload _ => exact hr.set (hP.registered _ _) _
  | publish h => exact hr.set (hP.published _ _ _ (hr _ _ h.found)) _
  | attachEvidence _ =>
    refine hr.mapVal fun w hw => ?_
    split
    · exact hattach rfl w _ hw
    · exact hw
  | installPolicy => exact hr.mapVal hP.unsettled
  | retire hfound _ => exact hr.set (hP.retired _ (hr _ _ hfound)) _

/-! ## Runs of one boot -/

/-- One mutation, whatever becomes of it. -/
def BootStep (s : Runtime × Directory) (a : Surroundings × Mutation) (t : Runtime × Directory) : Prop :=
  (a.2.perform a.1 s.1 s.2).2 = t

/-- The mutation is no attachment, or it is refused. -/
def AttachesNothing (s : Runtime × Directory) (a : Surroundings × Mutation) : Prop :=
  a.2.isAttachment = true → (a.2.perform a.1 s.1 s.2).1.ok = false

/-- A mutation leaves all but the state and the ledger, and the state as it was or as planned. -/
theorem BootStep.cases {s t : Runtime × Directory} {a : Surroundings × Mutation} (h : BootStep s a t) :
    ∃ l, t.1 = { s.1 with ledger := l } ∨
      ∃ p, Effect a.1 s.1 a.2 p ∧ (a.2.perform a.1 s.1 s.2).1.ok = true ∧
        t.1 = { s.1 with state := p.state, ledger := l } := by
  unfold BootStep at h
  rcases Mutation.perform_cases a.1 s.1 s.2 a.2 with ⟨_, _, _, heq⟩ | ⟨p, hplan, hrest⟩
  · exact ⟨s.1.ledger, .inl (by rw [← h, heq])⟩
  · rcases hrest with ⟨_, l, _, _, _, heq⟩ | ⟨_, l, _, _, hok, heq⟩
    · exact ⟨l, .inl (by rw [← h, heq])⟩
    · exact ⟨l, .inr ⟨p, effect_of_plan hplan, hok, by rw [← h, heq]⟩⟩

theorem Kept.step {P : WorkloadState → Prop} (hP : Kept P) {s t : Runtime × Directory} {a : Surroundings × Mutation}
    (hattach : (a.2.perform a.1 s.1 s.2).1.ok = true → a.2.isAttachment = true → KeptByEvidence P)
    (h : BootStep s a t) (hs : s.1.state.workloads.All P) : t.1.state.workloads.All P := by
  obtain ⟨l, heq | ⟨p, heffect, hok, heq⟩⟩ := h.cases
  · rw [heq]; exact hs
  · rw [heq]; exact hP.effect (hattach hok) heffect hs

/-! ## Decisions are never kept -/

namespace WorkloadState

/-- A workload that holds no valid decision. -/
def Undecided (w : WorkloadState) : Prop := ∀ e, w.evaluation = some e → e.valid = false

/-- A workload that holds no valid decision and no current evidence. -/
def Dormant (w : WorkloadState) : Prop :=
  w.Undecided ∧ ∀ evidence, w.evidence = some evidence → ∀ e ∈ evidence.entries, e.freshness ≠ .current

theorem undecided_invalidate {w : WorkloadState} (reason : String) :
    ∀ e, w.evaluation.map (StoredEvaluation.invalidate reason) = some e → e.valid = false := by
  intro e he
  obtain ⟨e', _, rfl⟩ := Option.map_eq_some_iff.1 he
  rfl

theorem Undecided.cached {w : WorkloadState} (h : w.Undecided) (incarnation : Incarnation) (contract : Contract) :
    w.cached incarnation contract = none := by
  unfold WorkloadState.cached
  cases hw : w.evaluation with
  | none => rfl
  | some e => simp [h e hw]

end WorkloadState

theorem kept_undecided : Kept WorkloadState.Undecided where
  registered _ _ _ h := nomatch h
  published _ _ _ _ := WorkloadState.undecided_invalidate _
  retired _ _ := WorkloadState.undecided_invalidate _
  unsettled _ _ := WorkloadState.undecided_invalidate _

theorem kept_dormant : Kept WorkloadState.Dormant where
  registered _ _ := ⟨fun _ h => (nomatch h), fun _ h => (nomatch h)⟩
  published _ _ _ h := ⟨WorkloadState.undecided_invalidate _, h.2⟩
  retired _ h := ⟨WorkloadState.undecided_invalidate _, h.2⟩
  unsettled _ h := ⟨WorkloadState.undecided_invalidate _, h.2⟩

/-- Every change that is replayed leaves workloads dormant. -/
theorem apply_dormant {s s' : RuntimeState} {change : Change} (h : s.apply change = .ok s')
    (hs : s.workloads.All WorkloadState.Dormant) : s'.workloads.All WorkloadState.Dormant := by
  have hdefault : ∀ id, ((s.workloads.find? id).getD {}).Dormant := by
    intro id
    cases hfind : s.workloads.find? id with
    | none => exact ⟨fun _ h => (nomatch h), fun _ h => (nomatch h)⟩
    | some w => exact hs id w hfind
  unfold RuntimeState.apply at h
  cases change with
  | genesis => cases h; exact hs
  | policy p => cases h; exact hs
  | generation c t =>
    simp only at h
    split at h
    · cases h
    · cases h
      refine hs.set ?_ _
      exact hdefault c.body.workload.id
  | retirement id =>
    simp only at h
    split at h
    · cases h
    · rename_i w hfind
      cases h
      refine hs.set ?_ _
      exact hs id w hfind
  | evaluation id =>
    simp only at h
    split at h
    · cases h
    · rename_i w hfind
      cases h
      refine hs.set ?_ _
      refine ⟨?_, (hs id w hfind).2⟩
      intro e he
      cases he
      rfl
  | evidence e =>
    cases h
    unfold RuntimeState.replayEvidence
    split
    · refine hs.mapVal fun w hw => ?_
      split
      · refine ⟨fun _ h => (nomatch h), fun evidence hevidence entry hentry => ?_⟩
        cases hevidence
        obtain ⟨entry', _, rfl⟩ := List.mem_map.1 hentry
        exact fun h => nomatch h
      · exact hw
    · exact hs

theorem replay_dormant {records : List Ledger.Record} {s s' : RuntimeState} (h : replay records s = .ok s')
    (hs : s.workloads.All WorkloadState.Dormant) : s'.workloads.All WorkloadState.Dormant := by
  induction records generalizing s with
  | nil => cases h; exact hs
  | cons r rs ih =>
    obtain ⟨change, s₁, _, happly, hrest⟩ := replay_cons_ok h
    exact ih hrest (apply_dormant happly hs)

/-- The state an open ends with is one that records were replayed to, with its decisions cleared. -/
theorem openRuntime_replayed {io : Ledger.OpenIo} {options : Options} {incarnation : Incarnation}
    {startedAtMillis : UInt64} {dir dir' : Directory} {r : Runtime}
    (h : openRuntime io options incarnation startedAtMillis dir = (.ok r, dir')) :
    ∃ s records, replay records {} = .ok s ∧ r.state = clearDecisions s := by
  unfold openRuntime at h
  split at h
  · cases h
  · simp only at h
    split at h
    · cases h
    · split at h
      · cases h
      · rename_i state hrecover
        cases h
        simp only [recoverState, bind_eq_ok] at hrecover
        obtain ⟨_, _, ⟨records, _⟩, _, s, hreplay, hclear⟩ := hrecover
        cases hclear
        exact ⟨s, records, hreplay, rfl⟩

/-- After an open every workload is dormant, whatever the journal says. -/
theorem openRuntime_dormant {io : Ledger.OpenIo} {options : Options} {incarnation : Incarnation}
    {startedAtMillis : UInt64} {dir dir' : Directory} {r : Runtime}
    (h : openRuntime io options incarnation startedAtMillis dir = (.ok r, dir')) :
    r.state.workloads.All WorkloadState.Dormant := by
  obtain ⟨s, records, hreplay, hstate⟩ := openRuntime_replayed h
  rw [hstate]
  refine (replay_dormant hreplay (.empty _)).mapVal fun w hw => ⟨?_, hw.2⟩
  intro e he
  obtain ⟨e', _, rfl⟩ := Option.map_eq_some_iff.1 he
  rfl

/-! ## A restart never restores liveness -/

theorem unevidenced_open (r : Requirement) : (unevidenced r).Open := by
  unfold unevidenced RequirementEvaluation.Open
  simp only [beq_iff_eq]

/-- An evaluation that decides nothing. -/
structure EvaluationResult.Undecided (result : EvaluationResult) : Prop where
  verdicts : ∀ item ∈ result.evaluation.requirements,
    item.satisfaction = .unknown ∨ item.satisfaction = .notApplicable
  aggregate : result.evaluation.aggregate ≠ .satisfied ∧ result.evaluation.aggregate ≠ .unsatisfied

theorem undecided_empty {result : EvaluationResult} (h : result.evaluation = {}) : result.Undecided := by
  refine ⟨?_, ?_⟩
  · rw [h]
    exact fun _ h => nomatch h
  · rw [h]
    exact ⟨by decide, by decide⟩

theorem evaluate_dormant {r : Runtime} (h : r.state.workloads.All WorkloadState.Dormant) (clock : Nat → UInt64)
    (workload : WorkloadId) : (r.evaluate clock workload).Undecided := by
  unfold Runtime.evaluate
  cases hfind : r.state.workloads.find? workload with
  | none => exact undecided_empty rfl
  | some w =>
    obtain ⟨hundecided, hstale⟩ := h workload w hfind
    simp only [Runtime.evaluateInternal]
    cases hcurrent : w.generations.getLast? with
    | none => exact undecided_empty rfl
    | some current =>
      simp only [if_true, hundecided.cached]
      cases hevidence : w.evidence with
      | none =>
        refine ⟨?_, show Satisfaction.unknown ≠ _ by decide, show Satisfaction.unknown ≠ _ by decide⟩
        intro item hitem
        obtain ⟨q, _, rfl⟩ := List.mem_map.1 hitem
        exact (unevidenced_open q).cases
      | some evidence =>
        have hopen : ∀ item ∈ (evaluateContract current.body evidence r.info.incarnation (clock 0)
            r.evidenceMaxAgeMillis).evaluation.requirements, item.Open := by
          intro item hitem
          obtain ⟨q, _, rfl⟩ := List.mem_map.1 hitem
          exact evaluateRequirement_open fun e he => hstale evidence hevidence e (List.mem_of_find?_eq_some he)
        exact ⟨fun item hitem => (hopen item hitem).cases, aggregateSatisfaction_open hopen⟩

/-- After an open, and as long as no evidence is attached, every evaluation decides nothing: whatever the journal
holds, and whatever else is done to its workloads. -/
theorem restart_undecided {io : Ledger.OpenIo} {options : Options} {incarnation : Incarnation}
    {startedAtMillis : UInt64} {dir : Directory} {opened : Runtime × Directory} {s : Runtime × Directory}
    {steps : List (Surroundings × Mutation)}
    (hopen : openRuntime io options incarnation startedAtMillis dir = (.ok opened.1, opened.2))
    (hrun : Run BootStep AttachesNothing opened steps s) (clock : Nat → UInt64) (workload : WorkloadId) :
    (s.1.evaluate clock workload).Undecided := by
  refine evaluate_dormant ?_ clock workload
  refine hrun.invariant (fun s => s.1.state.workloads.All WorkloadState.Dormant) ?_ (openRuntime_dormant hopen)
  intro s a t hs hnothing hstep
  refine kept_dormant.step ?_ hstep hs
  intro hok hattach
  rw [hnothing hattach] at hok
  cases hok

/-! ## Evidence that outlives its age -/

/-- An entry whose age at a reading of the clock exceeds the one that is permitted. -/
def EvidenceEntry.OlderThan (entry : EvidenceEntry) (nowMillis maxAgeMillis : UInt64) : Prop :=
  maxAgeMillis.toNat < nowMillis.toNat - entry.producedAtMillis.toNat

instance decidableOlderThan (entry : EvidenceEntry) (nowMillis maxAgeMillis : UInt64) :
    Decidable (entry.OlderThan nowMillis maxAgeMillis) := Nat.decLt _ _

/-- An evaluation that gives a requirement the verdict satisfied from an entry that has aged out. -/
def SatisfiesStale (r : Runtime) (clock : Nat → UInt64) (workload : WorkloadId) : Prop :=
  ∃ w evidence entry, r.state.workloads.find? workload = some w ∧ w.evidence = some evidence ∧
    ∃ item ∈ (r.evaluate clock workload).evaluation.requirements, item.satisfaction = .satisfied ∧
      evidence.find item.scope = some entry ∧ entry.OlderThan (clock 0) r.evidenceMaxAgeMillis

/-- The attached evidence of a workload has an entry that aged out since this boot captured it, the first of its
scope, whose observation meets a requirement of the current contract. -/
def Outlived (r : Runtime) (nowMillis : UInt64) (workload : WorkloadId) : Prop :=
  ∃ w evidence entry current, r.state.workloads.find? workload = some w ∧ w.evidence = some evidence ∧
    w.generations.getLast? = some current ∧ ∃ q ∈ current.body.body.requirements, q.strength ≠ .informational ∧
      evidence.find q.scope = some entry ∧ entry.capturedBy = r.info.incarnation ∧ entry.freshness = .current ∧
      Observes q entry.candidate ∧ entry.OlderThan nowMillis r.evidenceMaxAgeMillis

/-- The evaluation of a workload without a kept decision, from its attached evidence. -/
theorem evaluate_attached {r : Runtime} {clock : Nat → UInt64} {workload : WorkloadId} {w : WorkloadState}
    {evidence : EvidenceSet} {current : GenerationRecord} (hfind : r.state.workloads.find? workload = some w)
    (hundecided : w.Undecided) (hcurrent : w.generations.getLast? = some current)
    (hevidence : w.evidence = some evidence) :
    r.evaluate clock workload = r.evaluateAgainst (clock 0) current.body evidence := by
  unfold Runtime.evaluate Runtime.evaluateInternal
  simp only [hfind, hcurrent, if_true, hundecided.cached, hevidence]

theorem satisfiesStale_iff {r : Runtime} (hundecided : r.state.workloads.All WorkloadState.Undecided)
    (clock : Nat → UInt64) (workload : WorkloadId) : SatisfiesStale r clock workload ↔ Outlived r (clock 0) workload := by
  constructor
  · rintro ⟨w, evidence, entry, hfind, hevidence, item, hitem, hsatisfied, hentry, hold⟩
    cases hcurrent : w.generations.getLast? with
    | none =>
      unfold Runtime.evaluate Runtime.evaluateInternal at hitem
      simp only [hfind, hcurrent] at hitem
      cases hitem
    | some current =>
      rw [evaluate_attached hfind (hundecided _ _ hfind) hcurrent hevidence] at hitem
      obtain ⟨q, hq, rfl⟩ := List.mem_map.1 hitem
      have hearned := earned_evaluateRequirement evidence r.info.incarnation (clock 0) r.evidenceMaxAgeMillis q
      obtain ⟨hstrength, e, he, hcaptured, hfresh, hobserves⟩ := hearned.satisfied.1 hsatisfied
      rw [hearned.scope, he] at hentry
      cases hentry
      exact ⟨w, evidence, entry, current, hfind, hevidence, hcurrent, q, mem_sortBy.1 hq, evaluated_iff.2 hstrength, he,
        hcaptured, hfresh, hobserves, hold⟩
  · rintro ⟨w, evidence, entry, current, hfind, hevidence, hcurrent, q, hq, hstrength, he, hcaptured, hfresh, hobserves,
      hold⟩
    have hearned := earned_evaluateRequirement evidence r.info.incarnation (clock 0) r.evidenceMaxAgeMillis q
    refine ⟨w, evidence, entry, hfind, hevidence, _, ?_,
      hearned.satisfied.2 ⟨evaluated_iff.1 hstrength, entry, he, hcaptured, hfresh, hobserves⟩, ?_, hold⟩
    · rw [evaluate_attached hfind (hundecided _ _ hfind) hcurrent hevidence]
      exact List.mem_map_of_mem (mem_sortBy.2 hq)
    · rw [hearned.scope]; exact he

/-- In every state of every run of a boot, no workload holds a valid decision. -/
theorem boot_undecided {io : Ledger.OpenIo} {options : Options} {incarnation : Incarnation} {startedAtMillis : UInt64}
    {dir : Directory} {opened : Runtime × Directory} {s : Runtime × Directory} {steps : List (Surroundings × Mutation)}
    (hopen : openRuntime io options incarnation startedAtMillis dir = (.ok opened.1, opened.2))
    (hrun : Run BootStep (fun _ _ => True) opened steps s) : s.1.state.workloads.All WorkloadState.Undecided := by
  refine hrun.invariant (fun s => s.1.state.workloads.All WorkloadState.Undecided) ?_ ?_
  · intro s a t hs _ hstep
    exact kept_undecided.step (fun _ _ _ _ _ => WorkloadState.undecided_invalidate _) hstep hs
  · exact fun id w hfind => (openRuntime_dormant hopen id w hfind).1

/-- In every state of every run of a boot, an evaluation gives no verdict satisfied from an entry that has aged out
exactly when no entry of this boot that meets a requirement has. -/
theorem evaluate_stale_iff {io : Ledger.OpenIo} {options : Options} {incarnation : Incarnation}
    {startedAtMillis : UInt64} {dir : Directory} {opened : Runtime × Directory} {s : Runtime × Directory}
    {steps : List (Surroundings × Mutation)}
    (hopen : openRuntime io options incarnation startedAtMillis dir = (.ok opened.1, opened.2))
    (hrun : Run BootStep (fun _ _ => True) opened steps s) (clock : Nat → UInt64) (workload : WorkloadId) :
    ¬ SatisfiesStale s.1 clock workload ↔ ¬ Outlived s.1 (clock 0) workload := by
  rw [satisfiesStale_iff (boot_undecided hopen hrun)]

end Wnc
