/-
The counters that travel with submissions: the generation of the workload that every contract carries, and the
generation of the policy. An installation compares its own with the installed one; a publication compares the
generation of the contract and leaves that of the workload alone. What is accepted behind the rest of a failed append
is lost at the next open, and the counters that it has moved go back.
-/
import Wnc.Runtime.Conditional
import Wnc.Runtime.Floor

namespace Wnc

open Lib

/-! ## Policy generations -/

theorem proper_policyRuleToJson (rule : PolicyRule) : (policyRuleToJson rule).Proper := by
  unfold policyRuleToJson
  simp only
  refine .ite ?_ ?_
  all_goals repeat' first
    | exact trivial
    | exact Json.proper_ofReal _
    | exact Json.proper_array fun _ _ => ⟨rfl, trivial⟩
    | apply Json.Proper.put

theorem isReal_policyRuleToJson (rule : PolicyRule) : (policyRuleToJson rule).isReal = false := by
  unfold policyRuleToJson
  simp only
  split <;> exact Json.isReal_put ..

theorem proper_policyPayload (recordedAtMillis : UInt64) (policy : Policy) :
    (Runtime.policyPayload recordedAtMillis policy).Proper := by
  have hrules : (Json.array (policy.rules.map policyRuleToJson)).Proper :=
    Json.proper_array fun rule _ => ⟨isReal_policyRuleToJson rule, proper_policyRuleToJson rule⟩
  unfold Runtime.policyPayload policyToJson
  repeat' first
    | exact trivial
    | exact hrules
    | apply Json.Proper.put

/-- The document of a policy decodes to one of its generation. -/
theorem policyFromJson_generation {policy p : Policy} (h : policyFromJson (policyToJson policy).reread = .ok p) :
    p.generation = policy.generation := by
  have hfind : (policyToJson policy).reread.find (utf8 "policy_generation") = some (jsonUint policy.generation) := by
    simp [policyToJson, Json.find_put, jsonUint]
  unfold policyFromJson at h
  simp only [bind_eq_ok] at h
  obtain ⟨_, -, version, -, generation, hgeneration, description, -, declared, -, h⟩ := h
  have hread : generation = policy.generation := by
    unfold readPolicyGeneration at hgeneration
    rw [hfind, jsonUint] at hgeneration
    simp only at hgeneration
    split at hgeneration
    · cases hgeneration
    · cases hgeneration
      exact toUInt64_jsonUint _
  split at h
  · simp only [bind_eq_ok] at h
    obtain ⟨_, -, rules, -, _, -, h⟩ := h
    cases h
    exact hread
  · obtain ⟨_, hmissing, -⟩ := bind_eq_ok.1 h
    cases hmissing

theorem decodeRecord_installation {record : Ledger.Record} {change : Change} {policy : Policy} {recordedAtMillis : UInt64}
    (ht : record.type = .policyInstalled)
    (hpayload : record.payload = (Runtime.policyPayload recordedAtMillis policy).dump)
    (hlen : (Runtime.policyPayload recordedAtMillis policy).dump.length ≤ Ledger.maxRecordBytes)
    (h : decodeRecord record = .ok change) : ∃ p, change = .policy p ∧ p.generation = policy.generation := by
  have hfind : (Runtime.policyPayload recordedAtMillis policy).reread.find (utf8 "policy") =
      some (policyToJson policy).reread := by
    simp [Runtime.policyPayload, Json.find_put]
  unfold decodeRecord at h
  split at h
  · cases h
  · rename_i j hj
    rw [recordPayload_ok (proper_policyPayload _ _) hpayload hlen hj, ht, if_neg (by decide), if_neg (by decide),
      if_neg (by decide), if_neg (by decide), if_pos rfl, decodePolicy, hfind] at h
    simp only at h
    split at h
    · cases h
    · rename_i p hp
      cases h
      exact ⟨p, rfl, policyFromJson_generation hp⟩

/-- Without a policy there is no generation of one. -/
def RuntimeState.Governed (s : RuntimeState) : Prop := s.policy = none → s.policyGeneration = 0

/-- An installation that passed its checks does not go back. -/
theorem planPolicy_ok {r : Runtime} {policy : Policy} {u : Unit} (h : Runtime.planPolicy policy r = .ok u)
    (hg : r.state.Governed) : r.state.policyGeneration ≤ policy.generation := by
  cases hp : r.state.policy with
  | none =>
    rw [hg hp]
    exact UInt64.le_iff_toNat_le.2 (Nat.zero_le _)
  | some installed =>
    unfold Runtime.planPolicy at h
    simp only [hp] at h
    split at h
    · obtain ⟨_, hinvalid, -⟩ := bind_eq_ok.1 h
      cases hinvalid
    · simp only [bind_eq_ok, require_eq_ok, Bool.not_eq_true', decide_eq_false_iff_not, UInt64.not_lt] at h
      obtain ⟨_, hle, -⟩ := h
      exact hle

theorem Mutation.policy_le {around : Surroundings} {r : Runtime} {m : Mutation} {p : Planned}
    (h : m.plan around r = .ok p) (hg : r.state.Governed) :
    r.state.policyGeneration ≤ p.state.policyGeneration ∧ p.state.Governed := by
  cases m with
  | installPolicy policy =>
    rw [Mutation.plan] at h
    obtain ⟨u, hplan, rfl⟩ := except_map_eq_ok.1 h
    exact ⟨planPolicy_ok hplan hg, fun hnone => by cases hnone⟩
  | registerWorkload c =>
    rw [Mutation.plan] at h
    obtain ⟨_, -, rfl⟩ := except_map_eq_ok.1 h
    exact ⟨UInt64.le_refl _, hg⟩
  | publish c =>
    rw [Mutation.plan] at h
    obtain ⟨_, -, rfl⟩ := except_map_eq_ok.1 h
    exact ⟨UInt64.le_refl _, hg⟩
  | attachEvidence e =>
    rw [Mutation.plan] at h
    obtain ⟨_, -, rfl⟩ := except_map_eq_ok.1 h
    exact ⟨UInt64.le_refl _, hg⟩
  | retire id =>
    rw [Mutation.plan] at h
    obtain ⟨_, -, rfl⟩ := except_map_eq_ok.1 h
    exact ⟨UInt64.le_refl _, hg⟩

theorem apply_governed {s s' : RuntimeState} {change : Change} (h : s.apply change = .ok s') (hs : s.Governed) :
    s'.Governed := by
  unfold RuntimeState.apply at h
  cases change with
  | genesis => cases h; exact hs
  | policy p => cases h; exact fun hnone => nomatch hnone
  | generation c t =>
    simp only at h
    split at h
    · cases h
    · cases h; exact hs
  | retirement id =>
    simp only at h
    split at h
    · cases h
    · cases h; exact hs
  | evaluation id =>
    simp only at h
    split at h
    · cases h
    · cases h; exact hs
  | evidence e =>
    cases h
    unfold RuntimeState.replayEvidence
    split
    · exact hs
    · exact hs

/-- A record that a mutation wrote is replayed to the policy generation that the mutation leads to. -/
theorem Effect.replayed_policy {around : Surroundings} {r : Runtime} {m : Mutation} {p : Planned}
    (h : Effect around r m p) {s s' : RuntimeState} (hs : s.SameHistory r.state)
    (hpolicy : s.policyGeneration = r.state.policyGeneration) {record : Ledger.Record} (htype : record.type = p.type)
    (hpayload : record.payload = p.payload.dump) (hlen : p.payload.dump.length ≤ Ledger.maxRecordBytes)
    (hreplay : replayRecord s record = .ok s') : s'.policyGeneration = p.state.policyGeneration := by
  obtain ⟨change, hdecode, happly⟩ := replayRecord_ok hreplay
  cases h with
  | @registerWorkload c hreg =>
    obtain ⟨t, rfl⟩ := decodeRecord_registration (valid_spec hreg.valid).2 htype hpayload hlen hdecode
    rw [apply_generation_ok happly]
    exact hpolicy
  | @publish c w publisher hpub =>
    obtain ⟨t, rfl⟩ := decodeRecord_publication (valid_spec hpub.valid).2 htype hpayload hlen hdecode
    rw [apply_generation_ok happly]
    exact hpolicy
  | @attachEvidence e _ =>
    obtain ⟨e', rfl, -, -⟩ := decodeRecord_evidence htype hpayload hlen hdecode
    cases happly
    show (s.replayEvidence e'.restored).policyGeneration = r.state.policyGeneration
    unfold RuntimeState.replayEvidence
    split
    · exact hpolicy
    · exact hpolicy
  | installPolicy =>
    obtain ⟨p', rfl, hgeneration⟩ := decodeRecord_installation htype hpayload hlen hdecode
    cases happly
    exact hgeneration
  | @retire id w hfound hactive =>
    obtain rfl := decodeRecord_retirement htype hpayload hlen hdecode
    obtain ⟨w₀, hw₀, -⟩ := hs.symm.find hfound
    unfold RuntimeState.apply at happly
    simp only [hw₀] at happly
    cases happly
    exact hpolicy

/-! ## Workload generations -/

/-- The generations of a workload carry workload generations that never go back, and the last is the one recorded. -/
structure WorkloadState.Rising (w : WorkloadState) : Prop where
  rising : ∀ (i j : Nat) (g h : GenerationRecord), i ≤ j → w.generations[i]? = some g → w.generations[j]? = some h →
    g.body.body.workload.generation ≤ h.body.body.workload.generation
  recorded : ∀ g : GenerationRecord, w.generations.getLast? = some g →
    w.workloadGeneration = g.body.body.workload.generation

/-- The recorded workload generation is that of the last contract. -/
def WorkloadState.Recorded (w : WorkloadState) : Prop :=
  ∀ g : GenerationRecord, w.generations.getLast? = some g → w.workloadGeneration = g.body.body.workload.generation

theorem apply_recorded {s s' : RuntimeState} {change : Change} (h : s.apply change = .ok s')
    (hs : s.workloads.All WorkloadState.Recorded) : s'.workloads.All WorkloadState.Recorded := by
  unfold RuntimeState.apply at h
  cases change with
  | genesis => cases h; exact hs
  | policy p => cases h; exact hs
  | generation c t =>
    simp only at h
    split at h
    · cases h
    · cases h
      refine hs.set (fun g hg => ?_) _
      unfold WorkloadState.replayGeneration at hg ⊢
      rw [List.getLast?_concat] at hg
      cases hg
      rfl
  | retirement id =>
    simp only at h
    split at h
    · cases h
    · rename_i w hfind
      cases h
      refine hs.set ?_ _
      exact hs id w hfind
  | evaluation id =>
    simp only at h
    split at h
    · cases h
    · rename_i w hfind
      cases h
      refine hs.set ?_ _
      exact hs id w hfind
  | evidence e =>
    cases h
    unfold RuntimeState.replayEvidence
    split
    · refine hs.mapVal fun w hw => ?_
      split
      · exact hw
      · exact hw
    · exact hs

/-- What replayed states satisfy that every change keeps. -/
theorem replay_invariant {P : RuntimeState → Prop} (hP : ∀ s s' change, s.apply change = .ok s' → P s → P s')
    {records : List Ledger.Record} {s s' : RuntimeState} (h : replay records s = .ok s') (hs : P s) : P s' := by
  induction records generalizing s with
  | nil => cases h; exact hs
  | cons r rs ih =>
    obtain ⟨change, s₁, _, happly, hrest⟩ := replay_cons_ok h
    exact ih hrest (hP _ _ _ happly hs)

theorem GenerationRecord.Alike.workloadGeneration {g g' : GenerationRecord} (h : g.Alike g') :
    g.body.body.workload.generation = g'.body.body.workload.generation := by
  have hd := congrArg (fun c : Contract => c.body.workload.generation) h.document
  exact hd

/-- Whether workload generations rise can be told from the chain and from what is recorded. -/
theorem WorkloadState.Rising.of_chain {w w' : WorkloadState} (hw : w.Rising) (h : w.chain = w'.chain)
    (hrecorded : w'.Recorded) : w'.Rising := by
  refine ⟨fun i j g' k' hij hg' hk' => ?_, hrecorded⟩
  obtain ⟨g, hg, hgcore⟩ := WorkloadState.generation_of_chain h hg'
  obtain ⟨k, hk, hkcore⟩ := WorkloadState.generation_of_chain h hk'
  rw [← (GenerationRecord.alike_of_core hgcore).workloadGeneration,
    ← (GenerationRecord.alike_of_core hkcore).workloadGeneration]
  exact hw.rising i j g k hij hg hk

theorem WorkloadState.recorded_of_chain {w w' : WorkloadState} (h : w.chain = w'.chain) (hc : w.Chained) (hw : w.Recorded)
    (hw' : w'.Recorded) : w.workloadGeneration = w'.workloadGeneration := by
  obtain ⟨g', hg', -, -⟩ := (hc.of_chain h).last
  obtain ⟨g, hg, hcore⟩ := WorkloadState.getLast?_of_chain h hg'
  rw [hw g hg, hw' g' hg', (GenerationRecord.alike_of_core hcore).workloadGeneration]

/-- A publication does not go back behind the workload generation that is recorded. -/
def Mutation.Ascends (s : RuntimeState) : Mutation → Prop
  | .publish c => ∀ w, s.workloads.find? c.body.workload.id = some w → w.workloadGeneration ≤ c.body.workload.generation
  | _ => True

theorem rising_registered (c : Contract) (t : UInt64) : (registeredWorkload c t).Rising := by
  refine ⟨fun i j g h _ hg hh => ?_, fun g hg => ?_⟩
  · obtain ⟨-, rfl⟩ := getElem?_singleton_eq hg
    obtain ⟨-, rfl⟩ := getElem?_singleton_eq hh
    exact UInt64.le_refl _
  · cases hg
    rfl

theorem rising_published {w : WorkloadState} {c : Contract} (t : UInt64) (hc : w.Chained) (hw : w.Rising)
    (hle : w.workloadGeneration ≤ c.body.workload.generation) : (w.publish c t).Rising := by
  obtain ⟨last, hlast, hlastAt, hpos⟩ := hc.last
  refine ⟨fun i j g h hij hg hh => ?_, fun g hg => ?_⟩
  · rcases getElem?_map_snoc hg with ⟨hi, g₀, hg₀, rfl⟩ | ⟨hi, rfl⟩
    · rcases getElem?_map_snoc hh with ⟨-, h₀, hh₀, rfl⟩ | ⟨-, rfl⟩
      · exact hw.rising i j g₀ h₀ hij hg₀ hh₀
      · -- through the generation that the new one supersedes
        have hbelow := hw.rising i _ g₀ last (by omega) hg₀ hlastAt
        rw [← hw.recorded last hlast] at hbelow
        exact UInt64.le_trans hbelow hle
    · rcases getElem?_map_snoc hh with ⟨hj, -⟩ | ⟨-, rfl⟩
      · omega
      · exact UInt64.le_refl _
  · rw [WorkloadState.publish, List.getLast?_concat] at hg
    cases hg
    rfl

theorem rising_retired {w : WorkloadState} (hw : w.Rising) (evaluation : Option StoredEvaluation) :
    WorkloadState.Rising { w with
      retired := true
      generations := w.generations.map fun g => { g with retired := true }
      evaluation := evaluation } := by
  have hgen : ∀ {o : Option GenerationRecord} {g : GenerationRecord},
      o.map (fun g : GenerationRecord => { g with retired := true }) = some g → ∃ g₀, o = some g₀ ∧ g.body = g₀.body := by
    intro o g h
    obtain ⟨g₀, ho, rfl⟩ := Option.map_eq_some_iff.1 h
    exact ⟨g₀, ho, rfl⟩
  refine ⟨fun i j g h hij hg hh => ?_, fun g hg => ?_⟩
  · simp only [List.getElem?_map] at hg hh
    obtain ⟨g₀, hg₀, hg⟩ := hgen hg
    obtain ⟨h₀, hh₀, hh⟩ := hgen hh
    rw [hg, hh]
    exact hw.rising i j g₀ h₀ hij hg₀ hh₀
  · simp only [List.getLast?_map] at hg
    obtain ⟨g₀, hg₀, hg⟩ := hgen hg
    rw [hg]
    exact hw.recorded g₀ hg₀

theorem Effect.rising {around : Surroundings} {r : Runtime} {m : Mutation} {p : Planned} (h : Effect around r m p)
    (hm : m.Ascends r.state) (hchained : r.state.workloads.All WorkloadState.Chained)
    (hr : r.state.workloads.All WorkloadState.Rising) : p.state.workloads.All WorkloadState.Rising := by
  cases h with
  | registerWorkload _ => exact hr.set (rising_registered _ _) _
  | publish hpub =>
    exact hr.set (rising_published _ (hchained _ _ hpub.found) (hr _ _ hpub.found) (hm _ hpub.found)) _
  | attachEvidence _ =>
    refine hr.mapVal fun w hw => ?_
    split
    · exact ⟨hw.rising, hw.recorded⟩
    · exact hw
  | installPolicy => exact hr.mapVal fun w hw => ⟨hw.rising, hw.recorded⟩
  | retire hfound _ => exact hr.set (rising_retired (hr _ _ hfound) _) _

/-- Neither counter goes back from one state to another, in which every workload of the one still is. -/
structure RuntimeState.Advances (s t : RuntimeState) : Prop where
  policy : s.policyGeneration ≤ t.policyGeneration
  workload : ∀ id w, s.workloads.find? id = some w →
    ∃ w', t.workloads.find? id = some w' ∧ w.workloadGeneration ≤ w'.workloadGeneration

namespace RuntimeState.Advances

variable {s t u : RuntimeState}

theorem refl (s : RuntimeState) : s.Advances s := ⟨UInt64.le_refl _, fun _ w hw => ⟨w, hw, UInt64.le_refl _⟩⟩

theorem trans (h : s.Advances t) (h' : t.Advances u) : s.Advances u := by
  refine ⟨UInt64.le_trans h.policy h'.policy, fun id w hw => ?_⟩
  obtain ⟨w', hw', hle⟩ := h.workload id w hw
  obtain ⟨w'', hw'', hle'⟩ := h'.workload id w' hw'
  exact ⟨w'', hw'', UInt64.le_trans hle hle'⟩

/-- A state in which one workload is replaced by one that is not behind it, or is new. -/
theorem set {id : WorkloadId} {v : WorkloadState}
    (h : ∀ w, s.workloads.find? id = some w → w.workloadGeneration ≤ v.workloadGeneration) :
    s.Advances { s with workloads := s.workloads.set id v } := by
  refine ⟨UInt64.le_refl _, fun id' w hw => ?_⟩
  show ∃ w', (s.workloads.set id v).find? id' = some w' ∧ _
  rw [SortedMap.find?_set]
  split
  · rename_i he
    exact ⟨v, rfl, h w (he ▸ hw)⟩
  · exact ⟨w, hw, UInt64.le_refl _⟩

theorem workload_mapVal {workloads : SortedMap WorkloadId WorkloadState} {f : WorkloadState → WorkloadState}
    (hf : ∀ w, (f w).workloadGeneration = w.workloadGeneration) (id : WorkloadId) (w : WorkloadState)
    (hw : workloads.find? id = some w) : ∃ w', (workloads.mapVal fun _ w => f w).find? id = some w' ∧
      w.workloadGeneration ≤ w'.workloadGeneration := by
  rw [SortedMap.find?_mapVal, hw]
  exact ⟨f w, rfl, UInt64.le_of_eq (hf w).symm⟩

theorem attach (s : RuntimeState) (stamped : EvidenceSet) : s.Advances (s.attach stamped) := by
  unfold RuntimeState.attach
  refine ⟨UInt64.le_refl _, workload_mapVal fun w => ?_⟩
  split <;> rfl

theorem of_attach (s : RuntimeState) (stamped : EvidenceSet) : (s.attach stamped).Advances s := by
  refine ⟨UInt64.le_refl _, fun id w hw => ?_⟩
  unfold RuntimeState.attach at hw
  rw [SortedMap.find?_mapVal] at hw
  obtain ⟨v, hv, rfl⟩ := Option.map_eq_some_iff.1 hw
  refine ⟨v, hv, ?_⟩
  split <;> exact UInt64.le_refl _

theorem installPolicy (s : RuntimeState) (policy : Policy)
    (h : s.policyGeneration ≤ (s.installPolicy policy).policyGeneration) : s.Advances (s.installPolicy policy) := by
  refine ⟨h, ?_⟩
  unfold RuntimeState.installPolicy
  exact workload_mapVal fun _ => rfl

theorem clearDecisions (s : RuntimeState) : s.Advances (clearDecisions s) := by
  unfold Wnc.clearDecisions
  refine ⟨UInt64.le_refl _, workload_mapVal fun w => ?_⟩
  rfl

end RuntimeState.Advances

/-- A mutation that ascends takes no counter back. -/
theorem Effect.advances {around : Surroundings} {r : Runtime} {m : Mutation} {p : Planned} (h : Effect around r m p)
    (hm : m.Ascends r.state) (hpolicy : r.state.policyGeneration ≤ p.state.policyGeneration) :
    r.state.Advances p.state := by
  cases h with
  | registerWorkload hreg =>
    refine .set fun w hw => ?_
    rw [hreg.new] at hw
    cases hw
  | publish hpub => exact .set fun w hw => hm w hw
  | attachEvidence _ => exact .attach _ _
  | installPolicy => exact .installPolicy _ _ hpolicy
  | @retire id w hfound _ =>
    refine .set fun w' hw' => ?_
    rw [hfound] at hw'
    cases hw'
    exact UInt64.le_refl _

/-- Whether a mutation may move a counter. -/
def Mutation.Counts : Mutation → Prop
  | .registerWorkload _ => True
  | .publish _ => True
  | .installPolicy _ => True
  | .attachEvidence _ => False
  | .retire _ => False

/-- One that does not move any leaves both where they were. -/
theorem Effect.uncounted {around : Surroundings} {r : Runtime} {m : Mutation} {p : Planned} (h : Effect around r m p)
    (hm : ¬ m.Counts) : p.state.Advances r.state := by
  cases h with
  | registerWorkload _ => exact absurd trivial hm
  | publish _ => exact absurd trivial hm
  | installPolicy => exact absurd trivial hm
  | attachEvidence _ => exact .of_attach _ _
  | @retire id w hfound _ =>
    refine ⟨UInt64.le_refl _, fun id' w' hw' => ?_⟩
    have hw' : (r.state.workloads.set id _).find? id' = some w' := hw'
    rw [SortedMap.find?_set] at hw'
    split at hw'
    · rename_i he
      cases hw'
      exact ⟨w, he ▸ hfound, UInt64.le_refl _⟩
    · exact ⟨w', hw', UInt64.le_refl _⟩

/-! ## Histories whose publications ascend -/

/-- A publication that passes the checks of the runtime does not go back behind the recorded workload generation, and
nothing that may move a counter is accepted behind what a failed append of the same boot left in the journal. -/
def System.Ascending (s : System) : Event → Prop
  | .mutate around m => ((∃ p, m.plan around s.runtime = .ok p) → m.Ascends s.runtime.state) ∧
      (m.Counts → (m.perform around s.runtime s.dir).1.ok = true → s.unsettled = [])
  | .reopen _ => True

structure System.Climbs (s : System) : Prop where
  history : s.Inv (fun _ => True) WorkloadState.Chained
  workloads : s.runtime.state.workloads.All WorkloadState.Rising
  governed : s.runtime.state.Governed
  policy : ∀ records state, records.map Ledger.Record.entry = s.journal → replay records {} = .ok state →
    state.policyGeneration = s.runtime.state.policyGeneration
  left : s.Leaves fun _ state => state.workloads.All WorkloadState.Rising ∧ s.runtime.state.Advances state

theorem System.Started.climbs {s : System} (h : s.Started) : s.Climbs := by
  obtain ⟨options, hopened⟩ := h.opened
  obtain ⟨state, hreplay, hstate, -⟩ := hopened.spec
  cases hreplay
  refine ⟨h.inv trivial, ?_, ?_, fun records state hrecords hreplay => ?_, System.leaves_nil h.unsettled _⟩
  · rw [hstate]
    exact fun id w hw => nomatch hw
  · rw [hstate]
    exact fun _ => rfl
  · rw [h.journal, List.map_eq_nil_iff] at hrecords
    rw [hrecords] at hreplay
    cases hreplay
    rw [hstate]
    rfl

/-- A replay records the last generation of every chain, so what it reaches has the workload generations of any state
with its history. -/
theorem replay_advances {records : List Ledger.Record} {live state : RuntimeState} (hreplay : replay records {} = .ok state)
    (hsame : state.SameHistory live) (hchained : live.workloads.All WorkloadState.Chained)
    (hlive : live.workloads.All WorkloadState.Rising) (hpolicy : live.policyGeneration ≤ state.policyGeneration) :
    state.workloads.All WorkloadState.Rising ∧ live.Advances state := by
  have hrecorded : state.workloads.All WorkloadState.Recorded :=
    replay_invariant (fun _ _ _ => apply_recorded) hreplay (.empty _)
  refine ⟨fun id w hw => ?_, hpolicy, fun id w hw => ?_⟩
  · obtain ⟨v, hv, hcore⟩ := hsame.find hw
    exact (hlive id v hv).of_chain (congrArg Prod.snd hcore) (hrecorded id w hw)
  · obtain ⟨w', hw', hcore⟩ := hsame.symm.find hw
    refine ⟨w', hw', ?_⟩
    rw [WorkloadState.recorded_of_chain (congrArg Prod.snd hcore.symm) (hchained id w hw) (hlive id w hw).recorded
      (hrecorded id w' hw')]
    exact UInt64.le_refl _

/-- What a refused mutation may leave is not behind the state that it leaves. -/
theorem System.Climbs.refused {s : System} (hc : s.Climbs) {around : Surroundings} {m : Mutation}
    (hm : (∃ p, m.plan around s.runtime = .ok p) → m.Ascends s.runtime.state) : (s.mutate around m).Leaves fun _ state =>
      state.workloads.All WorkloadState.Rising ∧ s.runtime.state.Advances state := by
  refine hc.left.mutate fun _ p hplan hlen records state hreads hreplay => ?_
  have heffect := effect_of_plan hplan
  have hchained := hc.history.workloads
  rcases hc.history.stands_for (historic_chained _) heffect hlen hreads hreplay with ⟨hjournal, hsame⟩ |
    ⟨before, last, middle, hbefore, hmiddle, hmiddleSame, htype, hpayload, hrecord, hsame⟩
  · exact replay_advances hreplay hsame hchained hc.workloads
      (UInt64.le_of_eq (hc.policy records state hjournal hreplay).symm)
  · have hascends := hm ⟨p, hplan⟩
    have hpolicy := heffect.replayed_policy hmiddleSame (hc.policy before middle hbefore hmiddle) htype hpayload hlen hrecord
    obtain ⟨hrising, hadvances⟩ := replay_advances hreplay hsame
      ((historic_chained fun _ => True).effect trivial heffect hchained) (heffect.rising hascends hchained hc.workloads)
      (UInt64.le_of_eq hpolicy.symm)
    exact ⟨hrising, (heffect.advances hascends (Mutation.policy_le hplan hc.governed).1).trans hadvances⟩

theorem System.Climbs.mutated {s : System} {around : Surroundings} {m : Mutation} (hc : s.Climbs)
    (hg : s.Ascending (.mutate around m)) :
    (s.mutate around m).Climbs ∧ s.runtime.state.Advances (s.mutate around m).runtime.state := by
  have hhistory : (s.mutate around m).Inv (fun _ => True) WorkloadState.Chained :=
    hc.history.step (e := .mutate around m) (historic_chained _) trivial (.mutate s around m)
  have hleft := hc.refused hg.1
  rcases s.mutate_planned around m with ⟨l, dir, left, -, heq⟩ | ⟨p, l, dir, hok, hplan, hlen, heq⟩
  · -- refused: the state stays, and its record may come to light at a reopen
    rw [heq] at hhistory hleft ⊢
    exact ⟨⟨hhistory, hc.workloads, hc.governed, hc.policy, hleft⟩, .refl _⟩
  · rw [heq] at hhistory hleft ⊢
    have heffect := effect_of_plan hplan
    have hm := hg.1 ⟨p, hplan⟩
    obtain ⟨hle, hgoverned⟩ := Mutation.policy_le hplan hc.governed
    refine ⟨⟨hhistory, heffect.rising hm hc.history.workloads hc.workloads, hgoverned,
      fun records state hrecords hreplay => ?_, ?_⟩, heffect.advances hm hle⟩
    · obtain ⟨before, last, middle, hbefore, hlast, hmiddle, hrecord⟩ := replay_snoc hrecords hreplay
      exact heffect.replayed_policy (hc.history.replayed before middle hbefore hmiddle)
        (hc.policy before middle hbefore hmiddle) (congrArg Ledger.Entry.type hlast)
        (congrArg Ledger.Entry.payload hlast) hlen hrecord
    · by_cases hcounts : m.Counts
      · refine System.leaves_nil ?_ _
        exact hg.2 hcounts hok
      · exact hleft.mono fun _ _ h => ⟨h.1, (heffect.uncounted hcounts).trans h.2⟩

theorem System.Climbs.step {s t : System} {event : Event} (hc : s.Climbs) (hg : s.Ascending event)
    (h : System.Step s event t) : t.Climbs ∧ s.runtime.state.Advances t.runtime.state := by
  have hhistory : t.Inv (fun _ => True) WorkloadState.Chained :=
    hc.history.step (historic_chained _) (by cases event <;> trivial) h
  cases h with
  | mutate around m => exact hc.mutated hg
  | @reopen options r dir records hopen hwrote =>
    obtain ⟨state, hreplay, hstate, -⟩ := hopen.spec
    obtain ⟨hrising, hadvances⟩ := hc.left.wrote hwrote hreplay fun hjournal =>
      replay_advances hreplay (hc.history.replayed records state hjournal hreplay) hc.history.workloads hc.workloads
        (UInt64.le_of_eq (hc.policy records state hjournal hreplay).symm)
    have hgoverned : r.state.Governed := by
      have := replay_invariant (P := RuntimeState.Governed) (fun _ _ _ => apply_governed) hreplay fun _ => rfl
      rw [hstate]
      exact this
    have hpolicy : r.state.policyGeneration = state.policyGeneration := by rw [hstate]; rfl
    refine ⟨⟨hhistory, ?_, hgoverned, fun records' state' hrecords' hreplay' => ?_, System.leaves_nil rfl _⟩,
      hadvances.trans ?_⟩
    · rw [hstate]
      exact hrising.mapVal fun w hw => ⟨hw.rising, hw.recorded⟩
    · have hsame := replay_of_entries hrecords' hreplay'
      rw [hreplay] at hsame
      cases hsame
      exact hpolicy.symm
    · rw [hstate]
      exact .clearDecisions _

/-- The workload generations of the contracts of every workload never go back, the last is the one recorded, and no
further history takes back a recorded workload generation or the policy generation. -/
def System.CountersAdvance (guard : System → Event → Prop) (s : System) : Prop :=
  s.runtime.state.workloads.All WorkloadState.Rising ∧
    ∀ events t, Run System.Step guard s events t → s.runtime.state.Advances t.runtime.state

/-- In every history whose publications ascend the counters advance. -/
theorem counters_advance {s₀ s : System} {events : List Event} (hstart : s₀.Started)
    (hrun : Run System.Step System.Ascending s₀ events s) : s.CountersAdvance System.Ascending := by
  have hc : s.Climbs := hrun.invariant System.Climbs (fun _ _ _ hc hg hs => (hc.step hg hs).1) hstart.climbs
  refine ⟨hc.workloads, fun later t hlater => ?_⟩
  exact (hlater.invariant (fun u => u.Climbs ∧ s.runtime.state.Advances u.runtime.state)
    (fun _ _ _ hu hg hs => ⟨(hu.1.step hg hs).1, hu.2.trans (hu.1.step hg hs).2⟩) ⟨hc, .refl _⟩).2

theorem counters_advance_published : ∃ (s : System) (w : WorkloadState),
    s.runtime.state.workloads.find? (.repeating 1) = some w ∧ w.generations.length = 2 ∧
      s.CountersAdvance System.Ascending := by
  obtain ⟨s₀, -, hstart, hblank, -⟩ := isolation_opened
  have hregistered := System.current_register hblank (show isolationContract.body.workload.id = .repeating 1 from rfl)
    isolationContract_signed isolationContract_checks.1 rfl rfl isolationContract_checks.2
  have hpublished := System.current_publish hregistered isolation_supersedes (by decide)
  have hunsettled : (s₀.mutate undisturbed (.registerWorkload isolationContract)).unsettled = [] := by
    rw [System.unsettled_of_accepted (hblank.registers isolationContract_signed isolationContract_checks.1 rfl rfl
      isolationContract_checks.2 s₀.dir).1, hstart.unsettled]
  have hascends : Mutation.Ascends (s₀.mutate undisturbed (.registerWorkload isolationContract)).runtime.state
      (.publish isolationSuccessor) := by
    intro w hw
    rw [show isolationSuccessor.body.workload.id = .repeating 1 from rfl, hregistered.found] at hw
    cases hw
    decide
  have hrun : Run System.Step System.Ascending s₀
      [.mutate undisturbed (.registerWorkload isolationContract), .mutate undisturbed (.publish isolationSuccessor)] _ :=
    .cons ⟨fun _ => trivial, fun _ _ => hstart.unsettled⟩ (.mutate _ _ _)
      (.cons ⟨fun _ => hascends, fun _ _ => hunsettled⟩ (.mutate _ _ _) (.nil _))
  exact ⟨_, _, hpublished.found, rfl, counters_advance hstart hrun⟩

/-! ## A publication for an older workload -/

/-- A generation of the contract under a workload generation. -/
def workloadBody (generation : ContractGeneration) (workloadGeneration : WorkloadGeneration) : ContractBody :=
  { isolationBody generation with
    workload := { (isolationBody generation).workload with generation := workloadGeneration } }

def newerContract : Contract := signed domainRegistration (canonicalize { body := workloadBody 1 2 })

def olderContract : Contract := supersedingContract newerContract (workloadBody 2 1)

/-- The workload generation recorded for a workload, zero without one. -/
def System.workloadGeneration (s : System) (id : WorkloadId) : WorkloadGeneration :=
  ((s.runtime.state.workloads.find? id).map WorkloadState.workloadGeneration).getD 0

theorem newerContract_workload : newerContract.body.workload.id = .repeating 1 := rfl

theorem newerContract_signed : ∃ c, newerContract = signed domainRegistration c := ⟨_, rfl⟩

set_option maxRecDepth 100000 in
theorem workloadBody_sole : (workloadBody 1 2).Sole ∧ (workloadBody 2 1).Sole :=
  ⟨⟨by decide +kernel, ⟨_, rfl, by decide +kernel⟩, by decide +kernel⟩,
    ⟨by decide +kernel, ⟨_, rfl, by decide +kernel⟩, by decide +kernel⟩⟩

set_option maxRecDepth 100000 in
theorem newerContract_checks : (validateContract newerContract).ok = true ∧
    (Runtime.registrationPayload 1 newerContract).dump.length ≤ Ledger.maxRecordBytes :=
  ⟨ContractBody.Sole.valid (c := { body := workloadBody 1 2 }) workloadBody_sole.1 (.inl ⟨rfl, rfl⟩) _,
    (Json.length_dump_le _).trans (by decide +kernel)⟩

set_option maxRecDepth 100000 in
theorem older_supersedes : Supersedes newerContract olderContract :=
  workloadBody_sole.2.supersedes (by decide +kernel) rfl rfl (by decide) rfl (by decide +kernel) (by decide +kernel)

/-- The recorded workload generation is that of the current contract. -/
theorem Runtime.Current.workloadGeneration {s : System} {w : WorkloadState} {c : Contract} {n : Nat}
    (h : s.runtime.Current w c n) : s.workloadGeneration (.repeating 1) = w.workloadGeneration := by
  unfold System.workloadGeneration
  rw [h.found]
  rfl

/-- A history in which the contract is registered under workload generation two and superseded under one. -/
theorem regressBoot_spec : ∃ s registered published : System, s.Started ∧
    System.Step s (.mutate undisturbed (.registerWorkload newerContract)) registered ∧
    System.Step registered (.mutate undisturbed (.publish olderContract)) published ∧
    registered.workloadGeneration (.repeating 1) = 2 ∧ published.workloadGeneration (.repeating 1) = 1 := by
  obtain ⟨r, head, hopen, hblank, -⟩ :=
    openRuntime_fresh { trust := isolationTrust } .zero 0 (show utf8 "state" ≠ [] by decide +kernel)
  have hregistered := System.current_register (s := ⟨r, ⟨utf8 "state", head, none, .empty⟩, [], []⟩) hblank
    newerContract_workload newerContract_signed newerContract_checks.1 rfl rfl newerContract_checks.2
  have hpublished := System.current_publish hregistered older_supersedes (by decide)
  exact ⟨_, _, _, started_of_fresh hopen, .mutate _ _ _, .mutate _ _ _, hregistered.workloadGeneration,
    hpublished.workloadGeneration⟩

theorem System.find_of_workloadGeneration {s : System} {id : WorkloadId} {n : WorkloadGeneration}
    (h : s.workloadGeneration id = n) (hn : n ≠ 0) :
    ∃ w, s.runtime.state.workloads.find? id = some w ∧ w.workloadGeneration = n := by
  unfold System.workloadGeneration at h
  cases hfind : s.runtime.state.workloads.find? id with
  | none =>
    rw [hfind] at h
    exact absurd h.symm hn
  | some w =>
    rw [hfind] at h
    exact ⟨w, rfl, h⟩

/-- A publication under an older workload generation is accepted, and takes the recorded one back. -/
theorem publish_regresses : ¬ ∀ (s₀ s : System) (events : List Event), s₀.Started →
    Run System.Step (fun _ _ => True) s₀ events s → s.CountersAdvance fun _ _ => True := by
  intro h
  obtain ⟨s₀, registered, published, hstart, hregister, hpublish, hnewer, holder⟩ := regressBoot_spec
  have hrun : Run System.Step (fun _ _ => True) s₀ [.mutate undisturbed (.registerWorkload newerContract)] registered :=
    .cons trivial hregister (.nil _)
  have hnext : Run System.Step (fun _ _ => True) registered [.mutate undisturbed (.publish olderContract)] published :=
    .cons trivial hpublish (.nil _)
  obtain ⟨w, hw, hgeneration⟩ := System.find_of_workloadGeneration hnewer (by decide)
  obtain ⟨w', hw', hgeneration'⟩ := System.find_of_workloadGeneration holder (by decide)
  obtain ⟨v, hv, hle⟩ := ((h s₀ registered _ hstart hrun).2 _ _ hnext).workload _ w hw
  rw [hw'] at hv
  cases hv
  rw [hgeneration, hgeneration'] at hle
  exact absurd hle (by decide)

/-! ## A policy that is lost -/

/-- A policy without rules, under a generation. -/
def emptyPolicy (generation : PolicyGeneration) (description : Bytes) : Policy :=
  let policy : Policy := { generation := generation, description := description }
  { policy with policyId := derivePolicyId (policyDigest policy) }

/-- A write fails one byte behind the header of a frame. -/
def tornWrite : Surroundings := { undisturbed with io := { accepts := some (Ledger.frameHeaderBytes + 1) } }

/-- A boot fails to install a policy, and installs another one behind what that has left in the journal: the system
before, behind these mutations and at the next boot. -/
def lostBoot (torn last : Policy) : Option (System × System × System) :=
  match openRuntime .succeeds { trust := {} } .zero 0 (.fresh (utf8 "state")) with
  | (.error _, _) => none
  | (.ok r, dir) =>
    let started : System := ⟨r, dir, [], []⟩
    let left := started.mutate tornWrite (.installPolicy torn)
    let behind := left.mutate undisturbed (.installPolicy last)
    match openRuntime .succeeds { trust := {} } .zero 0 behind.dir with
    | (.error _, _) => none
    | (.ok r, dir) =>
      match Ledger.readAfter 0 dir with
      | .error _ => none
      | .ok (records, _) => some (started, behind, ⟨r, dir, records.map Ledger.Record.entry, []⟩)

/-- When the open reads back what was there before the failed append, it is a step of the history. -/
theorem lostBoot_spec {torn last : Policy} {started behind again : System}
    (h : lostBoot torn last = some (started, behind, again)) (hsnapshot : again.dir.snapshot = none)
    (hcut : ∃ u ∈ behind.unsettled, u.before = again.journal) :
    started.Started ∧ (∃ events, Run System.Step (fun _ _ => True) started events behind) ∧
      openRuntime .succeeds { trust := {} } .zero 0 behind.dir = (.ok again.runtime, again.dir) ∧
      System.Step behind (.reopen { trust := {} }) again := by
  unfold lostBoot at h
  split at h
  · cases h
  · rename_i r dir hopen
    simp only at h
    split at h
    · cases h
    · rename_i r' dir' hreopen
      split at h
      · cases h
      · rename_i records report hread
        simp only [Option.some.injEq, Prod.mk.injEq] at h
        obtain ⟨rfl, rfl, rfl⟩ := h
        obtain ⟨u, hu, hbefore⟩ := hcut
        exact ⟨started_of_fresh hopen, ⟨_, .cons trivial (.mutate _ _ _) (.cons trivial (.mutate _ _ _) (.nil _))⟩, hreopen,
          .reopen ⟨hsnapshot, ⟨report, hread⟩, .succeeds, .zero, 0, _, hreopen⟩ (.inr ⟨u, hu, .inl hbefore.symm⟩)⟩

/-- Of such a boot: the generations of the policy behind the mutations and at the next boot, when that one reads back
what was there before the failed append. -/
def lostGenerations (boot : Option (System × System × System)) : Option (PolicyGeneration × PolicyGeneration) :=
  boot.bind fun (_, behind, again) =>
    if again.dir.snapshot.isNone && behind.unsettled.any fun u => u.before == again.journal then
      some (behind.runtime.state.policyGeneration, again.runtime.state.policyGeneration)
    else none

set_option maxRecDepth 100000 in
theorem lostGenerations_eq :
    lostGenerations (lostBoot (emptyPolicy 1 (List.replicate 100 97)) (emptyPolicy 1 [])) = some (1, 0) := by
  decide +kernel

/-- What is accepted behind the rest of a failed append is lost: the next open cuts the journal, and the generation of
the policy goes back. -/
theorem policy_lost : ∃ (s₀ s t : System) (events : List Event) (options : Options), s₀.Started ∧
    Run System.Step (fun _ _ => True) s₀ events s ∧ System.Step s (.reopen options) t ∧
    openRuntime .succeeds options .zero 0 s.dir = (.ok t.runtime, t.dir) ∧
    t.runtime.state.policyGeneration < s.runtime.state.policyGeneration := by
  have hlost := lostGenerations_eq
  generalize emptyPolicy 1 (List.replicate 100 97) = torn, emptyPolicy 1 [] = last at hlost
  cases hboot : lostBoot torn last with
  | none =>
    rw [hboot] at hlost
    cases hlost
  | some boot =>
    obtain ⟨started, behind, again⟩ := boot
    rw [hboot, lostGenerations, Option.bind_some] at hlost
    simp only [Option.ite_none_right_eq_some, Option.some.injEq, Prod.mk.injEq, Bool.and_eq_true,
      Option.isNone_iff_eq_none, List.any_eq_true, beq_iff_eq] at hlost
    obtain ⟨⟨hsnapshot, hcut⟩, hone, hzero⟩ := hlost
    obtain ⟨hstart, ⟨events, hrun⟩, hopen, hstep⟩ := lostBoot_spec hboot hsnapshot hcut
    exact ⟨started, behind, again, events, _, hstart, hrun, hstep, hopen, by rw [hone, hzero]; decide⟩

end Wnc
