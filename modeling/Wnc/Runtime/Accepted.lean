/-
Mutations that are accepted: where nothing fails and the journal has room, a mutation that passes its checks is
accepted. What a boot on an empty directory opens has that room.
-/
import Wnc.Ledger.Handle
import Wnc.Runtime.Boot

namespace Wnc

open Lib

/-! ## Room -/

namespace Ledger

/-- A handle whose segment has room for a number of records of any size that is permitted. -/
structure Room (l : Handle) (n : Nat) : Prop where
  opened : l.isOpen = true
  segment : l.segmentBytes + n * (frameHeaderBytes + maxRecordBytes) ≤ maxSegmentBytes
  retained : l.retainedBytes + n * (frameHeaderBytes + maxRecordBytes) ≤ maxJournalBytes

theorem Room.append {l : Handle} {n : Nat} (h : Room l (n + 1)) {payload : Bytes} (hlen : payload.length ≤ maxRecordBytes)
    (type : RecordType) (dir : Directory) :
    ∃ l' dir', append .succeeds type payload l dir = (.ok (l.head.lastSequence + 1), l', dir') ∧ Room l' n := by
  have hsegment := h.segment
  have hretained := h.retained
  rw [Nat.add_mul] at hsegment hretained
  have hfits : frameHeaderBytes + payload.length ≤ frameHeaderBytes + maxRecordBytes := Nat.add_le_add_left hlen _
  have hprep : prepareAppend l payload = (.ok (), l) := by
    unfold prepareAppend
    simp only [h.opened, Bool.not_true, Bool.false_eq_true, if_false]
    rw [if_neg (not_lt.2 hlen), if_neg (by omega), if_neg (by omega)]
    simp only
    rw [if_neg (by omega)]
  exact ⟨_, _, append_succeeds_eq hprep type dir, h.opened, by simp only; omega, by simp only; omega⟩

end Ledger

/-- Where nothing fails and the journal has room, a mutation that passes its checks is accepted. -/
theorem Mutation.perform_accepted {around : Surroundings} {r : Runtime} {m : Mutation} {p : Planned} {n : Nat}
    (hio : around.io = .succeeds) (hroom : Ledger.Room r.ledger (n + 1)) (hplan : m.plan around r = .ok p)
    (hlen : p.payload.dump.length ≤ Ledger.maxRecordBytes) (dir : Directory) :
    (m.perform around r dir).1.ok = true ∧ ∃ l, (m.perform around r dir).2.1 =
      { r with state := p.state, ledger := l } ∧ Ledger.Room l n := by
  obtain ⟨l, dir', happend, hroom'⟩ := hroom.append hlen p.type dir
  have hcommit : r.commit around.io p.type p.payload dir =
      (.ok (r.ledger.head.lastSequence + 1), { r with ledger := l }, dir') := by
    unfold Runtime.commit
    simp only
    rw [if_neg (not_lt.2 hlen), hio, happend]
  rcases Mutation.perform_cases around r dir m with ⟨f, hrefused, -⟩ | ⟨p', hplan', hrest⟩
  · rw [hplan] at hrefused
    cases hrefused
  · rw [hplan] at hplan'
    cases hplan'
    rcases hrest with ⟨f, l', dir'', hfailed, -⟩ | ⟨k, l', dir'', hdone, hok, heq⟩
    · rw [hcommit] at hfailed
      cases hfailed
    · rw [hcommit] at hdone
      cases hdone
      exact ⟨hok, l, by rw [heq], hroom'⟩

/-! ## Checks that pass -/

section Checks

variable {r : Runtime} {c : Contract}

theorem checkPolicy_none (hp : r.state.policy = none) : Runtime.checkPolicy c r.state = .ok () := by
  unfold Runtime.checkPolicy
  rw [hp]

theorem checkPolicy_of {s : RuntimeState} {policy : Policy} (hp : s.policy = some policy)
    (hgeneration : c.body.policyGeneration = s.policyGeneration)
    (hok : (checkContractAgainstPolicy policy c.body).ok = true) : Runtime.checkPolicy c s = .ok () := by
  unfold Runtime.checkPolicy
  rw [hp]
  simp only
  rw [if_neg (not_not.2 hgeneration), if_neg (by rw [hok]; decide)]

theorem planPolicy_of {policy : Policy} (hvalid : (validatePolicy policy).ok = true) (hp : r.state.policy = none) :
    Runtime.planPolicy policy r = .ok () := by
  unfold Runtime.planPolicy
  simp only [hvalid, hp, Bool.not_true, Bool.false_eq_true, if_false]

theorem checkValid_of_valid (h : (validateContract c).ok = true) : Runtime.checkValid c = .ok () := by
  unfold Runtime.checkValid
  simp only [h, Bool.not_true, Bool.false_eq_true, if_false]

/-- Past the policy gate the checks of a registration ask for no more than they establish. -/
theorem planRegistration_of (h : Registrable r c) (hgate : Runtime.checkPolicy c r.state = .ok ()) :
    Runtime.planRegistration c r = .ok () := by
  obtain ⟨v, hv⟩ := h.verified
  unfold Runtime.planRegistration
  simp only [bind_eq_ok, require_eq_ok, decide_eq_true_eq, Bool.not_eq_true', Option.isNone_iff_eq_none]
  exact ⟨(), checkValid_of_valid h.valid, (), h.first, (), h.original, v, hv, (), hgate, h.new⟩

theorem planEvidence_of {e : EvidenceSet} (h : Attachable r e) : Runtime.planEvidence e r = .ok () := by
  simp only [Runtime.planEvidence, bind_eq_ok, require_eq_ok, decide_eq_true_eq, Bool.or_eq_true, Bool.not_eq_true',
    decide_eq_false_iff_not, UInt64.not_le]
  exact ⟨(), h.entries, (), h.advances, h.trusted⟩

/-- Without a policy the checks of a publication to a workload that has a generation ask for no more than they
establish. -/
theorem planPublication_of {w : WorkloadState} {publisher : PublisherId} (h : Publishable r c w publisher)
    (hp : r.state.policy = none) (hw : w.generations ≠ []) : Runtime.planPublication c r = .ok (w, publisher) := by
  obtain ⟨v, hv, rfl⟩ := h.verified
  obtain ⟨g, hg⟩ : ∃ g, w.generations.getLast? = some g := ⟨_, List.getLast?_eq_some_getLast hw⟩
  obtain ⟨hs, hsupersedes, hdigest⟩ := h.supersedes
  have hlow : ¬ c.body.generation < w.contractGeneration + 1 := by rw [h.generation]; exact UInt64.lt_irrefl _
  have hhigh : ¬ c.body.generation > w.contractGeneration + 1 := by rw [h.generation]; exact UInt64.lt_irrefl _
  have hmajor := h.major g hg
  have howner := h.owner g hg
  have hcompatible := h.compatible g hg
  -- the checks in the order in which the runtime makes them
  unfold Runtime.planPublication
  simp only [bind_eq_ok]
  refine ⟨(), checkValid_of_valid h.valid, ?_⟩
  rw [h.found]
  simp only [bind_eq_ok, require_eq_ok, Except.ok.injEq, exists_eq_left', Bool.not_eq_true', Bool.and_eq_true,
    decide_eq_true_eq, decide_eq_false_iff_not, hg, Option.map_some, Option.getD_some]
  refine ⟨(), h.active, (), hlow, (), hhigh, (), ⟨⟨hs, hsupersedes⟩, hdigest⟩, (), hmajor, v, hv, (), howner, (),
    checkPolicy_none hp, ?_⟩
  rw [if_neg (by rw [hcompatible]; decide)]
  simp only [bind_eq_ok, require_eq_ok, decide_eq_true_eq]
  exact ⟨(), h.retained, trivial⟩

end Checks

/-! ## A boot on an empty directory -/

/-- What a boot on an empty directory opens: no workload, no policy, and room in the journal. -/
structure Runtime.Blank (r : Runtime) (trust : TrustSet) : Prop where
  trust : r.trust = trust
  policy : r.state.policy = none
  workloads : r.state.workloads = .empty
  room : Ledger.Room r.ledger 15

/-- The boot succeeds, under the incarnation drawn for it. -/
theorem openRuntime_fresh (options : Options) (incarnation : Incarnation) (startedAtMillis : UInt64) {path : Bytes}
    (hpath : path ≠ []) : ∃ r head,
      openRuntime .succeeds options incarnation startedAtMillis (.fresh path) = (.ok r, ⟨path, head, none, .empty⟩) ∧
        r.Blank options.trust ∧ r.state = {} ∧ r.info.incarnation = incarnation ∧ r.info.epoch = 1 ∧
        r.evidenceMaxAgeMillis = effectiveMaxAge options.evidenceMaxAgeMillis := by
  obtain ⟨ledger, recovery, head, hledger, hisOpen, hsegment, hretained, hincarnation, hepoch⟩ :
      ∃ ledger recovery head, Ledger.openLedger .succeeds (coordinatorIdentity options.trust) options.trust.digest
        incarnation (.fresh path) = (.ok (ledger, recovery), ⟨path, head, none, .empty⟩) ∧
        ledger.isOpen = true ∧ ledger.segmentBytes = 0 ∧ ledger.retainedBytes = 0 ∧
        ledger.head.incarnation = incarnation ∧ ledger.head.epoch = 1 := ⟨_, _, _, rfl, rfl, rfl, rfl, rfl, rfl⟩
  have hstate : recoverState ledger.head.lastSequence ⟨path, head, none, .empty⟩ = .ok {} := rfl
  unfold openRuntime
  rw [if_neg (show (Directory.fresh path).path ≠ [] from hpath)]
  simp only [hledger, hstate]
  exact ⟨_, _, rfl, ⟨rfl, rfl, rfl, hisOpen, by rw [hsegment]; decide, by rw [hretained]; decide⟩, rfl,
    hincarnation, hepoch, rfl⟩

theorem openRuntime_blank {options : Options} {incarnation : Incarnation} {startedAtMillis : UInt64} {path : Bytes}
    {r : Runtime} {dir : Directory}
    (h : openRuntime .succeeds options incarnation startedAtMillis (.fresh path) = (.ok r, dir)) :
    r.Blank options.trust := by
  have hpath : path ≠ [] := by
    rintro rfl
    cases h
  obtain ⟨r', head, hopen, hblank, -⟩ := openRuntime_fresh options incarnation startedAtMillis hpath
  rw [h] at hopen
  cases hopen
  exact hblank

end Wnc
