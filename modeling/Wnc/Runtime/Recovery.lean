/-
Recovery with and without a snapshot. The records a snapshot stands for are skipped and its payload is read
for nothing else, so recovery comes out the same only where the skipped records leave no trace.
-/
import Wnc.Runtime.Replay

namespace Wnc

open Lib

/-! ## What records leave in the state -/

namespace RuntimeState

/-- The number of contract generations over all workloads. -/
def generationCount (s : RuntimeState) : Nat := s.workloads.total fun w => w.generations.length

/-- The state with the policy of another. -/
def withPolicyOf (s t : RuntimeState) : RuntimeState :=
  { s with policy := t.policy, policyDigest := t.policyDigest, policyGeneration := t.policyGeneration }

end RuntimeState

namespace Change

def isGeneration : Change → Bool
  | .generation _ _ => true
  | _ => false

def isPolicy : Change → Bool
  | .policy _ => true
  | _ => false

end Change

theorem decodeGeneration_ok {payload : Json} {change : Change} (h : decodeGeneration payload = .ok change) :
    ∃ c t, change = .generation c t := by
  unfold decodeGeneration at h
  split at h
  · cases h
  · split at h
    · cases h
    · cases h; exact ⟨_, _, rfl⟩

theorem decodeRetirement_ok {payload : Json} {change : Change} (h : decodeRetirement payload = .ok change) :
    ∃ id, change = .retirement id := by
  unfold decodeRetirement at h
  split at h
  · split at h
    · cases h
    · cases h; exact ⟨_, rfl⟩
  · cases h

theorem decodeEvidence_ok {payload : Json} {change : Change} (h : decodeEvidence payload = .ok change) :
    ∃ evidence, change = .evidence evidence := by
  unfold decodeEvidence at h
  split at h
  · cases h
  · split at h
    · cases h
    · cases h; exact ⟨_, rfl⟩

theorem decodePolicy_ok {payload : Json} {change : Change} (h : decodePolicy payload = .ok change) :
    ∃ policy, change = .policy policy := by
  unfold decodePolicy at h
  split at h
  · cases h
  · split at h
    · cases h
    · cases h; exact ⟨_, rfl⟩

theorem decodeEvaluation_ok {payload : Json} {change : Change} (h : decodeEvaluation payload = .ok change) :
    ∃ id, change = .evaluation id := by
  unfold decodeEvaluation at h
  split at h
  · split at h
    · cases h
    · cases h; exact ⟨_, rfl⟩
  · cases h

/-- The kind of change a record holds is that of its type. -/
theorem decodeRecord_kind {record : Ledger.Record} {change : Change} (h : decodeRecord record = .ok change) :
    change.isGeneration = isContractRecord record.type ∧ change.isPolicy = (record.type == .policyInstalled) := by
  unfold decodeRecord at h
  split at h
  · cases h
  · split at h
    · rename_i ht
      cases h
      rw [ht]; exact ⟨rfl, rfl⟩
    · split at h
      · rename_i hc
        obtain ⟨c, t, rfl⟩ := decodeGeneration_ok h
        refine ⟨hc.symm, ?_⟩
        rw [isContractRecord, Bool.or_eq_true, beq_iff_eq, beq_iff_eq] at hc
        rcases hc with hc | hc <;> rw [hc] <;> rfl
      · split at h
        · rename_i ht
          obtain ⟨id, rfl⟩ := decodeRetirement_ok h
          rw [ht]; exact ⟨rfl, rfl⟩
        · split at h
          · rename_i ht
            obtain ⟨evidence, rfl⟩ := decodeEvidence_ok h
            rw [ht]; exact ⟨rfl, rfl⟩
          · split at h
            · rename_i ht
              obtain ⟨policy, rfl⟩ := decodePolicy_ok h
              rw [ht]; exact ⟨rfl, rfl⟩
            · split at h
              · rename_i ht
                obtain ⟨id, rfl⟩ := decodeEvaluation_ok h
                rw [ht]; exact ⟨rfl, rfl⟩
              · cases h

namespace RuntimeState

variable {s s' : RuntimeState} {change : Change}

theorem generationCount_set (s : RuntimeState) (id : WorkloadId) (w : WorkloadState) :
    (s.workloads.set id w).total (fun w => w.generations.length) +
        ((s.workloads.find? id).map fun w => w.generations.length).getD 0 =
      s.generationCount + w.generations.length :=
  SortedMap.total_set _ s.workloads id w

/-- Rewriting a workload with as many generations leaves their number. -/
theorem generationCount_rewrite {id : WorkloadId} {w w' : WorkloadState} (h : s.workloads.find? id = some w)
    (hl : w'.generations.length = w.generations.length) :
    (s.workloads.set id w').total (fun w => w.generations.length) = s.generationCount := by
  have := generationCount_set s id w'
  rw [h, Option.map_some, Option.getD_some, hl] at this
  omega

theorem generationCount_replayEvidence (s : RuntimeState) (evidence : EvidenceSet) :
    (s.replayEvidence evidence).generationCount = s.generationCount := by
  unfold replayEvidence
  split
  · simp only [generationCount]
    rw [SortedMap.total_mapVal, SortedMap.total]
    congr 1
    refine List.map_congr_left fun e _ => ?_
    split <;> rfl
  · rfl

/-- A contract record adds one generation, any other none. -/
theorem generationCount_apply (h : s.apply change = .ok s') :
    s'.generationCount = s.generationCount + if change.isGeneration then 1 else 0 := by
  unfold apply at h
  cases change with
  | genesis => cases h; rfl
  | policy p => cases h; rfl
  | evidence e => cases h; exact generationCount_replayEvidence s e.restored
  | retirement id =>
    simp only at h
    split at h
    · cases h
    · rename_i w hw
      cases h
      exact generationCount_rewrite hw rfl
  | evaluation id =>
    simp only at h
    split at h
    · cases h
    · rename_i w hw
      cases h
      exact generationCount_rewrite hw rfl
  | generation c t =>
    simp only at h
    split at h
    · cases h
    · cases h
      have := generationCount_set s c.body.workload.id
        (((s.workloads.find? c.body.workload.id).getD {}).replayGeneration c t)
      cases hw : s.workloads.find? c.body.workload.id with
      | none =>
        rw [hw] at this
        simp only [generationCount]
        simp only [WorkloadState.replayGeneration, generationCount, Option.map_none, Option.getD_none,
          List.length_append, List.length_map, List.length_singleton, List.length_nil] at this ⊢
        exact this
      | some w =>
        rw [hw] at this
        simp only [generationCount]
        simp only [WorkloadState.replayGeneration, generationCount, Option.map_some, Option.getD_some,
          List.length_append, List.length_map, List.length_singleton] at this ⊢
        simp only [Change.isGeneration, if_true]
        omega

theorem apply_policy_isSome (h : s.apply change = .ok s') :
    s'.policy.isSome = (s.policy.isSome || change.isPolicy) := by
  unfold apply at h
  cases change with
  | genesis => cases h; simp [Change.isPolicy]
  | policy p => cases h; simp [install, Change.isPolicy]
  | evidence e =>
    cases h
    unfold replayEvidence
    split <;> simp [Change.isPolicy]
  | retirement id =>
    simp only at h
    split at h
    · cases h
    · cases h; simp [Change.isPolicy]
  | evaluation id =>
    simp only at h
    split at h
    · cases h
    · cases h; simp [Change.isPolicy]
  | generation c t =>
    simp only at h
    split at h
    · cases h
    · cases h; simp [Change.isPolicy]

/-- The policy plays no part in a change, and a policy record leaves nothing of the one before. -/
theorem apply_withPolicyOf (s t : RuntimeState) (change : Change) :
    (s.withPolicyOf t).apply change =
      if change.isPolicy then s.apply change else (s.apply change).map fun s => s.withPolicyOf t := by
  unfold apply
  cases change with
  | genesis => rfl
  | policy p => rfl
  | evidence e =>
    show Except.ok ((s.withPolicyOf t).replayEvidence e.restored) = .ok ((s.replayEvidence e.restored).withPolicyOf t)
    unfold replayEvidence
    by_cases h : (s.workloads.entries.any fun x => x.2.covered e.restored.entries) = true
    · rw [if_pos h, if_pos (show ((s.withPolicyOf t).workloads.entries.any _) = true from h)]
      rfl
    · rw [if_neg h, if_neg (show ¬((s.withPolicyOf t).workloads.entries.any _) = true from h)]
  | retirement id =>
    simp only [Change.isPolicy, Bool.false_eq_true, if_false, withPolicyOf]
    split <;> rfl
  | evaluation id =>
    simp only [Change.isPolicy, Bool.false_eq_true, if_false, withPolicyOf]
    split <;> rfl
  | generation c time =>
    simp only [Change.isPolicy, Bool.false_eq_true, if_false]
    by_cases h : ((s.workloads.find? c.body.workload.id).getD {}).generations.getLast?.any
        (fun g => g.generation == c.body.generation) = true
    · refine (if_pos h).trans ?_
      rw [if_pos h]; rfl
    · refine (if_neg h).trans ?_
      rw [if_neg h]; rfl

/-- Without a workload a change other than a generation leaves at most a policy. -/
theorem apply_of_empty (hw : s.workloads = .empty) (hc : change.isGeneration = false) (h : s.apply change = .ok s') :
    s' = s.withPolicyOf s' := by
  unfold apply at h
  cases change with
  | genesis => cases h; rfl
  | policy p => cases h; rfl
  | evidence e =>
    cases h
    have hnone : ¬(s.workloads.entries.any fun x => x.2.covered e.restored.entries) = true := by
      rw [hw]; exact Bool.false_ne_true
    rw [replayEvidence, if_neg hnone]
    rfl
  | retirement id =>
    rw [hw] at h
    cases h
  | evaluation id =>
    rw [hw] at h
    cases h
  | generation c t => cases hc

end RuntimeState

/-! ## What a replay leaves -/

section Replay

variable {records : List Ledger.Record} {s s' t : RuntimeState}

theorem replay_cons (r : Ledger.Record) (rs : List Ledger.Record) (s : RuntimeState) :
    replay (r :: rs) s = (replayRecord s r).bind (replay rs) := rfl

theorem replay_append (rs qs : List Ledger.Record) (s : RuntimeState) :
    replay (rs ++ qs) s = (replay rs s).bind (replay qs) := by
  unfold replay
  rw [List.foldlM_append]
  rfl

/-- The records behind the first are replayed onto what it leaves. -/
theorem replay_cons_ok {r : Ledger.Record} {rs : List Ledger.Record} (h : replay (r :: rs) s = .ok s') :
    ∃ change m, decodeRecord r = .ok change ∧ s.apply change = .ok m ∧ replay rs m = .ok s' := by
  rw [replay_cons] at h
  unfold replayRecord at h
  cases hd : decodeRecord r with
  | error f => rw [hd] at h; cases h
  | ok change =>
    rw [hd] at h
    simp only at h
    cases ha : s.apply change with
    | error f => rw [ha] at h; cases h
    | ok m => rw [ha] at h; exact ⟨change, m, rfl, ha, h⟩

theorem replay_generationCount (h : replay records s = .ok s') :
    s'.generationCount = s.generationCount + records.countP fun r => isContractRecord r.type := by
  induction records generalizing s with
  | nil => cases h; rfl
  | cons r rs ih =>
    obtain ⟨change, m, hd, ha, hr⟩ := replay_cons_ok h
    rw [ih hr, RuntimeState.generationCount_apply ha, (decodeRecord_kind hd).1, List.countP_cons]
    omega

theorem replay_policy_isSome (h : replay records s = .ok s') :
    s'.policy.isSome = (s.policy.isSome || records.any fun r => r.type == .policyInstalled) := by
  induction records generalizing s with
  | nil => cases h; simp
  | cons r rs ih =>
    obtain ⟨change, m, hd, ha, hr⟩ := replay_cons_ok h
    rw [ih hr, RuntimeState.apply_policy_isSome ha, (decodeRecord_kind hd).2, List.any_cons, Bool.or_assoc]

/-- A replay carries the policy it starts from along until a record replaces it. -/
theorem replay_withPolicyOf (records : List Ledger.Record) (s t : RuntimeState) :
    replay records (s.withPolicyOf t) =
      if records.any fun r => r.type == .policyInstalled then replay records s
      else (replay records s).map fun s => s.withPolicyOf t := by
  induction records generalizing s with
  | nil => rfl
  | cons r rs ih =>
    rw [replay_cons, replay_cons, List.any_cons]
    unfold replayRecord
    cases hd : decodeRecord r with
    | error f => simp only [Except.bind, Except.map]; split <;> rfl
    | ok change =>
      simp only [RuntimeState.apply_withPolicyOf, (decodeRecord_kind hd).2]
      cases hp : r.type == Ledger.RecordType.policyInstalled with
      | true => simp
      | false =>
        simp only [Bool.false_eq_true, if_false, Bool.false_or]
        cases ha : s.apply change with
        | error f => simp only [Except.bind, Except.map]; split <;> rfl
        | ok m =>
          simp only [Except.bind, Except.map]
          exact ih m

/-- Records none of which holds a contract leave at most a policy behind. -/
theorem replay_of_no_contract (hw : s.workloads = .empty) (hc : ∀ r ∈ records, isContractRecord r.type = false)
    (h : replay records s = .ok s') : s' = s.withPolicyOf s' := by
  induction records generalizing s with
  | nil => cases h; rfl
  | cons r rs ih =>
    rw [List.forall_mem_cons] at hc
    obtain ⟨change, m, hd, ha, hr⟩ := replay_cons_ok h
    have hm := RuntimeState.apply_of_empty hw (by rw [(decodeRecord_kind hd).1]; exact hc.1) ha
    have hmw : m.workloads = .empty := by rw [hm]; exact hw
    rw [ih hmw hc.2 hr, hm]
    rfl

theorem replay_policy_eq (hp : ∀ r ∈ records, r.type ≠ .policyInstalled) (h : replay records s = .ok s') :
    s' = s'.withPolicyOf s := by
  have hnone : (records.any fun r => r.type == .policyInstalled) = false := by
    rw [List.any_eq_false]
    exact fun r hr => by simpa using hp r hr
  have hs := replay_withPolicyOf records s s
  rw [hnone] at hs
  have hself : s.withPolicyOf s = s := rfl
  rw [hself, h] at hs
  simpa [Except.map] using hs

theorem generationCount_clearDecisions (s : RuntimeState) : (clearDecisions s).generationCount = s.generationCount := by
  unfold clearDecisions RuntimeState.generationCount
  rw [SortedMap.total_mapVal, SortedMap.total]

/-- Skipping the first records of a replay that succeeds leaves the same state exactly when they hold no contract
and the policy they install, if any, is replaced by a later record. -/
theorem replay_skips_iff {skipped kept : List Ledger.Record} (h : replay (skipped ++ kept) {} = .ok s) :
    (∃ t, replay kept {} = .ok t ∧ clearDecisions t = clearDecisions s) ↔
      (∀ r ∈ skipped, isContractRecord r.type = false) ∧
        ((∃ r ∈ skipped, r.type = .policyInstalled) → ∃ r ∈ kept, r.type = .policyInstalled) := by
  obtain ⟨a, ha, hs⟩ : ∃ a, replay skipped {} = .ok a ∧ replay kept a = .ok s := by
    rw [replay_append] at h
    cases ha : replay skipped {} with
    | error f => rw [ha] at h; cases h
    | ok a => rw [ha] at h; exact ⟨a, rfl, h⟩
  constructor
  · rintro ⟨t, ht, heq⟩
    constructor
    · -- every contract record leaves a generation behind
      have hcount := congrArg RuntimeState.generationCount heq
      rw [generationCount_clearDecisions, generationCount_clearDecisions, replay_generationCount ht,
        replay_generationCount hs, replay_generationCount ha] at hcount
      have hzero : skipped.countP (fun r => isContractRecord r.type) = 0 := by omega
      intro r hr
      simpa using List.countP_eq_zero.1 hzero r hr
    · -- a state without a policy has seen no policy record
      rintro ⟨r, hr, htype⟩
      have hpolicy : t.policy.isSome = s.policy.isSome := congrArg (fun s => s.policy.isSome) heq
      rw [replay_policy_isSome ht, replay_policy_isSome hs, replay_policy_isSome ha] at hpolicy
      have hany : (skipped.any fun r => r.type == .policyInstalled) = true :=
        List.any_eq_true.2 ⟨r, hr, by rw [htype]; rfl⟩
      rw [hany] at hpolicy
      obtain ⟨q, hq, hqt⟩ := List.any_eq_true.1 (by simpa using hpolicy :
        (kept.any fun r => r.type == .policyInstalled) = true)
      exact ⟨q, hq, eq_of_beq hqt⟩
  · rintro ⟨hcontract, hpolicy⟩
    have hw := replay_of_no_contract rfl hcontract ha
    rw [hw, replay_withPolicyOf] at hs
    by_cases hkept : (kept.any fun r => r.type == .policyInstalled) = true
    · rw [if_pos hkept] at hs
      exact ⟨s, hs, rfl⟩
    · -- neither part installs a policy, and the skipped records leave nothing
      have hnone : ∀ r ∈ skipped, r.type ≠ .policyInstalled := by
        intro r hr htype
        obtain ⟨q, hq, hqt⟩ := hpolicy ⟨r, hr, htype⟩
        exact hkept (List.any_eq_true.2 ⟨q, hq, by rw [hqt]; rfl⟩)
      have hempty : a = {} := by
        rw [replay_policy_eq hnone ha, hw]; rfl
      rw [if_neg hkept] at hs
      cases ht : replay kept {} with
      | error f => rw [ht] at hs; cases hs
      | ok t =>
        rw [ht, hempty] at hs
        have htp := replay_policy_eq (s := {}) (fun r hr htype =>
          hkept (List.any_eq_true.2 ⟨r, hr, by rw [htype]; rfl⟩)) ht
        refine ⟨t, rfl, ?_⟩
        rw [Except.map, ← htp] at hs
        cases hs
        rfl

end Replay

/-! ## Opening beside a snapshot -/

/-- The repair of a torn tail leaves the snapshot file alone. -/
theorem repairTornTail_setSnapshot (io : Ledger.OpenIo) (scan : Ledger.RecoveryReport) (dir : Directory)
    (file : Option Bytes) :
    Ledger.repairTornTail io scan { dir with snapshot := file } =
      ((Ledger.repairTornTail io scan dir).1, { (Ledger.repairTornTail io scan dir).2 with snapshot := file }) := by
  unfold Ledger.repairTornTail
  simp only
  split <;> rfl

/-- An open leaves the snapshot file of a directory alone and reads nothing of it. -/
theorem openLedger_setSnapshot (io : Ledger.OpenIo) (coordinator : CoordinatorId) (trustDigest : Digest)
    (incarnation : Incarnation) (dir : Directory) (file : Option Bytes) :
    Ledger.openLedger io coordinator trustDigest incarnation { dir with snapshot := file } =
      ((Ledger.openLedger io coordinator trustDigest incarnation dir).1,
        { (Ledger.openLedger io coordinator trustDigest incarnation dir).2 with snapshot := file }) := by
  have hload : Ledger.loadHead coordinator trustDigest { dir with snapshot := file } =
      Ledger.loadHead coordinator trustDigest dir := rfl
  have hread : Ledger.readAll { dir with snapshot := file } = Ledger.readAll dir := rfl
  unfold Ledger.openLedger Ledger.openFrom
  rw [hload, hread]
  cases io.ensuresDirectory with
  | false => rfl
  | true =>
    cases io.pathsWithin with
    | false => rfl
    | true =>
      cases Ledger.loadHead coordinator trustDigest dir with
      | error f => rfl
      | ok previous =>
        cases Ledger.readAll dir with
        | error f => rfl
        | ok read =>
          have hrepair : (if read.2.truncatedBytes > 0 then
                Ledger.repairTornTail io read.2 { dir with snapshot := file }
              else (.ok (), { dir with snapshot := file })) =
              (fun repaired : Except Failure Unit × Directory => (repaired.1, { repaired.2 with snapshot := file }))
                (if read.2.truncatedBytes > 0 then Ledger.repairTornTail io read.2 dir else (.ok (), dir)) := by
            split
            · exact repairTornTail_setSnapshot io read.2 dir file
            · rfl
          simp only [Bool.not_true, Bool.false_eq_true, if_false, hrepair]
          cases (if read.2.truncatedBytes > 0 then Ledger.repairTornTail io read.2 dir else (.ok (), dir)) with
          | mk repaired dir =>
            cases repaired with
            | error f => rfl
            | ok u =>
              simp only
              cases Ledger.discoverSegments dir.journal.entries {} with
              | error f => rfl
              | ok layout =>
                simp only [Ledger.writeHead]
                cases State.writeFileAtomic io.headReplacement _ <;> rfl

/-- Whether the payload of a snapshot is the JSON object that recovery asks for. -/
def Ledger.Snapshot.isObject (snapshot : Ledger.Snapshot) : Bool :=
  match jsonDecode snapshot.payload {} with
  | .ok (.object _) => true
  | _ => false

/-- A snapshot takes nothing from recovery: it stands for no records, or for records that hold no contract and no
policy but one that a later record replaces. -/
def Ledger.Snapshot.Harmless (snapshot : Ledger.Snapshot) (records : List Ledger.Record) : Prop :=
  snapshot.isObject = false ∨
    (∀ r ∈ records, r.sequence ≤ snapshot.sequence → isContractRecord r.type = false) ∧
      ((∃ r ∈ records, r.sequence ≤ snapshot.sequence ∧ r.type = .policyInstalled) →
        ∃ r ∈ records, snapshot.sequence < r.sequence ∧ r.type = .policyInstalled)

/-- What a result holds is what it holds an image of. -/
theorem except_map_eq_ok {ε α β : Type} {f : α → β} {x : Except ε α} {y : β} :
    x.map f = .ok y ↔ ∃ a, x = .ok a ∧ f a = y := by
  cases x with
  | error e => simp [Except.map]
  | ok a => simp [Except.map]

theorem readSnapshot_congr {dir dir' : Directory} {snapshot : Option Ledger.Snapshot}
    (hsame : dir'.snapshot = dir.snapshot) (h : Ledger.readSnapshot dir = .ok snapshot) :
    Ledger.readSnapshot dir' = .ok snapshot := by
  unfold Ledger.readSnapshot State.readFile at h ⊢
  rw [hsame]
  cases hfile : dir.snapshot with
  | none => rw [hfile] at h; exact h
  | some bytes =>
    rw [hfile] at h
    simp only at h ⊢
    by_cases hsize : bytes.length > maxDocumentBytes + Ledger.snapshotHeaderBytes
    · rw [if_pos hsize] at h; cases h
    · rw [if_neg hsize] at h ⊢; exact h

section Open

variable {io : Ledger.OpenIo} {options : Options} {incarnation : Incarnation} {startedAtMillis : UInt64}
  {dir opened : Directory} {ledger : Ledger.Handle} {recovery report : Ledger.RecoveryReport}
  {records : List Ledger.Record} {snapshot : Ledger.Snapshot} {sequence lastSequence : UInt64}

theorem recoverState_eq (hsequence : snapshotSequence lastSequence dir = .ok sequence)
    (hrecords : Ledger.readAll dir = .ok (records, report)) :
    recoverState lastSequence dir =
      (replay (records.filter fun r => r.sequence > sequence) {}).map clearDecisions := by
  unfold recoverState Ledger.readAfter
  rw [hsequence, hrecords]
  simp only [bind, Except.bind]
  cases replay (records.filter fun r => r.sequence > sequence) {} <;> rfl

/-- The state an open ends with is the one recovered from the directory that the ledger leaves. -/
theorem openRuntime_state (hpath : dir.path ≠ [])
    (hopen : Ledger.openLedger io (coordinatorIdentity options.trust) options.trust.digest incarnation dir =
      (.ok (ledger, recovery), opened)) :
    (openRuntime io options incarnation startedAtMillis dir).1.map Runtime.state =
      recoverState ledger.head.lastSequence opened := by
  unfold openRuntime
  rw [if_neg hpath]
  simp only [hopen]
  cases recoverState ledger.head.lastSequence opened <;> rfl

theorem snapshotSequence_of_snapshot (hsnapshot : Ledger.readSnapshot dir = .ok (some snapshot))
    (hnotAhead : snapshot.sequence ≤ lastSequence) :
    snapshotSequence lastSequence dir = .ok (if snapshot.isObject then snapshot.sequence else 0) := by
  unfold snapshotSequence Ledger.Snapshot.isObject
  rw [hsnapshot]
  simp only
  rw [if_neg (UInt64.not_lt.2 hnotAhead)]
  cases hdecode : jsonDecode snapshot.payload {} with
  | error e => rfl
  | ok payload => cases payload <;> rfl

theorem snapshotSequence_of_none (lastSequence : UInt64) (dir : Directory) :
    snapshotSequence lastSequence { dir with snapshot := none } = .ok 0 := rfl

/-- Records of a journal that is read whole are all behind sequence zero. -/
theorem filter_behind_zero (hrecords : Ledger.readAll dir = .ok (records, report)) (hlen : records.length < 2 ^ 64) :
    (records.filter fun r => r.sequence > 0) = records := by
  rw [List.filter_eq_self]
  intro r hr
  obtain ⟨i, hi⟩ := List.getElem?_of_mem hr
  have hlt : i < records.length := (List.getElem?_eq_some_iff.1 hi).1
  rw [Ledger.readAll_sequence hrecords i r hi, decide_eq_true_eq, gt_iff_lt, UInt64.lt_iff_toNat_lt,
    UInt64.toNat_ofNat', Nat.mod_eq_of_lt (by omega)]
  exact Nat.succ_pos i

/-- Opening beside a snapshot that is not ahead of the journal ends with the state of the whole journal exactly
when the snapshot is harmless. The records read fit a vector. -/
theorem snapshot_open_iff {plain : Runtime}
    (hopen : Ledger.openLedger io (coordinatorIdentity options.trust) options.trust.digest incarnation dir =
      (.ok (ledger, recovery), opened))
    (hrecords : Ledger.readAll opened = .ok (records, report)) (hlen : records.length < 2 ^ 64)
    (hsnapshot : Ledger.readSnapshot dir = .ok (some snapshot))
    (hnotAhead : snapshot.sequence ≤ ledger.head.lastSequence)
    (hplain : (openRuntime io options incarnation startedAtMillis { dir with snapshot := none }).1 = .ok plain) :
    (∃ r, (openRuntime io options incarnation startedAtMillis dir).1 = .ok r ∧ r.state = plain.state) ↔
      snapshot.Harmless records := by
  have hpath : dir.path ≠ [] := fun h => by
    unfold openRuntime at hplain
    rw [if_pos h] at hplain
    cases hplain
  have hsame : opened.snapshot = dir.snapshot := by
    have hset := openLedger_setSnapshot io (coordinatorIdentity options.trust) options.trust.digest incarnation dir
      dir.snapshot
    rw [hopen] at hset
    exact congrArg (fun result => result.2.snapshot) hset
  -- without the snapshot every record is replayed
  obtain ⟨full, hfull, hstate⟩ : ∃ full, replay records {} = .ok full ∧ clearDecisions full = plain.state := by
    have hopen' := openLedger_setSnapshot io (coordinatorIdentity options.trust) options.trust.digest incarnation dir
      none
    rw [hopen] at hopen'
    have hp : (openRuntime io options incarnation startedAtMillis { dir with snapshot := none }).1.map Runtime.state = _ :=
      openRuntime_state hpath hopen'
    rw [recoverState_eq (snapshotSequence_of_none _ _) hrecords, filter_behind_zero hrecords hlen, hplain] at hp
    exact except_map_eq_ok.1 hp.symm
  -- beside it, those behind its sequence
  have hread : Ledger.readSnapshot opened = .ok (some snapshot) := readSnapshot_congr hsame hsnapshot
  rw [← except_map_eq_ok, openRuntime_state hpath hopen,
    recoverState_eq (snapshotSequence_of_snapshot hread hnotAhead) hrecords, except_map_eq_ok, ← hstate]
  unfold Ledger.Snapshot.Harmless
  cases hobject : snapshot.isObject with
  | false =>
    rw [if_neg Bool.false_ne_true, filter_behind_zero hrecords hlen]
    exact ⟨fun _ => .inl rfl, fun _ => ⟨full, hfull, rfl⟩⟩
  | true =>
    have hsplit := Ledger.split_at_sequence (Ledger.readAll_ascending hrecords hlen) snapshot.sequence
    rw [hsplit] at hfull
    rw [if_pos rfl, replay_skips_iff hfull]
    simp only [List.mem_filter, decide_eq_true_eq, and_imp, gt_iff_lt, and_assoc, Bool.true_eq_false, false_or]

end Open

/-- A policy without rules. -/
def ruleless : Policy :=
  let policy : Policy := { generation := 1 }
  { policy with policyId := derivePolicyId (policyDigest policy) }

/-- The record of its installation. -/
def policyRecord : Ledger.Entry := ⟨.policyInstalled, (Json.null.put "policy" (policyToJson ruleless)).dump⟩

/-- A directory with records and a snapshot that stands for the first of them. -/
def besideSnapshot (skipped behind : List Ledger.Entry) : Directory :=
  match Ledger.openLedger .succeeds (coordinatorIdentity {}) (TrustSet.digest {}) .zero (.fresh (utf8 "state")) with
  | (.error _, dir) => dir
  | (.ok (ledger, _), dir) =>
    let append := fun (standing : Ledger.Handle × Directory) (e : Ledger.Entry) =>
      (Ledger.append .succeeds e.type e.payload standing.1 standing.2).2
    let (ledger, dir) := skipped.foldl append (ledger, dir)
    let dir := (Ledger.writeSnapshot none ⟨1, skipped.length.toUInt64, utf8 "{}"⟩ ledger dir).2
    (behind.foldl append (ledger, dir)).2

/-- What an open of such a directory finds: the number of its records, whether the snapshot can be read and is not
ahead of the journal, and of the recovered state the number of its contracts and whether it holds a policy. -/
def openBeside (dir : Directory) : Option (Nat × Bool × Nat × Bool) :=
  match Ledger.openLedger .succeeds (coordinatorIdentity {}) (TrustSet.digest {}) .zero dir with
  | (.error _, _) => none
  | (.ok (ledger, _), opened) =>
    match Ledger.readAll opened, Ledger.readSnapshot dir, (openRuntime .succeeds { trust := {} } .zero 0 dir).1 with
    | .ok (records, _), .ok (some snapshot), .ok r =>
      some (records.length, snapshot.sequence ≤ ledger.head.lastSequence, r.state.generationCount, r.state.policy.isSome)
    | _, _, _ => none

theorem openBeside_spec {dir : Directory} {n m : Nat} {b : Bool} (h : openBeside dir = some (n, true, m, b)) :
    ∃ ledger recovery opened records report snapshot r,
      Ledger.openLedger .succeeds (coordinatorIdentity {}) (TrustSet.digest {}) .zero dir =
        (.ok (ledger, recovery), opened) ∧
      Ledger.readAll opened = .ok (records, report) ∧ records.length = n ∧
      Ledger.readSnapshot dir = .ok (some snapshot) ∧ snapshot.sequence ≤ ledger.head.lastSequence ∧
      (openRuntime .succeeds { trust := {} } .zero 0 dir).1 = .ok r ∧ r.state.generationCount = m ∧
      r.state.policy.isSome = b := by
  unfold openBeside at h
  split at h
  · cases h
  · rename_i ledger recovery opened hopen
    split at h
    · rename_i records report snapshot r hrecords hsnapshot hr
      simp only [Option.some.injEq, Prod.mk.injEq, decide_eq_true_eq] at h
      exact ⟨ledger, recovery, opened, records, report, snapshot, r, hopen, hrecords, h.1, hsnapshot, h.2.1, hr, h.2.2⟩
    · cases h

/-- A contract behind the genesis of a journal, whose snapshot stands for the genesis. -/
def contractBehind : Directory :=
  let contract : Contract := { body := { workload := { id := .repeating 1, name := utf8 "w" }, generation := 1 } }
  besideSnapshot [⟨.genesis, utf8 "{}"⟩]
    [⟨.workloadRegistered, (Json.null.put "contract" (contractToJson contract)).dump⟩]

set_option maxRecDepth 100000 in
theorem snapshot_open_iff_registered : ∃ records snapshot r plain, records.length = 2 ∧ r.state.generationCount = 1 ∧
    (openRuntime .succeeds { trust := {} } .zero 0 contractBehind).1 = .ok r ∧
      (openRuntime .succeeds { trust := {} } .zero 0 { contractBehind with snapshot := none }).1 = .ok plain ∧
      (r.state = plain.state ↔ Ledger.Snapshot.Harmless snapshot records) := by
  have hbeside : openBeside contractBehind = some (2, true, 1, false) := by decide +kernel
  have hplain : (openRuntime .succeeds { trust := {} } .zero 0
      { contractBehind with snapshot := none }).1.toBool = true := by decide +kernel
  generalize contractBehind = dir at hbeside hplain
  obtain ⟨ledger, recovery, opened, records, report, snapshot, r, hopen, hrecords, hlen, hsnapshot, hnotAhead, hr,
    hcount, -⟩ := openBeside_spec hbeside
  cases hp : (openRuntime .succeeds { trust := {} } .zero 0 { dir with snapshot := none }).1 with
  | error f => rw [hp] at hplain; cases hplain
  | ok plain =>
    have hiff : (∃ r, (openRuntime .succeeds { trust := {} } .zero 0 dir).1 = .ok r ∧ r.state = plain.state) ↔
        snapshot.Harmless records :=
      snapshot_open_iff hopen hrecords (by omega) hsnapshot hnotAhead hp
    refine ⟨records, snapshot, r, plain, hlen, hcount, hr, rfl, fun h => hiff.1 ⟨r, hr, h⟩, fun h => ?_⟩
    obtain ⟨r', hr', h'⟩ := hiff.2 h
    rw [hr] at hr'
    cases hr'
    exact h'

set_option maxRecDepth 100000 in
/-- A policy is lost with a snapshot that stands for its record. -/
theorem snapshot_loses_policy : ¬ ∀ (io : Ledger.OpenIo) (options : Options) (incarnation : Incarnation)
    (startedAtMillis : UInt64) (dir opened : Directory) (ledger : Ledger.Handle)
    (recovery report : Ledger.RecoveryReport) (records : List Ledger.Record) (snapshot : Ledger.Snapshot)
    (plain : Runtime),
    Ledger.openLedger io (coordinatorIdentity options.trust) options.trust.digest incarnation dir =
      (.ok (ledger, recovery), opened) →
    Ledger.readAll opened = .ok (records, report) → Ledger.readSnapshot dir = .ok (some snapshot) →
    snapshot.sequence ≤ ledger.head.lastSequence →
    (openRuntime io options incarnation startedAtMillis { dir with snapshot := none }).1 = .ok plain →
    ∃ r, (openRuntime io options incarnation startedAtMillis dir).1 = .ok r ∧ r.state = plain.state := by
  intro h
  have hbeside : openBeside (besideSnapshot [policyRecord] []) = some (1, true, 0, false) := by decide +kernel
  have hkept : (openRuntime .succeeds { trust := {} } .zero 0 { besideSnapshot [policyRecord] [] with
      snapshot := none }).1.toOption.map (fun plain => plain.state.policy.isSome) = some true := by decide +kernel
  generalize besideSnapshot [policyRecord] [] = dir at hbeside hkept
  obtain ⟨ledger, recovery, opened, records, report, snapshot, r, hopen, hrecords, -, hsnapshot, hnotAhead, hr, -,
    hlost⟩ := openBeside_spec hbeside
  cases hplain : (openRuntime .succeeds { trust := {} } .zero 0 { dir with snapshot := none }).1 with
  | error f => rw [hplain] at hkept; cases hkept
  | ok plain =>
    obtain ⟨r', hr', hstate⟩ := h _ { trust := {} } _ _ _ _ _ _ _ _ _ _ hopen hrecords hsnapshot hnotAhead hplain
    rw [hr] at hr'
    cases hr'
    rw [hplain] at hkept
    rw [hstate] at hlost
    have hboth := hlost.symm.trans (Option.some.inj hkept)
    cases hboth

end Wnc
