/-
What becomes of a mutation. Refused, wherever that happens, it leaves the state in memory as it was; accepted, it has
appended exactly one record, under the sequence it reports.
-/
import Wnc.Ledger.Owners
import Wnc.Policy.Succession
import Wnc.Runtime.History

namespace Wnc

open Lib

/-! ## One record -/

namespace Ledger

/-- The bounds an append checks leave the counters of the handle alone. -/
theorem prepareAppend_head {l l' : Handle} {payload : Bytes} {r : Except Failure Unit}
    (h : prepareAppend l payload = (r, l')) : l'.head = l.head := by
  unfold prepareAppend at h
  split at h
  · cases h; rfl
  · split at h
    · cases h; rfl
    · simp only at h
      split at h
      · cases h; rfl
      · split at h
        · cases h; rfl
        · rename_i l₁ hl₁
          -- a rotation starts a segment and leaves the head alone
          have hhead : l₁.head = l.head := by
            split at hl₁
            · unfold rotateSegment at hl₁
              split at hl₁
              · cases hl₁
              · cases hl₁; rfl
            · cases hl₁; rfl
          split at h <;> cases h <;> exact hhead

/-- Exactly one record more in a directory: one frame at the end of one segment, under the sequence that the handle was
to give next. A reader of a journal that appends wrote finds that record behind those it found before. -/
structure AppendedOne (l l' : Handle) (dir dir' : Directory) (e : Entry) (sequence : UInt64) : Prop where
  frame : ∃ segment chain, dir' = { dir with
    journal := dir.journal.set (segmentName segment) ((dir.journal.find? (segmentName segment)).getD [] ++
      (buildFrame e.type sequence e.payload chain).bytes) }
  next : sequence = l.head.lastSequence + 1
  last : l'.head.lastSequence = sequence
  read : ∀ parts, Stands l dir parts → Holds dir parts → ∃ report report' record,
    readAll dir = .ok (recordsOf .start parts.flatten, report) ∧
      readAll dir' = .ok (recordsOf .start parts.flatten ++ [record], report') ∧
      record.sequence = sequence ∧ record.type = e.type ∧ record.payload = e.payload

theorem append_one {io : State.AppendIo} {e : Entry} {l l' : Handle} {dir dir' : Directory} {sequence : UInt64}
    (h : append io e.type e.payload l dir = (.ok sequence, l', dir')) : AppendedOne l l' dir dir' e sequence := by
  have hok := append_ok h
  cases hprep : prepareAppend l e.payload with
  | mk result l₁ =>
  cases result with
  | error f =>
    rw [append, hprep] at hok
    cases hok
  | ok u =>
    have hhead := prepareAppend_head hprep
    rw [append_succeeds_eq hprep] at hok
    cases hok
    refine ⟨⟨_, _, rfl⟩, by rw [hhead], rfl, fun parts hl hd => ?_⟩
    obtain ⟨parts', hflat, -, hd', -, -, hsequence⟩ := hl.append hd (append_ok h)
    have hread := hd'.readAll
    rw [hflat, recordsOf_append] at hread
    exact ⟨_, _, _, hd.readAll, hread, hsequence.symm, rfl, rfl⟩

end Ledger

/-! ## Refused and accepted mutations -/

/-- A commit that gives a sequence has appended its record under it. -/
theorem Runtime.commit_one {io : State.AppendIo} {type : Ledger.RecordType} {payload : Json} {r r' : Runtime}
    {dir dir' : Directory} {n : UInt64} (h : r.commit io type payload dir = (.ok n, r', dir')) :
    Ledger.AppendedOne r.ledger r'.ledger dir dir' ⟨type, payload.dump⟩ n := by
  unfold commit at h
  simp only at h
  split at h
  · cases h
  · cases happend : Ledger.append io type payload.dump r.ledger dir with
    | mk result rest =>
      rw [happend] at h
      cases h
      exact Ledger.append_one (e := ⟨type, payload.dump⟩) happend

/-- The sequence that a mutation reports is the one that its record got. -/
theorem Mutation.perform_sequence {around : Surroundings} {r r' : Runtime} {dir dir' : Directory} {m : Mutation}
    {p : Planned} {n : UInt64} (hplan : m.plan around r = .ok p)
    (hcommit : r.commit around.io p.type p.payload dir = (.ok n, r', dir')) : (m.perform around r dir).1.sequence = n := by
  cases m with
  | registerWorkload c =>
    rw [plan] at hplan
    obtain ⟨u, hchecks, rfl⟩ := except_map_eq_ok.1 hplan
    simp only [perform, Runtime.registerWorkload, hchecks, hcommit]
    rfl
  | publish c =>
    rw [plan] at hplan
    obtain ⟨planned, hchecks, rfl⟩ := except_map_eq_ok.1 hplan
    simp only [perform, Runtime.publish, hchecks, hcommit]
    rfl
  | attachEvidence e =>
    rw [plan] at hplan
    obtain ⟨u, hchecks, rfl⟩ := except_map_eq_ok.1 hplan
    simp only [perform, Runtime.attachEvidence, hchecks, hcommit]
    rfl
  | installPolicy policy =>
    rw [plan] at hplan
    obtain ⟨u, hchecks, rfl⟩ := except_map_eq_ok.1 hplan
    simp only [perform, Runtime.installPolicy, hchecks, hcommit]
    rfl
  | retire id =>
    rw [plan] at hplan
    obtain ⟨w, hchecks, rfl⟩ := except_map_eq_ok.1 hplan
    simp only [perform, Runtime.retire, hchecks, hcommit]
    rfl

/-- What an accepted mutation did: it changed the state as planned, and appended its record under the sequence it
reports. -/
def Mutation.Accepted (around : Surroundings) (r : Runtime) (dir : Directory) (m : Mutation) : Prop :=
  ∃ p, m.plan around r = .ok p ∧ (m.perform around r dir).2.1.state = p.state ∧
    Ledger.AppendedOne r.ledger (m.perform around r dir).2.1.ledger dir (m.perform around r dir).2.2
      ⟨p.type, p.payload.dump⟩ (m.perform around r dir).1.sequence

/-- A mutation of any kind, from any state: refused it leaves the state as it was, accepted it has appended exactly one
record, under the sequence it reports. -/
theorem perform_atomic (around : Surroundings) (r : Runtime) (dir : Directory) (m : Mutation) :
    if (m.perform around r dir).1.ok then m.Accepted around r dir else (m.perform around r dir).2.1.state = r.state := by
  rcases Mutation.perform_cases around r dir m with ⟨f, hplan, hok, heq⟩ | ⟨p, hplan, hrest⟩
  · -- refused by a check
    rw [if_neg (by rw [hok]; decide), heq]
  · rcases hrest with ⟨f, l, dir', hcommit, hok, heq⟩ | ⟨n, l, dir', hcommit, hok, heq⟩
    · -- refused by the journal: only the handle has changed
      rw [if_neg (by rw [hok]; decide), heq]
    · rw [if_pos hok]
      refine ⟨p, hplan, by rw [heq], ?_⟩
      rw [Mutation.perform_sequence hplan hcommit, heq]
      have hone := Runtime.commit_one hcommit
      exact hone

/-! ## Contracts that prefer -/

/-- The first contract of a workload, which prefers a locality and requires nothing. -/
def preferringContract : Contract := signed domainRegistration (canonicalize { body := localityBody 1 .preferred })

theorem preferringContract_workload : preferringContract.body.workload.id = .repeating 1 := rfl

theorem preferringContract_signed : ∃ c, preferringContract = signed domainRegistration c := ⟨_, rfl⟩

set_option maxRecDepth 100000 in
theorem localityBody_sole : (localityBody 1 .preferred).Sole :=
  ⟨by decide +kernel, ⟨_, rfl, by decide +kernel⟩, by decide +kernel⟩

set_option maxRecDepth 100000 in
theorem preferringContract_checks : (validateContract preferringContract).ok = true ∧
    (Runtime.registrationPayload 1 preferringContract).dump.length ≤ Ledger.maxRecordBytes :=
  ⟨localityBody_sole.valid (c := { body := localityBody 1 .preferred }) (.inl ⟨rfl, rfl⟩) _,
    (Json.length_dump_le _).trans (by decide +kernel)⟩

/-- A blank runtime accepts the contract. -/
theorem preferringContract_registers {r : Runtime} (h : r.Blank isolationTrust) (dir : Directory) :
    ((Mutation.registerWorkload preferringContract).perform undisturbed r dir).1.ok = true ∧
      ∃ l, ((Mutation.registerWorkload preferringContract).perform undisturbed r dir).2.1 =
        { r with state := r.state.register preferringContract 1, ledger := l } ∧ Ledger.Room l 14 :=
  h.registers preferringContract_signed preferringContract_checks.1 rfl rfl preferringContract_checks.2 dir

end Wnc
