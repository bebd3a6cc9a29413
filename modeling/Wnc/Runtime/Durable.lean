/-
What is accepted is on disk. From an open of an empty directory, and as long as no append that fails leaves a byte
behind, the directory reads back the records of the accepted mutations, each under the sequence that was reported for
it. It can be opened again exactly when each of them was recordable.
-/
import Wnc.Ledger.FailedAppend
import Wnc.Ledger.Tampering
import Wnc.Runtime.Acceptance
import Wnc.Runtime.Recovered

namespace Wnc

open Lib

/-! ## First boots -/

namespace System

/-- A failed mutation has not put a byte of its record into the journal. -/
def LeavesNothing (s : System) (around : Surroundings) (m : Mutation) : Prop :=
  (m.perform around s.runtime s.dir).1.ok = false →
    ∀ e ∈ s.record around m, Ledger.writtenBytes around.io e.payload s.runtime.ledger = 0

/-- A mutation that leaves nothing of what fails. There is no other boot. -/
def FirstBoot (s : System) : Event → Prop
  | .mutate around m => s.LeavesNothing around m
  | .reopen _ => False

theorem firstBoot_of_accepted {s : System} {around : Surroundings} {m : Mutation}
    (h : (m.perform around s.runtime s.dir).1.ok = true) : s.FirstBoot (.mutate around m) := fun hrefused =>
  Bool.noConfusion (h.symm.trans hrefused)

/-- The journal of a history is on disk, and the ledger stands at its end. -/
structure Recorded (s : System) (parts : List (List Ledger.Entry)) : Prop where
  journal : parts.flatten = s.journal
  holds : Ledger.Holds s.dir parts
  stands : Ledger.Stands s.runtime.ledger s.dir parts
  count : parts.length ≤ 257
  head : ∃ h : Ledger.HeadRecord, s.dir.head = some h.encode ∧ h.coordinator = coordinatorIdentity s.runtime.trust ∧
    h.trustDigest = s.runtime.trust.digest
  path : s.dir.path ≠ []
  snapshot : s.dir.snapshot = none

end System

/-- What a record is committed with: its append, with the runtime around the ledger. -/
theorem Runtime.commit_append {io : State.AppendIo} {type : Ledger.RecordType} {payload : Json} {r r' : Runtime}
    {dir dir' : Directory} {result : Except Failure UInt64} (hlen : payload.dump.length ≤ Ledger.maxRecordBytes)
    (h : r.commit io type payload dir = (result, r', dir')) :
    Ledger.append io type payload.dump r.ledger dir = (result, r'.ledger, dir') := by
  unfold commit at h
  simp only at h
  rw [if_neg (not_lt.2 hlen)] at h
  cases h
  rfl

/-- An append touches nothing but the journal. -/
theorem Ledger.append_others (io : State.AppendIo) (type : RecordType) (payload : Bytes) (l : Handle)
    (dir : Directory) : ∃ journal, (append io type payload l dir).2.2 = { dir with journal := journal } := by
  unfold append
  split
  · exact ⟨dir.journal, rfl⟩
  · simp only
    split
    · split
      · exact ⟨_, rfl⟩
      · exact ⟨_, rfl⟩
    · split
      · exact ⟨_, rfl⟩
      · exact ⟨_, rfl⟩

namespace System

variable {s : System} {parts : List (List Ledger.Entry)}

/-- A boot on an empty directory. -/
theorem recorded_start {options : Options} {incarnation : Incarnation} {startedAtMillis : UInt64} {path : Bytes}
    {r : Runtime} {dir : Directory}
    (h : openRuntime .succeeds options incarnation startedAtMillis (.fresh path) = (.ok r, dir)) :
    Recorded ⟨r, dir, [], []⟩ [] := by
  obtain ⟨l, report, hopen, hc, ht, hlast, hchain, hsegment, hcount, hbytes, hisOpen, -⟩ :=
    Ledger.openLedger_holds (Ledger.Holds.fresh path) (Nat.zero_le _)
      (show Ledger.HeadOk (coordinatorIdentity options.trust) options.trust.digest (.fresh path) from .inl ⟨rfl, rfl⟩)
      incarnation
  unfold openRuntime at h
  split at h
  · cases h
  · rename_i hpath
    simp only [hopen] at h
    split at h
    · cases h
    · cases h
      have hzero : l.segment = 0 := hsegment
      exact ⟨rfl, ⟨rfl, (Ledger.Holds.fresh path).bounded, (Ledger.Holds.fresh path).sizes⟩,
        ⟨hisOpen, hlast, hchain, .inr hzero, hbytes, hzero ▸ Nat.zero_le _, hzero ▸ Nat.zero_le _⟩, Nat.zero_le _,
        ⟨l.head, rfl, hc, ht⟩, hpath, rfl⟩

/-- A mutation that leaves nothing of what fails extends the journal by its record when it is accepted, under the
sequence that it reports. -/
theorem Recorded.mutate (h : s.Recorded parts) {around : Surroundings} {m : Mutation} (hl : s.LeavesNothing around m) :
    ∃ parts', (s.mutate around m).Recorded parts' ∧ ((m.perform around s.runtime s.dir).1.ok = true →
      (m.perform around s.runtime s.dir).1.sequence.toNat = s.journal.length + 1) := by
  unfold LeavesNothing record at hl
  unfold System.mutate record
  rcases Mutation.perform_cases around s.runtime s.dir m with ⟨f, hplan, hok, heq⟩ | ⟨p, hplan, hrest⟩
  · simp only [heq, hok, Bool.false_eq_true, if_false]
    exact ⟨parts, ⟨h.journal, h.holds, h.stands, h.count, h.head, h.path, h.snapshot⟩, fun hno => hno.elim⟩
  · rcases hrest with ⟨f, l, dir', hcommit, hok, heq⟩ | ⟨n, l, dir', hcommit, hok, heq⟩
    · simp only [heq, hok, Bool.false_eq_true, if_false]
      by_cases hlen : p.payload.dump.length ≤ Ledger.maxRecordBytes
      · have happend := Runtime.commit_append hlen hcommit
        simp only [hplan, if_pos hlen] at hl
        have hnothing := hl hok _ (List.mem_singleton_self _)
        obtain ⟨parts', hflat, hcount, hholds, hstands, -⟩ :=
          h.stands.append_unwritten (e := ⟨p.type, p.payload.dump⟩) h.holds h.count happend hnothing
        obtain ⟨journal, hothers⟩ := Ledger.append_others around.io p.type p.payload.dump s.runtime.ledger s.dir
        rw [happend] at hothers
        have hothers : dir' = { s.dir with journal := journal } := hothers
        subst hothers
        exact ⟨parts', ⟨hflat.trans h.journal, hholds, hstands, hcount, h.head, h.path, h.snapshot⟩, fun hno => hno.elim⟩
      · -- a record over the bound does not get to the ledger
        unfold Runtime.commit at hcommit
        simp only at hcommit
        rw [if_pos (not_le.1 hlen)] at hcommit
        obtain ⟨-, hafter⟩ := Prod.mk.inj hcommit
        obtain ⟨hruntime, rfl⟩ := Prod.mk.inj hafter
        rw [← hruntime]
        exact ⟨parts, ⟨h.journal, h.holds, h.stands, h.count, h.head, h.path, h.snapshot⟩, fun hno => hno.elim⟩
    · have hlen := Runtime.commit_length hcommit
      have happend := Ledger.append_ok (Runtime.commit_append hlen hcommit)
      obtain ⟨parts', hflat, hcount, hholds, hstands, -, hsequence⟩ :=
        h.stands.append (e := ⟨p.type, p.payload.dump⟩) h.holds happend
      obtain ⟨journal, hothers⟩ := Ledger.append_others .succeeds p.type p.payload.dump s.runtime.ledger s.dir
      rw [happend] at hothers
      have hothers : dir' = { s.dir with journal := journal } := hothers
      subst hothers
      simp only [heq, hok, hplan, if_pos hlen, if_true]
      refine ⟨parts', ⟨by rw [hflat, h.journal], hholds, hstands, hcount, h.head, h.path, h.snapshot⟩, fun _ => ?_⟩
      have hnext := hholds.length_lt hcount
      rw [hflat, h.journal, List.length_append, List.length_singleton] at hnext
      rw [Mutation.perform_sequence hplan hcommit, hsequence, Ledger.Cursor.after_sequence, h.journal]
      show (1 + UInt64.ofNat s.journal.length).toNat = s.journal.length + 1
      have hlength : (UInt64.ofNat s.journal.length).toNat = s.journal.length :=
        UInt64.toNat_ofNat_of_lt' (show _ < 2 ^ 64 by omega)
      rw [UInt64.toNat_add, hlength, UInt64.toNat_one, Nat.mod_eq_of_lt (by omega), Nat.add_comm]

end System

theorem Ledger.map_entry_recordsOf (c : Cursor) (es : List Entry) : (recordsOf c es).map Record.entry = es := by
  induction es generalizing c with
  | nil => rfl
  | cons e es ih => rw [recordsOf, List.map_cons, ih]; rfl

/-- What a directory is read as: these records, under the sequences from one on. -/
def OnDisk (dir : Directory) (journal : List Ledger.Entry) : Prop :=
  ∃ records report, Ledger.readAfter 0 dir = .ok (records, report) ∧ records.map Ledger.Record.entry = journal ∧
    ∀ i record, records[i]? = some record → record.sequence.toNat = i + 1

namespace System

variable {s : System} {parts : List (List Ledger.Entry)}

/-- The records of a journal are read back in their order. -/
theorem Recorded.reads (h : s.Recorded parts) : OnDisk s.dir s.journal := by
  have hlength := h.holds.length_lt h.count
  have hread := h.holds.readAll
  have hcount : (Ledger.recordsOf .start parts.flatten).length < 2 ^ 64 := by
    rw [Ledger.length_recordsOf]
    exact hlength
  refine ⟨Ledger.recordsOf .start parts.flatten, (Ledger.readFrames s.dir).report, ?_, ?_, fun i record hi => ?_⟩
  · unfold Ledger.readAfter
    rw [hread]
    simp only [filter_behind_zero hread hcount]
  · rw [Ledger.map_entry_recordsOf]
    exact h.journal
  · have hlt := (List.getElem?_eq_some_iff.1 hi).1
    rw [Ledger.length_recordsOf] at hlt
    rw [Ledger.readAll_sequence hread i record hi, UInt64.toNat_ofNat', Nat.mod_eq_of_lt (by omega)]

/-- An open under the same trust set meets the whole journal, and succeeds when that can be replayed. -/
theorem Recorded.reopens (h : s.Recorded parts) {options : Options} (htrust : options.trust = s.runtime.trust)
    (incarnation : Incarnation) (startedAtMillis : UInt64) : ∃ records, records.map Ledger.Record.entry = s.journal ∧
      ((∃ r, (openRuntime .succeeds options incarnation startedAtMillis s.dir).1 = .ok r) ↔
        ∃ state, replay records {} = .ok state) ∧
      ∀ r, (openRuntime .succeeds options incarnation startedAtMillis s.dir).1 = .ok r → ∃ dir,
        openRuntime .succeeds options incarnation startedAtMillis s.dir = (.ok r, dir) ∧ OpenedFrom options r dir records := by
  obtain ⟨head, hhead, hcoordinator, hdigest⟩ := h.head
  obtain ⟨l, report, hopen, -⟩ := Ledger.openLedger_holds h.holds h.count
    (show Ledger.HeadOk (coordinatorIdentity options.trust) options.trust.digest s.dir from
      .inr ⟨head, hhead, by rw [htrust]; exact hcoordinator, by rw [htrust]; exact hdigest⟩) incarnation
  obtain ⟨records, report', hreads, hentries, -⟩ := h.reads
  -- the open replaces the boot record and nothing else
  have hsequence : snapshotSequence l.head.lastSequence { s.dir with head := some l.head.encode } = .ok 0 := by
    unfold snapshotSequence Ledger.readSnapshot
    simp only [h.snapshot]
    rfl
  have hrecover : recoverState l.head.lastSequence { s.dir with head := some l.head.encode } =
      (replay records {}).map clearDecisions := by
    have hread : Ledger.readAfter 0 { s.dir with head := some l.head.encode } = .ok (records, report') := hreads
    unfold recoverState
    rw [hsequence]
    simp only [bind, Except.bind, hread]
    cases replay records {} <;> rfl
  refine ⟨records, hentries, ?_, ?_⟩
  · have hstate := @openRuntime_state _ options _ startedAtMillis _ _ _ _ h.path hopen
    rw [hrecover] at hstate
    constructor
    · rintro ⟨r, hr⟩
      rw [hr] at hstate
      obtain ⟨state, hreplay, -⟩ := except_map_eq_ok.1 hstate.symm
      exact ⟨state, hreplay⟩
    · rintro ⟨state, hreplay⟩
      rw [hreplay] at hstate
      obtain ⟨r, hr, -⟩ := except_map_eq_ok.1 hstate
      exact ⟨r, hr⟩
  · intro r hr
    rcases heq : openRuntime .succeeds options incarnation startedAtMillis s.dir with ⟨result, dir⟩
    obtain rfl : result = .ok r := by rw [← hr, heq]
    have hdir : dir = { s.dir with head := some l.head.encode } := by
      unfold openRuntime at heq
      rw [if_neg h.path] at heq
      simp only [hopen] at heq
      split at heq
      · cases heq
      · cases heq
        rfl
    exact ⟨dir, rfl, by rw [hdir]; exact h.snapshot, ⟨report', by rw [hdir]; exact hreads⟩, .succeeds, incarnation,
      startedAtMillis, s.dir, heq⟩

end System

/-! ## Histories of a first boot -/

section FirstBoot

variable {options : Options} {incarnation : Incarnation} {startedAtMillis : UInt64} {path : Bytes} {r : Runtime}
  {dir : Directory} {events : List Event} {s : System}

/-- What a system has on disk: the records of the accepted mutations, in the order of their sequences. The next one that
is accepted is reported the sequence behind them. -/
structure System.Durable (s : System) : Prop where
  reads : OnDisk s.dir s.journal
  reported : ∀ (around : Surroundings) (m : Mutation), (m.perform around s.runtime s.dir).1.ok = true →
    (m.perform around s.runtime s.dir).1.sequence.toNat = s.journal.length + 1

theorem recorded_run (hboot : openRuntime .succeeds options incarnation startedAtMillis (.fresh path) = (.ok r, dir))
    (hrun : Run System.Step System.FirstBoot ⟨r, dir, [], []⟩ events s) : ∃ parts, s.Recorded parts :=
  hrun.invariant (fun s => ∃ parts, s.Recorded parts)
    (fun s e t ⟨parts, h⟩ hg hstep => by
      cases hstep with
      | mutate around m =>
        obtain ⟨parts', h', -⟩ := h.mutate hg
        exact ⟨parts', h'⟩
      | reopen _ _ => exact hg.elim)
    ⟨[], System.recorded_start hboot⟩

/-- Whatever a boot on an empty directory accepts is on disk, as long as nothing of a failed append is. -/
theorem accepted_durable (hboot : openRuntime .succeeds options incarnation startedAtMillis (.fresh path) = (.ok r, dir))
    (hrun : Run System.Step System.FirstBoot ⟨r, dir, [], []⟩ events s) : s.Durable := by
  obtain ⟨parts, h⟩ := recorded_run hboot hrun
  refine ⟨h.reads, fun around m hok => ?_⟩
  obtain ⟨-, -, hsequence⟩ := h.mutate (System.firstBoot_of_accepted hok)
  exact hsequence hok

theorem accepted_durable_registered : ∃ s : System,
    (s.mutate undisturbed (.registerWorkload isolationContract)).journal.length = 1 ∧
      (s.mutate undisturbed (.registerWorkload isolationContract)).Durable := by
  obtain ⟨⟨r, dir, journal, unsettled⟩, hopen, rfl, rfl, hok, -⟩ := isolation_accepted
  have hfirst := System.firstBoot_of_accepted hok
  have hdurable := accepted_durable hopen (.cons hfirst (.mutate _ _ _) (.nil _))
  obtain ⟨e, hjournal⟩ := System.journal_of_accepted hok
  exact ⟨_, by rw [hjournal, List.nil_append, List.length_singleton], hdurable⟩

/-- A directory that a boot wrote can be opened again, under the trust set of the boot, exactly when every mutation that
the boot accepted was recordable. -/
theorem reopens_iff (hboot : openRuntime .succeeds options incarnation startedAtMillis (.fresh path) = (.ok r, dir))
    (hrun : Run System.Step System.FirstBoot ⟨r, dir, [], []⟩ events s) {again : Options}
    (htrust : again.trust = options.trust) (incarnation' : Incarnation) (startedAtMillis' : UInt64) :
    (∃ r', (openRuntime .succeeds again incarnation' startedAtMillis' s.dir).1 = .ok r') ↔
      Run System.Step (fun s e => s.FirstBoot e ∧ s.Takes e) ⟨r, dir, [], []⟩ events s := by
  have hT := historic_chained fun trust => trust = options.trust
  have hwithin : ∀ (s : System) (e : Event), s.FirstBoot e → e.Under fun trust => trust = options.trust := by
    intro s e hg
    cases e with
    | mutate _ _ => trivial
    | reopen _ => exact hg.elim
  obtain ⟨-, -, -, hopened⟩ := (openedFrom_fresh hboot).spec
  have hi₀ : System.Inv (fun trust => trust = options.trust) WorkloadState.Chained ⟨r, dir, [], []⟩ :=
    (started_of_fresh hboot).inv hopened
  have hi := hT.run (started_of_fresh hboot) hopened (hrun.mono hwithin)
  obtain ⟨parts, h⟩ := recorded_run hboot hrun
  obtain ⟨records, hentries, hiff, -⟩ := h.reopens (htrust.trans hi.trusted.symm) incarnation' startedAtMillis'
  rw [hiff, ← System.replays_of_records hentries]
  refine hrun.guarded_iff (fun s e t hi hg hstep => hi.step hT (hwithin s e hg) hstep) (fun s e t hi hg hstep => ?_) hi₀
    (System.replays_nil rfl)
  cases hstep with
  | mutate around m => exact System.replays_mutate_iff hi around m
  | reopen _ _ => exact hg.elim

theorem reopens_iff_registered : ∃ (s : System) (r : Runtime),
    (s.mutate undisturbed (.registerWorkload isolationContract)).journal.length = 1 ∧
      (openRuntime .succeeds { trust := isolationTrust } .zero 1
        (s.mutate undisturbed (.registerWorkload isolationContract)).dir).1 = .ok r := by
  obtain ⟨⟨r, dir, journal, unsettled⟩, hopen, rfl, rfl, hok, -⟩ := isolation_accepted
  have hfirst := System.firstBoot_of_accepted hok
  obtain ⟨r', hr'⟩ := (reopens_iff hopen (.cons hfirst (.mutate _ _ _) (.nil _)) rfl .zero 1).2
    (.cons ⟨hfirst, fun _ => isolationContract_recordable⟩ (.mutate _ _ _) (.nil _))
  obtain ⟨e, hjournal⟩ := System.journal_of_accepted hok
  exact ⟨_, r', by rw [hjournal, List.nil_append, List.length_singleton], hr'⟩

end FirstBoot

/-- A history in which a workload is registered, superseded and gets evidence, and the boot after it. -/
theorem isolation_restarted : ∃ (s₀ s t : System) (events : List Event) (w : WorkloadState), s₀.Started ∧
    s₀.runtime.trust = isolationTrust ∧
    (∀ guard : System → Event → Prop, (∀ u around m, u.unsettled = [] → guard u (.mutate around m)) →
      Run System.Step guard s₀ events s) ∧ OnDisk s.dir s.journal ∧
    (∃ e ∈ s.journal, e.type = .evidenceAttached) ∧ System.Step s (.reopen { trust := isolationTrust }) t ∧
    openRuntime .succeeds { trust := isolationTrust } .zero 1 s.dir = (.ok t.runtime, t.dir) ∧
    t.runtime.state.workloads.find? (.repeating 1) = some w ∧ w.generations.length = 2 := by
  obtain ⟨⟨r, dir, journal, unsettled⟩, hopen, rfl, rfl, hregisters, hpublishes, hattaches, hstamp, hpublished⟩ :=
    isolation_succeeded
  have hstart : System.Started ⟨r, dir, [], []⟩ := started_of_fresh hopen
  obtain ⟨-, -, -, htrust⟩ := (openedFrom_fresh hopen).spec
  have hfirst₁ := System.firstBoot_of_accepted hregisters
  have hfirst₂ := System.firstBoot_of_accepted hpublishes
  have hfirst₃ := System.firstBoot_of_accepted hattaches
  have hnone₁ := System.unsettled_of_accepted hregisters
  have hnone₂ := System.unsettled_of_accepted hpublishes
  obtain ⟨s₁, hs₁⟩ : ∃ s, System.mutate ⟨r, dir, [], []⟩ undisturbed (.registerWorkload isolationContract) = s := ⟨_, rfl⟩
  rw [hs₁] at hpublishes hattaches hstamp hpublished hfirst₂ hfirst₃ hnone₁ hnone₂
  obtain ⟨s₂, hs₂⟩ : ∃ s, s₁.mutate undisturbed (.publish isolationSuccessor) = s := ⟨_, rfl⟩
  rw [hs₂] at hattaches hstamp hpublished hfirst₃ hnone₂
  have hstep₁ : System.Step ⟨r, dir, [], []⟩ (.mutate undisturbed (.registerWorkload isolationContract)) s₁ :=
    hs₁ ▸ .mutate _ _ _
  have hstep₂ : System.Step s₁ (.mutate undisturbed (.publish isolationSuccessor)) s₂ := hs₂ ▸ .mutate _ _ _
  have hstep₃ := System.Step.mutate s₂ undisturbed (.attachEvidence isolationEvidence)
  have hT := historic_chained fun trust => trust = isolationTrust
  have hi := System.Started.inv (T := fun trust => trust = isolationTrust) (Q := WorkloadState.Chained) hstart htrust
  have hunder : ∀ m, Event.Under (fun trust => trust = isolationTrust) (.mutate undisturbed m) := fun _ => trivial
  have hi₁ := hi.step hT (hunder _) hstep₁
  have hi₂ := hi₁.step hT (hunder _) hstep₂
  have hi₃ := hi₂.step hT (hunder _) hstep₃
  -- every record can be decoded again
  have htakes : Mutation.Recordable undisturbed s₂.runtime (.attachEvidence isolationEvidence) := by
    show (isolationEvidence.stamp s₂.runtime.info undisturbed.clock).Recordable
    rw [hstamp]
    exact stampedEvidence_recordable
  have hreplayable₁ := hs₁ ▸ (System.replays_mutate_iff hi undisturbed (.registerWorkload isolationContract)).2
    ⟨System.replays_nil rfl, fun _ => isolationContract_recordable⟩
  have hreplayable₂ := hs₂ ▸ (System.replays_mutate_iff hi₁ undisturbed (.publish isolationSuccessor)).2
    ⟨hreplayable₁, fun _ => isolationSuccessor_recordable⟩
  have hreplayable₃ := (System.replays_mutate_iff hi₂ undisturbed (.attachEvidence isolationEvidence)).2
    ⟨hreplayable₂, fun _ => htakes⟩
  obtain ⟨parts, hrecorded⟩ :=
    recorded_run hopen (.cons hfirst₁ hstep₁ (.cons hfirst₂ hstep₂ (.cons hfirst₃ hstep₃ (.nil _))))
  obtain ⟨records, hentries, hiff, hreopen⟩ :=
    hrecorded.reopens (show ({ trust := isolationTrust } : Options).trust = _ from hi₃.trusted.symm) .zero 1
  obtain ⟨r', hr'⟩ := hiff.2 (hreplayable₃ records hentries)
  obtain ⟨dir', hagain, hopened⟩ := hreopen r' hr'
  -- the replayed state has the history of the one in memory
  obtain ⟨state, hreplay, hstate, -⟩ := hopened.spec
  rcases s₂.mutate_cases undisturbed (.attachEvidence isolationEvidence) with ⟨_, _, _, hrefused, -⟩ |
    ⟨p, l, dir'', -, heffect, -, heq⟩
  · exact Bool.noConfusion (hattaches.symm.trans hrefused)
  · cases heffect with
    | attachEvidence _ =>
      have hlive : s₂.runtime.state.SameHistory r'.state := by
        have hreplayed := hi₃.replayed records state hentries hreplay
        rw [heq] at hreplayed
        rw [hstate]
        exact ((RuntimeState.sameHistory_clearDecisions state).trans
          (hreplayed.trans (RuntimeState.sameHistory_attach _ _))).symm
      obtain ⟨w, hw, hcore⟩ := hlive.find hpublished.found
      refine ⟨_, _, ⟨r', dir', records.map Ledger.Record.entry, []⟩, _, w, hstart, htrust, fun guard hg =>
        .cons (hg _ _ _ rfl) hstep₁ (.cons (hg _ _ _ hnone₁) hstep₂ (.cons (hg _ _ _ (hnone₂.trans hnone₁)) hstep₃ (.nil _))),
        hrecorded.reads, ?_, .reopen hopened (.inl hentries), hagain, hw,
        WorkloadState.length_of_chain (congrArg Prod.snd hcore)⟩
      rw [heq]
      exact ⟨_, List.mem_append_right _ (List.mem_singleton_self _), rfl⟩

/-- The evidence on the disk of that boot decides nothing in the next. -/
theorem restart_undecided_restarted : ∃ (dir : Directory) (opened : Runtime × Directory)
    (records : List Ledger.Record) (report : Ledger.RecoveryReport),
    Ledger.readAfter 0 dir = .ok (records, report) ∧ (∃ record ∈ records, record.type = .evidenceAttached) ∧
      openRuntime .succeeds { trust := isolationTrust } .zero 1 dir = (.ok opened.1, opened.2) ∧
      (opened.1.evaluate (fun _ => 60000) (.repeating 1)).Undecided := by
  obtain ⟨_, s, t, _, _, _, _, _, ⟨records, report, hread, hentries, -⟩, ⟨e, he, htype⟩, _, hopen, _⟩ :=
    isolation_restarted
  rw [← hentries] at he
  obtain ⟨record, hrecord, rfl⟩ := List.mem_map.1 he
  exact ⟨s.dir, (t.runtime, t.dir), records, report, hread, ⟨record, hrecord, htype⟩, hopen,
    restart_undecided hopen (.nil _) _ _⟩

end Wnc
