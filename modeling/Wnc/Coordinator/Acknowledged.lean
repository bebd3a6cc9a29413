/-
What an answer says of the disk. A peer is told that a change was made exactly when its record is read back from the
directory, under the sequence that the answer names; a refusal leaves the records as they were.
-/
import Wnc.Coordinator.Submission
import Wnc.Runtime.Durable

namespace Wnc

open Lib Wire

/-- The steps of one boot lead to one state. -/
theorem System.run_unique {guard : System → Event → Prop} {s₀ s t : System} {events : List Event}
    (h : Run System.Step System.FirstBoot s₀ events s) (h' : Run System.Step guard s₀ events t) : s = t := by
  induction h with
  | nil s =>
    cases h'
    rfl
  | cons hg hstep _ ih =>
    cases h' with
    | cons _ hstep' rest' =>
      cases hstep with
      | mutate around m =>
        cases hstep'
        exact ih rest'
      | reopen _ _ => exact hg.elim

/-- The answers to a request for a change, beside what is read of the directory then: the records of a history, and the
one of the change if it was accepted. -/
inductive Acknowledged (s : System) (around : Surroundings) (m : Mutation) (session : Session) (requestId : UInt64) :
    Coordinator × Session → Prop
  | refused (c : Coordinator) (f : Failure) (unrecorded : OnDisk c.directory s.journal) :
      Acknowledged s around m session requestId (c.queueError session requestId f)
  | accepted (c : Coordinator) (body : Json) (e : Ledger.Entry) (sequence : UInt64)
      (ok : body.find (utf8 "ok") = some (.bool true)) (named : body.find (utf8 "sequence") = some (jsonUint sequence))
      (record : s.record around m = [e]) (recorded : OnDisk c.directory (s.journal ++ [e]))
      (place : sequence.toNat = s.journal.length + 1) :
      Acknowledged s around m session requestId (c.queueSuccess session requestId body)

/-- An accepted mutation hands one record to the ledger. -/
theorem System.record_of_accepted {s : System} {around : Surroundings} {m : Mutation}
    (h : (m.perform around s.runtime s.dir).1.ok = true) :
    ∃ e, s.record around m = [e] ∧ (s.mutate around m).journal = s.journal ++ [e] := by
  have hjournal : (s.mutate around m).journal = s.journal ++ s.record around m := by
    unfold System.mutate
    simp only [h, if_true]
  obtain ⟨e, he⟩ := System.journal_of_accepted h
  exact ⟨e, List.append_cancel_left (hjournal.symm.trans he), he⟩

section FirstBoot

variable {options : Options} {incarnation : Incarnation} {startedAtMillis : UInt64} {path : Bytes} {r : Runtime}
  {dir : Directory} {s : System}

/-- Whatever a coordinator has been through since its first boot, a peer that asks for a change is answered as the disk
is: by the sequence of the record, or by a refusal that leaves no record. -/
theorem acknowledged_recorded
    (hboot : openRuntime .succeeds options incarnation startedAtMillis (.fresh path) = (.ok r, dir))
    (coordinatorOptions : CoordinatorOptions) {actions : List Action}
    (hrun : Run System.Step System.FirstBoot ⟨r, dir, [], []⟩
      (trace Machine.step Machine.events (Coordinator.start coordinatorOptions r dir) actions) s)
    {frame : Frame} {m : Mutation} (hrequested : Coordinator.requested frame = some m) {around : Surroundings}
    (hleaves : s.LeavesNothing around m) (session : Session) :
    Acknowledged s around m session frame.header.requestId
      (Coordinator.handleFrame around frame ((Coordinator.start coordinatorOptions r dir).run actions).coordinator
        session) := by
  have hstart : Machine.Serves (Coordinator.start coordinatorOptions r dir) ⟨r, dir, [], []⟩ := ⟨rfl, rfl⟩
  obtain ⟨t, hserved, hserves⟩ := Machine.simulated.run hstart actions
  obtain rfl := System.run_unique hrun hserved
  obtain ⟨parts, hrecorded⟩ := recorded_run hboot hrun
  obtain ⟨parts', hrecorded', hsequence⟩ := hrecorded.mutate hleaves
  have hreads := hrecorded'.reads
  have houtcome := Coordinator.handleFrame_outcome around
    ((Coordinator.start coordinatorOptions r dir).run actions).coordinator session frame
  have hruntime : ((Coordinator.start coordinatorOptions r dir).run actions).coordinator.runtime = s.runtime :=
    hserves.runtime
  have hdirectory : ((Coordinator.start coordinatorOptions r dir).run actions).coordinator.directory = s.dir :=
    hserves.directory
  generalize ((Coordinator.start coordinatorOptions r dir).run actions).coordinator = c at houtcome hruntime hdirectory ⊢
  rw [hrequested] at houtcome
  generalize hout : Coordinator.handleFrame around frame c session = out at houtcome ⊢
  cases houtcome with
  | refused _ hrefused =>
    rw [hruntime, hdirectory] at hrefused ⊢
    refine .refused _ _ ?_
    have hjournal : (s.mutate around m).journal = s.journal := by
      unfold System.mutate
      simp only [hrefused, Bool.false_eq_true, if_false]
    rw [hjournal] at hreads
    exact hreads
  | accepted _ body haccepted hok hnamed =>
    rw [hruntime, hdirectory] at haccepted hnamed ⊢
    obtain ⟨e, hrecord, hjournal⟩ := System.record_of_accepted haccepted
    rw [hjournal] at hreads
    exact .accepted _ body e _ hok hnamed hrecord hreads (hsequence haccepted)

/-- A retirement that a coordinator is asked for as soon as it is started. -/
theorem acknowledged_recorded_retirement : ∃ (s : System) (frame : Frame) (out : Coordinator × Session),
    OnDisk s.dir [] ∧ Coordinator.requested frame = some (.retire (.repeating 1)) ∧
      Acknowledged s undisturbed (.retire (.repeating 1)) {} 1 out := by
  obtain ⟨⟨r, dir, journal, unsettled⟩, hopen, rfl, rfl, -, -⟩ := isolation_accepted
  have hrequested : Coordinator.requested (frameOf .retireWorkload 1 (Mutation.retire (.repeating 1)).request.dump) =
      some (.retire (.repeating 1)) :=
    (Coordinator.requested_request_iff (m := .retire (.repeating 1)) trivial rfl (.inr rfl)).2
      ⟨rfl, retirement_submittable⟩
  have hleaves : System.LeavesNothing ⟨r, dir, [], []⟩ undisturbed (.retire (.repeating 1)) := by
    obtain ⟨state, hreplay, hstate, -⟩ := (openedFrom_fresh hopen).spec
    cases hreplay
    intro _ e he
    have hplan : Mutation.plan undisturbed r (.retire (.repeating 1)) =
        fail .unknownWorkload "no contract is registered for that workload" := by
      rw [Mutation.plan, Runtime.planRetirement, hstate]
      rfl
    unfold System.record at he
    rw [hplan] at he
    cases he
  obtain ⟨parts, hrecorded⟩ := recorded_run hopen (.nil _)
  have hrun : Run System.Step System.FirstBoot ⟨r, dir, [], []⟩
      (trace Machine.step Machine.events (Coordinator.start {} r dir) []) ⟨r, dir, [], []⟩ := .nil _
  exact ⟨_, _, _, hrecorded.reads, hrequested, acknowledged_recorded hopen {} hrun hrequested hleaves {}⟩

end FirstBoot

end Wnc
