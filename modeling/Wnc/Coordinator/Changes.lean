/-
The changes that are made for each connection. However the passes interleave the sessions, the requests that come over one
connection make their changes once each and in their order, and no other change is made for it.
-/
import Wnc.Coordinator.Conversation
import Wnc.Coordinator.Submission

namespace Wnc

open Lib Wire

/-- A change, the slot of the session it is made for, and what is met outside. -/
structure ServedChange where
  slot : Nat
  around : Surroundings
  mutation : Mutation

namespace ServedChange

/-- The change as an event of the history of the runtime. -/
def event (c : ServedChange) : Event := .mutate c.around c.mutation

/-- The changes made for a slot. -/
def of (index : Nat) (changes : List ServedChange) : List Mutation :=
  (changes.filter fun c => c.slot == index).map ServedChange.mutation

theorem of_append (index : Nat) (changes more : List ServedChange) :
    of index (changes ++ more) = of index changes ++ of index more := by
  rw [of, List.filter_append, List.map_append]
  rfl

end ServedChange

namespace Machine

/-- The change that a step makes, for the session that is pumped. -/
def serves (m : Machine) (a : Action) : List ServedChange :=
  match m.control with
  | .pumping index _ => ((m.change a).map fun change => ⟨index, change.1, change.2⟩).toList
  | _ => []

theorem change_eq_none {m : Machine} {a : Action} (h : ∀ index point, m.control ≠ .pumping index point) :
    m.change a = none := by
  obtain ⟨c, control⟩ := m
  cases a with
  | proceed os =>
    cases control with
    | pumping index point => exact absurd rfl (h index point)
    | idle | visiting _ | draining _ _ | drainFlushing _ _ => rfl
  | requestStop => rfl
  | stop os => rfl

/-- The changes for the sessions are all the changes, in their order. -/
theorem events_eq (m : Machine) (a : Action) : m.events a = (m.serves a).map ServedChange.event := by
  unfold events serves
  cases hcontrol : m.control with
  | pumping index point =>
    simp only
    cases m.change a with
    | none => rfl
    | some change => rfl
  | idle | visiting _ | draining _ _ | drainFlushing _ _ =>
    rw [change_eq_none (by rw [hcontrol]; rintro _ _ ⟨⟩)]
    rfl

theorem trace_events (m : Machine) (actions : List Action) :
    trace step events m actions = (trace step serves m actions).map ServedChange.event := by
  induction actions generalizing m with
  | nil => rfl
  | cons a actions ih => rw [trace, trace, List.map_append, events_eq, ih]

/-- The frames of a slot that a step handles. -/
def taking (m : Machine) (index : Nat) : Action → List Frame
  | .proceed _ => (m.point index).elim [] Point.inHand
  | _ => []

theorem of_serves_ne {c : Coordinator} {control : Control} {index : Nat} {a : Action}
    (h : ∀ {i point}, control = .pumping i point → i ≠ index) :
    ServedChange.of index (Machine.serves ⟨c, control⟩ a) = [] := by
  unfold ServedChange.of serves
  cases control with
  | pumping i point =>
    simp only
    cases Machine.change ⟨c, .pumping i point⟩ a with
    | none => rfl
    | some change => simp [h rfl]
  | idle | visiting _ | draining _ _ | drainFlushing _ _ => rfl

/-- A step makes for a slot in use the change that the frame in hand asks for. -/
theorem of_serves {m : Machine} {index : Nat} {s : Session} (hs : m.session index = some s) (a : Action) :
    ServedChange.of index (m.serves a) = (m.taking index a).filterMap Coordinator.requested := by
  obtain ⟨c, control⟩ := m
  have hsession : c.sessions[index]? = some s := (session_eq_some.1 hs).1
  cases control with
  | pumping i point =>
    by_cases hi : i = index
    · subst hi
      cases a with
      | proceed os =>
        cases point with
        | handling processed frame =>
          simp only [serves, change, handles, taking, Machine.point, hsession, Point.inHand, if_true, Option.bind_some,
            List.head?_cons, Option.map_some, Option.elim_some]
          cases hrequested : Coordinator.requested frame with
          | none => simp [ServedChange.of, hrequested]
          | some mutation => simp [ServedChange.of, hrequested]
        | _ =>
          simp [serves, change, handles, taking, Machine.point, hsession, Point.inHand, ServedChange.of]
      | requestStop => rfl
      | stop os => rfl
    · have hnone : Machine.taking ⟨c, .pumping i point⟩ index a = [] := by
        cases a with
        | proceed os => simp only [taking, Machine.point, if_neg hi, Option.elim_none]
        | requestStop => rfl
        | stop os => rfl
      rw [hnone, List.filterMap_nil, of_serves_ne (by rintro _ _ ⟨⟩; exact hi)]
  | idle | visiting _ | draining _ _ | drainFlushing _ _ =>
    cases a with
    | proceed os => rfl
    | requestStop => rfl
    | stop os => rfl

/-- No change is made for a slot in the step that takes a connection in it. -/
theorem of_serves_entered {m : Machine} {index : Nat} {a : Action} {s' : Session} (hs : m.session index = none)
    (hs' : (m.step a).session index = some s') : ServedChange.of index (m.serves a) = [] := by
  obtain ⟨c, control⟩ := m
  cases control with
  | pumping i point =>
    by_cases hi : i = index
    · subst hi
      cases a with
      | proceed os =>
        unfold Machine.step proceed at hs'
        simp only at hs'
        split at hs'
        · have hs' : Machine.session ⟨c, .pumping i point⟩ i = some s' := hs'
          rw [hs'] at hs
          cases hs
        · rename_i u hu
          -- the pump of a slot that is not in use does not take it
          have hunused : u.used = true → False := fun hused => by
            rw [session_eq_some.2 ⟨hu, hused⟩] at hs
            cases hs
          split at hs'
          · rename_i c' u' next hpump
            rcases session_settle hs' with ⟨-, -, hused⟩ | ⟨hne, -⟩
            · exact (hunused (Coordinator.used_of_pump hpump hused)).elim
            · exact absurd rfl hne
          · rename_i c' u' hpump
            rcases session_settle hs' with ⟨-, -, hused⟩ | ⟨hne, -⟩
            · exact (hunused (Coordinator.used_of_pump hpump hused)).elim
            · exact absurd rfl hne
      | requestStop => rfl
      | stop os => rfl
    · exact of_serves_ne (by rintro _ _ ⟨⟩; exact hi)
  | idle | visiting _ | draining _ _ | drainFlushing _ _ => exact of_serves_ne (by rintro _ _ ⟨⟩)

theorem handled_next {m : Machine} {index : Nat} {a : Action} {s s' : Session} (hs : m.session index = some s)
    (hs' : (m.step a).session index = some s') (t : Conversation) :
    (t.next index m a).handled = t.handled ++ m.taking index a := by
  unfold Conversation.next
  rw [hs, hs']
  cases a with
  | proceed os =>
    unfold taking
    cases m.point index with
    | none => rfl
    | some point => rfl
  | requestStop =>
    cases m.point index with
    | none => rfl
    | some point => rfl
  | stop os =>
    cases m.point index with
    | none => rfl
    | some point => rfl

/-- While a slot stays in use, the changes made for it are those that the frames it handles ask for. -/
theorem of_trace {m : Machine} {index : Nat} {since : List Action}
    (hopen : ∀ n ≤ since.length, ∃ s, (m.run (since.take n)).session index = some s) (t : Conversation) :
    ∃ frames, (Watched.run index ⟨m, t⟩ since).conversation.handled = t.handled ++ frames ∧
      ServedChange.of index (trace step serves m since) = frames.filterMap Coordinator.requested := by
  induction since generalizing m t with
  | nil => exact ⟨[], (List.append_nil _).symm, rfl⟩
  | cons a since ih =>
    obtain ⟨s, hs⟩ := hopen 0 (Nat.zero_le _)
    have hs : m.session index = some s := hs
    obtain ⟨s', hs'⟩ := hopen 1 (by simp)
    have hs' : (m.step a).session index = some s' := hs'
    obtain ⟨frames, hhandled, hchanges⟩ := ih (m := m.step a)
      (fun n hn => hopen (n + 1) (Nat.succ_le_succ hn)) (t.next index m a)
    refine ⟨m.taking index a ++ frames, ?_, ?_⟩
    · rw [← List.append_assoc, ← handled_next hs hs' t]
      exact hhandled
    · rw [trace, ServedChange.of_append, List.filterMap_append, hchanges, of_serves hs]

end Machine

namespace Watched

/-- Nothing has passed over a slot that is not in use, whatever the coordinator has been through. -/
theorem inv_free (options : CoordinatorOptions) (runtime : Runtime) (directory : Directory) (before : List Action)
    {m : Machine} (hm : (Coordinator.start options runtime directory).run before = m) {index : Nat}
    (hfree : m.session index = none) : Inv index ⟨m, {}⟩ := by
  have hrun := inv_run before (inv_start index options runtime directory)
  have hmachine := run_machine index { machine := Coordinator.start options runtime directory } before
  generalize run index { machine := Coordinator.start options runtime directory } before = w at hrun hmachine
  obtain ⟨m', t⟩ := w
  obtain rfl : m' = m := hmachine.trans hm
  obtain rfl : t = {} := hrun.empty hfree
  exact hrun

theorem run_cons_free {m : Machine} {index : Nat} (hfree : m.session index = none) (a : Action) (since : List Action) :
    run index ⟨m, {}⟩ (a :: since) = run index ⟨m.step a, {}⟩ since := by
  have hnext : Conversation.next index m a {} = {} := by rw [Conversation.next, hfree]
  have hstep : step index ⟨m, {}⟩ a = ⟨m.step a, {}⟩ := by rw [step, hnext]
  rw [← hstep]
  rfl

/-- The changes that are made for a connection since it was accepted are those that the frames it handled ask for. -/
theorem of_trace {m : Machine} {index : Nat} {since : List Action} (hfree : m.session index = none)
    (hopen : ∀ n, 0 < n → n ≤ since.length → ∃ s, (m.run (since.take n)).session index = some s) :
    ServedChange.of index (trace Machine.step Machine.serves m since) =
      (run index ⟨m, {}⟩ since).conversation.handled.filterMap Coordinator.requested := by
  cases since with
  | nil => rfl
  | cons a since =>
    obtain ⟨s, hs⟩ := hopen 1 Nat.one_pos (by simp)
    have hs : (m.step a).session index = some s := hs
    have hopen' : ∀ n ≤ since.length, ∃ s, ((m.step a).run (since.take n)).session index = some s := fun n hn =>
      hopen (n + 1) (Nat.succ_pos n) (Nat.succ_le_succ hn)
    obtain ⟨frames, hhandled, hserved⟩ := Machine.of_trace hopen' {}
    rw [run_cons_free hfree, hhandled, trace, ServedChange.of_append, Machine.of_serves_entered hfree hs, hserved]
    rfl

end Watched

/-- In every run the changes of the history are made for the sessions one after the other. Those made for a connection
since it was accepted are the changes that the first of its requests ask for, once each and in their order; and these
are the requests that were handled. -/
theorem changes_once (options : CoordinatorOptions) (runtime : Runtime) (directory : Directory)
    (before since : List Action) {m : Machine} (hm : (Coordinator.start options runtime directory).run before = m)
    {index : Nat} (hfree : m.session index = none)
    (hopen : ∀ n, 0 < n → n ≤ since.length → ∃ s, (m.run (since.take n)).session index = some s)
    {requests : List Request} {bytes : Bytes} (hrequests : Request.encodeAll requests [] = .ok bytes)
    (hreceived : (Watched.run index ⟨m, {}⟩ since).conversation.received <+: bytes) :
    trace Machine.step Machine.events m since =
        (trace Machine.step Machine.serves m since).map ServedChange.event ∧
      ∃ done todo, requests = done ++ todo ∧
        ServedChange.of index (trace Machine.step Machine.serves m since) =
          done.filterMap (fun r => Coordinator.requested r.frame) ∧
        (Watched.run index ⟨m, {}⟩ since).conversation.handled = done.map Request.frame := by
  obtain ⟨hbodies, rfl⟩ := Request.encodeAll_ok hrequests
  refine ⟨Machine.trace_events m since, ?_⟩
  -- what is handled is a beginning of the requests, in their order
  have hinv := Watched.inv_run since (Watched.inv_free options runtime directory before hm hfree)
  obtain ⟨k, hk⟩ : ∃ k, (Watched.run index ⟨m, {}⟩ since).conversation.handled =
      (requests.take k).map Request.frame := by
    obtain ⟨rest, hrest⟩ := (hinv.inOrder hbodies hreceived).handled
    refine ⟨(Watched.run index ⟨m, {}⟩ since).conversation.handled.length, ?_⟩
    rw [List.map_take, ← hrest, List.take_left]
  refine ⟨requests.take k, requests.drop k, (List.take_append_drop k requests).symm, ?_, hk⟩
  rw [Watched.of_trace hfree hopen, hk, List.filterMap_map]
  rfl

/-- What a client sends for a retirement. -/
def retirementRequest (requestId : UInt64) (workload : WorkloadId) : Request :=
  ⟨.retireWorkload, requestId, (Mutation.retire workload).request.dump⟩

/-- Two retirements, one after the other. -/
def retirementRequests : List Request := [retirementRequest 1 (.repeating 1), retirementRequest 2 (.repeating 2)]

def retirementBytes : Bytes := retirementRequests.flatMap Request.bytes

/-- The connection is accepted, and the requests are received and handled. -/
def retirementRun : List Action :=
  inPieces ⟨retirementBytes.take 40, by decide +kernel, by decide +kernel⟩
    ⟨(retirementBytes.drop 40).take 100, by decide +kernel, by decide +kernel⟩
    ⟨retirementBytes.drop 140, by decide +kernel, by decide +kernel⟩

def retirementStart : Machine := Coordinator.start { maxSessions := 1 } idleRuntime (.fresh [])

theorem retirements_submittable :
    ∀ workload ∈ [Id.repeating 1, Id.repeating 2], (Mutation.retire workload).Submittable := by
  have hlength : ∀ workload ∈ [Id.repeating 1, Id.repeating 2],
      (Mutation.retire workload).request.dump.length ≤ maxDocumentBytes := by decide +kernel
  exact fun workload hworkload => ⟨hlength workload hworkload, trivial⟩

theorem requested_retirementRequest (requestId : UInt64) {workload : WorkloadId}
    (h : workload ∈ [Id.repeating 1, Id.repeating 2]) :
    Coordinator.requested (retirementRequest requestId workload).frame = some (.retire workload) :=
  (Coordinator.requested_request_iff (m := .retire workload) trivial rfl (.inr rfl)).2
    ⟨rfl, retirements_submittable workload h⟩

theorem encodeAll_retirementRequests : Request.encodeAll retirementRequests [] = .ok retirementBytes :=
  Request.encodeAll_eq (by decide +kernel) []

theorem changes_once_retirements : ServedChange.of 0 (trace Machine.step Machine.serves retirementStart retirementRun) =
    [.retire (.repeating 1), .retire (.repeating 2)] := by
  have hrun : retirementStart.session 0 = none ∧
      (∀ n ≤ retirementRun.length, 0 < n → ((retirementStart.run (retirementRun.take n)).session 0).isSome = true) ∧
      (Watched.run 0 ⟨retirementStart, {}⟩ retirementRun).conversation.received = retirementBytes ∧
      (Watched.run 0 ⟨retirementStart, {}⟩ retirementRun).conversation.handled.length = 2 := by
    decide +kernel
  obtain ⟨hfree, hopen, hreceived, hlength⟩ := hrun
  obtain ⟨-, done, todo, hsplit, hchanges, hhandled⟩ := changes_once { maxSessions := 1 } idleRuntime (.fresh []) []
    retirementRun (m := retirementStart) rfl hfree
    (fun n hpos hn => Option.isSome_iff_exists.1 (hopen n hn hpos)) encodeAll_retirementRequests (by rw [hreceived])
  rw [hhandled, List.length_map] at hlength
  obtain ⟨first, second, rfl⟩ := List.length_eq_two.1 hlength
  obtain ⟨rfl, hrest⟩ := List.cons.inj hsplit
  obtain ⟨rfl, -⟩ := List.cons.inj hrest
  rw [hchanges, List.filterMap_cons, requested_retirementRequest 1 (by simp), List.filterMap_cons,
    requested_retirementRequest 2 (by simp)]
  rfl

end Wnc
