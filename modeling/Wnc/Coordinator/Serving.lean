/-
What a coordinator makes of its runtime. A request asks for at most one change, which is made while its frame is
handled, and nothing else that a coordinator does touches the runtime or its directory: a run of the coordinator is a
history of the runtime, whose events are the changes asked for in the order in which they were handled.
-/
import Wnc.Coordinator.Conversation
import Wnc.Runtime.History
import Wnc.Lib.Simulation

namespace Wnc

open Lib Wire

namespace Coordinator

/-! ## What a request asks for -/

/-- The handler a frame selects, and its body, when it passes the checks that all requests pass. -/
def readRequest (frame : Frame) : Except Failure (MessageType × Json) :=
  if !definedMessageType frame.header.type then
    .error ⟨.unknownFrameType, utf8 "frame type is not defined by this protocol version"⟩
  else
    match jsonDecode frame.body {} with
    | .error e => .error ⟨e.code, e.message⟩
    | .ok body =>
      if !body.isObject then .error ⟨.jsonNotAnObject, utf8 "request body must be a JSON object"⟩
      else
        match requireString body (utf8 "request") "schema" with
        | .error f => .error f
        | .ok schema =>
          match schemaHandler schema with
          | none =>
            .error ⟨.unknownPayloadSchema, utf8 "payload schema '" ++ schema ++ utf8 "' is not supported"⟩
          | some handler =>
            if frame.header.type ≠ .unknown ∧ frame.header.type ≠ handler then
              .error ⟨.unknownPayloadSchema, utf8 "payload schema does not match the frame type"⟩
            else .ok (handler, body)

/-- The change that a request asks for. -/
def readMutation (handler : MessageType) (body : Json) : Option Mutation :=
  if handler = .registerWorkload then
    ((body.find (utf8 "contract")).bind fun document => (contractFromJson document).toOption).map .registerWorkload
  else if handler = .publishContract then
    ((body.find (utf8 "contract")).bind fun document => (contractFromJson document).toOption).map .publish
  else if handler = .attachEvidence then
    ((body.find (utf8 "evidence")).bind fun document =>
      (evidenceFromJson (normalizeEvidenceDocument document)).toOption).map .attachEvidence
  else if handler = .installPolicy then
    ((body.find (utf8 "policy")).bind fun document => (policyFromJson document).toOption).map .installPolicy
  else if handler = .retireWorkload then (readWorkloadId body).toOption.map .retire
  else none

/-- The change that a frame asks for. -/
def requested (frame : Frame) : Option Mutation :=
  match readRequest frame with
  | .error _ => none
  | .ok (handler, body) => readMutation handler body

theorem handleFrame_eq (around : Surroundings) (frame : Frame) (c : Coordinator) (s : Session) :
    handleFrame around frame c s =
      match readRequest frame with
      | .error f => c.queueError s frame.header.requestId f
      | .ok (handler, body) => dispatch around handler c s frame.header.requestId body := by
  unfold handleFrame readRequest
  simp only
  split
  · rfl
  · cases jsonDecode frame.body {} with
    | error e => rfl
    | ok body =>
      simp only
      split
      · rfl
      · cases requireString body (utf8 "request") "schema" with
        | error f => rfl
        | ok schema =>
          simp only
          cases schemaHandler schema with
          | none => rfl
          | some handler =>
            simp only
            split
            · rfl
            · rfl

/-- What comes of a request and of the change it asks for. -/
inductive Outcome (around : Surroundings) (c : Coordinator) (s : Session) (requestId : UInt64) :
    Option Mutation → Coordinator × Session → Prop
  /-- It asks for none, and none is made. -/
  | asked {out : Coordinator × Session} (runtime : out.1.runtime = c.runtime)
      (directory : out.1.directory = c.directory) : Outcome around c s requestId none out
  | refused (m : Mutation) (refused : (m.perform around c.runtime c.directory).1.ok = false) :
      Outcome around c s requestId (some m)
        ({ c with
          runtime := (m.perform around c.runtime c.directory).2.1
          directory := (m.perform around c.runtime c.directory).2.2 }.queueError s requestId
          ⟨(m.perform around c.runtime c.directory).1.code, (m.perform around c.runtime c.directory).1.message⟩)
  /-- The reply names the sequence of the record. -/
  | accepted (m : Mutation) (body : Json) (accepted : (m.perform around c.runtime c.directory).1.ok = true)
      (ok : body.find (utf8 "ok") = some (.bool true))
      (sequence : body.find (utf8 "sequence") = some (jsonUint (m.perform around c.runtime c.directory).1.sequence)) :
      Outcome around c s requestId (some m)
        ({ c with
          runtime := (m.perform around c.runtime c.directory).2.1
          directory := (m.perform around c.runtime c.directory).2.2 }.queueSuccess s requestId body)

section Outcome

variable (around : Surroundings) (c : Coordinator) (s : Session) (requestId : UInt64) (body : Json)

theorem queueError_asked (f : Failure) : Outcome around c s requestId none (c.queueError s requestId f) := .asked rfl rfl

variable {around c s requestId body} in
/-- A reply that names what the runtime reports is an outcome of the change. -/
theorem Outcome.of_perform {m : Mutation} {result : MutationResult} {r : Runtime} {dir : Directory}
    (h : m.perform around c.runtime c.directory = (result, r, dir)) (ok : body.find (utf8 "ok") = some (.bool true))
    (sequence : body.find (utf8 "sequence") = some (jsonUint result.sequence)) :
    Outcome around c s requestId (some m)
      (if !result.ok then
        { c with runtime := r, directory := dir }.queueError s requestId ⟨result.code, result.message⟩
      else { c with runtime := r, directory := dir }.queueSuccess s requestId body) := by
  cases hok : result.ok with
  | false =>
    have hrefused := @Outcome.refused around c s requestId m (by rw [h]; exact hok)
    rw [h] at hrefused
    exact hrefused
  | true =>
    have haccepted := @Outcome.accepted around c s requestId m body (by rw [h]; exact hok) ok (by rw [h]; exact sequence)
    rw [h] at haccepted
    exact haccepted

theorem handleContractSubmission_outcome (publish : Bool) :
    Outcome around c s requestId
      (((body.find (utf8 "contract")).bind fun document => (contractFromJson document).toOption).map
        (if publish then .publish else .registerWorkload))
      (c.handleContractSubmission around s requestId body publish) := by
  unfold handleContractSubmission
  cases hfind : body.find (utf8 "contract") with
  | none => exact queueError_asked ..
  | some document =>
    simp only [Option.bind_some]
    cases hread : contractFromJson document with
    | error f => exact queueError_asked ..
    | ok contract =>
      cases publish with
      | true =>
        simp only [if_true, Except.toOption, Option.map_some]
        cases hperform : c.runtime.publish around contract c.directory with
        | mk result after =>
          exact .of_perform (by rw [Mutation.perform, hperform]) (by simp [submissionReply, Json.find_put])
            (by simp [submissionReply, Json.find_put])
      | false =>
        simp only [Bool.false_eq_true, if_false, Except.toOption, Option.map_some]
        cases hperform : c.runtime.registerWorkload around contract c.directory with
        | mk result after =>
          exact .of_perform (by rw [Mutation.perform, hperform]) (by simp [submissionReply, Json.find_put])
            (by simp [submissionReply, Json.find_put])

theorem handleAttachEvidence_outcome :
    Outcome around c s requestId
      (((body.find (utf8 "evidence")).bind fun document =>
        (evidenceFromJson (normalizeEvidenceDocument document)).toOption).map .attachEvidence)
      (c.handleAttachEvidence around s requestId body) := by
  unfold handleAttachEvidence
  cases hfind : body.find (utf8 "evidence") with
  | none => exact queueError_asked ..
  | some document =>
    simp only [Option.bind_some]
    cases hread : evidenceFromJson (normalizeEvidenceDocument document) with
    | error f => exact queueError_asked ..
    | ok evidence =>
      simp only [Except.toOption, Option.map_some]
      cases hperform : c.runtime.attachEvidence around evidence c.directory with
      | mk result after =>
        exact .of_perform (by rw [Mutation.perform, hperform]) (by simp [Json.find_put]) (by simp [Json.find_put])

theorem handleInstallPolicy_outcome :
    Outcome around c s requestId
      (((body.find (utf8 "policy")).bind fun document => (policyFromJson document).toOption).map .installPolicy)
      (c.handleInstallPolicy around s requestId body) := by
  unfold handleInstallPolicy
  cases hfind : body.find (utf8 "policy") with
  | none => exact queueError_asked ..
  | some document =>
    simp only [Option.bind_some]
    cases hread : policyFromJson document with
    | error f => exact queueError_asked ..
    | ok policy =>
      simp only [Except.toOption, Option.map_some]
      cases hperform : c.runtime.installPolicy around policy c.directory with
      | mk result after =>
        exact .of_perform (by rw [Mutation.perform, hperform]) (by simp [Json.find_put]) (by simp [Json.find_put])

theorem handleRetireWorkload_outcome :
    Outcome around c s requestId ((readWorkloadId body).toOption.map .retire)
      (c.handleRetireWorkload around s requestId body) := by
  unfold handleRetireWorkload
  cases hread : readWorkloadId body with
  | error f => exact queueError_asked ..
  | ok workload =>
    simp only [Except.toOption, Option.map_some]
    cases hperform : c.runtime.retire around workload c.directory with
    | mk result after =>
      exact .of_perform (by rw [Mutation.perform, hperform]) (by simp [Json.find_put]) (by simp [Json.find_put])

theorem handleEvaluate_asked : Outcome around c s requestId none (c.handleEvaluate around s requestId body) := by
  unfold handleEvaluate
  split
  · exact queueError_asked ..
  · simp only
    split
    · exact queueError_asked ..
    · exact .asked rfl rfl

theorem handleDescribeContract_asked :
    Outcome around c s requestId none (c.handleDescribeContract s requestId body) := by
  unfold handleDescribeContract
  split
  · exact queueError_asked ..
  · split
    · exact queueError_asked ..
    · split
      · exact queueError_asked ..
      · split
        · exact queueError_asked ..
        · exact .asked rfl rfl

theorem dispatch_outcome (handler : MessageType) :
    Outcome around c s requestId (readMutation handler body) (dispatch around handler c s requestId body) := by
  unfold dispatch
  split_ifs
  all_goals
    rename_i hhandler
    try subst hhandler
  · exact .asked rfl rfl
  · exact handleContractSubmission_outcome _ _ _ _ _ false
  · exact handleContractSubmission_outcome _ _ _ _ _ true
  · exact handleAttachEvidence_outcome ..
  · exact handleInstallPolicy_outcome ..
  · exact handleEvaluate_asked ..
  · exact .asked rfl rfl
  · exact .asked rfl rfl
  · exact handleDescribeContract_asked ..
  · exact handleRetireWorkload_outcome ..
  · rw [show readMutation handler body = none by simp [readMutation, *]]
    exact queueError_asked ..

/-- What comes of a frame: the runtime makes the change it asks for, whether accepted or refused, or stays as it is. -/
theorem handleFrame_outcome (frame : Frame) :
    Outcome around c s frame.header.requestId (requested frame) (handleFrame around frame c s) := by
  rw [handleFrame_eq, requested]
  cases readRequest frame with
  | error f => exact queueError_asked ..
  | ok request => exact dispatch_outcome ..

variable {around c s requestId} in
/-- The runtime and its directory behind an outcome are those behind the change. -/
theorem Outcome.served {change : Option Mutation} {out : Coordinator × Session}
    (h : Outcome around c s requestId change out) :
    (out.1.runtime, out.1.directory) =
      change.elim (c.runtime, c.directory) fun m => (m.perform around c.runtime c.directory).2 := by
  cases h with
  | asked hruntime hdirectory => exact Prod.ext hruntime hdirectory
  | refused m _ => rfl
  | accepted m body _ _ _ => rfl

end Outcome

/-- Outside its handlers a pump leaves the runtime alone. -/
theorem pump_served {os : Outside} {c c' : Coordinator} {s s' : Session} {point : Point} {next : Option Point}
    (h : c.pump os s point = (c', s', next)) :
    (c'.runtime, c'.directory) =
      (point.inHand.head?.bind requested).elim (c.runtime, c.directory) fun m =>
        (m.perform os.around c.runtime c.directory).2 := by
  cases point with
  | handling processed frame =>
    have hserved := (handleFrame_outcome os.around c s frame).served
    unfold pump at h
    simp only at h
    split at h
    · cases h
      exact hserved
    · cases h
      exact hserved
  | _ =>
    unfold pump at h
    simp only at h
    repeat' split at h
    all_goals
      cases h
      rfl

theorem acceptPending_served (os : Outside) (c : Coordinator) :
    (c.acceptPending os).runtime = c.runtime ∧ (c.acceptPending os).directory = c.directory := by
  unfold acceptPending acceptSession
  repeat' split
  all_goals exact ⟨rfl, rfl⟩

theorem reapIdle_served (now : UInt64) (c : Coordinator) :
    (c.reapIdle now).runtime = c.runtime ∧ (c.reapIdle now).directory = c.directory := by
  unfold reapIdle
  split
  · exact ⟨rfl, rfl⟩
  · exact ⟨rfl, rfl⟩

end Coordinator

/-! ## Histories that are served -/

namespace Machine

/-- The frame that a step handles. -/
def handles (m : Machine) : Action → Option (Outside × Frame)
  | .proceed os =>
    match m.control with
    | .pumping index point =>
      (m.coordinator.sessions[index]?).bind fun _ => point.inHand.head?.map fun frame => (os, frame)
    | _ => none
  | _ => none

/-- The change that a step makes, with what is met outside. -/
def change (m : Machine) (a : Action) : Option (Surroundings × Mutation) :=
  (m.handles a).bind fun handled => (Coordinator.requested handled.2).map fun mutation => (handled.1.around, mutation)

/-- The change as an event of the history of the runtime. -/
def events (m : Machine) (a : Action) : List Event :=
  ((m.change a).map fun change => .mutate change.1 change.2).toList

end Machine

/-- A history that goes on with a change, if there is one. -/
def System.after (s : System) : Option (Surroundings × Mutation) → System
  | none => s
  | some change => s.mutate change.1 change.2

theorem System.run_after {guard : System → Event → Prop} (s : System) (change : Option (Surroundings × Mutation))
    (hg : ∀ c, change = some c → guard s (.mutate c.1 c.2)) :
    Run System.Step guard s ((change.map fun change => Event.mutate change.1 change.2).toList) (s.after change) := by
  cases change with
  | none => exact .nil s
  | some change => exact .cons (hg change rfl) (.mutate s change.1 change.2) (.nil _)

namespace Machine

/-- The runtime of a history is the one that a coordinator serves. -/
structure Serves (m : Machine) (s : System) : Prop where
  runtime : m.coordinator.runtime = s.runtime
  directory : m.coordinator.directory = s.dir

theorem serves_proceed {m : Machine} {s : System} (h : m.Serves s) (os : Outside) :
    (m.proceed os).Serves (s.after (m.change (.proceed os))) := by
  obtain ⟨c, control⟩ := m
  obtain ⟨hruntime, hdirectory⟩ := h
  have hruntime : c.runtime = s.runtime := hruntime
  have hdirectory : c.directory = s.dir := hdirectory
  cases control with
  | idle =>
    obtain ⟨hr, hd⟩ := c.acceptPending_served os
    unfold proceed
    simp only
    split
    · exact ⟨hruntime, hdirectory⟩
    · exact ⟨hr.trans hruntime, hd.trans hdirectory⟩
  | visiting index =>
    obtain ⟨hr, hd⟩ := c.reapIdle_served os.now
    unfold proceed
    simp only
    split
    · exact ⟨hr.trans hruntime, hd.trans hdirectory⟩
    · split
      · exact ⟨hruntime, hdirectory⟩
      · exact ⟨hruntime, hdirectory⟩
  | pumping index point =>
    unfold proceed change handles
    simp only
    cases hs : c.sessions[index]? with
    | none => exact ⟨hruntime, hdirectory⟩
    | some session =>
      simp only [Option.bind_some]
      rcases hpump : c.pump os session point with ⟨c', session', next⟩
      have hserved := Coordinator.pump_served hpump
      -- the runtime behind the step is the one behind the change in hand
      have hafter : (c'.runtime, c'.directory) =
          ((s.after (((point.inHand.head?.map fun frame => (os, frame)).bind fun handled =>
              (Coordinator.requested handled.2).map fun mutation => (handled.1.around, mutation)))).runtime,
            (s.after (((point.inHand.head?.map fun frame => (os, frame)).bind fun handled =>
              (Coordinator.requested handled.2).map fun mutation => (handled.1.around, mutation)))).dir) := by
        rw [hserved, hruntime, hdirectory]
        cases point.inHand.head? with
        | none => rfl
        | some frame =>
          rw [Option.map_some, Option.bind_some, Option.bind_some]
          cases Coordinator.requested frame with
          | none => rfl
          | some mutation => rfl
      obtain ⟨hr, hd⟩ := Prod.mk.inj hafter
      cases next with
      | some next => exact ⟨hr, hd⟩
      | none => exact ⟨hr, hd⟩
  | draining deadline index =>
    unfold proceed
    simp only
    repeat' split
    all_goals exact ⟨hruntime, hdirectory⟩
  | drainFlushing deadline index =>
    unfold proceed
    simp only
    repeat' split
    all_goals exact ⟨hruntime, hdirectory⟩

/-- What a step does to the runtime is the change in hand. -/
theorem Serves.step {m : Machine} {s : System} (h : m.Serves s) (a : Action) :
    (m.step a).Serves (s.after (m.change a)) := by
  cases a with
  | proceed os => exact serves_proceed h os
  | requestStop => exact ⟨h.runtime, h.directory⟩
  | stop os =>
    have hnone : s.after (m.change (.stop os)) = s := rfl
    rw [hnone]
    unfold Machine.step
    simp only
    split
    · exact ⟨h.runtime, h.directory⟩
    · exact h

/-- A coordinator is simulated by the history of its runtime. -/
theorem simulated : Simulated step events System.Step (fun _ _ => True) Serves :=
  fun m a s h => ⟨s.after (m.change a), s.run_after (m.change a) fun _ _ => trivial, h.step a⟩

end Machine

/-- In every run of a coordinator its runtime and directory are those of a history, whose events are the changes that
were asked for, each in the order in which its frame was handled, whatever connections the frames came over. -/
theorem coordinator_serves (options : CoordinatorOptions) (s₀ : System) (actions : List Action) :
    ∃ s, Run System.Step (fun _ _ => True) s₀
        (trace Machine.step Machine.events (Coordinator.start options s₀.runtime s₀.dir) actions) s ∧
      ((Coordinator.start options s₀.runtime s₀.dir).run actions).Serves s :=
  Machine.simulated.run ⟨rfl, rfl⟩ actions

end Wnc
