/-
The requests a coordinator answers. A handler ends by queueing one reply on its session: what it answers, or a refusal
that the peer can attribute to its request.
-/
import Wnc.Coordinator.Render
import Wnc.Wire.Frame

namespace Wnc

open Lib Wire

/-! ## Message types -/

namespace Wire

/-- The message types that have a token. -/
def messageTokens : List (MessageType × Bytes) :=
  [(.unknown, utf8 "unknown"), (.hello, utf8 "hello"), (.helloReply, utf8 "hello_reply"),
    (.registerWorkload, utf8 "register_workload"), (.publishContract, utf8 "publish_contract"),
    (.attachEvidence, utf8 "attach_evidence"), (.evaluate, utf8 "evaluate"), (.status, utf8 "status"),
    (.describeContract, utf8 "describe_contract"), (.installPolicy, utf8 "install_policy"),
    (.retireWorkload, utf8 "retire_workload"), (.listWorkloads, utf8 "list_workloads"), (.error, utf8 "error")]

def messageTypeToken (type : MessageType) : Bytes := (messageTokens.lookup type).getD (utf8 "unknown")

def parseMessageType (token : Bytes) : Option MessageType :=
  (messageTokens.find? fun entry => entry.2 == token).map Prod.fst

end Wire

/-! ## Sessions and replies -/

/-- A connection, which is open while the session is in use, with the bytes it has received and those it has to send. -/
structure Session where
  inbound : Bytes := []
  outbound : Bytes := []
  outOffset : Nat := 0
  lastActivityMillis : UInt64 := 0
  used : Bool := false
  /-- Work remains that does not wait for the connection. -/
  ready : Bool := false

namespace Session

def pendingOutput (s : Session) : Bool := s.outOffset < s.outbound.length

/-- Closes the connection. The slot can be used again. -/
def drop (_ : Session) : Session := {}

/-- Appends a whole frame to what is to be sent. One that cannot be framed ends the session. -/
def queueFrame (s : Session) (type : MessageType) (requestId : UInt64) (body : Json) : Session :=
  match encodeFrame type requestId body.dump [] with
  | .error _ => s.drop
  | .ok encoded => { s with outbound := s.outbound ++ encoded }

end Session

structure CoordinatorOptions where
  maxSessions : Nat := 64
  idleTimeoutMillis : UInt64 := 30000

structure Coordinator where
  options : CoordinatorOptions
  runtime : Runtime
  directory : Directory
  listening : Bool := true
  sessions : List Session
  stopRequested : Bool := false
  stopped : Bool := false
  served : UInt64 := 0
  rejected : UInt64 := 0

namespace Coordinator

def activeSessions (c : Coordinator) : Nat := c.sessions.countP Session.used

def queueSuccess (c : Coordinator) (s : Session) (requestId : UInt64) (body : Json) : Coordinator × Session :=
  ({ c with served := c.served + 1 }, s.queueFrame .retireReplyGeneric requestId body)

def queueError (c : Coordinator) (s : Session) (requestId : UInt64) (f : Failure) : Coordinator × Session :=
  let body := Json.null
    |>.put "ok" (.bool false)
    |>.put "code" (.string (codeToken f.code))
    |>.put "message" (.string (if f.message = [] then codeDescription f.code else f.message))
  ({ c with rejected := c.rejected + 1 }, s.queueFrame .error requestId body)

/-! ## Reading requests -/

def schemaPrefix : Bytes := utf8 "wnc/v1/"

/-- The request a schema tag selects, with or without the version before it. -/
def schemaHandler (schema : Bytes) : Option MessageType :=
  let token := if schemaPrefix.isPrefixOf schema then schema.drop schemaPrefix.length else schema
  match parseMessageType token with
  | none => none
  | some type =>
    if [MessageType.hello, .registerWorkload, .publishContract, .attachEvidence, .evaluate, .status, .describeContract,
        .installPolicy, .retireWorkload, .listWorkloads].contains type then some type
    else none

def definedMessageType (type : MessageType) : Bool :=
  type == .unknown || messageTypeToken type != utf8 "unknown"

def requireString (object : Json) (path : Bytes) (field : String) : Except Failure Bytes :=
  match object.find (utf8 field) with
  | none => .error ⟨.jsonMissingField, pathJoin path field ++ utf8 " is required"⟩
  | some (.string text) => .ok text
  | some _ => .error ⟨.jsonWrongType, pathJoin path field ++ utf8 " must be a string"⟩

/-- The workload a request names. The zero identity is one that no workload has. -/
def readWorkloadId (body : Json) : Except Failure WorkloadId :=
  match body.find (utf8 "workload") with
  | none => fail .jsonMissingField "request.workload is required"
  | some (.string text) =>
    match Id.parse text with
    | none => fail .jsonWrongType "request.workload must be a 64 character lowercase hexadecimal identity"
    | some workload => .ok workload
  | some _ => fail .jsonWrongType "request.workload must be a string"

/-- Whether a member of evidence says that it carries no identity. -/
def statesNoIdentity (field : Bytes × Json) : Bool :=
  match field with
  | (name, .string text) => name == utf8 "evidence_id" && ((Id.parse text : Option EvidenceId).any Id.isZero)
  | _ => false

/-- An entry without the provenance that only the coordinator may give it. -/
def normalizeEvidenceEntry (item : Json) : Json :=
  match item with
  | .object fields => .object (fields.filter fun field => field.1 != utf8 "captured_by" && field.1 != utf8 "epoch")
  | _ => item

/-- Evidence without the claims that a submitter may not make. -/
def normalizeEvidenceDocument (document : Json) : Json :=
  match document with
  | .object fields =>
    .object ((fields.filter fun field => !statesNoIdentity field).map fun field =>
      match field with
      | (name, .array items) =>
        if name == utf8 "entries" then (name, .array (items.map normalizeEvidenceEntry)) else field
      | _ => field)
  | _ => document

/-! ## Handlers -/

section Handlers

variable (around : Surroundings) (c : Coordinator) (s : Session) (requestId : UInt64) (body : Json)

def handleHello : Coordinator × Session :=
  ({ c with served := c.served + 1 }, s.queueFrame .helloReply requestId (identityToJson c.runtime.info .null))

/-- The reply to a contract that was registered or published. -/
def submissionReply (workload : WorkloadId) (contract : ContractId) (digest : Digest) (generation : ContractGeneration)
    (sequence : UInt64) : Json :=
  Json.null
    |>.put "ok" (.bool true)
    |>.put "workload" (.string workload.view)
    |>.put "contract" (.string contract.view)
    |>.put "digest" (.string digest.hex)
    |>.put "contract_generation" (jsonUint generation)
    |>.put "sequence" (jsonUint sequence)

def handleContractSubmission (publish : Bool) : Coordinator × Session :=
  match body.find (utf8 "contract") with
  | none => c.queueError s requestId ⟨.jsonMissingField, utf8 "request.contract is required"⟩
  | some document =>
    match contractFromJson document with
    | .error f => c.queueError s requestId f
    | .ok contract =>
      if publish then
        match c.runtime.publish around contract c.directory with
        | (result, runtime, directory) =>
          let c := { c with runtime := runtime, directory := directory }
          if !result.ok then c.queueError s requestId ⟨result.code, result.message⟩
          else
            c.queueSuccess s requestId
              (submissionReply result.workload result.contract result.digest result.generation result.sequence)
      else
        match c.runtime.registerWorkload around contract c.directory with
        | (result, runtime, directory) =>
          let c := { c with runtime := runtime, directory := directory }
          if !result.ok then c.queueError s requestId ⟨result.code, result.message⟩
          else
            c.queueSuccess s requestId
              (submissionReply result.workload result.contract result.digest result.contractGeneration result.sequence)

def handleAttachEvidence : Coordinator × Session :=
  match body.find (utf8 "evidence") with
  | none => c.queueError s requestId ⟨.jsonMissingField, utf8 "request.evidence is required"⟩
  | some document =>
    match evidenceFromJson (normalizeEvidenceDocument document) with
    | .error f => c.queueError s requestId f
    | .ok evidence =>
      match c.runtime.attachEvidence around evidence c.directory with
      | (result, runtime, directory) =>
        let c := { c with runtime := runtime, directory := directory }
        if !result.ok then c.queueError s requestId ⟨result.code, result.message⟩
        else
          c.queueSuccess s requestId
            (Json.null
              |>.put "ok" (.bool true)
              |>.put "evidence" (.string result.evidence.view)
              |>.put "evidence_generation" (jsonUint result.generation)
              |>.put "sequence" (jsonUint result.sequence)
              |>.put "invalidated_evaluations" (jsonCount result.invalidatedEvaluations))

def handleInstallPolicy : Coordinator × Session :=
  match body.find (utf8 "policy") with
  | none => c.queueError s requestId ⟨.jsonMissingField, utf8 "request.policy is required"⟩
  | some document =>
    match policyFromJson document with
    | .error f => c.queueError s requestId f
    | .ok policy =>
      match c.runtime.installPolicy around policy c.directory with
      | (result, runtime, directory) =>
        let c := { c with runtime := runtime, directory := directory }
        if !result.ok then c.queueError s requestId ⟨result.code, result.message⟩
        else
          c.queueSuccess s requestId
            (Json.null
              |>.put "ok" (.bool true)
              |>.put "policy" (.string result.policy.view)
              |>.put "policy_generation" (jsonUint result.generation)
              |>.put "sequence" (jsonUint result.sequence))

def handleEvaluate : Coordinator × Session :=
  match readWorkloadId body with
  | .error f => c.queueError s requestId f
  | .ok workload =>
    let result := c.runtime.evaluate around.clock workload
    if !result.ok then c.queueError s requestId ⟨result.code, result.message⟩
    else
      c.queueSuccess s requestId
        (Json.null |>.put "ok" (.bool true) |>.put "evaluation" (evaluationToJson result.evaluation))

def handleStatus : Coordinator × Session :=
  let state := c.runtime.state
  -- nothing ever sets the contract floor
  c.queueSuccess s requestId
    (identityToJson c.runtime.info (Json.null |>.put "ok" (.bool true))
      |>.put "policy_generation" (jsonUint state.policyGeneration)
      |>.put "contract_floor" (jsonUint 0)
      |>.put "evidence_floor" (jsonUint state.evidenceFloor)
      |>.put "workload_count" (jsonCount state.workloads.entries.length)
      |>.put "active_sessions" (jsonCount c.activeSessions)
      |>.put "served_requests" (jsonUint c.served)
      |>.put "rejected_requests" (jsonUint c.rejected)
      |>.put "healthy" (.bool (!c.stopRequested && !c.stopped)))

def handleListWorkloads : Coordinator × Session :=
  let items := (c.runtime.workloads.filterMap c.runtime.snapshot).map snapshotToJson
  c.queueSuccess s requestId
    (Json.null
      |>.put "ok" (.bool true)
      |>.put "count" (jsonCount items.length)
      |>.put "workloads" (.array items))

/-- The generation a description is asked for: the one named, or the current one. -/
def readGeneration (current : ContractGeneration) : Except Failure ContractGeneration :=
  match body.find (utf8 "generation") with
  | none => .ok current
  | some (.int i) =>
    if i < 0 then fail .valueOutOfRange "request.generation must not be negative"
    else .ok (if i ≠ 0 then i.toUInt64 else current)
  | some _ => fail .jsonWrongType "request.generation must be an integer"

def handleDescribeContract : Coordinator × Session :=
  match readWorkloadId body with
  | .error f => c.queueError s requestId f
  | .ok workload =>
    match c.runtime.snapshot workload with
    | none => c.queueError s requestId ⟨.unknownWorkload, utf8 "no contract is registered for that workload"⟩
    | some snapshot =>
      match readGeneration body snapshot.contractGeneration with
      | .error f => c.queueError s requestId f
      | .ok generation =>
        match c.runtime.contractAt workload generation with
        | none =>
          c.queueError s requestId
            ⟨.unknownContract, utf8 "contract generation " ++ toDecimal generation.toNat ++ utf8 " is not retained"⟩
        | some contract =>
          c.queueSuccess s requestId
            (Json.null
              |>.put "ok" (.bool true)
              |>.put "workload" (.string workload.view)
              |>.put "contract" (contractToJson contract)
              |>.put "contract_generation" (jsonUint generation)
              |>.put "retired" (.bool snapshot.retired))

def handleRetireWorkload : Coordinator × Session :=
  match readWorkloadId body with
  | .error f => c.queueError s requestId f
  | .ok workload =>
    match c.runtime.retire around workload c.directory with
    | (result, runtime, directory) =>
      let c := { c with runtime := runtime, directory := directory }
      if !result.ok then c.queueError s requestId ⟨result.code, result.message⟩
      else
        c.queueSuccess s requestId
          (Json.null
            |>.put "ok" (.bool true)
            |>.put "workload" (.string workload.view)
            |>.put "retired" (.bool true)
            |>.put "sequence" (jsonUint result.sequence))

end Handlers

def dispatch (around : Surroundings) (handler : MessageType) (c : Coordinator) (s : Session) (requestId : UInt64)
    (body : Json) : Coordinator × Session :=
  if handler = .hello then c.handleHello s requestId
  else if handler = .registerWorkload then c.handleContractSubmission around s requestId body false
  else if handler = .publishContract then c.handleContractSubmission around s requestId body true
  else if handler = .attachEvidence then c.handleAttachEvidence around s requestId body
  else if handler = .installPolicy then c.handleInstallPolicy around s requestId body
  else if handler = .evaluate then c.handleEvaluate around s requestId body
  else if handler = .status then c.handleStatus s requestId
  else if handler = .listWorkloads then c.handleListWorkloads s requestId
  else if handler = .describeContract then c.handleDescribeContract s requestId body
  else if handler = .retireWorkload then c.handleRetireWorkload around s requestId body
  else c.queueError s requestId ⟨.unknownPayloadSchema, utf8 "payload schema is not a request schema"⟩

def handleFrame (around : Surroundings) (frame : Frame) (c : Coordinator) (s : Session) : Coordinator × Session :=
  let requestId := frame.header.requestId
  if !definedMessageType frame.header.type then
    c.queueError s requestId ⟨.unknownFrameType, utf8 "frame type is not defined by this protocol version"⟩
  else
    match jsonDecode frame.body {} with
    | .error e => c.queueError s requestId ⟨e.code, e.message⟩
    | .ok body =>
      if !body.isObject then c.queueError s requestId ⟨.jsonNotAnObject, utf8 "request body must be a JSON object"⟩
      else
        match requireString body (utf8 "request") "schema" with
        | .error f => c.queueError s requestId f
        | .ok schema =>
          match schemaHandler schema with
          | none =>
            c.queueError s requestId
              ⟨.unknownPayloadSchema, utf8 "payload schema '" ++ schema ++ utf8 "' is not supported"⟩
          | some handler =>
            if frame.header.type ≠ .unknown ∧ frame.header.type ≠ handler then
              c.queueError s requestId ⟨.unknownPayloadSchema, utf8 "payload schema does not match the frame type"⟩
            else dispatch around handler c s requestId body

/-! ## One reply to a request -/

end Coordinator

/-- What a handler does to its session: it queues one frame that carries the identifier of the request, or ends a
session whose reply cannot be framed. -/
inductive Session.Replied (s : Session) (requestId : UInt64) : Session → Prop
  | ended : Replied s requestId s.drop
  | queued {type : MessageType} {body encoded : Bytes} (encodes : encodeFrame type requestId body [] = .ok encoded) :
      Replied s requestId { s with outbound := s.outbound ++ encoded }

theorem Session.queueFrame_replied (s : Session) (type : MessageType) (requestId : UInt64) (body : Json) :
    s.Replied requestId (s.queueFrame type requestId body) := by
  unfold queueFrame
  split
  · exact .ended
  · rename_i hencode
    exact .queued hencode

namespace Coordinator

/-- What a request is answered with: one reply on its session, and nothing on the others. -/
structure Answers (sessions : List Session) (s : Session) (requestId : UInt64) (out : Coordinator × Session) :
    Prop where
  replied : s.Replied requestId out.2
  sessions : out.1.sessions = sessions

section Answers

variable (around : Surroundings) (c : Coordinator) (s : Session) (requestId : UInt64) (body : Json)

theorem queueSuccess_answers {sessions : List Session} (h : c.sessions = sessions) :
    Answers sessions s requestId (c.queueSuccess s requestId body) := ⟨s.queueFrame_replied _ _ _, h⟩

theorem queueError_answers (f : Failure) {sessions : List Session} (h : c.sessions = sessions) :
    Answers sessions s requestId (c.queueError s requestId f) := ⟨s.queueFrame_replied _ _ _, h⟩

theorem handleHello_answers : Answers c.sessions s requestId (c.handleHello s requestId) :=
  ⟨s.queueFrame_replied _ _ _, rfl⟩

theorem handleContractSubmission_answers (publish : Bool) :
    Answers c.sessions s requestId (c.handleContractSubmission around s requestId body publish) := by
  unfold handleContractSubmission
  split
  · exact queueError_answers _ _ _ _ rfl
  · split
    · exact queueError_answers _ _ _ _ rfl
    · cases publish with
      | true =>
        simp only [if_true]
        split
        · exact queueError_answers _ _ _ _ rfl
        · exact queueSuccess_answers _ _ _ _ rfl
      | false =>
        simp only [Bool.false_eq_true, if_false]
        split
        · exact queueError_answers _ _ _ _ rfl
        · exact queueSuccess_answers _ _ _ _ rfl

theorem handleAttachEvidence_answers :
    Answers c.sessions s requestId (c.handleAttachEvidence around s requestId body) := by
  unfold handleAttachEvidence
  split
  · exact queueError_answers _ _ _ _ rfl
  · split
    · exact queueError_answers _ _ _ _ rfl
    · simp only
      split
      · exact queueError_answers _ _ _ _ rfl
      · exact queueSuccess_answers _ _ _ _ rfl

theorem handleInstallPolicy_answers :
    Answers c.sessions s requestId (c.handleInstallPolicy around s requestId body) := by
  unfold handleInstallPolicy
  split
  · exact queueError_answers _ _ _ _ rfl
  · split
    · exact queueError_answers _ _ _ _ rfl
    · simp only
      split
      · exact queueError_answers _ _ _ _ rfl
      · exact queueSuccess_answers _ _ _ _ rfl

theorem handleEvaluate_answers : Answers c.sessions s requestId (c.handleEvaluate around s requestId body) := by
  unfold handleEvaluate
  split
  · exact queueError_answers _ _ _ _ rfl
  · simp only
    split
    · exact queueError_answers _ _ _ _ rfl
    · exact queueSuccess_answers _ _ _ _ rfl

theorem handleDescribeContract_answers :
    Answers c.sessions s requestId (c.handleDescribeContract s requestId body) := by
  unfold handleDescribeContract
  split
  · exact queueError_answers _ _ _ _ rfl
  · split
    · exact queueError_answers _ _ _ _ rfl
    · split
      · exact queueError_answers _ _ _ _ rfl
      · split
        · exact queueError_answers _ _ _ _ rfl
        · exact queueSuccess_answers _ _ _ _ rfl

theorem handleRetireWorkload_answers :
    Answers c.sessions s requestId (c.handleRetireWorkload around s requestId body) := by
  unfold handleRetireWorkload
  split
  · exact queueError_answers _ _ _ _ rfl
  · simp only
    split
    · exact queueError_answers _ _ _ _ rfl
    · exact queueSuccess_answers _ _ _ _ rfl

theorem dispatch_answers (handler : MessageType) :
    Answers c.sessions s requestId (dispatch around handler c s requestId body) := by
  unfold dispatch
  split_ifs
  · exact handleHello_answers ..
  · exact handleContractSubmission_answers ..
  · exact handleContractSubmission_answers ..
  · exact handleAttachEvidence_answers ..
  · exact handleInstallPolicy_answers ..
  · exact handleEvaluate_answers ..
  · exact queueSuccess_answers _ _ _ _ rfl
  · exact queueSuccess_answers _ _ _ _ rfl
  · exact handleDescribeContract_answers ..
  · exact handleRetireWorkload_answers ..
  · exact queueError_answers _ _ _ _ rfl

/-- A frame gets exactly one reply, whatever it asks for and whatever comes of it. -/
theorem handleFrame_answers (frame : Frame) :
    Answers c.sessions s frame.header.requestId (handleFrame around frame c s) := by
  unfold handleFrame
  simp only
  split
  · exact queueError_answers _ _ _ _ rfl
  · split
    · exact queueError_answers _ _ _ _ rfl
    · split
      · exact queueError_answers _ _ _ _ rfl
      · split
        · exact queueError_answers _ _ _ _ rfl
        · split
          · exact queueError_answers _ _ _ _ rfl
          · split
            · exact queueError_answers _ _ _ _ rfl
            · exact dispatch_answers ..

end Answers

end Coordinator

end Wnc
