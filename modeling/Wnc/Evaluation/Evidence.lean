/-
Evidence sets: the candidate of a scope, evidence entries with the incarnation that captured them, their
canonical JSON, their decoding and the identity derived from their bytes.
-/
import Wnc.Contract.Decode

namespace Wnc

open Lib

def maxEvidenceEntries : Nat := 4096
def maxEvidenceMillis : Nat := 2 ^ 60

/-- A capability or capacity observation of a scope. An absent field was not supplied. -/
structure Candidate where
  minBandwidth : Option Double := none
  maxLatency : Option Double := none
  maxJitter : Option Double := none
  maxLoss : Option Double := none
  locality : Option Bytes := none
  pathDiversity : Option Double := none
  failureDomainSeparation : Option Double := none
  securityClass : Option Bytes := none
  trafficPriority : Option Double := none
  burstAllowance : Option Double := none
  collectiveSupported : Option Bool := none
  checkpointIsolation : Option Bool := none
  disaggregatedAffinity : Option Bytes := none
  maintenanceTolerance : Option Bytes := none
  attributes : List (Bytes × Bytes) := []
deriving DecidableEq

namespace Candidate

/-- The value of the first attribute of a name. -/
def attribute? (c : Candidate) (name : Bytes) : Option Bytes := c.attributes.lookup name

def hasAnyDimension (c : Candidate) : Bool :=
  c.minBandwidth.isSome || c.maxLatency.isSome || c.maxJitter.isSome || c.maxLoss.isSome || c.locality.isSome ||
    c.pathDiversity.isSome || c.failureDomainSeparation.isSome || c.securityClass.isSome || c.trafficPriority.isSome ||
    c.burstAllowance.isSome || c.collectiveSupported.isSome || c.checkpointIsolation.isSome ||
    c.disaggregatedAffinity.isSome || c.maintenanceTolerance.isSome || c.attributes != []

end Candidate

structure EvidenceEntry where
  scope : Bytes := []
  id : EvidenceId := .zero
  publisher : PublisherId := .zero
  generation : EvidenceGeneration := 0
  /-- The coordinator incarnation that captured the entry. -/
  capturedBy : Incarnation := .zero
  epoch : UInt64 := 0
  producedAtMillis : UInt64 := 0
  candidate : Candidate := {}
  freshness : EvidenceFreshness := .current
deriving DecidableEq

structure EvidenceSet where
  evidenceId : EvidenceId := .zero
  generation : EvidenceGeneration := 0
  epoch : UInt64 := 0
  publisher : PublisherId := .zero
  producedAtMillis : UInt64 := 0
  entries : List EvidenceEntry := []
deriving DecidableEq

/-- The first entry of a scope. -/
def EvidenceSet.find (evidence : EvidenceSet) (scope : Bytes) : Option EvidenceEntry :=
  evidence.entries.find? fun entry => entry.scope == scope

/-! ## Canonical JSON -/

/-- Sets a member that may be absent. -/
def addOptional (object : Json) (field : String) (value : Option Json) : Json :=
  match value with
  | none => object
  | some value => object.put field value

def candidateToJson (c : Candidate) : Json :=
  let out := Json.null
  let out := addOptional out "min_bandwidth" (c.minBandwidth.map .ofReal)
  let out := addOptional out "max_latency" (c.maxLatency.map .ofReal)
  let out := addOptional out "max_jitter" (c.maxJitter.map .ofReal)
  let out := addOptional out "max_loss" (c.maxLoss.map .ofReal)
  let out := addOptional out "locality" (c.locality.map .string)
  let out := addOptional out "path_diversity" (c.pathDiversity.map .ofReal)
  let out := addOptional out "failure_domain_separation" (c.failureDomainSeparation.map .ofReal)
  let out := addOptional out "security_class" (c.securityClass.map .string)
  let out := addOptional out "traffic_priority" (c.trafficPriority.map .ofReal)
  let out := addOptional out "burst_allowance" (c.burstAllowance.map .ofReal)
  let out := addOptional out "collective_supported" (c.collectiveSupported.map .bool)
  let out := addOptional out "checkpoint_isolation" (c.checkpointIsolation.map .bool)
  let out := addOptional out "disaggregated_affinity" (c.disaggregatedAffinity.map .string)
  let out := addOptional out "maintenance_tolerance" (c.maintenanceTolerance.map .string)
  if c.attributes ≠ [] then out.put "attributes" (attributesToJson c.attributes) else out

def evidenceEntryToJson (entry : EvidenceEntry) : Json :=
  let item := Json.null
    |>.put "scope" (.string entry.scope)
    |>.put "id" (.string entry.id.view)
    |>.put "publisher" (.string entry.publisher.view)
    |>.put "generation" (jsonUint entry.generation)
  -- the zero incarnation is not a value and is left out
  let item := if !entry.capturedBy.isZero then item.put "captured_by" (.string entry.capturedBy.str) else item
  item
    |>.put "epoch" (jsonUint entry.epoch)
    |>.put "produced_at_millis" (jsonUint entry.producedAtMillis)
    |>.put "freshness" (.string (freshnessToken entry.freshness))
    |>.put "candidate" (candidateToJson entry.candidate)

def evidenceToJson (evidence : EvidenceSet) : Json :=
  Json.null
    |>.put "schema_version" (jsonUint schemaVersion.toUInt64)
    |>.put "evidence_id" (.string evidence.evidenceId.view)
    |>.put "evidence_generation" (jsonUint evidence.generation)
    |>.put "epoch" (jsonUint evidence.epoch)
    |>.put "publisher" (.string evidence.publisher.view)
    |>.put "produced_at_millis" (jsonUint evidence.producedAtMillis)
    |>.put "entries" (.array (evidence.entries.map evidenceEntryToJson))

def evidenceDigest (evidence : EvidenceSet) : Digest :=
  digestDomainGeneration (utf8 "wnc/v1/evidence") (evidenceToJson evidence).dump evidence.generation

def deriveEvidenceId (digest : Digest) : EvidenceId :=
  Id.fromDigest (sha256Parts [utf8 "wnc/v1/evidence-id", digest.hex])

/-! ## Decoding -/

/-- A number in range, if there is one. -/
def readOptionalReal (object : Json) (field : String) : Except Code (Option Double) :=
  match object.find (utf8 field) with
  | none => .ok none
  | some value =>
    match value.asReal with
    | none => .error .jsonWrongType
    | some number =>
      if !number.isFinite || number.lt .zero || (Double.ofInt maxNumericParameter).lt number then
        .error .valueOutOfRange
      else .ok (some number)

def readOptionalBool (object : Json) (field : String) : Except Code (Option Bool) :=
  match object.find (utf8 field) with
  | none => .ok none
  | some (.bool b) => .ok (some b)
  | some _ => .error .jsonWrongType

/-- A bounded string that is not empty, if there is one. -/
def readOptionalString (object : Json) (field : String) : Except Code (Option Bytes) :=
  match object.find (utf8 field) with
  | none => .ok none
  | some (.string text) =>
    if text.length > maxStringBytes then .error .jsonStringTooLong
    else if text = [] then .error .valueOutOfRange
    else .ok (some text)
  | some _ => .error .jsonWrongType

def decodeCandidateAttribute (item : Json) : Except Code (Bytes × Bytes) :=
  match item.isObject, item.find (utf8 "name"), item.find (utf8 "value") with
  | true, some (.string name), some (.string value) =>
    if name.length > maxStringBytes ∨ value.length > maxStringBytes then .error .jsonStringTooLong
    else .ok (name, value)
  | _, _, _ => .error .jsonWrongType

/-- The attributes of a candidate in the order of their names, none of which may be repeated. -/
def decodeCandidateAttributes (value : Json) : Except Code (List (Bytes × Bytes)) :=
  match value.items? with
  | none => .error .jsonWrongType
  | some items =>
    if items.length > maxAttributesPerRequirement then .error .tooManyAttributes
    else
      match items.mapM decodeCandidateAttribute with
      | .error code => .error code
      | .ok attributes =>
        let sorted := sortBy (fun a b => a.1 < b.1) attributes
        if sorted.IsChain (fun a b => a.1 ≠ b.1) then .ok sorted else .error .duplicateRequirement

def decodeCandidate (value : Json) : Except Code Candidate := do
  if !value.isObject then .error .jsonNotAnObject
  let minBandwidth ← readOptionalReal value "min_bandwidth"
  let maxLatency ← readOptionalReal value "max_latency"
  let maxJitter ← readOptionalReal value "max_jitter"
  let maxLoss ← readOptionalReal value "max_loss"
  let pathDiversity ← readOptionalReal value "path_diversity"
  let failureDomainSeparation ← readOptionalReal value "failure_domain_separation"
  let trafficPriority ← readOptionalReal value "traffic_priority"
  let burstAllowance ← readOptionalReal value "burst_allowance"
  let locality ← readOptionalString value "locality"
  let securityClass ← readOptionalString value "security_class"
  let disaggregatedAffinity ← readOptionalString value "disaggregated_affinity"
  let maintenanceTolerance ← readOptionalString value "maintenance_tolerance"
  let collectiveSupported ← readOptionalBool value "collective_supported"
  let checkpointIsolation ← readOptionalBool value "checkpoint_isolation"
  let attributes ← match value.find (utf8 "attributes") with
    | none => .ok []
    | some attributes => decodeCandidateAttributes attributes
  .ok
    { minBandwidth := minBandwidth
      maxLatency := maxLatency
      maxJitter := maxJitter
      maxLoss := maxLoss
      locality := locality
      pathDiversity := pathDiversity
      failureDomainSeparation := failureDomainSeparation
      securityClass := securityClass
      trafficPriority := trafficPriority
      burstAllowance := burstAllowance
      collectiveSupported := collectiveSupported
      checkpointIsolation := checkpointIsolation
      disaggregatedAffinity := disaggregatedAffinity
      maintenanceTolerance := maintenanceTolerance
      attributes := attributes }

/-- An integer from zero to a bound; zero when it is absent. -/
def readNonNegative (object : Json) (field : String) (maximum : Nat) (failure : Failure) : Except Failure UInt64 :=
  match object.find (utf8 field) with
  | none => .ok 0
  | some (.int i) => if i < 0 ∨ i.toUInt64.toNat > maximum then .error failure else .ok i.toUInt64
  | some _ => .error failure

/-- A publisher under the name it is reported by; zero when it is absent. -/
def readPublisher (object : Json) (name : String) : Except Failure PublisherId :=
  match object.find (utf8 "publisher") with
  | none => .ok .zero
  | some (.string text) =>
    match Id.parse text with
    | none => .error ⟨.jsonWrongType, utf8 name ++ utf8 " must be a 64 character identifier"⟩
    | some publisher => .ok publisher
  | some _ => .error ⟨.jsonWrongType, utf8 name ++ utf8 " must be a string"⟩

def readCapturedBy (object : Json) : Except Failure Incarnation :=
  match object.find (utf8 "captured_by") with
  | none => .ok .zero
  | some (.string text) =>
    match Incarnation.parse text with
    | none => fail .jsonWrongType "captured_by must be a 16 byte base64url incarnation"
    | some incarnation => .ok incarnation
  | some _ => fail .jsonWrongType "captured_by must be a string"

def readFreshness (object : Json) : Except Failure EvidenceFreshness :=
  match object.find (utf8 "freshness") with
  | none => .ok .current
  | some (.string text) =>
    match parseFreshness text with
    | none => .error ⟨.jsonWrongType, utf8 "evidence entry freshness '" ++ text ++ utf8 "' is not a defined freshness"⟩
    | some freshness => .ok freshness
  | some _ => fail .jsonWrongType "evidence entry freshness must be a string"

def readScope (object : Json) : Except Failure Bytes :=
  match object.find (utf8 "scope") with
  | some (.string text) =>
    if text = [] ∨ text.length > maxStringBytes then
      fail .jsonWrongType "evidence entry scope must be a non empty bounded string"
    else .ok text
  | _ => fail .jsonWrongType "evidence entry scope must be a non empty bounded string"

def readCandidate (object : Json) : Except Failure Candidate :=
  match object.find (utf8 "candidate") with
  | none => fail .jsonMissingField "evidence entry requires a candidate object"
  | some candidate =>
    match decodeCandidate candidate with
    | .error code => fail code "evidence entry candidate was rejected"
    | .ok candidate => .ok candidate

/-- An entry. Its freshness is decoded as written, since the identity of the evidence covers it; the
identity of the entry itself is not read. -/
def decodeEvidenceEntry (item : Json) : Except Failure EvidenceEntry := do
  require item.isObject .jsonWrongType (utf8 "evidence entries must be objects")
  let scope ← readScope item
  let generation ← readNonNegative item "generation" maxUint64
    ⟨.jsonWrongType, utf8 "evidence entry generation must be a non negative integer"⟩
  let capturedBy ← readCapturedBy item
  let epoch ← readNonNegative item "epoch" maxUint64
    ⟨.jsonWrongType, utf8 "evidence entry epoch must be a non negative integer"⟩
  let producedAtMillis ← readNonNegative item "produced_at_millis" maxEvidenceMillis
    ⟨.valueOutOfRange, utf8 "evidence entry produced_at_millis is outside the permitted range"⟩
  let publisher ← readPublisher item "evidence entry publisher"
  let candidate ← readCandidate item
  let freshness ← readFreshness item
  .ok
    { scope := scope
      publisher := publisher
      generation := generation
      capturedBy := capturedBy
      epoch := epoch
      producedAtMillis := producedAtMillis
      candidate := candidate
      freshness := freshness }

def readEvidenceGeneration (object : Json) : Except Failure EvidenceGeneration :=
  match object.find (utf8 "evidence_generation") with
  | some (.int i) =>
    if i < 1 then fail .evidenceGenerationBackwards "evidence_generation must be at least 1" else .ok i.toUInt64
  | _ => fail .evidenceGenerationBackwards "evidence_generation must be at least 1"

/-- Checks a declared identity against the derived one. One of all zeros counts as not declared. -/
def checkEvidenceId (object : Json) (derived : EvidenceId) : Except Failure Unit :=
  match object.find (utf8 "evidence_id") with
  | none => .ok ()
  | some (.string text) =>
    if text = List.replicate sha256HexChars 48 then .ok ()
    else require (Id.parse text = some derived) .contractDigestMismatch
      (utf8 "declared evidence_id does not match the canonical evidence bytes")
  | some _ => fail .jsonWrongType "evidence_id must be a string"

def evidenceFromJson (value : Json) : Except Failure EvidenceSet := do
  require value.isObject .jsonNotAnObject (utf8 "evidence document must be an object")
  let generation ← readEvidenceGeneration value
  let epoch ← readNonNegative value "epoch" maxUint64 ⟨.jsonWrongType, utf8 "epoch must be a non negative integer"⟩
  let producedAtMillis ← readNonNegative value "produced_at_millis" maxEvidenceMillis
    ⟨.valueOutOfRange, utf8 "produced_at_millis is outside the permitted range"⟩
  let publisher ← readPublisher value "publisher"
  let entries ← match (value.find (utf8 "entries")).bind Json.items? with
    | none => fail .jsonMissingField "evidence.entries must be an array"
    | some items => do
      require (items.length ≤ maxEvidenceEntries) .evidenceTooManyEntries
        (utf8 "evidence declares more entries than the bound permits")
      items.mapM decodeEvidenceEntry
  let evidence : EvidenceSet :=
    { generation := generation
      epoch := epoch
      publisher := publisher
      producedAtMillis := producedAtMillis
      entries := entries }
  -- the identity is derived while the set still carries none
  let derived := deriveEvidenceId (evidenceDigest evidence)
  checkEvidenceId value derived
  .ok { evidence with evidenceId := derived }

def evidenceFromText (text : Bytes) : Except Failure EvidenceSet :=
  match jsonDecode text {} with
  | .error e => .error ⟨e.code, e.message⟩
  | .ok value => evidenceFromJson value

end Wnc
