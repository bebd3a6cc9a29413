/-
The contract model: requirement kinds and strengths with their tokens, requirements, scopes, contract
bodies and envelopes, their canonical JSON, and the identities and digests derived from it.
-/
import Wnc.Core.Json
import Wnc.Core.Signature

namespace Wnc

open Lib

def schemaVersion : UInt32 := 1

/-! ## Kinds, strengths, verdicts -/

inductive RequirementKind
  | minBandwidth
  | maxLatency
  | maxJitter
  | maxLoss
  | locality
  | pathDiversity
  | failureDomainSeparation
  | securityClass
  | trafficPriority
  | burstAllowance
  | collective
  | checkpointIsolation
  | disaggregatedAffinity
  | maintenanceTolerance
  | attribute
deriving DecidableEq

namespace RequirementKind

/-- The kinds in the order of their values. -/
def all : List RequirementKind :=
  [.minBandwidth, .maxLatency, .maxJitter, .maxLoss, .locality, .pathDiversity, .failureDomainSeparation,
    .securityClass, .trafficPriority, .burstAllowance, .collective, .checkpointIsolation, .disaggregatedAffinity,
    .maintenanceTolerance, .attribute]

/-- The value of a kind. -/
def value (k : RequirementKind) : Nat := all.idxOf k

end RequirementKind

def requirementKindToken : RequirementKind → Bytes
  | .minBandwidth => utf8 "min_bandwidth"
  | .maxLatency => utf8 "max_latency"
  | .maxJitter => utf8 "max_jitter"
  | .maxLoss => utf8 "max_loss"
  | .locality => utf8 "locality"
  | .pathDiversity => utf8 "path_diversity"
  | .failureDomainSeparation => utf8 "failure_domain_separation"
  | .securityClass => utf8 "security_class"
  | .trafficPriority => utf8 "traffic_priority"
  | .burstAllowance => utf8 "burst_allowance"
  | .collective => utf8 "collective"
  | .checkpointIsolation => utf8 "checkpoint_isolation"
  | .disaggregatedAffinity => utf8 "disaggregated_affinity"
  | .maintenanceTolerance => utf8 "maintenance_tolerance"
  | .attribute => utf8 "attribute"

def parseRequirementKind (token : Bytes) : Option RequirementKind :=
  RequirementKind.all.find? fun kind => requirementKindToken kind == token

/-- Kinds expressed through a numeric target and minimum. -/
def kindIsNumeric : RequirementKind → Bool
  | .minBandwidth | .maxLatency | .maxJitter | .maxLoss | .pathDiversity | .failureDomainSeparation
  | .trafficPriority | .burstAllowance => true
  | _ => false

/-- Kinds whose bound is from below. -/
def kindIsFloor : RequirementKind → Bool
  | .minBandwidth | .pathDiversity | .failureDomainSeparation | .trafficPriority | .burstAllowance => true
  | _ => false

def kindUnit : RequirementKind → Bytes
  | .minBandwidth => utf8 "bits_per_second"
  | .maxLatency | .maxJitter => utf8 "microseconds"
  | .maxLoss => utf8 "parts_per_million"
  | .pathDiversity => utf8 "paths"
  | .failureDomainSeparation => utf8 "domains"
  | .trafficPriority => utf8 "class"
  | .burstAllowance => utf8 "bits"
  | _ => utf8 "none"

inductive RequirementStrength
  | informational
  | preferred
  | required
deriving DecidableEq

namespace RequirementStrength

/-- The value of a strength: required outranks preferred, which outranks informational. -/
def value : RequirementStrength → Nat
  | .informational => 0
  | .preferred => 1
  | .required => 2

end RequirementStrength

def requirementStrengthToken : RequirementStrength → Bytes
  | .required => utf8 "required"
  | .preferred => utf8 "preferred"
  | .informational => utf8 "informational"

def parseRequirementStrength (token : Bytes) : Option RequirementStrength :=
  [RequirementStrength.required, .preferred, .informational].find? fun s => requirementStrengthToken s == token

inductive Satisfaction
  | satisfied
  | unsatisfied
  | unknown
  | notApplicable
deriving DecidableEq

def satisfactionToken : Satisfaction → Bytes
  | .satisfied => utf8 "satisfied"
  | .unsatisfied => utf8 "unsatisfied"
  | .unknown => utf8 "unknown"
  | .notApplicable => utf8 "not_applicable"

inductive EvidenceFreshness
  | current
  | stale
  | expired
  | revalidationRequired
deriving DecidableEq

def freshnessToken : EvidenceFreshness → Bytes
  | .current => utf8 "current"
  | .stale => utf8 "stale"
  | .expired => utf8 "expired"
  | .revalidationRequired => utf8 "revalidation_required"

def parseFreshness (text : Bytes) : Option EvidenceFreshness :=
  [EvidenceFreshness.current, .stale, .expired, .revalidationRequired].find? fun f => freshnessToken f == text

@[simp] theorem parseRequirementKind_token (k : RequirementKind) :
    parseRequirementKind (requirementKindToken k) = some k := by
  cases k <;> decide

@[simp] theorem parseRequirementStrength_token (s : RequirementStrength) :
    parseRequirementStrength (requirementStrengthToken s) = some s := by
  cases s <;> decide

@[simp] theorem parseFreshness_token (f : EvidenceFreshness) : parseFreshness (freshnessToken f) = some f := by
  cases f <;> decide

/-! ## Requirements and contracts -/

structure RequirementKey where
  scope : Bytes
  kind : RequirementKind
  key : Bytes
deriving DecidableEq

structure Requirement where
  id : RequirementId := .zero
  scope : Bytes := []
  kind : RequirementKind := .minBandwidth
  strength : RequirementStrength := .required
  /-- The strict bound and the weakest acceptable one, in the kind's unit. -/
  target : Double := .zero
  minimum : Double := .zero
  hasNumeric : Bool := false
  /-- The required value and, for a preferred requirement, a value also accepted. -/
  value : Bytes := []
  preferredValue : Bytes := []
  members : List RequirementId := []
  attributes : List (Bytes × Bytes) := []
  key : Bytes := []
deriving DecidableEq

def Requirement.compositeKey (r : Requirement) : RequirementKey := ⟨r.scope, r.kind, r.key⟩

structure Scope where
  name : Bytes := []
  hasRank : Bool := false
  rank : UInt32 := 0
  parent : Bytes := []
deriving DecidableEq

structure Workload where
  id : WorkloadId := .zero
  name : Bytes := []
  generation : WorkloadGeneration := 0
deriving DecidableEq

structure ContractEnvelope where
  publisher : PublisherId := .zero
  algorithm : SignatureAlgorithm := .none
  keyId : Bytes := []
  signature : Bytes := []
  issuedMillis : UInt64 := 0
deriving DecidableEq

structure ContractBody where
  schemaVersion : UInt32 := Wnc.schemaVersion
  workload : Workload := {}
  contractId : ContractId := .zero
  generation : ContractGeneration := 0
  policyGeneration : PolicyGeneration := 0
  major : UInt32 := 1
  minor : UInt32 := 0
  patch : UInt32 := 0
  description : Bytes := []
  scopes : List Scope := []
  requirements : List Requirement := []
deriving DecidableEq

structure Contract where
  body : ContractBody := {}
  digest : Digest := .zero
  envelope : ContractEnvelope := {}
  /-- The generation this contract supersedes and its digest; zero when there is none. -/
  supersedes : ContractGeneration := 0
  supersedesDigest : Digest := .zero
deriving DecidableEq

def Contract.hasSupersedes (c : Contract) : Bool := c.supersedes != 0

/-! ## Canonical JSON -/

/-- An unsigned number as the signed integer of the same 64 bits. -/
def jsonUint (value : UInt64) : Json := .int value.toInt64

def attributesToJson (attributes : List (Bytes × Bytes)) : Json :=
  .array (attributes.map fun a => (Json.null.put "name" (.string a.1)).put "value" (.string a.2))

def membersToJson (members : List RequirementId) : Json := .array (members.map fun m => .string m.view)

/-- What the identity of a requirement is derived from: its key and its content. -/
def requirementDocument (r : Requirement) : Json :=
  let document := Json.null
    |>.put "scope" (.string r.scope)
    |>.put "kind" (.string (requirementKindToken r.kind))
    |>.put "key" (.string r.key)
    |>.put "strength" (.string (requirementStrengthToken r.strength))
  let document := if r.hasNumeric then
      (document.put "target" (.ofReal r.target)).put "minimum" (.ofReal r.minimum) else document
  let document := if r.value ≠ [] then document.put "value" (.string r.value) else document
  let document := if r.preferredValue ≠ [] then document.put "preferred_value" (.string r.preferredValue) else document
  let document := if r.attributes ≠ [] then document.put "attributes" (attributesToJson r.attributes) else document
  if r.members ≠ [] then document.put "members" (membersToJson r.members) else document

def deriveRequirementId (r : Requirement) : RequirementId :=
  Id.fromDigest (digestDomain (utf8 "wnc/v1/requirement") (requirementDocument r).dump)

def deriveContractId (workload : WorkloadId) (digest : Digest) : ContractId :=
  Id.fromDigest (sha256Parts [utf8 "wnc/v1/contract", workload.view, digest.hex])

def requirementToJson (r : Requirement) : Json :=
  let out := Json.null
    |>.put "id" (.string r.id.view)
    |>.put "scope" (.string r.scope)
    |>.put "kind" (.string (requirementKindToken r.kind))
    |>.put "strength" (.string (requirementStrengthToken r.strength))
  let out := if r.hasNumeric then
      ((out.put "target" (.ofReal r.target)).put "minimum" (.ofReal r.minimum)).put "unit" (.string (kindUnit r.kind))
    else out
  let out := if r.value ≠ [] then out.put "value" (.string r.value) else out
  let out := if r.preferredValue ≠ [] then out.put "preferred_value" (.string r.preferredValue) else out
  let out := if r.members ≠ [] then out.put "members" (membersToJson r.members) else out
  let out := if r.attributes ≠ [] then out.put "attributes" (attributesToJson r.attributes) else out
  out.put "key" (.string r.key)

def scopeToJson (s : Scope) : Json :=
  let item := Json.null.put "name" (.string s.name)
  let item := if s.hasRank then item.put "rank" (jsonUint s.rank.toUInt64) else item
  if s.parent ≠ [] then item.put "parent" (.string s.parent) else item

def workloadToJson (w : Workload) : Json :=
  Json.null
    |>.put "id" (.string w.id.view)
    |>.put "name" (.string w.name)
    |>.put "generation" (jsonUint w.generation)

def contractBodyToJson (body : ContractBody) : Json :=
  let version := Json.null
    |>.put "major" (jsonUint body.major.toUInt64)
    |>.put "minor" (jsonUint body.minor.toUInt64)
    |>.put "patch" (jsonUint body.patch.toUInt64)
  Json.null
    |>.put "schema_version" (jsonUint body.schemaVersion.toUInt64)
    |>.put "workload" (workloadToJson body.workload)
    |>.put "contract_id" (.string body.contractId.view)
    |>.put "contract_generation" (jsonUint body.generation)
    |>.put "policy_generation" (jsonUint body.policyGeneration)
    |>.put "version" version
    |>.put "description" (.string body.description)
    |>.put "scopes" (.array (body.scopes.map scopeToJson))
    |>.put "requirements" (.array (body.requirements.map requirementToJson))

def envelopeToJson (e : ContractEnvelope) : Json :=
  let envelope := Json.null
    |>.put "publisher" (.string e.publisher.view)
    |>.put "algorithm" (.string (signatureAlgorithmToken e.algorithm))
    |>.put "key_id" (.string e.keyId)
    |>.put "issued_millis" (jsonUint e.issuedMillis)
  if e.signature ≠ [] then envelope.put "signature" (.string (base64UrlEncode e.signature)) else envelope

def contractToJson (c : Contract) : Json :=
  let out := Json.null
    |>.put "body" (contractBodyToJson c.body)
    |>.put "digest" (.string c.digest.hex)
  let out := if c.hasSupersedes then
      (out.put "supersedes" (jsonUint c.supersedes)).put "supersedes_digest" (.string c.supersedesDigest.hex)
    else out
  out.put "envelope" (envelopeToJson c.envelope)

/-- The digest covers the body with its identity masked out, since that is derived from the digest. -/
def bodyDigestMaterial (body : ContractBody) : Json :=
  (contractBodyToJson body).put "contract_id" (.string (List.replicate 64 48))

def bodyDigest (body : ContractBody) : Digest :=
  digestDomain (utf8 "wnc/v1/contract-body") (bodyDigestMaterial body).dump

/-! ## Canonical order -/

/-- Scope, then kind, then key, then identity. -/
def requirementPrecedes (a b : Requirement) : Bool :=
  if a.scope ≠ b.scope then a.scope < b.scope
  else if a.kind ≠ b.kind then a.kind.value < b.kind.value
  else if a.key ≠ b.key then a.key < b.key
  else a.id < b.id

/-- Sorts by a strict order, keeping the order of elements it does not tell apart. -/
def sortBy {α : Type} (precedes : α → α → Bool) (l : List α) : List α :=
  l.insertionSort fun a b => !precedes b a

theorem perm_sortBy {α : Type} (precedes : α → α → Bool) (l : List α) : (sortBy precedes l).Perm l :=
  List.perm_insertionSort _ _

@[simp] theorem mem_sortBy {α : Type} {precedes : α → α → Bool} {l : List α} {a : α} :
    a ∈ sortBy precedes l ↔ a ∈ l := (perm_sortBy precedes l).mem_iff

/-- Attributes and members in order, and the identity of the content. -/
def canonicalizeRequirement (r : Requirement) : Requirement :=
  let r := { r with
    attributes := sortBy (fun a b => a.1 < b.1) r.attributes
    members := sortBy (fun a b => a < b) r.members }
  { r with id := deriveRequirementId r }

/-- Sorts a contract into canonical order and derives its identities and its digest. -/
def canonicalize (c : Contract) : Contract :=
  let scopes := sortBy (fun a b => if a.name ≠ b.name then a.name < b.name else a.rank < b.rank) c.body.scopes
  let requirements := sortBy requirementPrecedes (c.body.requirements.map canonicalizeRequirement)
  let body := { c.body with scopes := scopes, requirements := requirements }
  let body := { body with contractId := deriveContractId body.workload.id (bodyDigest body) }
  { c with body := body, digest := bodyDigest body }

end Wnc
