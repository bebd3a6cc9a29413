/-
Decoding of contract documents: the field readers with their codes and messages, and the decoders of
attributes, requirements, scopes, envelopes and whole contracts in the order they check a document.
-/
import Wnc.Contract.Model
import Wnc.Core.JsonDecode

namespace Wnc

open Lib

def maxScopesPerContract : Nat := 1024
def maxRequirementsPerContract : Nat := 4096
def maxRequirementsPerScope : Nat := 256
def maxRankedScopesPerContract : Nat := 256
def maxAttributesPerRequirement : Nat := 32
def maxDistinctKindsPerScope : Nat := 32
def maxNameBytes : Nat := 200
def maxMemberCount : Nat := 4096

/-- The largest magnitude of a numeric parameter. -/
def maxNumericParameter : Nat := 10 ^ 15

/-- The largest value a field of 64 bits may be bounded by. -/
def maxUint64 : Nat := 2 ^ 64 - 1

/-! ## Reading values -/

namespace Json

def items? : Json → Option (List Json)
  | .array items => some items
  | _ => none

/-- The number an integer or a real is. -/
def asReal : Json → Option Double
  | .int i => some (Double.ofInt i.toInt)
  | .real d => some d
  | _ => none

end Json

/-- Refuses unless a condition holds. -/
def require (condition : Bool) (code : Code) (message : Bytes) : Except Failure Unit :=
  if condition then .ok () else .error ⟨code, message⟩

@[simp] theorem require_true (code : Code) (message : Bytes) : require true code message = .ok () := rfl

theorem require_eq_ok {condition : Bool} {code : Code} {message : Bytes} {u : Unit} :
    require condition code message = .ok u ↔ condition = true := by
  cases condition <;> simp [require]

def pathJoin (path : Bytes) (field : String) : Bytes :=
  (if path ≠ [] then path ++ [46] else path) ++ utf8 field

/-- A failure at a field of a path. -/
def fieldError {α : Type} (code : Code) (path : Bytes) (field message : String) : Except Failure α :=
  .error ⟨code, pathJoin path field ++ utf8 message⟩

/-- The text of an identity, which must be in lower case. -/
def readId (object : Json) (field : String) (path : Bytes) : Except Failure Bytes :=
  match object.find (utf8 field) with
  | none => fieldError .contractSchema path field " is required"
  | some (.string text) =>
    if text.length ≠ sha256HexChars then
      fieldError .contractSchema path field " must be a 64 character identifier"
    else if !text.all fun c => (48 ≤ c && c ≤ 57) || (97 ≤ c && c ≤ 102) then
      fieldError .contractSchema path field " must be lowercase hexadecimal"
    else .ok text
  | some _ => fieldError .contractSchema path field " must be a string"

/-- A string; `out` stays when an optional one is absent. -/
def readString (object : Json) (field : String) (path : Bytes) (maxBytes : Nat) (required : Bool) (out : Bytes) :
    Except Failure Bytes :=
  match object.find (utf8 field) with
  | none => if required then fieldError .contractSchema path field " is required" else .ok out
  | some (.string text) =>
    if text.length > maxBytes then fieldError .jsonStringTooLong path field " exceeds the string bound"
    else .ok text
  | some _ => fieldError .contractSchema path field " must be a string"

/-- An unsigned integer; `out` stays when an optional one is absent. -/
def readUint (object : Json) (field : String) (path : Bytes) (maximum : Nat) (required : Bool) (out : UInt64) :
    Except Failure UInt64 :=
  match object.find (utf8 field) with
  | none => if required then fieldError .contractSchema path field " is required" else .ok out
  | some (.int i) =>
    if i < 0 ∨ i.toUInt64.toNat > maximum then
      fieldError .valueOutOfRange path field " is outside the permitted range"
    else .ok i.toUInt64
  | some _ => fieldError .contractSchema path field " must be an integer"

/-- A real number in range, if there is one. -/
def readReal (object : Json) (field : String) (path : Bytes) (maximum : Nat) : Except Failure (Option Double) :=
  match object.find (utf8 field) with
  | none => .ok none
  | some value =>
    match value.asReal with
    | none => fieldError .contractSchema path field " must be a number"
    | some raw =>
      if !raw.isFinite || raw.lt .zero || (Double.ofInt maximum).lt raw then
        fieldError .valueOutOfRange path field " is outside the permitted range"
      else .ok (some raw)

/-- A token of an enumeration. -/
def readToken {α : Type} (parse : Bytes → Option α) (object : Json) (field : String) (path : Bytes)
    (undefined : Failure) : Except Failure α :=
  match object.find (utf8 field) with
  | some (.string token) =>
    match parse token with
    | none => .error undefined
    | some value => .ok value
  | _ => fieldError .contractSchema path field " is required and must be a string"

/-- Decodes the items of an array, each with its index. -/
def decodeEach {α : Type} (decode : Json → Nat → Except Failure α) : List Json → Nat → Except Failure (List α)
  | [], _ => .ok []
  | item :: rest, index => do
    let value ← decode item index
    let values ← decodeEach decode rest (index + 1)
    .ok (value :: values)

/-! ## Requirements and scopes -/

def decodeAttributes (value : Json) (path : Bytes) : Except Failure (List (Bytes × Bytes)) :=
  match value.items? with
  | none => .error ⟨.contractSchema, path ++ utf8 ".attributes must be an array"⟩
  | some items => do
    require (items.length ≤ maxAttributesPerRequirement) .tooManyAttributes
      (path ++ utf8 ".attributes exceeds the attribute bound")
    decodeEach (fun item _ => do
      require item.isObject .contractSchema (path ++ utf8 ".attributes entries must be objects")
      let name ← readString item "name" path maxNameBytes true []
      let value ← readString item "value" path maxStringBytes true []
      require (name ≠ []) .missingRequirementKey (path ++ utf8 ".attributes name must not be empty")
      .ok (name, value)) items 0

/-- An identity in a text of either case. -/
def decodeMember (path : Bytes) : Json → Except Failure RequirementId
  | .string text =>
    match Id.parse text with
    | none => .error ⟨.contractSchema, path ++ utf8 ".members entries must be 64 character identifiers"⟩
    | some member => .ok member
  | _ => .error ⟨.contractSchema, path ++ utf8 ".members entries must be strings"⟩

def decodeMembers (value : Json) (path : Bytes) : Except Failure (List RequirementId) :=
  match value.items? with
  | none => .error ⟨.contractSchema, path ++ utf8 ".members must be an array"⟩
  | some items => do
    require (items.length ≤ maxMemberCount) .tooManyAttributes (path ++ utf8 ".members exceeds the member bound")
    decodeEach (fun item _ => decodeMember path item) items 0

/-- The bounds of a requirement: both or neither, and the target the strict one for the kind. -/
def decodeBounds (value : Json) (path : Bytes) (kind : RequirementKind) :
    Except Failure (Option (Double × Double)) := do
  let target ← readReal value "target" path maxNumericParameter
  let minimum ← readReal value "minimum" path maxNumericParameter
  match target, minimum with
  | none, none => .ok none
  | some target, some minimum =>
    require (if kindIsFloor kind then minimum.le target else target.le minimum) .valueOutOfRange
      (path ++ utf8 ".target must be the strict bound and minimum the weakest acceptable bound")
    .ok (some (target, minimum))
  | _, _ => .error ⟨.invalidValue, path ++ utf8 " must declare target and minimum together"⟩

/-- An optional field decoded by a function of its own. -/
def decodeOptional {α : Type} (object : Json) (field : String) (absent : α) (decode : Json → Except Failure α) :
    Except Failure α :=
  match object.find (utf8 field) with
  | none => .ok absent
  | some value => decode value

def decodeRequirementId (path : Bytes) : Json → Except Failure RequirementId
  | .string text =>
    match Id.parse text with
    | none => .error ⟨.contractSchema, path ++ utf8 ".id must be a 64 character identifier"⟩
    | some id => .ok id
  | _ => .error ⟨.contractSchema, path ++ utf8 ".id must be a string"⟩

def decodeRequirement (value : Json) (index : Nat) : Except Failure Requirement := do
  let path := utf8 "requirements[" ++ toDecimal index ++ utf8 "]"
  require value.isObject .contractSchema (path ++ utf8 " must be an object")
  let scope ← readString value "scope" path maxNameBytes true []
  let kind ← readToken parseRequirementKind value "kind" path
    ⟨.invalidKind, path ++ utf8 ".kind is not a defined requirement kind"⟩
  let strength ← readToken parseRequirementStrength value "strength" path
    ⟨.invalidStrength, path ++ utf8 ".strength is not required, preferred or informational"⟩
  let key ← readString value "key" path maxNameBytes false []
  let text ← readString value "value" path maxStringBytes false []
  let preferred ← readString value "preferred_value" path maxStringBytes false []
  let bounds ← decodeBounds value path kind
  let members ← decodeOptional value "members" [] fun members => decodeMembers members path
  let attributes ← decodeOptional value "attributes" [] fun attributes => decodeAttributes attributes path
  let id ← decodeOptional value "id" .zero (decodeRequirementId path)
  .ok
    { id := id
      scope := scope
      kind := kind
      strength := strength
      target := (bounds.map Prod.fst).getD .zero
      minimum := (bounds.map Prod.snd).getD .zero
      hasNumeric := bounds.isSome
      value := text
      preferredValue := preferred
      members := members
      attributes := attributes
      key := key }

def decodeScope (value : Json) (index : Nat) : Except Failure Scope := do
  let path := utf8 "scopes[" ++ toDecimal index ++ utf8 "]"
  require value.isObject .contractSchema (path ++ utf8 " must be an object")
  let name ← readString value "name" path maxNameBytes true []
  require (name ≠ []) .emptyScopeName (path ++ utf8 ".name must not be empty")
  let parent ← readString value "parent" path maxNameBytes false []
  let rank ← readUint value "rank" path 1000000 false 0
  .ok
    { name := name
      hasRank := (value.find (utf8 "rank")).isSome
      rank := rank.toUInt32
      parent := parent }

/-! ## Envelopes and contracts -/

def decodeSignature : Json → Except Failure Bytes
  | .string text =>
    match base64UrlDecode text 1024 with
    | none => fail .signatureInvalid "envelope.signature is not valid base64url"
    | some signature => .ok signature
  | _ => fail .contractSchema "envelope.signature must be a string"

def decodeEnvelope (value : Json) : Except Failure ContractEnvelope := do
  let path := utf8 "envelope"
  require value.isObject .contractSchema (utf8 "envelope must be an object")
  let publisher ← readId value "publisher" path
  let publisher ← match Id.parse publisher with
    | none => fail .contractSchema "envelope.publisher is not a valid identifier"
    | some publisher => .ok publisher
  let algorithm ← readToken parseSignatureAlgorithm value "algorithm" path
    ⟨.signatureInvalid, utf8 "envelope.algorithm is not a supported algorithm"⟩
  let keyId ← readString value "key_id" path sha256HexChars true []
  let issued ← readUint value "issued_millis" path maxUint64 false 0
  let signature ← decodeOptional value "signature" [] decodeSignature
  .ok
    { publisher := publisher
      algorithm := algorithm
      keyId := keyId
      signature := signature
      issuedMillis := issued }

/-- Refuses an array that declares more items than a bound. What is not an array is let through. -/
def checkDeclared (object : Json) (field : String) (bound : Nat) (code : Code) (message : String) :
    Except Failure Unit :=
  match (object.find (utf8 field)).bind Json.items? with
  | none => .ok ()
  | some items => require (items.length ≤ bound) code (utf8 message)

def decodeWorkload (body : Json) : Except Failure Workload :=
  match body.find (utf8 "workload") with
  | some (.object members) => do
    let workload := Json.object members
    let path := utf8 "body.workload"
    let text ← readId workload "id" path
    let id ← match Id.parse text with
      | none => fail .zeroIdentity "body.workload.id must be a non zero identifier"
      | some id =>
        if id.isZero then fail .zeroIdentity "body.workload.id must be a non zero identifier" else .ok id
    let name ← readString workload "name" path maxNameBytes true []
    let generation ← readUint workload "generation" path maxUint64 true 0
    .ok { id := id, name := name, generation := generation }
  | _ => fail .contractSchema "body.workload must be an object"

/-- Major, minor and patch. A version that is present counts what it leaves out as zero. -/
def decodeVersion (body : Json) : Except Failure (UInt32 × UInt32 × UInt32) :=
  match body.find (utf8 "version") with
  | none => .ok (1, 0, 0)
  | some (.object members) => do
    let version := Json.object members
    let path := utf8 "body.version"
    let major ← readUint version "major" path 1000000 false 0
    let minor ← readUint version "minor" path 1000000 false 0
    let patch ← readUint version "patch" path 1000000 false 0
    .ok (major.toUInt32, minor.toUInt32, patch.toUInt32)
  | some _ => fail .contractSchema "body.version must be an object"

/-- The items of an array that must be there and within a bound. -/
def decodeBounded {α : Type} (body : Json) (field : String) (bound : Nat) (missing : String) (code : Code)
    (exceeded : String) (decode : Json → Nat → Except Failure α) : Except Failure (List α) :=
  match (body.find (utf8 field)).bind Json.items? with
  | none => fail .contractSchema missing
  | some items => do
    require (items.length ≤ bound) code (utf8 exceeded)
    decodeEach decode items 0

def decodeContractId (body : Json) : Except Failure ContractId := do
  let text ← readId body "contract_id" (utf8 "body")
  match Id.parse text with
  | none => fail .contractSchema "body.contract_id must be a 64 character identifier"
  | some id => .ok id

def decodeBody (body : Json) : Except Failure ContractBody := do
  let path := utf8 "body"
  let version ← readUint body "schema_version" path 1000 true 0
  -- declared sizes are checked before anything is decoded
  require (version.toNat ≤ schemaVersion.toNat) .contractSchemaVersionUnsupported
    (utf8 "body.schema_version " ++ toDecimal version.toNat ++ utf8 " exceeds the supported version " ++
      toDecimal schemaVersion.toNat)
  checkDeclared body "scopes" maxScopesPerContract .tooManyScopes "body.scopes exceeds the scope bound"
  checkDeclared body "requirements" maxRequirementsPerContract .tooManyRequirements
    "body.requirements exceeds the requirement bound"
  let workload ← decodeWorkload body
  let contractId ← decodeContractId body
  let generation ← readUint body "contract_generation" path maxUint64 true 0
  let policyGeneration ← readUint body "policy_generation" path maxUint64 false 0
  let (major, minor, patch) ← decodeVersion body
  let description ← readString body "description" path maxStringBytes false []
  let scopes ← decodeBounded body "scopes" maxScopesPerContract "body.scopes must be an array" .tooManyScopes
    "body.scopes exceeds the scope bound" decodeScope
  let requirements ← decodeBounded body "requirements" maxRequirementsPerContract
    "body.requirements must be an array" .tooManyRequirements "body.requirements exceeds the requirement bound"
    decodeRequirement
  .ok
    { schemaVersion := version.toUInt32
      workload := workload
      contractId := contractId
      generation := generation
      policyGeneration := policyGeneration
      major := major
      minor := minor
      patch := patch
      description := description
      scopes := scopes
      requirements := requirements }

/-- A digest in hexadecimal, under its name. -/
def decodeDigest (field : String) : Json → Except Failure Digest
  | .string text =>
    match hexDecodeDigest text with
    | none => .error ⟨.contractDigestMismatch, utf8 field ++ utf8 " is not a 64 character digest"⟩
    | some digest => .ok digest
  | _ => .error ⟨.contractSchema, utf8 field ++ utf8 " must be a string"⟩

/-- The digest of a body. A declared one must be it; an absent or zero one is derived. -/
def checkDigest (value : Json) (body : ContractBody) : Except Failure Digest :=
  decodeOptional value "digest" (bodyDigest body) fun declared => do
    let declared ← decodeDigest "digest" declared
    require (declared = .zero ∨ declared = bodyDigest body) .contractDigestMismatch
      (utf8 "declared digest does not match the canonical body bytes")
    .ok (bodyDigest body)

def contractFromJson (value : Json) : Except Failure Contract := do
  require value.isObject .jsonNotAnObject (utf8 "contract document must be an object")
  let body ← match value.find (utf8 "body") with
    | some (.object members) => decodeBody (.object members)
    | _ => fail .contractSchema "contract document requires a body object"
  let envelope ← decodeOptional value "envelope" {} decodeEnvelope
  let supersedes ← readUint value "supersedes" [] maxUint64 false 0
  let supersedesDigest ← decodeOptional value "supersedes_digest" .zero (decodeDigest "supersedes_digest")
  let digest ← checkDigest value body
  .ok
    { body := body
      digest := digest
      envelope := envelope
      supersedes := supersedes
      supersedesDigest := supersedesDigest }

def contractFromText (text : Bytes) (o : JsonDecodeOptions) : Except Failure Contract :=
  match jsonDecode text o with
  | .error e => .error ⟨e.code, e.message⟩
  | .ok value => contractFromJson value

end Wnc
