/-
Policies: the rules that bound what contracts may declare, their canonical JSON and identity, decoding and
validation.
-/
import Wnc.Contract.Decode

namespace Wnc

open Lib

def maxPolicyRules : Nat := 4096
def maxAllowedValues : Nat := 64
def maxPolicyParameter : Nat := 10 ^ 15

structure PolicyRule where
  /-- The requirement the rule was derived from, if any. Documents do not carry it. -/
  requirement : RequirementId := .zero
  kind : RequirementKind := .minBandwidth
  /-- Empty for any scope, and any key. -/
  scope : Bytes := []
  key : Bytes := []
  minTarget : Double := .zero
  maxTarget : Double := .zero
  minMinimum : Double := .zero
  maxMinimum : Double := .zero
  minimumStrength : RequirementStrength := .informational
  maximumStrength : RequirementStrength := .required
  /-- Whether the kind may be declared at all. -/
  allow : Bool := true
  /-- The values permitted for textual kinds; empty for any value. -/
  allowedValues : List Bytes := []
deriving DecidableEq

structure Policy where
  schemaVersion : UInt32 := Wnc.schemaVersion
  policyId : PolicyId := .zero
  generation : PolicyGeneration := 0
  description : Bytes := []
  rules : List PolicyRule := []
deriving DecidableEq

/-! ## Canonical JSON -/

def policyRuleToJson (rule : PolicyRule) : Json :=
  let item := Json.null
    |>.put "kind" (.string (requirementKindToken rule.kind))
    |>.put "scope" (.string rule.scope)
    |>.put "key" (.string rule.key)
    |>.put "allow" (.bool rule.allow)
    |>.put "min_target" (.ofReal rule.minTarget)
    |>.put "max_target" (.ofReal rule.maxTarget)
    |>.put "min_minimum" (.ofReal rule.minMinimum)
    |>.put "max_minimum" (.ofReal rule.maxMinimum)
    |>.put "minimum_strength" (.string (requirementStrengthToken rule.minimumStrength))
    |>.put "maximum_strength" (.string (requirementStrengthToken rule.maximumStrength))
  if rule.allowedValues ≠ [] then item.put "allowed_values" (.array (rule.allowedValues.map .string)) else item

def policyToJson (policy : Policy) : Json :=
  Json.null
    |>.put "schema_version" (jsonUint policy.schemaVersion.toUInt64)
    |>.put "policy_id" (.string policy.policyId.view)
    |>.put "policy_generation" (jsonUint policy.generation)
    |>.put "description" (.string policy.description)
    |>.put "rules" (.array (policy.rules.map policyRuleToJson))

def policyDigest (policy : Policy) : Digest := digestDomain (utf8 "wnc/v1/policy") (policyToJson policy).dump

def derivePolicyId (digest : Digest) : PolicyId := Id.fromDigest (sha256Parts [utf8 "wnc/v1/policy-id", digest.hex])

/-! ## Decoding -/

def rulePath (index : Nat) : Bytes := utf8 "rules[" ++ toDecimal index ++ utf8 "]"

/-- A failure at a field of a policy. -/
def policyFieldError {α : Type} (code : Code) (path : Bytes) (field message : String) : Except Failure α :=
  .error ⟨code, path ++ utf8 "." ++ utf8 field ++ utf8 message⟩

def readStringField (object : Json) (field : String) (path : Bytes) (maxBytes : Nat) (required : Bool) :
    Except Failure Bytes :=
  match object.find (utf8 field) with
  | none => if required then policyFieldError .policyDenied path field " is required" else .ok []
  | some (.string text) =>
    if text.length > maxBytes then policyFieldError .jsonStringTooLong path field " exceeds its byte bound"
    else .ok text
  | some _ => policyFieldError .policyDenied path field " must be a string"

/-- A number in range; zero when it is absent. -/
def readNumberField (object : Json) (field : String) (path : Bytes) : Except Failure Double :=
  match object.find (utf8 field) with
  | none => .ok .zero
  | some value =>
    match value.asReal with
    | none => policyFieldError .policyDenied path field " must be a number"
    | some number =>
      if !number.isFinite || number.lt .zero || (Double.ofInt maxPolicyParameter).lt number then
        policyFieldError .valueOutOfRange path field " is outside the permitted range"
      else .ok number

/-- The strength of a token; an empty one leaves the default. -/
def readStrength (field : String) (path : Bytes) (default : RequirementStrength) (token : Bytes) :
    Except Failure RequirementStrength :=
  if token = [] then .ok default
  else
    match parseRequirementStrength token with
    | none => policyFieldError .invalidStrength path field " is not a strength token"
    | some strength => .ok strength

def readAllow (object : Json) (path : Bytes) : Except Failure Bool :=
  match object.find (utf8 "allow") with
  | none => .ok true
  | some (.bool b) => .ok b
  | some _ => policyFieldError .policyDenied path "allow" " must be a boolean"

def readAllowedValue (path : Bytes) : Json → Except Failure Bytes
  | .string value => .ok value
  | _ => policyFieldError .policyDenied path "allowed_values" " entries must be strings"

def readAllowedValues (object : Json) (path : Bytes) : Except Failure (List Bytes) :=
  match object.find (utf8 "allowed_values") with
  | none => .ok []
  | some (.array items) =>
    if items.length > maxAllowedValues then policyFieldError .tooManyAttributes path "allowed_values" " exceeds its bound"
    else decodeEach (fun item _ => readAllowedValue path item) items 0
  | some _ => policyFieldError .policyDenied path "allowed_values" " must be an array"

def decodePolicyRule (item : Json) (index : Nat) : Except Failure PolicyRule := do
  let path := rulePath index
  require item.isObject .policyDenied (path ++ utf8 " must be an object")
  let token ← readStringField item "kind" path 64 true
  let kind ← match parseRequirementKind token with
    | none => policyFieldError .invalidKind path "kind" " is not a defined requirement kind"
    | some kind => .ok kind
  let scope ← readStringField item "scope" path maxStringBytes false
  let key ← readStringField item "key" path maxStringBytes false
  let allow ← readAllow item path
  let minTarget ← readNumberField item "min_target" path
  let maxTarget ← readNumberField item "max_target" path
  let minMinimum ← readNumberField item "min_minimum" path
  let maxMinimum ← readNumberField item "max_minimum" path
  let minimumToken ← readStringField item "minimum_strength" path 32 false
  let maximumToken ← readStringField item "maximum_strength" path 32 false
  let minimumStrength ← readStrength "minimum_strength" path .informational minimumToken
  let maximumStrength ← readStrength "maximum_strength" path .required maximumToken
  let allowedValues ← readAllowedValues item path
  .ok
    { kind := kind
      scope := scope
      key := key
      minTarget := minTarget
      maxTarget := maxTarget
      minMinimum := minMinimum
      maxMinimum := maxMinimum
      minimumStrength := minimumStrength
      maximumStrength := maximumStrength
      allow := allow
      allowedValues := allowedValues }

def readSchemaVersion (object : Json) : Except Failure UInt32 :=
  match object.find (utf8 "schema_version") with
  | some (.int i) =>
    if i < 0 ∨ i > 1000 then
      fail .policyDenied "policy.schema_version is required and must be a small positive integer"
    else .ok i.toUInt64.toUInt32
  | _ => fail .policyDenied "policy.schema_version is required and must be a small positive integer"

def readPolicyGeneration (object : Json) : Except Failure PolicyGeneration :=
  match object.find (utf8 "policy_generation") with
  | some (.int i) =>
    if i < 1 then fail .policyDenied "policy.policy_generation must be at least 1" else .ok i.toUInt64
  | _ => fail .policyDenied "policy.policy_generation must be at least 1"

def policyFromJson (value : Json) : Except Failure Policy := do
  require value.isObject .jsonNotAnObject (utf8 "policy document must be an object")
  let version ← readSchemaVersion value
  let generation ← readPolicyGeneration value
  let description ← readStringField value "description" (utf8 "policy") maxStringBytes false
  let declared ← readStringField value "policy_id" (utf8 "policy") sha256HexChars false
  let rules ← match value.find (utf8 "rules") with
    | some (.array items) => do
      require (items.length ≤ maxPolicyRules) .tooManyRequirements
        (utf8 "policy declares more rules than the bound permits")
      decodeEach decodePolicyRule items 0
    | _ => fail .policyDenied "policy.rules must be an array"
  let policy : Policy :=
    { schemaVersion := version, generation := generation, description := description, rules := rules }
  -- the identity is derived while the policy still carries none
  let derived := derivePolicyId (policyDigest policy)
  require (declared = [] ∨ Id.parse declared = some derived) .contractDigestMismatch
    (utf8 "policy_id does not match the canonical policy bytes")
  .ok { policy with policyId := derived }

def policyFromText (text : Bytes) : Except Failure Policy :=
  match jsonDecode text {} with
  | .error e => .error ⟨e.code, e.message⟩
  | .ok value => policyFromJson value

/-! ## Validation -/

def ruleDiagnostics (rule : PolicyRule) (index : Nat) : List Diagnostic :=
  let path := rulePath index
  diagnose (rule.maxTarget.lt rule.minTarget) ⟨.policyDenied, path ++ utf8 " max_target is below min_target", .zero,
      .zero⟩ ++
    diagnose (rule.maxMinimum.lt rule.minMinimum) ⟨.policyDenied, path ++ utf8 " max_minimum is below min_minimum", .zero,
      .zero⟩ ++
    diagnose (rule.maximumStrength.value < rule.minimumStrength.value)
      ⟨.policyDenied, path ++ utf8 " maximum_strength is below minimum_strength", .zero, .zero⟩ ++
    diagnose (rule.kind == .attribute && rule.key == [])
      ⟨.policyDenied, path ++ utf8 " must name the attribute key it constrains", .zero, .zero⟩ ++
    diagnose (!rule.allow && rule.allowedValues != [])
      ⟨.policyDenied, path ++ utf8 " forbids the kind and lists allowed values", .zero, .zero⟩

def policyDiagnostics (policy : Policy) : List Diagnostic :=
  diagnose (policy.schemaVersion == 0) ⟨.policyDenied, utf8 "policy schema_version must be at least 1", .zero, .zero⟩ ++
    diagnose (policy.generation == 0) ⟨.zeroIdentity, utf8 "policy generation must be at least 1", .zero, .zero⟩ ++
    (policy.rules.mapIdx fun index rule => ruleDiagnostics rule index).flatten

def validatePolicy (policy : Policy) : ValidationResult := .ofDiagnostics (policyDiagnostics policy)

end Wnc
