/-
Validation of contract bodies and contracts: the diagnostics of every check in the order the checks are
made, and what a body that passes them all satisfies.
-/
import Wnc.Contract.Decode

namespace Wnc

open Lib

/-! ## Scopes -/

/-- The scopes that carry a name; the first of a name is the one it stands for. -/
def declaredScopes (body : ContractBody) : List Scope := body.scopes.filter fun s => s.name ≠ []

def findScope (scopes : List Scope) (name : Bytes) : Option Scope := scopes.find? fun s => s.name == name

/-- The scopes' own diagnostics, behind the names declared so far. -/
def scopeDiagnostics : List Bytes → List Scope → List Diagnostic
  | _, [] => []
  | seen, scope :: rest =>
    if scope.name = [] then ⟨.emptyScopeName, utf8 "scope name must not be empty", .zero, .zero⟩ ::
      scopeDiagnostics seen rest
    else
      diagnose (scope.name ∈ seen)
          ⟨.duplicateRequirement, utf8 "scope '" ++ scope.name ++ utf8 "' is declared twice", .zero, .zero⟩ ++
        scopeDiagnostics (scope.name :: seen) rest

def parentDiagnostics (scopes : List Scope) (scope : Scope) : List Diagnostic :=
  if scope.parent = [] then []
  else
    match findScope scopes scope.parent with
    | none => [⟨.unknownScope, utf8 "scope '" ++ scope.name ++ utf8 "' names undeclared parent '" ++ scope.parent ++
        utf8 "'", .zero, .zero⟩]
    | some parent =>
      if scope.parent = scope.name then
        [⟨.compositionCycle, utf8 "scope '" ++ scope.name ++ utf8 "' is its own parent", .zero, .zero⟩]
      else
        diagnose (parent.hasRank && scope.hasRank && scope.rank ≤ parent.rank)
          ⟨.compositionConflict, utf8 "scope '" ++ scope.name ++ utf8 "' parent '" ++ scope.parent ++
            utf8 "' must have a strictly lower rank", .zero, .zero⟩

/-- Whether the parents above a name go on for a number of steps. -/
def climbs (scopes : List Scope) : Nat → Bytes → Bool
  | 0, _ => true
  | steps + 1, current =>
    if current = [] then false
    else
      match findScope scopes current with
      | none => false
      | some scope => climbs scopes steps scope.parent

/-- The first scope above which the parents go on for more steps than there are scopes. -/
def cycleDiagnostics (body : ContractBody) : List Diagnostic :=
  match body.scopes.find? fun s => climbs (declaredScopes body) (body.scopes.length + 1) s.name with
  | none => []
  | some start => [⟨.compositionCycle, utf8 "scope '" ++ start.name ++ utf8 "' participates in a parent cycle",
      .zero, .zero⟩]

/-! ## Requirements -/

/-- The bounds of a requirement: finite, not negative, ordered, and with a band only when preferred. -/
def boundDiagnostics (r : Requirement) : List Diagnostic :=
  if !r.target.isFinite || !r.minimum.isFinite then
    [⟨.invalidValue, utf8 "numeric parameters must be finite", .zero, r.id⟩]
  else if r.target.lt .zero || r.minimum.lt .zero then
    [⟨.valueOutOfRange, utf8 "numeric parameters must not be negative", .zero, r.id⟩]
  else
    diagnose (!(if kindIsFloor r.kind then r.minimum.le r.target else r.target.le r.minimum))
        ⟨.valueOutOfRange, utf8 ("target must be the strict bound and minimum the weakest acceptable " ++
          "bound for this requirement kind"), .zero, r.id⟩ ++
      diagnose (r.strength == .required && !r.target.eq r.minimum)
        ⟨.valueOutOfRange, utf8 "a required requirement has no preferred band: target must equal minimum", .zero,
          r.id⟩ ++
      diagnose (r.strength == .preferred && r.target.eq r.minimum)
        ⟨.valueOutOfRange, utf8 "a preferred requirement must declare a distinct preferred band", .zero, r.id⟩

/-- Kinds whose value is part of their meaning. -/
def needsValue : RequirementKind → Bool
  | .locality | .securityClass | .checkpointIsolation | .disaggregatedAffinity | .maintenanceTolerance
  | .attribute => true
  | _ => false

def attributeDiagnostics (r : Requirement) : List Bytes → List (Bytes × Bytes) → List Diagnostic
  | _, [] => []
  | seen, (name, value) :: rest =>
    diagnose (name ∈ seen)
        ⟨.duplicateRequirement, utf8 "requirement repeats attribute '" ++ name ++ utf8 "'", .zero, r.id⟩ ++
      diagnose (name.length > maxNameBytes || value.length > maxStringBytes)
        ⟨.valueOutOfRange, utf8 "attribute exceeds its byte bound", .zero, r.id⟩ ++
      attributeDiagnostics r (name :: seen) rest

def memberDiagnostics (r : Requirement) : List RequirementId → List RequirementId → List Diagnostic
  | _, [] => []
  | seen, member :: rest =>
    diagnose member.isZero ⟨.zeroIdentity, utf8 "collective member is the zero identity", .zero, r.id⟩ ++
      diagnose (member ∈ seen)
        ⟨.duplicateCollectiveMember, utf8 "collective names member " ++ member.view ++ utf8 " more than once", .zero,
          r.id⟩ ++
      memberDiagnostics r (member :: seen) rest

def valueDiagnostics (r : Requirement) : List Diagnostic :=
  diagnose (needsValue r.kind && r.value == [])
      ⟨.invalidValue, utf8 "requirement of kind " ++ requirementKindToken r.kind ++ utf8 " must declare a value", .zero,
        r.id⟩ ++
    (if r.preferredValue = [] then []
      else
        diagnose (r.strength != .preferred)
            ⟨.invalidValue, utf8 "preferred_value is only permitted on a preferred requirement", .zero, r.id⟩ ++
          diagnose (r.preferredValue == r.value)
            ⟨.invalidValue, utf8 "preferred_value must differ from the required value", .zero, r.id⟩) ++
    diagnose (r.key.length > maxNameBytes || r.value.length > maxStringBytes)
      ⟨.valueOutOfRange, utf8 "requirement parameter exceeds its byte bound", .zero, r.id⟩

/-- The diagnostics of one requirement, behind the requirements before it. -/
def requirementDiagnostics (scopes : List Scope) (seen : List Requirement) (r : Requirement) : List Diagnostic :=
  diagnose (r.scope == [] || (findScope scopes r.scope).isNone)
      ⟨.unknownScope, utf8 "requirement references undeclared scope '" ++ r.scope ++ utf8 "'", .zero, r.id⟩ ++
    diagnose r.id.isZero ⟨.zeroIdentity, utf8 "requirement identity is the zero identity", .zero, .zero⟩ ++
    diagnose (r.id ∈ seen.map Requirement.id)
      ⟨.duplicateRequirement, utf8 "requirement identity is repeated", .zero, r.id⟩ ++
    diagnose (r.compositeKey ∈ seen.map Requirement.compositeKey)
      ⟨.duplicateRequirement, utf8 "requirement key is repeated for scope '" ++ r.scope ++ utf8 "'", .zero, r.id⟩ ++
    diagnose (kindIsNumeric r.kind && !r.hasNumeric)
      ⟨.invalidValue, utf8 "numeric requirement of kind " ++ requirementKindToken r.kind ++
        utf8 " must declare target and minimum", .zero, r.id⟩ ++
    diagnose (!kindIsNumeric r.kind && r.hasNumeric)
      ⟨.invalidValue, utf8 "requirement of kind " ++ requirementKindToken r.kind ++
        utf8 " must not declare numeric parameters", .zero, r.id⟩ ++
    (if r.hasNumeric then boundDiagnostics r else []) ++
    valueDiagnostics r ++
    diagnose (r.attributes.length > maxAttributesPerRequirement)
      ⟨.tooManyAttributes, utf8 "requirement attribute count exceeds the bound", .zero, r.id⟩ ++
    attributeDiagnostics r [] r.attributes ++
    (if r.kind = .collective then
      diagnose (r.members == []) ⟨.emptyCollective, utf8 "collective requirement names no members", .zero, r.id⟩ ++
        memberDiagnostics r [] r.members
    else
      diagnose (r.members != []) ⟨.invalidValue, utf8 "only collective requirements may name members", .zero, r.id⟩)

def requirementsDiagnostics (scopes : List Scope) : List Requirement → List Requirement → List Diagnostic
  | _, [] => []
  | seen, r :: rest => requirementDiagnostics scopes seen r ++ requirementsDiagnostics scopes (r :: seen) rest

/-- The scopes that requirements name, in ascending order. -/
def requiredScopes (body : ContractBody) : List Bytes :=
  ((body.requirements.map Requirement.scope).insertionSort (· ≤ ·)).destutter (· ≠ ·)

/-- A count of a scope, when it is above a bound. -/
def countDiagnostic (scope : Bytes) (count bound : Nat) (counted : String) : List Diagnostic :=
  diagnose (count > bound) ⟨.tooManyRequirements, utf8 "scope '" ++ scope ++ utf8 "' declares " ++ toDecimal count ++
    utf8 counted ++ toDecimal bound, .zero, .zero⟩

def countDiagnostics (body : ContractBody) : List Diagnostic :=
  ((requiredScopes body).flatMap fun scope =>
      countDiagnostic scope (body.requirements.filter fun r => r.scope == scope).length maxRequirementsPerScope
        " requirements, above the bound ") ++
    (requiredScopes body).flatMap fun scope =>
      countDiagnostic scope ((body.requirements.filter fun r => r.scope == scope).map Requirement.kind).dedup.length
        maxDistinctKindsPerScope " distinct kinds, above the bound "

/-! ## Bodies and contracts -/

def headerDiagnostics (body : ContractBody) : List Diagnostic :=
  (if body.schemaVersion = 0 then [⟨.contractSchema, utf8 "schema_version must be at least 1", .zero, .zero⟩]
    else
      diagnose (body.schemaVersion > schemaVersion)
        ⟨.contractSchemaVersionUnsupported, utf8 "schema_version " ++ toDecimal body.schemaVersion.toNat ++
          utf8 " exceeds the supported version " ++ toDecimal schemaVersion.toNat, .zero, .zero⟩) ++
    diagnose body.workload.id.isZero ⟨.zeroIdentity, utf8 "workload identity is the zero identity", .zero, .zero⟩ ++
    diagnose (body.workload.generation == 0)
      ⟨.zeroIdentity, utf8 "workload generation must be at least 1", .zero, .zero⟩ ++
    diagnose body.contractId.isZero ⟨.zeroIdentity, utf8 "contract identity is the zero identity", .zero, .zero⟩ ++
    diagnose (body.generation == 0) ⟨.zeroIdentity, utf8 "contract generation must be at least 1", .zero, .zero⟩ ++
    diagnose (body.policyGeneration == 0) ⟨.zeroIdentity, utf8 "policy generation must be at least 1", .zero, .zero⟩ ++
    diagnose (body.workload.name == []) ⟨.contractSchema, utf8 "workload name must not be empty", .zero, .zero⟩ ++
    diagnose (body.major == 0) ⟨.contractSchema, utf8 "contract major version must be at least 1", .zero, .zero⟩ ++
    diagnose (body.scopes.length > maxScopesPerContract)
      ⟨.tooManyScopes, utf8 "scope count " ++ toDecimal body.scopes.length ++ utf8 " exceeds the bound " ++
        toDecimal maxScopesPerContract, .zero, .zero⟩ ++
    diagnose (body.requirements.length > maxRequirementsPerContract)
      ⟨.tooManyRequirements, utf8 "requirement count " ++ toDecimal body.requirements.length ++
        utf8 " exceeds the bound " ++ toDecimal maxRequirementsPerContract, .zero, .zero⟩ ++
    diagnose (body.requirements == []) ⟨.emptyRequirementSet, utf8 "contract declares no requirements", .zero, .zero⟩

def rankedScopes (body : ContractBody) : Nat := ((declaredScopes body).filter Scope.hasRank).length

/-- The diagnostics of a body, in the order they are added. -/
def validateBody (body : ContractBody) : List Diagnostic :=
  headerDiagnostics body ++
    scopeDiagnostics [] body.scopes ++
    diagnose (rankedScopes body > maxRankedScopesPerContract)
      ⟨.tooManyRankedScopes, utf8 "ranked scope count " ++ toDecimal (rankedScopes body) ++ utf8 " exceeds the bound " ++
        toDecimal maxRankedScopesPerContract, .zero, .zero⟩ ++
    body.scopes.flatMap (parentDiagnostics (declaredScopes body)) ++
    cycleDiagnostics body ++
    requirementsDiagnostics (declaredScopes body) [] body.requirements ++
    countDiagnostics body

/-- Requirements whose identity is not the one of their content. -/
def identityDiagnostics (body : ContractBody) : List Diagnostic :=
  body.requirements.flatMap fun r =>
    diagnose (!r.id.isZero && deriveRequirementId r != r.id)
      ⟨.contractDigestMismatch, utf8 "requirement identity does not match its content", .zero, r.id⟩

def contractBodyDiagnostics (body : ContractBody) : List Diagnostic := validateBody body ++ identityDiagnostics body

def validateContractBody (body : ContractBody) : ValidationResult := .ofDiagnostics (contractBodyDiagnostics body)

def contractDiagnostics (c : Contract) : List Diagnostic :=
  contractBodyDiagnostics c.body ++
    diagnose (bodyDigest c.body != c.digest)
      ⟨.contractDigestMismatch, utf8 "contract digest does not match the canonical body bytes", .zero, .zero⟩ ++
    (if c.body.contractId.isZero then
      [⟨.zeroIdentity, utf8 "contract identity is not set; canonicalise the body first", .zero, .zero⟩]
    else
      diagnose (deriveContractId c.body.workload.id (bodyDigest c.body) != c.body.contractId)
        ⟨.contractDigestMismatch, utf8 "contract identity does not match the workload and body digest", .zero, .zero⟩) ++
    (if c.hasSupersedes then
      diagnose (c.supersedes ≥ c.body.generation)
          ⟨.staleGeneration, utf8 "superseded generation must be below the contract generation", .zero, .zero⟩ ++
        diagnose (c.supersedesDigest == .zero)
          ⟨.contractSchema, utf8 "a superseding contract must carry the superseded digest", .zero, .zero⟩
    else
      diagnose (c.supersedesDigest != .zero)
        ⟨.contractSchema, utf8 "superseded digest present without a superseded generation", .zero, .zero⟩)

def validateContract (c : Contract) : ValidationResult := .ofDiagnostics (contractDiagnostics c)

/-! ## Every diagnostic of a validation is an error -/

/-- Diagnostics none of which is merely informational. -/
def AllErrors (ds : List Diagnostic) : Prop := ∀ d ∈ ds, d.code ≠ .ok

@[simp] theorem allErrors_nil : AllErrors [] := fun _ h => nomatch h

@[simp] theorem allErrors_cons {d : Diagnostic} {ds : List Diagnostic} :
    AllErrors (d :: ds) ↔ d.code ≠ .ok ∧ AllErrors ds := List.forall_mem_cons

@[simp] theorem allErrors_append {ds ds' : List Diagnostic} :
    AllErrors (ds ++ ds') ↔ AllErrors ds ∧ AllErrors ds' := List.forall_mem_append

@[simp] theorem allErrors_diagnose {condition : Bool} {d : Diagnostic} :
    AllErrors (diagnose condition d) ↔ (condition = true → d.code ≠ .ok) := by
  cases condition <;> simp [diagnose]

theorem allErrors_flatMap {α : Type} {l : List α} {f : α → List Diagnostic} (h : ∀ a ∈ l, AllErrors (f a)) :
    AllErrors (l.flatMap f) := by
  intro d hd
  obtain ⟨a, ha, hda⟩ := List.mem_flatMap.1 hd
  exact h a ha d hda

theorem allErrors_scopeDiagnostics : ∀ seen scopes, AllErrors (scopeDiagnostics seen scopes)
  | _, [] => allErrors_nil
  | seen, scope :: rest => by
    unfold scopeDiagnostics
    split <;> simp [allErrors_scopeDiagnostics _ rest]

theorem allErrors_parentDiagnostics (scopes : List Scope) (scope : Scope) :
    AllErrors (parentDiagnostics scopes scope) := by
  unfold parentDiagnostics
  split
  · exact allErrors_nil
  · split
    · simp
    · split <;> simp

theorem allErrors_cycleDiagnostics (body : ContractBody) : AllErrors (cycleDiagnostics body) := by
  unfold cycleDiagnostics
  split <;> simp

theorem allErrors_attributeDiagnostics (r : Requirement) :
    ∀ seen attributes, AllErrors (attributeDiagnostics r seen attributes)
  | _, [] => allErrors_nil
  | _, (_, _) :: rest => by simp [attributeDiagnostics, allErrors_attributeDiagnostics r _ rest]

theorem allErrors_memberDiagnostics (r : Requirement) : ∀ seen members, AllErrors (memberDiagnostics r seen members)
  | _, [] => allErrors_nil
  | _, _ :: rest => by simp [memberDiagnostics, allErrors_memberDiagnostics r _ rest]

theorem allErrors_boundDiagnostics (r : Requirement) : AllErrors (boundDiagnostics r) := by
  unfold boundDiagnostics
  split
  · simp
  · split <;> simp

theorem allErrors_valueDiagnostics (r : Requirement) : AllErrors (valueDiagnostics r) := by
  unfold valueDiagnostics
  split <;> simp

theorem allErrors_requirementDiagnostics (scopes : List Scope) (seen : List Requirement) (r : Requirement) :
    AllErrors (requirementDiagnostics scopes seen r) := by
  unfold requirementDiagnostics
  split <;> split <;>
    simp [allErrors_boundDiagnostics, allErrors_valueDiagnostics, allErrors_attributeDiagnostics,
      allErrors_memberDiagnostics]

theorem allErrors_requirementsDiagnostics (scopes : List Scope) :
    ∀ seen requirements, AllErrors (requirementsDiagnostics scopes seen requirements)
  | _, [] => allErrors_nil
  | seen, r :: rest => allErrors_append.2
      ⟨allErrors_requirementDiagnostics scopes seen r, allErrors_requirementsDiagnostics scopes _ rest⟩

theorem allErrors_countDiagnostics (body : ContractBody) : AllErrors (countDiagnostics body) :=
  allErrors_append.2 ⟨allErrors_flatMap fun _ _ => by simp [countDiagnostic],
    allErrors_flatMap fun _ _ => by simp [countDiagnostic]⟩

theorem allErrors_headerDiagnostics (body : ContractBody) : AllErrors (headerDiagnostics body) := by
  unfold headerDiagnostics
  split <;> simp

theorem allErrors_contractBodyDiagnostics (body : ContractBody) : AllErrors (contractBodyDiagnostics body) := by
  have hi : AllErrors (identityDiagnostics body) := allErrors_flatMap fun _ _ => by simp
  have hp : AllErrors (body.scopes.flatMap (parentDiagnostics (declaredScopes body))) :=
    allErrors_flatMap fun _ _ => allErrors_parentDiagnostics _ _
  simp [contractBodyDiagnostics, validateBody, hi, hp, allErrors_headerDiagnostics, allErrors_scopeDiagnostics,
    allErrors_cycleDiagnostics, allErrors_requirementsDiagnostics, allErrors_countDiagnostics]

theorem allErrors_contractDiagnostics (c : Contract) : AllErrors (contractDiagnostics c) := by
  unfold contractDiagnostics
  split <;> split <;> simp [allErrors_contractBodyDiagnostics]

theorem ofDiagnostics_ok {ds : List Diagnostic} (h : AllErrors ds) :
    (ValidationResult.ofDiagnostics ds).ok = true ↔ ds = [] := by
  rw [ValidationResult.ofDiagnostics, Bool.not_eq_true', DiagnosticLog.hasErrors_ofList_of_errors h]

theorem validateContractBody_ok {body : ContractBody} :
    (validateContractBody body).ok = true ↔ contractBodyDiagnostics body = [] :=
  ofDiagnostics_ok (allErrors_contractBodyDiagnostics body)

theorem validateContract_ok {c : Contract} : (validateContract c).ok = true ↔ contractDiagnostics c = [] :=
  ofDiagnostics_ok (allErrors_contractDiagnostics c)

/-! ## What a valid body satisfies -/

/-- Scopes pass their own checks exactly when their names are distinct and none is empty. -/
theorem scopeDiagnostics_eq_nil : ∀ {scopes : List Scope} {seen : List Bytes}, scopeDiagnostics seen scopes = [] ↔
    (∀ s ∈ scopes, s.name ≠ [] ∧ s.name ∉ seen) ∧ (scopes.map Scope.name).Nodup
  | [], _ => by simp [scopeDiagnostics]
  | scope :: rest, seen => by
    rw [scopeDiagnostics]
    by_cases hname : scope.name = []
    · simp [hname]
    · rw [if_neg hname, List.append_eq_nil_iff, diagnose_eq_nil, scopeDiagnostics_eq_nil]
      rw [List.forall_mem_cons]
      simp only [List.map_cons, List.nodup_cons, List.mem_cons, not_or, decide_eq_false_iff_not, List.mem_map, not_exists,
        not_and]
      constructor
      · rintro ⟨hseen, hrest, hnodup⟩
        exact ⟨⟨⟨hname, hseen⟩, fun s hs => ⟨(hrest s hs).1, (hrest s hs).2.2⟩⟩, fun s hs => (hrest s hs).2.1, hnodup⟩
      · rintro ⟨⟨⟨_, hseen⟩, hrest⟩, hdistinct, hnodup⟩
        exact ⟨hseen, fun s hs => ⟨(hrest s hs).1, hdistinct s hs, (hrest s hs).2⟩, hnodup⟩

/-- No cycle is reported exactly when no scope's parents go on for more steps than there are scopes. -/
theorem cycleDiagnostics_eq_nil {b : ContractBody} : cycleDiagnostics b = [] ↔
    ∀ s ∈ b.scopes, climbs (declaredScopes b) (b.scopes.length + 1) s.name = false := by
  unfold cycleDiagnostics
  split
  · rename_i hnone
    simpa using List.find?_eq_none.1 hnone
  · rename_i s hs
    refine ⟨fun h => (by cases h), fun h => ?_⟩
    have := h s (List.mem_of_find?_eq_some hs)
    have := List.find?_some hs
    simp_all

/-- A requirement whose fields fit its kind and strength. -/
structure RequirementFits (r : Requirement) : Prop where
  numeric : r.hasNumeric = kindIsNumeric r.kind
  finite : r.hasNumeric = true → r.target.isFinite = true ∧ r.minimum.isFinite = true
  nonnegative : r.hasNumeric = true → r.target.lt .zero = false ∧ r.minimum.lt .zero = false
  ordered : r.hasNumeric = true → (if kindIsFloor r.kind then r.minimum.le r.target else r.target.le r.minimum) = true
  noBand : r.hasNumeric = true → r.strength = .required → r.target.eq r.minimum = true
  hasValue : needsValue r.kind = true → r.value ≠ []
  preferred : r.preferredValue ≠ [] → r.strength = .preferred
  members : r.kind = .collective → r.members ≠ []

theorem boundDiagnostics_eq_nil {r : Requirement} (h : boundDiagnostics r = []) :
    (r.target.isFinite = true ∧ r.minimum.isFinite = true) ∧
      (r.target.lt .zero = false ∧ r.minimum.lt .zero = false) ∧
      (if kindIsFloor r.kind then r.minimum.le r.target else r.target.le r.minimum) = true ∧
      (r.strength = .required → r.target.eq r.minimum = true) := by
  unfold boundDiagnostics at h
  split at h
  · cases h
  · rename_i hf
    split at h
    · cases h
    · rename_i hn
      simp only [List.append_eq_nil_iff, diagnose_eq_nil] at h
      obtain ⟨⟨ho, hb⟩, -⟩ := h
      refine ⟨by simpa using hf, by simpa using hn, by simpa using ho, fun hs => ?_⟩
      simpa [hs] using hb

theorem requirementFits_of_diagnostics {scopes : List Scope} {seen : List Requirement} {r : Requirement}
    (h : requirementDiagnostics scopes seen r = []) : RequirementFits r := by
  simp only [requirementDiagnostics, valueDiagnostics, List.append_eq_nil_iff, diagnose_eq_nil] at h
  obtain ⟨⟨⟨⟨⟨⟨⟨⟨⟨⟨-, -⟩, -⟩, -⟩, hmissing⟩, hextra⟩, hbound⟩, ⟨hvalue, hpreferred⟩, -⟩, -⟩, -⟩, hmembers⟩ := h
  have hnumeric : r.hasNumeric = kindIsNumeric r.kind := by
    cases hk : kindIsNumeric r.kind <;> cases hn : r.hasNumeric <;> simp_all
  have hb : r.hasNumeric = true → boundDiagnostics r = [] := fun hn => by rwa [if_pos hn] at hbound
  refine ⟨hnumeric, fun hn => (boundDiagnostics_eq_nil (hb hn)).1, fun hn => (boundDiagnostics_eq_nil (hb hn)).2.1,
    fun hn => (boundDiagnostics_eq_nil (hb hn)).2.2.1, fun hn => (boundDiagnostics_eq_nil (hb hn)).2.2.2, ?_, ?_, ?_⟩
  · intro hk
    simpa [hk] using hvalue
  · intro hp
    rw [if_neg hp, List.append_eq_nil_iff, diagnose_eq_nil] at hpreferred
    simpa using hpreferred.1
  · intro hk
    rw [if_pos hk, List.append_eq_nil_iff, diagnose_eq_nil] at hmembers
    simpa using hmembers.1

/-- Requirements whose checks pass have keys of their own, none of which the others had before them. -/
theorem nodup_requirementsDiagnostics {scopes : List Scope} {seen requirements : List Requirement}
    (h : requirementsDiagnostics scopes seen requirements = []) :
    (∀ r ∈ requirements, r.compositeKey ∉ seen.map Requirement.compositeKey) ∧
      (requirements.map Requirement.compositeKey).Nodup := by
  induction requirements generalizing seen with
  | nil => simp
  | cons r rest ih =>
    obtain ⟨hr, hrest⟩ := List.append_eq_nil_iff.1 h
    obtain ⟨hseen, hnodup⟩ := ih hrest
    have hkey : r.compositeKey ∉ seen.map Requirement.compositeKey := by
      simp only [requirementDiagnostics, List.append_eq_nil_iff, diagnose_eq_nil, decide_eq_false_iff_not] at hr
      exact hr.1.1.1.1.1.1.1.2
    refine ⟨List.forall_mem_cons.2 ⟨hkey, fun q hq hm => hseen q hq (List.mem_cons_of_mem _ hm)⟩, ?_⟩
    rw [List.map_cons, List.nodup_cons]
    refine ⟨fun hm => ?_, hnodup⟩
    obtain ⟨q, hq, he⟩ := List.mem_map.1 hm
    exact hseen q hq (by rw [he]; exact List.mem_cons_self)

/-- The checks of every requirement pass, each behind some of the others. -/
theorem requirementDiagnostics_of_mem {scopes : List Scope} {seen requirements : List Requirement}
    (h : requirementsDiagnostics scopes seen requirements = []) {r : Requirement} (hr : r ∈ requirements) :
    ∃ seen', requirementDiagnostics scopes seen' r = [] := by
  induction requirements generalizing seen with
  | nil => cases hr
  | cons q rest ih =>
    obtain ⟨hq, hrest⟩ := List.append_eq_nil_iff.1 h
    rcases List.mem_cons.1 hr with rfl | hr
    · exact ⟨seen, hq⟩
    · exact ih hrest hr

theorem validBody_requirements {body : ContractBody} (h : (validateContractBody body).ok = true) :
    requirementsDiagnostics (declaredScopes body) [] body.requirements = [] := by
  have hd := validateContractBody_ok.1 h
  simp only [contractBodyDiagnostics, validateBody, List.append_eq_nil_iff] at hd
  exact hd.1.1.2

theorem requirementFits_of_valid {body : ContractBody} (h : (validateContractBody body).ok = true) {r : Requirement}
    (hr : r ∈ body.requirements) : RequirementFits r := by
  obtain ⟨seen, hd⟩ := requirementDiagnostics_of_mem (validBody_requirements h) hr
  exact requirementFits_of_diagnostics hd

/-- The scope of a requirement of a valid body is declared. -/
theorem scope_of_valid {body : ContractBody} (h : (validateContractBody body).ok = true) {r : Requirement}
    (hr : r ∈ body.requirements) : ∃ s ∈ body.scopes, s.name = r.scope := by
  obtain ⟨seen, hd⟩ := requirementDiagnostics_of_mem (validBody_requirements h) hr
  simp only [requirementDiagnostics, List.append_eq_nil_iff, diagnose_eq_nil, Bool.or_eq_false_iff] at hd
  obtain ⟨⟨⟨⟨⟨⟨⟨⟨⟨⟨⟨-, hfound⟩, -⟩, -⟩, -⟩, -⟩, -⟩, -⟩, -⟩, -⟩, -⟩, -⟩ := hd
  rw [Option.isNone_eq_false_iff, Option.isSome_iff_exists] at hfound
  obtain ⟨s, hs⟩ := hfound
  exact ⟨s, (List.mem_filter.1 (List.mem_of_find?_eq_some hs)).1, by simpa using List.find?_some hs⟩

/-- No two requirements of a valid body have one key. -/
theorem compositeKey_nodup_of_valid {body : ContractBody} (h : (validateContractBody body).ok = true) :
    (body.requirements.map Requirement.compositeKey).Nodup :=
  (nodup_requirementsDiagnostics (validBody_requirements h)).2

/-- A generation that declares a single requirement, in the scope `s`. -/
def singleRequirement (generation : ContractGeneration) (r : Requirement) : ContractBody where
  workload := { id := .repeating 1, name := utf8 "w", generation := 1 }
  contractId := .repeating 1
  generation := generation
  policyGeneration := 1
  scopes := [{ name := utf8 "s" }]
  requirements := [canonicalizeRequirement { r with scope := utf8 "s" }]

end Wnc
