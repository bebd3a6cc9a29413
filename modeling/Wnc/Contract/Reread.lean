/-
What the canonical document of a contract decodes to: the contract it was written for, but for what the document
leaves out. A decoder that gives anything at all gives that.
-/
import Wnc.Contract.Decode
import Wnc.Core.Base64
import Wnc.Core.JsonObject

namespace Wnc

open Lib

/-! ## What a document keeps -/

/-- A number without the sign of zero. -/
def documentedReal (d : Double) : Double := if d.eq .zero then .zero else d

/-- A requirement as its document has it, with bounds only where it declares them. -/
def Requirement.documented (r : Requirement) : Requirement :=
  { r with
    target := if r.hasNumeric then documentedReal r.target else .zero
    minimum := if r.hasNumeric then documentedReal r.minimum else .zero }

def Scope.documented (s : Scope) : Scope := { s with rank := if s.hasRank then s.rank else 0 }

def ContractBody.documented (b : ContractBody) : ContractBody :=
  { b with
    scopes := b.scopes.map Scope.documented
    requirements := b.requirements.map Requirement.documented }

def Contract.documented (c : Contract) : Contract :=
  { c with
    body := c.body.documented
    digest := bodyDigest c.body.documented
    supersedesDigest := if c.hasSupersedes then c.supersedesDigest else .zero }

theorem asReal_ofReal (d : Double) : (Json.ofReal d).asReal = some (documentedReal d) := by
  unfold Json.ofReal documentedReal
  split <;> rfl

theorem ofReal_documentedReal (d : Double) : Json.ofReal (documentedReal d) = .ofReal d := by
  have hzero : Double.zero.eq .zero = true := by decide
  unfold Json.ofReal documentedReal
  by_cases h : d.eq .zero = true
  · simp only [if_pos h, if_pos hzero]
  · simp only [if_neg h]

theorem requirementToJson_documented (r : Requirement) : requirementToJson r.documented = requirementToJson r := by
  unfold requirementToJson Requirement.documented
  cases r.hasNumeric <;> simp only [Bool.false_eq_true, if_true, if_false, ofReal_documentedReal]

theorem scopeToJson_documented (s : Scope) : scopeToJson s.documented = scopeToJson s := by
  unfold scopeToJson Scope.documented
  cases s.hasRank <;> rfl

/-- What the document leaves out is not signed and not part of the digest. -/
theorem contractBodyToJson_documented (b : ContractBody) : contractBodyToJson b.documented = contractBodyToJson b := by
  unfold contractBodyToJson ContractBody.documented
  simp only [List.map_map, Function.comp_def, requirementToJson_documented, scopeToJson_documented]

theorem bodyDigest_documented (b : ContractBody) : bodyDigest b.documented = bodyDigest b := by
  rw [bodyDigest, bodyDigest, bodyDigestMaterial, bodyDigestMaterial, contractBodyToJson_documented]

/-! ## Readers -/

section Readers

variable {object : Json} {field : String} {path : Bytes}

theorem readString_ok {maxBytes : Nat} {required : Bool} {out s v : Bytes}
    (hf : object.find (utf8 field) = some (.string s)) (h : readString object field path maxBytes required out = .ok v) :
    v = s := by
  unfold readString at h
  rw [hf] at h
  simp only at h
  split at h
  · cases h
  · cases h; rfl

theorem readString_written {maxBytes : Nat} {required : Bool} {s out : Bytes} (hlen : s.length ≤ maxBytes)
    (hf : object.find (utf8 field) = some (.string s)) : readString object field path maxBytes required out = .ok s := by
  unfold readString
  rw [hf]
  exact if_neg (not_lt.2 hlen)

/-- A string that is left out when it is empty. -/
theorem readString_optional {maxBytes : Nat} {s v : Bytes}
    (hf : object.find (utf8 field) = if s ≠ [] then some (.string s) else none)
    (h : readString object field path maxBytes false [] = .ok v) : v = s := by
  by_cases hs : s = []
  · rw [hs, if_neg (fun hn => hn rfl)] at hf
    unfold readString at h
    rw [hf] at h
    cases h
    exact hs.symm
  · rw [if_pos hs] at hf
    exact readString_ok hf h

theorem toUInt64_jsonUint (n : UInt64) : n.toInt64.toUInt64 = n := by
  simp

theorem readUint_ok {maximum : Nat} {required : Bool} {out n v : UInt64}
    (hf : object.find (utf8 field) = some (jsonUint n)) (h : readUint object field path maximum required out = .ok v) :
    v = n := by
  unfold readUint at h
  rw [hf, jsonUint] at h
  simp only at h
  split at h
  · cases h
  · cases h; exact toUInt64_jsonUint n

theorem readToken_ok {α : Type} {parse : Bytes → Option α} {token : Bytes} {undefined : Failure} {a v : α}
    (hf : object.find (utf8 field) = some (.string token)) (hparse : parse token = some a)
    (h : readToken parse object field path undefined = .ok v) : v = a := by
  unfold readToken at h
  rw [hf] at h
  simp only [hparse] at h
  cases h
  rfl

theorem readId_ok {s v : Bytes} (hf : object.find (utf8 field) = some (.string s)) (h : readId object field path = .ok v) :
    v = s := by
  unfold readId at h
  rw [hf] at h
  simp only at h
  split at h
  · cases h
  · split at h
    · cases h
    · cases h; rfl

/-- A bound that is left out when none is declared. -/
theorem readReal_ok {maximum : Nat} {declared : Bool} {d : Double} {v : Option Double}
    (hf : object.find (utf8 field) = if declared then some (.ofReal d) else none)
    (h : readReal object field path maximum = .ok v) : v = if declared then some (documentedReal d) else none := by
  unfold readReal at h
  rw [hf] at h
  cases declared with
  | false => cases h; rfl
  | true =>
    simp only [if_true, asReal_ofReal] at h ⊢
    split at h
    · cases h
    · cases h; rfl

theorem decodeEach_ok {α β : Type} {decode : Json → Nat → Except Failure β} {f : α → Json} {g : α → β} :
    ∀ {l : List α} {index : Nat} {vs : List β}, (∀ a ∈ l, ∀ i v, decode (f a) i = .ok v → v = g a) →
      decodeEach decode (l.map f) index = .ok vs → vs = l.map g
  | [], _, _, _, h => by cases h; rfl
  | a :: l, index, vs, hall, h => by
    rw [List.map_cons, decodeEach] at h
    simp only [bind_eq_ok] at h
    obtain ⟨v, hv, vs', hvs, hout⟩ := h
    cases hout
    rw [hall a List.mem_cons_self index v hv, decodeEach_ok (fun b hb => hall b (List.mem_cons_of_mem _ hb)) hvs]
    rfl

end Readers

/-! ## Requirements and scopes -/

theorem find_ite {condition : Prop} [Decidable condition] (a b : Json) (key : Bytes) :
    (if condition then a else b).find key = if condition then a.find key else b.find key := by
  split <;> rfl

theorem decodeMembers_ok {members ms : List RequirementId} {path : Bytes}
    (h : decodeMembers (membersToJson members) path = .ok ms) : ms = members := by
  unfold decodeMembers membersToJson at h
  simp only [Json.items?, bind_eq_ok] at h
  obtain ⟨_, -, h⟩ := h
  have hdecode : ∀ m ∈ members, ∀ (i : Nat) v, decodeMember path (.string m.view) = .ok v → v = id m := by
    intro m _ _ v hv
    rw [decodeMember, Id.parse_view] at hv
    cases hv
    rfl
  rw [decodeEach_ok hdecode h, List.map_id]

theorem decodeAttributes_ok {attributes as : List (Bytes × Bytes)} {path : Bytes}
    (h : decodeAttributes (attributesToJson attributes) path = .ok as) : as = attributes := by
  unfold decodeAttributes attributesToJson at h
  simp only [Json.items?, bind_eq_ok] at h
  obtain ⟨_, -, h⟩ := h
  have hid : attributes.map id = attributes := List.map_id _
  rw [← hid]
  refine decodeEach_ok ?_ h
  intro a _ _ v hv
  simp only [bind_eq_ok] at hv
  obtain ⟨_, -, name, hname, value, hvalue, _, -, hv⟩ := hv
  cases hv
  have hn : ((Json.null.put "name" (.string a.1)).put "value" (.string a.2)).find (utf8 "name") = some (.string a.1) := by
    simp [Json.find_put]
  have hv : ((Json.null.put "name" (.string a.1)).put "value" (.string a.2)).find (utf8 "value") = some (.string a.2) := by
    simp [Json.find_put]
  rw [readString_ok hn hname, readString_ok hv hvalue]
  rfl

/-- The members of the document of a requirement. -/
structure Requirement.Written (r : Requirement) (document : Json) : Prop where
  id : document.find (utf8 "id") = some (.string r.id.view)
  scope : document.find (utf8 "scope") = some (.string r.scope)
  kind : document.find (utf8 "kind") = some (.string (requirementKindToken r.kind))
  strength : document.find (utf8 "strength") = some (.string (requirementStrengthToken r.strength))
  key : document.find (utf8 "key") = some (.string r.key)
  value : document.find (utf8 "value") = if r.value ≠ [] then some (.string r.value) else none
  preferredValue : document.find (utf8 "preferred_value") =
    if r.preferredValue ≠ [] then some (.string r.preferredValue) else none
  target : document.find (utf8 "target") = if r.hasNumeric then some (.ofReal r.target) else none
  minimum : document.find (utf8 "minimum") = if r.hasNumeric then some (.ofReal r.minimum) else none
  members : document.find (utf8 "members") = if r.members ≠ [] then some (membersToJson r.members) else none
  attributes : document.find (utf8 "attributes") =
    if r.attributes ≠ [] then some (attributesToJson r.attributes) else none

theorem requirementToJson_written (r : Requirement) : r.Written (requirementToJson r) := by
  constructor <;> simp [requirementToJson, Json.find_put, find_ite, Json.find_null]

theorem decodeBounds_ok {r : Requirement} {path : Bytes} {bounds : Option (Double × Double)}
    (h : decodeBounds (requirementToJson r) path r.kind = .ok bounds) :
    bounds = if r.hasNumeric then some (documentedReal r.target, documentedReal r.minimum) else none := by
  have hw := requirementToJson_written r
  unfold decodeBounds at h
  simp only [bind_eq_ok] at h
  obtain ⟨target, ht, minimum, hm, h⟩ := h
  rw [readReal_ok hw.target ht, readReal_ok hw.minimum hm] at h
  cases hn : r.hasNumeric with
  | false =>
    rw [hn] at h
    cases h
    rfl
  | true =>
    rw [hn] at h
    simp only [if_true, bind_eq_ok] at h
    obtain ⟨_, -, h⟩ := h
    cases h
    rfl

theorem decodeRequirement_ok {r q : Requirement} {index : Nat} (h : decodeRequirement (requirementToJson r) index = .ok q) :
    q = r.documented := by
  have hw := requirementToJson_written r
  unfold decodeRequirement at h
  simp only [bind_eq_ok] at h
  obtain ⟨_, -, scope, h₁, kind, h₂, strength, h₃, key, h₄, text, h₅, preferred, h₆, bounds, h₇, members, h₈,
    attributes, h₉, id, h₁₀, h⟩ := h
  cases h
  have e₁ := readString_ok hw.scope h₁
  have e₂ := readToken_ok hw.kind (parseRequirementKind_token r.kind) h₂
  have e₃ := readToken_ok hw.strength (parseRequirementStrength_token r.strength) h₃
  have e₄ := readString_ok hw.key h₄
  have e₅ := readString_optional hw.value h₅
  have e₆ := readString_optional hw.preferredValue h₆
  rw [e₂] at h₇
  have e₇ := decodeBounds_ok h₇
  have e₈ : members = r.members := by
    unfold decodeOptional at h₈
    rw [hw.members] at h₈
    by_cases hm : r.members = []
    · rw [hm, if_neg (fun hn => hn rfl)] at h₈
      cases h₈
      exact hm.symm
    · rw [if_pos hm] at h₈
      exact decodeMembers_ok h₈
  have e₉ : attributes = r.attributes := by
    unfold decodeOptional at h₉
    rw [hw.attributes] at h₉
    by_cases ha : r.attributes = []
    · rw [ha, if_neg (fun hn => hn rfl)] at h₉
      cases h₉
      exact ha.symm
    · rw [if_pos ha] at h₉
      exact decodeAttributes_ok h₉
  have e₁₀ : id = r.id := by
    unfold decodeOptional at h₁₀
    rw [hw.id] at h₁₀
    simp only [decodeRequirementId, Id.parse_view] at h₁₀
    cases h₁₀
    rfl
  rw [e₁, e₂, e₃, e₄, e₅, e₆, e₇, e₈, e₉, e₁₀]
  unfold Requirement.documented
  cases hn : r.hasNumeric <;> simp

/-- The members of the document of a scope. -/
structure Scope.Written (s : Scope) (document : Json) : Prop where
  name : document.find (utf8 "name") = some (.string s.name)
  rank : document.find (utf8 "rank") = if s.hasRank then some (jsonUint s.rank.toUInt64) else none
  parent : document.find (utf8 "parent") = if s.parent ≠ [] then some (.string s.parent) else none

theorem scopeToJson_written (s : Scope) : s.Written (scopeToJson s) := by
  constructor <;> simp [scopeToJson, Json.find_put, find_ite, Json.find_null]

theorem decodeScope_ok {s t : Scope} {index : Nat} (h : decodeScope (scopeToJson s) index = .ok t) : t = s.documented := by
  have hw := scopeToJson_written s
  have hrank := hw.rank
  unfold decodeScope at h
  simp only [bind_eq_ok] at h
  obtain ⟨_, -, name, h₁, _, -, parent, h₂, rank, h₃, h⟩ := h
  cases h
  have e₃ : rank.toUInt32 = if s.hasRank then s.rank else 0 := by
    cases hr : s.hasRank with
    | false =>
      rw [hr] at hrank
      unfold readUint at h₃
      rw [hrank] at h₃
      cases h₃
      rfl
    | true =>
      rw [hr] at hrank
      rw [readUint_ok hrank h₃]
      simp
  rw [readString_ok hw.name h₁, readString_optional hw.parent h₂, e₃, hw.rank]
  unfold Scope.documented
  cases s.hasRank <;> rfl

/-! ## Envelopes and contracts -/

/-- The members of the document of an envelope. -/
structure ContractEnvelope.Written (e : ContractEnvelope) (document : Json) : Prop where
  publisher : document.find (utf8 "publisher") = some (.string e.publisher.view)
  algorithm : document.find (utf8 "algorithm") = some (.string (signatureAlgorithmToken e.algorithm))
  keyId : document.find (utf8 "key_id") = some (.string e.keyId)
  issuedMillis : document.find (utf8 "issued_millis") = some (jsonUint e.issuedMillis)
  signature : document.find (utf8 "signature") =
    if e.signature ≠ [] then some (.string (base64UrlEncode e.signature)) else none

theorem envelopeToJson_written (e : ContractEnvelope) : e.Written (envelopeToJson e) := by
  constructor <;> simp [envelopeToJson, Json.find_put, find_ite, Json.find_null]

theorem decodeEnvelope_ok {e f : ContractEnvelope} (h : decodeEnvelope (envelopeToJson e) = .ok f) : f = e := by
  have hw := envelopeToJson_written e
  unfold decodeEnvelope at h
  simp only [bind_eq_ok] at h
  obtain ⟨_, -, text, h₁, h⟩ := h
  rw [readId_ok hw.publisher h₁, Id.parse_view] at h
  simp only [bind_eq_ok] at h
  obtain ⟨publisher, h₂, algorithm, h₃, keyId, h₄, issued, h₅, signature, h₆, h⟩ := h
  cases h
  cases h₂
  have e₆ : signature = e.signature := by
    unfold decodeOptional at h₆
    rw [hw.signature] at h₆
    by_cases hs : e.signature = []
    · rw [hs, if_neg (fun hn => hn rfl)] at h₆
      cases h₆
      exact hs.symm
    · rw [if_pos hs] at h₆
      simp only [decodeSignature] at h₆
      split at h₆
      · cases h₆
      · rename_i hdecode
        cases h₆
        exact eq_of_base64UrlDecode_encode hdecode
  rw [readToken_ok hw.algorithm (parseSignatureAlgorithm_token e.algorithm) h₃, readString_ok hw.keyId h₄,
    readUint_ok hw.issuedMillis h₅, e₆]

/-- The members of the document of a workload. -/
structure Workload.Written (w : Workload) (document : Json) : Prop where
  id : document.find (utf8 "id") = some (.string w.id.view)
  name : document.find (utf8 "name") = some (.string w.name)
  generation : document.find (utf8 "generation") = some (jsonUint w.generation)

theorem workloadToJson_written (w : Workload) : w.Written (workloadToJson w) := by
  constructor <;> simp [workloadToJson, Json.find_put]

/-- The members of a document of the version of a body. -/
structure ContractBody.VersionWritten (b : ContractBody) (document : Json) : Prop where
  major : document.find (utf8 "major") = some (jsonUint b.major.toUInt64)
  minor : document.find (utf8 "minor") = some (jsonUint b.minor.toUInt64)
  patch : document.find (utf8 "patch") = some (jsonUint b.patch.toUInt64)

/-- The members of the document of a body. -/
structure ContractBody.Written (b : ContractBody) (document : Json) : Prop where
  schemaVersion : document.find (utf8 "schema_version") = some (jsonUint b.schemaVersion.toUInt64)
  workload : document.find (utf8 "workload") = some (workloadToJson b.workload)
  contractId : document.find (utf8 "contract_id") = some (.string b.contractId.view)
  generation : document.find (utf8 "contract_generation") = some (jsonUint b.generation)
  policyGeneration : document.find (utf8 "policy_generation") = some (jsonUint b.policyGeneration)
  version : ∃ members, document.find (utf8 "version") = some (.object members) ∧ b.VersionWritten (.object members)
  description : document.find (utf8 "description") = some (.string b.description)
  scopes : document.find (utf8 "scopes") = some (.array (b.scopes.map scopeToJson))
  requirements : document.find (utf8 "requirements") = some (.array (b.requirements.map requirementToJson))

theorem contractBodyToJson_written (b : ContractBody) : b.Written (contractBodyToJson b) := by
  have hversion : b.VersionWritten (((Json.null.put "major" (jsonUint b.major.toUInt64)).put "minor"
      (jsonUint b.minor.toUInt64)).put "patch" (jsonUint b.patch.toUInt64)) := by
    constructor <;> simp [Json.find_put]
  have hfind : (contractBodyToJson b).find (utf8 "version") = some (((Json.null.put "major" (jsonUint b.major.toUInt64)).put
      "minor" (jsonUint b.minor.toUInt64)).put "patch" (jsonUint b.patch.toUInt64)) := by
    simp [contractBodyToJson, Json.find_put]
  refine ⟨?_, ?_, ?_, ?_, ?_, ⟨_, hfind, hversion⟩, ?_, ?_, ?_⟩ <;> simp [contractBodyToJson, Json.find_put]

theorem decodeWorkload_ok {b : ContractBody} {w : Workload} (h : decodeWorkload (contractBodyToJson b) = .ok w) :
    w = b.workload := by
  have hw := workloadToJson_written b.workload
  have hworkload := (contractBodyToJson_written b).workload
  obtain ⟨members, hmembers⟩ : ∃ members, workloadToJson b.workload = .object members := ⟨_, rfl⟩
  rw [hmembers] at hworkload hw
  unfold decodeWorkload at h
  rw [hworkload] at h
  simp only [bind_eq_ok] at h
  obtain ⟨text, h₁, h⟩ := h
  rw [readId_ok hw.id h₁, Id.parse_view] at h
  simp only at h
  split at h
  · obtain ⟨_, hnone, -⟩ := bind_eq_ok.1 h
    cases hnone
  · simp only [bind_eq_ok] at h
    obtain ⟨id, h₂, name, h₃, generation, h₄, h⟩ := h
    cases h
    cases h₂
    rw [readString_ok hw.name h₃, readUint_ok hw.generation h₄]

theorem decodeVersion_ok {b : ContractBody} {v : UInt32 × UInt32 × UInt32}
    (h : decodeVersion (contractBodyToJson b) = .ok v) : v = (b.major, b.minor, b.patch) := by
  obtain ⟨members, hversion, hw⟩ := (contractBodyToJson_written b).version
  unfold decodeVersion at h
  rw [hversion] at h
  simp only [bind_eq_ok] at h
  obtain ⟨major, h₁, minor, h₂, patch, h₃, h⟩ := h
  cases h
  rw [readUint_ok hw.major h₁, readUint_ok hw.minor h₂, readUint_ok hw.patch h₃]
  simp

theorem decodeBounded_ok {α β : Type} {body : Json} {field : String} {bound : Nat} {missing exceeded : String}
    {code : Code} {decode : Json → Nat → Except Failure β} {f : α → Json} {g : α → β} {l : List α} {vs : List β}
    (hf : body.find (utf8 field) = some (.array (l.map f))) (hall : ∀ a ∈ l, ∀ i v, decode (f a) i = .ok v → v = g a)
    (h : decodeBounded body field bound missing code exceeded decode = .ok vs) : vs = l.map g := by
  unfold decodeBounded at h
  rw [hf] at h
  simp only [Option.bind_some, Json.items?, bind_eq_ok] at h
  obtain ⟨_, -, h⟩ := h
  exact decodeEach_ok hall h

theorem decodeContractId_ok {b : ContractBody} {id : ContractId} (h : decodeContractId (contractBodyToJson b) = .ok id) :
    id = b.contractId := by
  unfold decodeContractId at h
  simp only [bind_eq_ok] at h
  obtain ⟨text, h₁, h⟩ := h
  rw [readId_ok (contractBodyToJson_written b).contractId h₁, Id.parse_view] at h
  cases h
  rfl

theorem decodeBody_ok {b d : ContractBody} (h : decodeBody (contractBodyToJson b) = .ok d) : d = b.documented := by
  have hw := contractBodyToJson_written b
  unfold decodeBody at h
  simp only [bind_eq_ok] at h
  obtain ⟨version, h₁, _, -, _, -, _, -, workload, h₂, id, h₃, generation, h₄, policy, h₅, numbers, h₆, description, h₇,
    scopes, h₈, requirements, h₉, h⟩ := h
  have e₆ := decodeVersion_ok h₆
  subst e₆
  cases h
  rw [readUint_ok hw.schemaVersion h₁, decodeWorkload_ok h₂, decodeContractId_ok h₃, readUint_ok hw.generation h₄,
    readUint_ok hw.policyGeneration h₅, readString_ok hw.description h₇,
    decodeBounded_ok hw.scopes (fun _ _ _ _ => decodeScope_ok) h₈,
    decodeBounded_ok hw.requirements (fun _ _ _ _ => decodeRequirement_ok) h₉]
  simp [ContractBody.documented]

theorem decodeDigest_ok {field : String} {d e : Digest} (h : decodeDigest field (.string d.hex) = .ok e) : e = d := by
  rw [decodeDigest, hexDecodeDigest_hex] at h
  cases h
  rfl

/-- The members of the document of a contract. -/
structure Contract.Written (c : Contract) (document : Json) : Prop where
  body : document.find (utf8 "body") = some (contractBodyToJson c.body)
  digest : document.find (utf8 "digest") = some (.string c.digest.hex)
  envelope : document.find (utf8 "envelope") = some (envelopeToJson c.envelope)
  supersedes : document.find (utf8 "supersedes") = if c.hasSupersedes then some (jsonUint c.supersedes) else none
  supersedesDigest : document.find (utf8 "supersedes_digest") =
    if c.hasSupersedes then some (.string c.supersedesDigest.hex) else none

theorem contractToJson_written (c : Contract) : c.Written (contractToJson c) := by
  constructor <;> simp [contractToJson, Json.find_put, find_ite, Json.find_null]

/-- The document of a contract decodes to the contract as it documents it. -/
theorem contractFromJson_ok {c d : Contract} (h : contractFromJson (contractToJson c) = .ok d) : d = c.documented := by
  have hw := contractToJson_written c
  have hsupersedes := hw.supersedes
  obtain ⟨members, hmembers⟩ : ∃ members, contractBodyToJson c.body = .object members := ⟨_, rfl⟩
  unfold contractFromJson at h
  rw [hw.body, hmembers] at h
  simp only [bind_eq_ok] at h
  obtain ⟨_, -, body, h₁, envelope, h₂, supersedes, h₃, supersedesDigest, h₄, digest, h₅, h⟩ := h
  cases h
  rw [← hmembers] at h₁
  have e₁ := decodeBody_ok h₁
  have e₂ : envelope = c.envelope := by
    unfold decodeOptional at h₂
    rw [hw.envelope] at h₂
    exact decodeEnvelope_ok h₂
  have e₃ : supersedes = c.supersedes := by
    cases hs : c.hasSupersedes with
    | false =>
      rw [hs] at hsupersedes
      unfold readUint at h₃
      rw [hsupersedes] at h₃
      cases h₃
      exact (show c.supersedes = 0 by simpa [Contract.hasSupersedes] using hs).symm
    | true =>
      rw [hs] at hsupersedes
      exact readUint_ok hsupersedes h₃
  have e₄ : supersedesDigest = if c.hasSupersedes then c.supersedesDigest else .zero := by
    unfold decodeOptional at h₄
    rw [hw.supersedesDigest] at h₄
    cases hs : c.hasSupersedes with
    | false =>
      rw [hs] at h₄
      cases h₄
      rfl
    | true =>
      rw [hs] at h₄
      exact decodeDigest_ok h₄
  have e₅ : digest = bodyDigest body := by
    unfold checkDigest decodeOptional at h₅
    rw [hw.digest] at h₅
    simp only [bind_eq_ok] at h₅
    obtain ⟨_, -, _, -, h₅⟩ := h₅
    cases h₅
    rfl
  rw [e₅, e₁, e₂, e₃, e₄]
  rfl

end Wnc
