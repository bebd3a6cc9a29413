/-
Contracts that their own documents give back. A document is written of any contract; it is decoded, to the contract as
it documents it, exactly when every field is within the bounds of the decoder. Validation does not ask for all of
these.
-/
import Wnc.Contract.RoundTrip

namespace Wnc

open Lib

/-! ## Readers -/

section Readers

variable {document : Json} {field : String} {path : Bytes}

/-- A number that is not negative when it is signed. -/
def NotNegative (n : UInt64) : Prop := ¬n.toInt64 < 0

/-- A number that is at least one when it is signed. -/
def IsPositive (n : UInt64) : Prop := ¬n.toInt64 < 1

/-- A number whose document is read back: finite, not negative and within the bound of a parameter. -/
structure Lib.Double.Documentable (d : Double) : Prop where
  finite : (documentedReal d).isFinite = true
  nonnegative : (documentedReal d).lt .zero = false
  bounded : (Double.ofInt maxNumericParameter).lt (documentedReal d) = false

theorem readString_iff {maxBytes : Nat} {required : Bool} {s out v : Bytes}
    (hf : document.find (utf8 field) = some (.string s)) :
    readString document field path maxBytes required out = .ok v ↔ v = s ∧ s.length ≤ maxBytes := by
  constructor
  · intro h
    refine ⟨readString_ok hf h, ?_⟩
    unfold readString at h
    rw [hf] at h
    simp only at h
    split at h
    · cases h
    · rename_i hfits
      exact not_lt.1 hfits
  · rintro ⟨rfl, h⟩
    exact readString_written h hf

/-- A string that is left out when it is empty. -/
theorem readString_optional_iff {maxBytes : Nat} {s v : Bytes}
    (hf : document.find (utf8 field) = if s ≠ [] then some (.string s) else none) :
    readString document field path maxBytes false [] = .ok v ↔ v = s ∧ s.length ≤ maxBytes := by
  by_cases hs : s = []
  · rw [if_neg (not_not.2 hs)] at hf
    unfold readString
    rw [hf, hs]
    simp only [Bool.false_eq_true, if_false, Except.ok.injEq, List.length_nil, Nat.zero_le, and_true]
    exact eq_comm
  · rw [if_pos hs] at hf
    exact readString_iff hf

theorem readUint_iff {maximum : Nat} {required : Bool} {n out v : UInt64}
    (hf : document.find (utf8 field) = some (jsonUint n)) :
    readUint document field path maximum required out = .ok v ↔ v = n ∧ NotNegative n ∧ n.toNat ≤ maximum := by
  constructor
  · intro h
    refine ⟨readUint_ok hf h, ?_⟩
    unfold readUint at h
    rw [hf, jsonUint] at h
    simp only [toUInt64_jsonUint] at h
    split at h
    · cases h
    · rename_i hrange
      rw [not_or, not_lt] at hrange
      exact hrange
  · rintro ⟨rfl, h⟩
    exact readUint_written h hf

/-- A generation is within the bound of an unsigned number. -/
theorem readUint_generation_iff {required : Bool} {n out v : UInt64}
    (hf : document.find (utf8 field) = some (jsonUint n)) :
    readUint document field path maxUint64 required out = .ok v ↔ v = n ∧ NotNegative n := by
  rw [readUint_iff hf]
  exact and_congr_right fun _ => and_iff_left (Nat.le_of_lt_succ n.toNat_lt)

/-- A number of 32 bits is read when it is within its bound. -/
theorem readUint_small_iff {maximum : Nat} {required : Bool} {n : UInt32} {out v : UInt64}
    (hf : document.find (utf8 field) = some (jsonUint n.toUInt64)) :
    readUint document field path maximum required out = .ok v ↔ v = n.toUInt64 ∧ n.toNat ≤ maximum := by
  rw [readUint_iff hf, UInt32.toNat_toUInt64]
  exact and_congr_right fun _ => and_iff_right (toInt64_toUInt64_nonneg n)

theorem readId_iff {tag : Tag} {id : Id tag} {v : Bytes} (hf : document.find (utf8 field) = some (.string id.view)) :
    readId document field path = .ok v ↔ v = id.view :=
  ⟨readId_ok hf, fun h => h ▸ readId_view hf⟩

theorem readToken_iff {α : Type} {parse : Bytes → Option α} {token : Bytes} {undefined : Failure} {a v : α}
    (hparse : parse token = some a) (hf : document.find (utf8 field) = some (.string token)) :
    readToken parse document field path undefined = .ok v ↔ v = a :=
  ⟨readToken_ok hf hparse, fun h => h ▸ readToken_again hparse hf⟩

theorem readReal_iff {d : Double} {v : Option Double} (hf : document.find (utf8 field) = some (.ofReal d)) :
    readReal document field path maxNumericParameter = .ok v ↔ v = some (documentedReal d) ∧ d.Documentable := by
  unfold readReal
  rw [hf]
  simp only [asReal_ofReal]
  constructor
  · intro h
    split at h
    · cases h
    · rename_i hrange
      cases h
      simp only [Bool.or_eq_true, Bool.not_eq_true', not_or, Bool.not_eq_true, Bool.not_eq_false] at hrange
      exact ⟨rfl, hrange.1.1, hrange.1.2, hrange.2⟩
  · rintro ⟨rfl, hfinite, hnonnegative, hbounded⟩
    rw [hfinite, hnonnegative, hbounded]
    rfl

/-- An array is decoded when each of its items is. -/
theorem decodeEach_iff {α β : Type} {decode : Json → Nat → Except Failure β} {f : α → Json} {g : α → β} {P : α → Prop} :
    ∀ {l : List α} {index : Nat} {vs : List β}, (∀ a ∈ l, ∀ i v, decode (f a) i = .ok v ↔ v = g a ∧ P a) →
      (decodeEach decode (l.map f) index = .ok vs ↔ vs = l.map g ∧ ∀ a ∈ l, P a)
  | [], _, vs, _ => by
    rw [List.map_nil, List.map_nil, decodeEach, Except.ok.injEq]
    exact ⟨fun h => ⟨h.symm, fun _ ha => absurd ha List.not_mem_nil⟩, fun h => h.1.symm⟩
  | a :: l, index, vs, h => by
    rw [List.forall_mem_cons, List.map_cons, decodeEach]
    simp only [bind_eq_ok, h a List.mem_cons_self index,
      decodeEach_iff fun b hb => h b (List.mem_cons_of_mem _ hb), Except.ok.injEq]
    constructor
    · rintro ⟨v, ⟨rfl, ha⟩, vs', ⟨rfl, hl⟩, rfl⟩
      exact ⟨rfl, ha, hl⟩
    · rintro ⟨rfl, ha, hl⟩
      exact ⟨_, ⟨rfl, ha⟩, _, ⟨rfl, hl⟩, rfl⟩

theorem decodeBounded_iff {α β : Type} {bound : Nat} {missing exceeded : String} {code : Code}
    {decode : Json → Nat → Except Failure β} {f : α → Json} {g : α → β} {P : α → Prop} {l : List α} {vs : List β}
    (hf : document.find (utf8 field) = some (.array (l.map f)))
    (h : ∀ a ∈ l, ∀ i v, decode (f a) i = .ok v ↔ v = g a ∧ P a) :
    decodeBounded document field bound missing code exceeded decode = .ok vs ↔
      vs = l.map g ∧ l.length ≤ bound ∧ ∀ a ∈ l, P a := by
  unfold decodeBounded
  rw [hf]
  simp only [Option.bind_some, Json.items?, List.length_map, bind_eq_ok, require_eq_ok, decide_eq_true_eq,
    decodeEach_iff h]
  constructor
  · rintro ⟨-, hbound, hvs, hl⟩
    exact ⟨hvs, hbound, hl⟩
  · rintro ⟨hvs, hbound, hl⟩
    exact ⟨(), hbound, hvs, hl⟩

/-- A list that is left out when it is empty. -/
theorem decodeOptional_iff {α : Type} {l vs : List α} {decode : Json → Except Failure (List α)} {toJson : List α → Json}
    {P : List α → Prop} (hf : document.find (utf8 field) = if l ≠ [] then some (toJson l) else none) (hnil : P [])
    (h : decode (toJson l) = .ok vs ↔ vs = l ∧ P l) :
    decodeOptional document field [] decode = .ok vs ↔ vs = l ∧ P l := by
  unfold decodeOptional
  rw [hf]
  by_cases hl : l = []
  · subst hl
    simp only [ne_eq, not_true, if_false, Except.ok.injEq]
    exact ⟨fun hvs => ⟨hvs.symm, hnil⟩, fun hvs => hvs.1.symm⟩
  · rw [if_pos hl]
    exact h

end Readers

/-! ## Requirements and scopes -/

theorem decodeMembers_iff {members vs : List RequirementId} {path : Bytes} :
    decodeMembers (membersToJson members) path = .ok vs ↔ vs = members ∧ members.length ≤ maxMemberCount := by
  constructor
  · intro h
    refine ⟨decodeMembers_ok h, ?_⟩
    unfold decodeMembers membersToJson at h
    simp only [Json.items?, bind_eq_ok, require_eq_ok, decide_eq_true_eq, List.length_map] at h
    obtain ⟨_, hbound, -⟩ := h
    exact hbound
  · rintro ⟨rfl, h⟩
    exact decodeMembers_of_fits h path

/-- Attributes within the bounds of the decoder. -/
structure AttributesDocumentable (attributes : List (Bytes × Bytes)) : Prop where
  count : attributes.length ≤ maxAttributesPerRequirement
  each : ∀ a ∈ attributes, a.1 ≠ [] ∧ a.1.length ≤ maxNameBytes ∧ a.2.length ≤ maxStringBytes

theorem decodeAttributes_iff {attributes vs : List (Bytes × Bytes)} {path : Bytes} :
    decodeAttributes (attributesToJson attributes) path = .ok vs ↔
      vs = attributes ∧ AttributesDocumentable attributes := by
  constructor
  · intro h
    obtain rfl := decodeAttributes_ok h
    unfold decodeAttributes attributesToJson at h
    simp only [Json.items?, bind_eq_ok, require_eq_ok, decide_eq_true_eq, List.length_map] at h
    obtain ⟨_, hbound, h⟩ := h
    refine ⟨rfl, hbound, decodeEach_all (fun item _ _ a ha => ?_) h⟩
    simp only [bind_eq_ok, require_eq_ok, decide_eq_true_eq] at ha
    obtain ⟨_, -, name, hname, text, htext, _, hne, ha⟩ := ha
    cases ha
    exact ⟨hne, readString_length hname, readString_length htext⟩
  · rintro ⟨rfl, h⟩
    exact decodeAttributes_of_fits h.count h.each path

/-- Bounds that a document gives back, the target the strict one for the kind. -/
structure Requirement.BoundsDocumentable (r : Requirement) : Prop where
  target : r.target.Documentable
  minimum : r.minimum.Documentable
  ordered : (if kindIsFloor r.kind then (documentedReal r.minimum).le (documentedReal r.target)
    else (documentedReal r.target).le (documentedReal r.minimum)) = true

theorem decodeBounds_iff {r : Requirement} {path : Bytes} {bounds : Option (Double × Double)} :
    decodeBounds (requirementToJson r) path r.kind = .ok bounds ↔
      bounds = (if r.hasNumeric then some (documentedReal r.target, documentedReal r.minimum) else none) ∧
        (r.hasNumeric = true → r.BoundsDocumentable) := by
  have hw := requirementToJson_written r
  have htarget := hw.target
  have hminimum := hw.minimum
  refine ⟨fun h => ⟨decodeBounds_ok h, fun hn => ?_⟩, ?_⟩
  · rw [hn, if_pos rfl] at htarget hminimum
    unfold decodeBounds at h
    simp only [bind_eq_ok, readReal_iff htarget, readReal_iff hminimum] at h
    obtain ⟨_, ⟨rfl, ht⟩, _, ⟨rfl, hm⟩, h⟩ := h
    simp only [bind_eq_ok, require_eq_ok] at h
    obtain ⟨_, horder, -⟩ := h
    exact ⟨ht, hm, horder⟩
  · rintro ⟨rfl, h⟩
    unfold decodeBounds
    cases hn : r.hasNumeric with
    | false =>
      rw [hn] at htarget hminimum
      rw [readReal_absent htarget, readReal_absent hminimum]
      rfl
    | true =>
      obtain ⟨ht, hm, horder⟩ := h hn
      rw [hn, if_pos rfl] at htarget hminimum
      rw [(readReal_iff htarget).2 ⟨rfl, ht⟩, (readReal_iff hminimum).2 ⟨rfl, hm⟩]
      exact bind_eq_ok.2 ⟨_, rfl, bind_eq_ok.2 ⟨_, rfl, bind_eq_ok.2 ⟨(), require_eq_ok.2 horder, rfl⟩⟩⟩

/-- A requirement whose fields are within the bounds of the decoder. -/
structure Requirement.Documentable (r : Requirement) : Prop where
  scope : r.scope.length ≤ maxNameBytes
  key : r.key.length ≤ maxNameBytes
  value : r.value.length ≤ maxStringBytes
  preferredValue : r.preferredValue.length ≤ maxStringBytes
  bounds : r.hasNumeric = true → r.BoundsDocumentable
  members : r.members.length ≤ maxMemberCount
  attributes : AttributesDocumentable r.attributes

theorem isObject_requirementToJson (r : Requirement) : (requirementToJson r).isObject = true := Json.isObject_put _ _ _

theorem decodeRequirement_iff {r q : Requirement} {index : Nat} :
    decodeRequirement (requirementToJson r) index = .ok q ↔ q = r.documented ∧ r.Documentable := by
  have hw := requirementToJson_written r
  have hid : ∀ path v, decodeOptional (requirementToJson r) "id" .zero (decodeRequirementId path) = .ok v ↔ v = r.id := by
    intro path v
    unfold decodeOptional
    rw [hw.id]
    simp only [decodeRequirementId, Id.parse_view, Except.ok.injEq]
    exact eq_comm
  have hmembers : ∀ path v, decodeOptional (requirementToJson r) "members" []
      (fun members => decodeMembers members path) = .ok v ↔ v = r.members ∧ r.members.length ≤ maxMemberCount :=
    fun _ _ => decodeOptional_iff (P := fun members => members.length ≤ maxMemberCount) hw.members (Nat.zero_le _)
      decodeMembers_iff
  have hattributes : ∀ path v, decodeOptional (requirementToJson r) "attributes" []
      (fun attributes => decodeAttributes attributes path) = .ok v ↔
        v = r.attributes ∧ AttributesDocumentable r.attributes :=
    fun _ _ => decodeOptional_iff hw.attributes ⟨Nat.zero_le _, fun _ ha => absurd ha List.not_mem_nil⟩ decodeAttributes_iff
  unfold decodeRequirement
  simp only [bind_eq_ok, require_eq_ok, isObject_requirementToJson, readString_iff hw.scope,
    readToken_iff (parseRequirementKind_token r.kind) hw.kind,
    readToken_iff (parseRequirementStrength_token r.strength) hw.strength, readString_iff hw.key,
    readString_optional_iff hw.value, readString_optional_iff hw.preferredValue, hmembers, hattributes, hid, and_assoc,
    exists_eq_left, exists_const, true_and, decodeBounds_iff, Except.ok.injEq]
  have hdocumented : r.documented = { r with
      target := ((if r.hasNumeric then some (documentedReal r.target, documentedReal r.minimum) else none).map
        Prod.fst).getD .zero
      minimum := ((if r.hasNumeric then some (documentedReal r.target, documentedReal r.minimum) else none).map
        Prod.snd).getD .zero
      hasNumeric := (if r.hasNumeric then some (documentedReal r.target, documentedReal r.minimum) else none).isSome } := by
    unfold Requirement.documented
    cases r.hasNumeric <;> simp
  constructor
  · rintro ⟨hscope, hkey, hvalue, hpreferred, hbounds, hcount, heach, rfl⟩
    exact ⟨hdocumented.symm, hscope, hkey, hvalue, hpreferred, hbounds, hcount, heach⟩
  · rintro ⟨rfl, hscope, hkey, hvalue, hpreferred, hbounds, hcount, heach⟩
    exact ⟨hscope, hkey, hvalue, hpreferred, hbounds, hcount, heach, hdocumented.symm⟩

/-- A scope whose fields are within the bounds of the decoder. -/
structure Scope.Documentable (s : Scope) : Prop where
  named : s.name ≠ []
  name : s.name.length ≤ maxNameBytes
  parent : s.parent.length ≤ maxNameBytes
  rank : s.hasRank = true → s.rank.toNat ≤ 1000000

theorem decodeScope_iff {s t : Scope} {index : Nat} :
    decodeScope (scopeToJson s) index = .ok t ↔ t = s.documented ∧ s.Documentable := by
  have hw := scopeToJson_written s
  have hrank := hw.rank
  constructor
  · intro h
    refine ⟨decodeScope_ok h, ?_⟩
    unfold decodeScope at h
    simp only [bind_eq_ok, readString_iff hw.name, readString_optional_iff hw.parent, require_eq_ok,
      decide_eq_true_eq] at h
    obtain ⟨_, -, _, ⟨rfl, hname⟩, _, hne, _, ⟨-, hparent⟩, rank, h₃, -⟩ := h
    refine ⟨hne, hname, hparent, fun hr => ?_⟩
    rw [hr, if_pos rfl] at hrank
    exact ((readUint_small_iff hrank).1 h₃).2
  · rintro ⟨rfl, h⟩
    unfold decodeScope
    simp only [bind_eq_ok, readString_iff hw.name, readString_optional_iff hw.parent, require_eq_ok,
      decide_eq_true_eq, hw.rank]
    refine ⟨(), isObject_scopeToJson s, _, ⟨rfl, h.name⟩, (), h.named, _, ⟨rfl, h.parent⟩, ?_⟩
    unfold Scope.documented
    cases hr : s.hasRank with
    | false =>
      rw [hr] at hrank
      unfold readUint
      rw [hrank]
      exact ⟨0, rfl, rfl⟩
    | true =>
      rw [hr, if_pos rfl] at hrank
      exact ⟨_, (readUint_small_iff hrank).2 ⟨rfl, h.rank hr⟩, by simp⟩

/-! ## Bodies and contracts -/

structure Workload.Documentable (w : Workload) : Prop where
  id : w.id.isZero = false
  name : w.name.length ≤ maxNameBytes
  generation : NotNegative w.generation

theorem decodeWorkload_iff {b : ContractBody} {w : Workload} :
    decodeWorkload (contractBodyToJson b) = .ok w ↔ w = b.workload ∧ b.workload.Documentable := by
  have hw := workloadToJson_written b.workload
  have hworkload := (contractBodyToJson_written b).workload
  obtain ⟨members, hmembers⟩ : ∃ members, workloadToJson b.workload = .object members := ⟨_, rfl⟩
  rw [hmembers] at hworkload hw
  unfold decodeWorkload
  rw [hworkload]
  simp only [bind_eq_ok, readId_iff hw.id, exists_eq_left, Id.parse_view]
  constructor
  · intro h
    split at h
    · obtain ⟨_, hnone, -⟩ := bind_eq_ok.1 h
      cases hnone
    · rename_i hzero
      simp only [bind_eq_ok, readString_iff hw.name, readUint_generation_iff hw.generation] at h
      obtain ⟨_, hid, _, ⟨rfl, hname⟩, _, ⟨rfl, hgeneration⟩, h⟩ := h
      cases hid
      cases h
      exact ⟨rfl, by simpa using hzero, hname, hgeneration⟩
  · rintro ⟨rfl, h⟩
    rw [if_neg (by rw [h.id]; decide)]
    exact bind_eq_ok.2 ⟨_, rfl, bind_eq_ok.2 ⟨_, (readString_iff hw.name).2 ⟨rfl, h.name⟩,
      bind_eq_ok.2 ⟨_, (readUint_generation_iff hw.generation).2 ⟨rfl, h.generation⟩, rfl⟩⟩⟩

theorem decodeVersion_iff {b : ContractBody} {v : UInt32 × UInt32 × UInt32} :
    decodeVersion (contractBodyToJson b) = .ok v ↔ v = (b.major, b.minor, b.patch) ∧
      b.major.toNat ≤ 1000000 ∧ b.minor.toNat ≤ 1000000 ∧ b.patch.toNat ≤ 1000000 := by
  obtain ⟨members, hversion, hw⟩ := (contractBodyToJson_written b).version
  unfold decodeVersion
  rw [hversion]
  simp only [bind_eq_ok, readUint_small_iff hw.major, readUint_small_iff hw.minor, readUint_small_iff hw.patch]
  constructor
  · rintro ⟨_, ⟨rfl, hmajor⟩, _, ⟨rfl, hminor⟩, _, ⟨rfl, hpatch⟩, h⟩
    cases h
    exact ⟨by simp, hmajor, hminor, hpatch⟩
  · rintro ⟨rfl, hmajor, hminor, hpatch⟩
    exact ⟨_, ⟨rfl, hmajor⟩, _, ⟨rfl, hminor⟩, _, ⟨rfl, hpatch⟩, by simp⟩

/-- A body whose fields are within the bounds of the decoder. -/
structure ContractBody.Documentable (b : ContractBody) : Prop where
  schemaVersion : b.schemaVersion.toNat ≤ Wnc.schemaVersion.toNat
  workload : b.workload.Documentable
  generation : NotNegative b.generation
  policyGeneration : NotNegative b.policyGeneration
  version : b.major.toNat ≤ 1000000 ∧ b.minor.toNat ≤ 1000000 ∧ b.patch.toNat ≤ 1000000
  description : b.description.length ≤ maxStringBytes
  scopes : b.scopes.length ≤ maxScopesPerContract ∧ ∀ s ∈ b.scopes, s.Documentable
  requirements : b.requirements.length ≤ maxRequirementsPerContract ∧ ∀ r ∈ b.requirements, r.Documentable

theorem decodeContractId_iff {b : ContractBody} {id : ContractId} :
    decodeContractId (contractBodyToJson b) = .ok id ↔ id = b.contractId :=
  ⟨decodeContractId_ok, fun h => h ▸ decodeContractId_again (contractBodyToJson_written b).contractId⟩

theorem checkDeclared_iff {document : Json} {field message : String} {bound : Nat} {code : Code} {items : List Json}
    {u : Unit} (hf : document.find (utf8 field) = some (.array items)) :
    checkDeclared document field bound code message = .ok u ↔ items.length ≤ bound := by
  unfold checkDeclared
  rw [hf]
  simp only [Option.bind_some, Json.items?, require_eq_ok, decide_eq_true_eq]

theorem decodeBody_iff {b d : ContractBody} :
    decodeBody (contractBodyToJson b) = .ok d ↔ d = b.documented ∧ b.Documentable := by
  have hw := contractBodyToJson_written b
  have hsmall : b.schemaVersion.toNat ≤ schemaVersion.toNat → b.schemaVersion.toNat ≤ 1000 := fun h =>
    h.trans (by decide)
  unfold decodeBody
  simp only [bind_eq_ok, require_eq_ok, decide_eq_true_eq, readUint_small_iff hw.schemaVersion, checkDeclared_iff hw.scopes,
    checkDeclared_iff hw.requirements, decodeWorkload_iff, decodeContractId_iff, readUint_generation_iff hw.generation,
    readUint_generation_iff hw.policyGeneration, decodeVersion_iff, readString_iff hw.description,
    decodeBounded_iff hw.scopes fun _ _ _ _ => decodeScope_iff,
    decodeBounded_iff hw.requirements fun _ _ _ _ => decodeRequirement_iff, List.length_map, and_assoc, exists_eq_left,
    exists_const, UInt32.toNat_toUInt64, UInt32.toUInt32_toUInt64, Except.ok.injEq]
  constructor
  · rintro ⟨-, hversion, -, -, hworkload, hgeneration, hpolicy, hmajor, hminor, hpatch, hdescription, hscopes, hscope,
      hrequirements, hrequirement, rfl⟩
    exact ⟨rfl, hversion, hworkload, hgeneration, hpolicy, ⟨hmajor, hminor, hpatch⟩, hdescription, ⟨hscopes, hscope⟩,
      ⟨hrequirements, hrequirement⟩⟩
  · rintro ⟨rfl, hversion, hworkload, hgeneration, hpolicy, ⟨hmajor, hminor, hpatch⟩, hdescription, ⟨hscopes, hscope⟩,
      ⟨hrequirements, hrequirement⟩⟩
    exact ⟨hsmall hversion, hversion, hscopes, hrequirements, hworkload, hgeneration, hpolicy, hmajor, hminor, hpatch,
      hdescription, hscopes, hscope, hrequirements, hrequirement, rfl⟩

/-- A contract whose fields are within the bounds of the decoder, with the digest of its body or none. -/
structure Contract.Documentable (c : Contract) : Prop where
  body : c.body.Documentable
  envelope : c.envelope.Readable
  supersedes : NotNegative c.supersedes
  digest : c.digest = .zero ∨ c.digest = bodyDigest c.body

section Fields

variable {c : Contract}

theorem decodeEnvelope_iff {e : ContractEnvelope} :
    decodeOptional (contractToJson c) "envelope" {} decodeEnvelope = .ok e ↔ e = c.envelope ∧ c.envelope.Readable := by
  unfold decodeOptional
  rw [(contractToJson_written c).envelope]
  refine ⟨fun h => ?_, fun h => by rw [h.1]; exact decodeEnvelope_written h.2⟩
  obtain rfl := decodeEnvelope_ok h
  exact ⟨rfl, decodeEnvelope_readable h⟩

/-- A contract that supersedes none leaves the members out. -/
theorem readSupersedes_iff {v : UInt64} :
    readUint (contractToJson c) "supersedes" [] maxUint64 false 0 = .ok v ↔ v = c.supersedes ∧ NotNegative c.supersedes := by
  have hsupersedes := (contractToJson_written c).supersedes
  by_cases hs : c.supersedes = 0
  · rw [if_neg (by rw [Contract.hasSupersedes, bne_iff_ne]; exact not_not.2 hs)] at hsupersedes
    unfold readUint
    rw [hsupersedes, hs]
    simp only [Bool.false_eq_true, if_false, Except.ok.injEq]
    exact ⟨fun h => ⟨h.symm, (by decide : ¬(0 : UInt64).toInt64 < 0)⟩, fun h => h.1.symm⟩
  · rw [if_pos (by rw [Contract.hasSupersedes, bne_iff_ne]; exact hs)] at hsupersedes
    exact readUint_generation_iff hsupersedes

theorem decodeSupersedesDigest_iff {d : Digest} :
    decodeOptional (contractToJson c) "supersedes_digest" .zero (decodeDigest "supersedes_digest") = .ok d ↔
      d = if c.hasSupersedes then c.supersedesDigest else .zero := by
  unfold decodeOptional
  rw [(contractToJson_written c).supersedesDigest]
  cases c.hasSupersedes with
  | false => exact ⟨fun h => by cases h; rfl, fun h => by rw [h]; rfl⟩
  | true =>
    simp only [if_true, decodeDigest, hexDecodeDigest_hex, Except.ok.injEq]
    exact eq_comm

theorem checkDigest_iff {body : ContractBody} {d : Digest} : checkDigest (contractToJson c) body = .ok d ↔
    d = bodyDigest body ∧ (c.digest = .zero ∨ c.digest = bodyDigest body) := by
  unfold checkDigest decodeOptional
  rw [(contractToJson_written c).digest]
  simp only [decodeDigest, hexDecodeDigest_hex, bind_eq_ok, require_eq_ok, decide_eq_true_eq, Except.ok.injEq,
    exists_eq_left', exists_and_left, exists_const]
  exact ⟨fun h => ⟨h.2.symm, h.1⟩, fun h => ⟨h.2, h.1.symm⟩⟩

end Fields

/-- The document of a contract gives the contract back, as it documents it, exactly when every field is within the
bounds of the decoder. -/
theorem contractFromJson_iff {c d : Contract} :
    contractFromJson (contractToJson c) = .ok d ↔ d = c.documented ∧ c.Documentable := by
  obtain ⟨members, hmembers⟩ : ∃ members, contractBodyToJson c.body = .object members := ⟨_, rfl⟩
  have hbody := (contractToJson_written c).body
  have hobject : (contractToJson c).isObject = true := Json.isObject_put _ _ _
  rw [hmembers] at hbody
  unfold contractFromJson
  simp only [hbody]
  rw [← hmembers]
  simp only [bind_eq_ok, require_eq_ok, hobject, decodeBody_iff, decodeEnvelope_iff, readSupersedes_iff,
    decodeSupersedesDigest_iff, checkDigest_iff, and_assoc, exists_eq_left, exists_const, true_and,
    Except.ok.injEq]
  constructor
  · rintro ⟨hbody, henvelope, hsupersedes, hdigest, rfl⟩
    rw [bodyDigest_documented] at hdigest
    exact ⟨rfl, hbody, henvelope, hsupersedes, hdigest⟩
  · rintro ⟨rfl, hbody, henvelope, hsupersedes, hdigest⟩
    rw [← bodyDigest_documented] at hdigest
    exact ⟨hbody, henvelope, hsupersedes, hdigest, rfl⟩

end Wnc
