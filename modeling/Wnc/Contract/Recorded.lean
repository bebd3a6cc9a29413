/-
Contracts in records. The document of a contract is read when its texts are valid and the text of every number in it
fits a number literal. A contract that was decoded is one whose texts are valid.
-/
import Wnc.Contract.Documentable
import Wnc.Core.JsonReadable

namespace Wnc

open Lib

/-! ## The texts of a contract -/

structure Requirement.Textual (r : Requirement) : Prop where
  scope : IsText r.scope
  key : IsText r.key
  value : IsText r.value
  preferredValue : IsText r.preferredValue
  attributes : ∀ a ∈ r.attributes, IsText a.1 ∧ IsText a.2

structure Scope.Textual (s : Scope) : Prop where
  name : IsText s.name
  parent : IsText s.parent

/-- Every text of a contract is valid and fits a string. -/
structure Contract.Textual (c : Contract) : Prop where
  workload : IsText c.body.workload.name
  description : IsText c.body.description
  scopes : ∀ s ∈ c.body.scopes, s.Textual
  requirements : ∀ r ∈ c.body.requirements, r.Textual
  keyId : IsText c.envelope.keyId
  signature : c.envelope.signature.length ≤ 1024

section Decoded

variable {o : JsonDecodeOptions} {depth : Nat} {value : Json}

theorem readString_text (hvalue : value.Decoded o depth) {field : String} {path : Bytes} {maxBytes : Nat}
    {required : Bool} {s : Bytes} (h : readString value field path maxBytes required [] = .ok s)
    (hmax : maxBytes ≤ maxStringBytes) : IsText s := by
  refine ⟨?_, (readString_length h).trans hmax⟩
  unfold readString at h
  split at h
  · split at h
    · cases h
    · cases h
      exact .nil
  · rename_i text hfind
    split at h
    · cases h
    · cases h
      exact hvalue.text hfind
  · cases h

theorem decodeAttributes_textual (hvalue : value.Decoded o depth) {path : Bytes} {attributes : List (Bytes × Bytes)}
    (h : decodeAttributes value path = .ok attributes) : ∀ a ∈ attributes, IsText a.1 ∧ IsText a.2 := by
  unfold decodeAttributes at h
  split at h
  · cases h
  · rename_i items hitems
    simp only [bind_eq_ok] at h
    obtain ⟨_, -, h⟩ := h
    refine decodeEach_all (fun item hitem _ a ha => ?_) h
    have hdecoded := hvalue.items hitems hitem
    simp only [bind_eq_ok] at ha
    obtain ⟨_, -, name, hname, text, htext, _, -, ha⟩ := ha
    cases ha
    exact ⟨readString_text hdecoded hname (by decide), readString_text hdecoded htext (le_refl _)⟩

theorem decodeRequirement_textual (hvalue : value.Decoded o depth) {index : Nat} {r : Requirement}
    (h : decodeRequirement value index = .ok r) : r.Textual := by
  unfold decodeRequirement at h
  simp only [bind_eq_ok] at h
  obtain ⟨_, -, scope, h₁, kind, -, strength, -, key, h₂, text, h₃, preferred, h₄, bounds, -, members, -,
    attributes, h₅, id, -, h⟩ := h
  cases h
  refine ⟨readString_text hvalue h₁ (by decide), readString_text hvalue h₂ (by decide),
    readString_text hvalue h₃ (le_refl _), readString_text hvalue h₄ (le_refl _), ?_⟩
  unfold decodeOptional at h₅
  split at h₅
  · cases h₅
    exact fun _ ha => nomatch ha
  · rename_i array hfind
    exact decodeAttributes_textual (hvalue.find hfind) h₅

theorem decodeScope_textual (hvalue : value.Decoded o depth) {index : Nat} {s : Scope}
    (h : decodeScope value index = .ok s) : s.Textual := by
  unfold decodeScope at h
  simp only [bind_eq_ok] at h
  obtain ⟨_, -, name, h₁, _, -, parent, h₂, rank, -, h⟩ := h
  cases h
  exact ⟨readString_text hvalue h₁ (by decide), readString_text hvalue h₂ (by decide)⟩

theorem decodeWorkload_textual (hvalue : value.Decoded o depth) {w : Workload} (h : decodeWorkload value = .ok w) :
    IsText w.name := by
  unfold decodeWorkload at h
  split at h
  · rename_i members hfind
    simp only [bind_eq_ok] at h
    obtain ⟨text, -, h⟩ := h
    split at h
    · obtain ⟨_, hnone, -⟩ := bind_eq_ok.1 h
      cases hnone
    · split at h
      · obtain ⟨_, hzero, -⟩ := bind_eq_ok.1 h
        cases hzero
      · simp only [bind_eq_ok] at h
        obtain ⟨id, -, name, hname, generation, -, h⟩ := h
        cases h
        exact readString_text (hvalue.find hfind) hname (by decide)
  · cases h

theorem decodeEnvelope_textual (hvalue : value.Decoded o depth) {e : ContractEnvelope}
    (h : decodeEnvelope value = .ok e) : IsText e.keyId := by
  unfold decodeEnvelope at h
  simp only [bind_eq_ok] at h
  obtain ⟨_, -, text, -, h⟩ := h
  split at h
  · obtain ⟨_, hnone, -⟩ := bind_eq_ok.1 h
    cases hnone
  · simp only [bind_eq_ok] at h
    obtain ⟨publisher, -, algorithm, -, keyId, hkey, issued, -, signature, -, h⟩ := h
    cases h
    exact readString_text hvalue hkey (by decide)

/-- The texts of a contract are those of its document. -/
theorem contractFromJson_textual (hvalue : value.Decoded o depth) {c : Contract} (h : contractFromJson value = .ok c) :
    c.Textual := by
  unfold contractFromJson at h
  rw [bind_eq_ok] at h
  obtain ⟨_, -, h⟩ := h
  split at h
  · rename_i members hfind
    have hbody := hvalue.find hfind
    simp only [bind_eq_ok] at h
    obtain ⟨body, h₁, envelope, h₂, supersedes, -, supersedesDigest, -, digest, -, h⟩ := h
    cases h
    unfold decodeBody at h₁
    simp only [bind_eq_ok] at h₁
    obtain ⟨version, -, _, -, _, -, _, -, workload, hworkload, id, -, generation, -, policy, -, ⟨major, minor, patch⟩, -,
      description, hdescription, scopes, hscopes, requirements, hrequirements, h₁⟩ := h₁
    cases h₁
    refine ⟨decodeWorkload_textual hbody hworkload, readString_text hbody hdescription (le_refl _),
      decodeBounded_all (fun items hitems item hitem _ _ hs => ?_) hscopes,
      decodeBounded_all (fun items hitems item hitem _ _ hr => ?_) hrequirements, ?_, ?_⟩
    · obtain ⟨array, harray, hitems⟩ := Option.bind_eq_some_iff.1 hitems
      exact decodeScope_textual ((hbody.find harray).items hitems hitem) hs
    · obtain ⟨array, harray, hitems⟩ := Option.bind_eq_some_iff.1 hitems
      exact decodeRequirement_textual ((hbody.find harray).items hitems hitem) hr
    · unfold decodeOptional at h₂
      split at h₂
      · cases h₂
        exact isText_nil
      · rename_i v hfind
        exact decodeEnvelope_textual (hvalue.find hfind) h₂
    · unfold decodeOptional at h₂
      split at h₂
      · cases h₂
        exact Nat.zero_le _
      · exact (decodeEnvelope_readable h₂).signature
  · cases h

end Decoded

/-! ## Documents that are read -/

/-- The text of every number of a requirement fits a number literal. -/
def Requirement.NumbersFit (r : Requirement) : Prop := r.hasNumeric = true → r.target.Fits ∧ r.minimum.Fits

def ContractBody.NumbersFit (b : ContractBody) : Prop := ∀ r ∈ b.requirements, r.NumbersFit

section Readable

variable {o : JsonDecodeOptions} {depth : Nat}

theorem isText_kindToken (k : RequirementKind) : IsText (requirementKindToken k) := by
  cases k <;> exact isText_ascii (by decide) (by decide)

theorem isText_strengthToken (s : RequirementStrength) : IsText (requirementStrengthToken s) := by
  cases s <;> exact isText_ascii (by decide) (by decide)

theorem isText_unit (k : RequirementKind) : IsText (kindUnit k) := by
  cases k <;> exact isText_ascii (by decide) (by decide)

theorem isText_algorithmToken (a : SignatureAlgorithm) : IsText (signatureAlgorithmToken a) := by
  cases a <;> exact isText_ascii (by decide) (by decide)

theorem readable_attributesToJson (ho : o.Roomy) (h : depth ≤ 5) {attributes : List (Bytes × Bytes)}
    (ha : ∀ a ∈ attributes, IsText a.1 ∧ IsText a.2) : (attributesToJson attributes).Readable o depth := by
  refine ho.mapped (by omega) fun a hmem => ?_
  refine ho.put (ho.put (ho.null (by omega)) (by decide) ?_) (by decide) ?_
  · exact ho.text (by omega) (ha a hmem).1
  · exact ho.text (by omega) (ha a hmem).2

theorem readable_membersToJson (ho : o.Roomy) (h : depth ≤ 5) (members : List RequirementId) :
    (membersToJson members).Readable o depth :=
  ho.mapped (by omega) fun m _ => ho.text (by omega) (isText_view m)

theorem readable_requirementToJson (ho : o.Roomy) (h : depth ≤ 4) {r : Requirement} (hr : r.Textual)
    (hfit : r.NumbersFit) : (requirementToJson r).Readable o depth := by
  have htext : ∀ {s : Bytes}, IsText s → (Json.string s).Readable o (depth + 1) := fun hs => ho.text (by omega) hs
  have htarget : r.hasNumeric = true → (Json.ofReal r.target).Readable o (depth + 1) :=
    fun hn => ho.number (by omega) (hfit hn).1
  have hminimum : r.hasNumeric = true → (Json.ofReal r.minimum).Readable o (depth + 1) :=
    fun hn => ho.number (by omega) (hfit hn).2
  unfold requirementToJson
  repeat' first
    | exact ho.null (by omega)
    | exact htarget (by assumption)
    | exact hminimum (by assumption)
    | exact htext (isText_view _)
    | exact htext (isText_kindToken _)
    | exact htext (isText_strengthToken _)
    | exact htext (isText_unit _)
    | exact htext hr.scope
    | exact htext hr.value
    | exact htext hr.preferredValue
    | exact htext hr.key
    | exact readable_membersToJson ho (by omega) _
    | exact readable_attributesToJson ho (by omega) hr.attributes
    | decide
    | refine ho.put ?_ ?_ ?_
    | refine Json.Readable.ite (fun _ => ?_) fun _ => ?_

theorem readable_scopeToJson (ho : o.Roomy) (h : depth ≤ 4) {s : Scope} (hs : s.Textual) :
    (scopeToJson s).Readable o depth := by
  unfold scopeToJson
  repeat' first
    | exact ho.null (by omega)
    | exact ho.uint (by omega)
    | exact ho.text (by omega) hs.name
    | exact ho.text (by omega) hs.parent
    | decide
    | refine ho.put ?_ ?_ ?_
    | refine Json.Readable.ite (fun _ => ?_) fun _ => ?_

theorem readable_contractBodyToJson (ho : o.Roomy) (h : depth ≤ 2) {c : Contract} (hc : c.Textual)
    (hfit : c.body.NumbersFit) : (contractBodyToJson c.body).Readable o depth := by
  have hscopes : (Json.array (c.body.scopes.map scopeToJson)).Readable o (depth + 1) :=
    ho.mapped (by omega) fun s hs => readable_scopeToJson ho (by omega) (hc.scopes s hs)
  have hrequirements : (Json.array (c.body.requirements.map requirementToJson)).Readable o (depth + 1) :=
    ho.mapped (by omega) fun r hr => readable_requirementToJson ho (by omega) (hc.requirements r hr) (hfit r hr)
  unfold contractBodyToJson workloadToJson
  repeat' first
    | exact hscopes
    | exact hrequirements
    | exact ho.null (by omega)
    | exact ho.uint (by omega)
    | exact ho.text (by omega) (isText_view _)
    | exact ho.text (by omega) hc.workload
    | exact ho.text (by omega) hc.description
    | decide
    | refine ho.put ?_ ?_ ?_

theorem base64UrlChar_ascii : ∀ v < 64, base64UrlChar v < 0x80 := by decide +kernel

theorem isText_base64Url {bytes : Bytes} (h : bytes.length ≤ 1024) : IsText (base64UrlEncode bytes) := by
  refine isText_ascii (List.all_eq_true.2 fun c hc => decide_eq_true ?_) ?_
  · obtain ⟨v, hv, rfl⟩ := mem_base64UrlEncode bytes c hc
    exact base64UrlChar_ascii v hv
  · have hlength := (length_encode bytes).2
    have hbound : maxStringBytes = 4096 := rfl
    omega

theorem readable_envelopeToJson (ho : o.Roomy) (h : depth ≤ 2) {c : Contract} (hc : c.Textual) :
    (envelopeToJson c.envelope).Readable o depth := by
  unfold envelopeToJson
  repeat' first
    | exact ho.null (by omega)
    | exact ho.uint (by omega)
    | exact ho.text (by omega) (isText_view _)
    | exact ho.text (by omega) (isText_algorithmToken _)
    | exact ho.text (by omega) hc.keyId
    | exact ho.text (by omega) (isText_base64Url hc.signature)
    | decide
    | refine ho.put ?_ ?_ ?_
    | refine Json.Readable.ite (fun _ => ?_) fun _ => ?_

/-- A document whose texts fit and whose numbers fit is read. -/
theorem readable_contractToJson (ho : o.Roomy) (h : depth ≤ 1) {c : Contract} (hc : c.Textual)
    (hfit : c.body.NumbersFit) : (contractToJson c).Readable o depth := by
  have hbody := readable_contractBodyToJson ho (show depth + 1 ≤ 2 by omega) hc hfit
  have henvelope := readable_envelopeToJson ho (show depth + 1 ≤ 2 by omega) hc
  unfold contractToJson
  repeat' first
    | exact hbody
    | exact henvelope
    | exact ho.null (by omega)
    | exact ho.uint (by omega)
    | exact ho.text (by omega) (isText_hex _)
    | decide
    | refine ho.put ?_ ?_ ?_
    | refine Json.Readable.ite (fun _ => ?_) fun _ => ?_

/-- A text of a document that is read is valid. -/
theorem IsText.of_find {v : Json} {key s : Bytes} (hv : v.Readable o depth) (hf : v.find key = some (.string s))
    (hlen : s.length ≤ maxStringBytes) : IsText s := ⟨(hv.find hf).2.1, hlen⟩

/-- So is one that is left out when it is empty. -/
theorem IsText.of_find_optional {v : Json} {key s : Bytes} (hv : v.Readable o depth)
    (hf : v.find key = if s ≠ [] then some (.string s) else none) (hlen : s.length ≤ maxStringBytes) : IsText s := by
  by_cases hs : s = []
  · rw [hs]
    exact isText_nil
  · rw [if_pos hs] at hf
    exact .of_find hv hf hlen

/-- The texts of an attribute whose document is read. -/
theorem isText_of_attribute {a : Bytes × Bytes}
    (h : ((Json.null.put "name" (.string a.1)).put "value" (.string a.2)).Readable o depth)
    (hname : a.1.length ≤ maxStringBytes) (hvalue : a.2.length ≤ maxStringBytes) : IsText a.1 ∧ IsText a.2 := by
  have hfirst : ((Json.null.put "name" (.string a.1)).put "value" (.string a.2)).find (utf8 "name") =
      some (.string a.1) := by simp [Json.find_put]
  have hsecond : ((Json.null.put "name" (.string a.1)).put "value" (.string a.2)).find (utf8 "value") =
      some (.string a.2) := by simp [Json.find_put]
  exact ⟨.of_find h hfirst hname, .of_find h hsecond hvalue⟩

theorem Requirement.textual_of_readable {r : Requirement} (hr : r.Documentable)
    (h : (requirementToJson r).Readable o depth) : r.Textual := by
  have hw := requirementToJson_written r
  have hname : maxNameBytes ≤ maxStringBytes := by decide
  refine ⟨.of_find h hw.scope (hr.scope.trans hname), .of_find h hw.key (hr.key.trans hname),
    .of_find_optional h hw.value hr.value, .of_find_optional h hw.preferredValue hr.preferredValue, fun a ha => ?_⟩
  have hattributes := hw.attributes
  rw [if_pos (List.ne_nil_of_mem ha)] at hattributes
  obtain ⟨-, hshort, hvalue⟩ := hr.attributes.each a ha
  exact isText_of_attribute ((h.find hattributes).items (List.mem_map_of_mem ha)) (hshort.trans hname) hvalue

/-- A document within the bounds of the decoder is read exactly when its texts are valid and its numbers fit. -/
theorem readable_contractToJson_iff (ho : o.Roomy) (h : depth ≤ 1) {c : Contract} (hc : c.Documentable) :
    (contractToJson c).Readable o depth ↔ c.Textual ∧ c.body.NumbersFit := by
  refine ⟨fun hread => ?_, fun hfit => readable_contractToJson ho h hfit.1 hfit.2⟩
  have hname : maxNameBytes ≤ maxStringBytes := by decide
  have hw := contractToJson_written c
  have hwb := contractBodyToJson_written c.body
  have hbody := hread.find hw.body
  have hrequirement : ∀ r ∈ c.body.requirements, (requirementToJson r).Readable o (depth + 1 + 1 + 1) := fun r hr =>
    (hbody.find hwb.requirements).items (List.mem_map_of_mem hr)
  constructor
  · refine ⟨.of_find (hbody.find hwb.workload) (workloadToJson_written c.body.workload).name
      (hc.body.workload.name.trans hname), .of_find hbody hwb.description hc.body.description, fun s hs => ?_,
      fun r hr => Requirement.textual_of_readable (hc.body.requirements.2 r hr) (hrequirement r hr), ?_,
      hc.envelope.signature⟩
    · have hscope := (hbody.find hwb.scopes).items (List.mem_map_of_mem hs)
      have hs' := hc.body.scopes.2 s hs
      exact ⟨.of_find hscope (scopeToJson_written s).name (hs'.name.trans hname),
        .of_find_optional hscope (scopeToJson_written s).parent (hs'.parent.trans hname)⟩
    · exact .of_find (hread.find hw.envelope) (envelopeToJson_written c.envelope).keyId
        (hc.envelope.keyId.trans (by decide))
  · intro r hr hn
    have hwr := requirementToJson_written r
    have htarget := hwr.target
    have hminimum := hwr.minimum
    rw [if_pos hn] at htarget hminimum
    exact ⟨(Json.readable_ofReal_iff.1 ((hrequirement r hr).find htarget)).2,
      (Json.readable_ofReal_iff.1 ((hrequirement r hr).find hminimum)).2⟩

end Readable

/-! ## Contracts that a record gives back -/

/-- A contract whose document is read, and decoded to the contract as it documents it. -/
structure Contract.Recordable (c : Contract) : Prop where
  documentable : c.Documentable
  textual : c.Textual
  numbers : c.body.NumbersFit

theorem contract_recordable_iff {o : JsonDecodeOptions} (ho : o.Roomy) {depth : Nat} (h : depth ≤ 1) {c v : Contract} :
    (contractToJson c).Readable o depth ∧ contractFromJson (contractToJson c) = .ok v ↔
      v = c.documented ∧ c.Recordable := by
  rw [contractFromJson_iff]
  constructor
  · rintro ⟨hread, rfl, hd⟩
    obtain ⟨ht, hn⟩ := (readable_contractToJson_iff ho h hd).1 hread
    exact ⟨rfl, hd, ht, hn⟩
  · rintro ⟨rfl, hd, ht, hn⟩
    exact ⟨(readable_contractToJson_iff ho h hd).2 ⟨ht, hn⟩, rfl, hd⟩

/-- A contract that was decoded: what a peer submits is, and what an open finds in its journal. -/
def Contract.WasDecoded (c : Contract) : Prop :=
  ∃ (value : Json) (o : JsonDecodeOptions) (depth : Nat), value.Decoded o depth ∧ contractFromJson value = .ok c

/-- What a document is decoded to has a document within the bounds of the decoder, its body as it documents it. -/
theorem contractFromJson_documentable {value : Json} {c : Contract} (hvalue : value.Constructed)
    (h : contractFromJson value = .ok c) :
    c.Documentable ∧ c.body = c.body.documented ∧ c.digest = bodyDigest c.body := by
  unfold contractFromJson at h
  rw [bind_eq_ok] at h
  obtain ⟨_, -, h⟩ := h
  split at h
  · rename_i members hfind
    simp only [bind_eq_ok] at h
    obtain ⟨body, h₁, envelope, h₂, supersedes, h₃, supersedesDigest, -, digest, h₅, h⟩ := h
    cases h
    obtain ⟨hbody, hfits⟩ := decodeBody_iff.1 (decodeBody_again (hvalue.find hfind) h₁)
    have hdigest := checkDigest_ok h₅
    have henvelope : envelope.Readable := by
      unfold decodeOptional at h₂
      split at h₂
      · cases h₂
        exact ⟨by decide, by decide, by decide⟩
      · exact decodeEnvelope_readable h₂
    exact ⟨⟨hfits, henvelope, (readUint_bounds h₃).1, .inr hdigest⟩, hbody, hdigest⟩
  · cases h

/-- Of a contract that was decoded, only the texts of the numbers can fail to fit. -/
theorem Contract.WasDecoded.recordable_iff {c : Contract} (h : c.WasDecoded) : c.Recordable ↔ c.body.NumbersFit := by
  obtain ⟨value, o, depth, hvalue, hc⟩ := h
  exact ⟨Contract.Recordable.numbers, fun hn =>
    ⟨(contractFromJson_documentable hvalue.constructed hc).1, contractFromJson_textual hvalue hc, hn⟩⟩

/-- A valid contract that was decoded is as it documents itself. -/
theorem Contract.WasDecoded.documented_eq {c : Contract} (h : c.WasDecoded) (hvalid : (validateContract c).ok = true) :
    c.documented = c := by
  obtain ⟨value, o, depth, hvalue, hc⟩ := h
  obtain ⟨-, hbody, hdigest⟩ := contractFromJson_documentable hvalue.constructed hc
  have hsupersedes : (if c.hasSupersedes then c.supersedesDigest else .zero) = c.supersedesDigest := by
    split
    · rfl
    · rename_i hnone
      exact (supersedesDigest_of_valid hvalid (Bool.eq_false_iff.2 hnone)).symm
  unfold Contract.documented
  rw [hsupersedes, ← hbody, ← hdigest]

end Wnc
