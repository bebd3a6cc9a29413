/-
Contract documents round-trip: a contract that was decoded and is valid is decoded again from its own document, in
every field. What a reader took it takes again from the document of what it made of it, and every member that the
document leaves out is read as the value it was left out for.
-/
import Wnc.Contract.Publishing

namespace Wnc

open Lib

/-! ## Readers -/

section Readers

variable {object document : Json} {field : String} {path path' : Bytes}

theorem readString_length {maxBytes : Nat} {required : Bool} {s : Bytes}
    (h : readString object field path maxBytes required [] = .ok s) : s.length ≤ maxBytes := by
  unfold readString at h
  split at h
  · split at h
    · cases h
    · cases h
      exact Nat.zero_le _
  · split at h
    · cases h
    · rename_i hfits
      cases h
      exact not_lt.1 hfits
  · cases h

theorem readString_again {maxBytes : Nat} {required required' : Bool} {s out : Bytes}
    (h : readString object field path maxBytes required [] = .ok s)
    (hf : document.find (utf8 field) = some (.string s)) :
    readString document field path' maxBytes required' out = .ok s := readString_written (readString_length h) hf

/-- An empty string is left out, and is what is read where there is none. -/
theorem readString_again_optional {maxBytes : Nat} {s : Bytes}
    (h : readString object field path maxBytes false [] = .ok s)
    (hf : document.find (utf8 field) = if s ≠ [] then some (.string s) else none) :
    readString document field path' maxBytes false [] = .ok s := by
  by_cases hs : s = []
  · rw [if_neg (not_not.2 hs)] at hf
    unfold readString
    rw [hf, hs]
    rfl
  · rw [if_pos hs] at hf
    exact readString_again h hf

/-- A number that is read is one that is not negative when it is signed, and is within the bound. -/
theorem readUint_bounds {maximum : Nat} {required : Bool} {n : UInt64}
    (h : readUint object field path maximum required 0 = .ok n) : ¬n.toInt64 < 0 ∧ n.toNat ≤ maximum := by
  unfold readUint at h
  split at h
  · split at h
    · cases h
    · cases h
      exact ⟨by decide, Nat.zero_le _⟩
  · split at h
    · cases h
    · rename_i hrange
      cases h
      rw [not_or, not_lt] at hrange
      refine ⟨?_, hrange.2⟩
      rw [Int64.toInt64_toUInt64]
      exact hrange.1
  · cases h

theorem readUint_written {maximum : Nat} {required : Bool} {n out : UInt64} (hn : ¬n.toInt64 < 0 ∧ n.toNat ≤ maximum)
    (hf : document.find (utf8 field) = some (jsonUint n)) : readUint document field path maximum required out = .ok n := by
  unfold readUint
  rw [hf, jsonUint]
  simp only [toUInt64_jsonUint]
  exact if_neg (not_or.2 ⟨hn.1, not_lt.2 hn.2⟩)

theorem readUint_again {maximum : Nat} {required required' : Bool} {n out : UInt64}
    (h : readUint object field path maximum required 0 = .ok n) (hf : document.find (utf8 field) = some (jsonUint n)) :
    readUint document field path' maximum required' out = .ok n := readUint_written (readUint_bounds h) hf

/-- A number that is kept in 32 bits is the one that was read when its bound fits. -/
theorem toUInt64_readUint {maximum : Nat} {required : Bool} {n : UInt64} (hmax : maximum < 2 ^ 32)
    (h : readUint object field path maximum required 0 = .ok n) : n.toUInt32.toUInt64 = n := by
  have hbound := (readUint_bounds h).2
  refine UInt64.toNat_inj.1 ?_
  rw [UInt32.toNat_toUInt64, UInt64.toNat_toUInt32, Nat.mod_eq_of_lt (by omega)]

theorem readToken_again {α : Type} {parse : Bytes → Option α} {token : Bytes} {a : α} {undefined : Failure}
    (hparse : parse token = some a) (hf : document.find (utf8 field) = some (.string token)) :
    readToken parse document field path undefined = .ok a := by
  unfold readToken
  rw [hf]
  simp only [hparse]

theorem lowerHexDigit_lower : ∀ v : Fin 16, ((48 ≤ lowerHexDigit v && lowerHexDigit v ≤ 57) ||
    (97 ≤ lowerHexDigit v && lowerHexDigit v ≤ 102)) = true := by decide

/-- The text of an identity is one that is read. -/
theorem readId_view {tag : Tag} {id : Id tag} (hf : document.find (utf8 field) = some (.string id.view)) :
    readId document field path = .ok id.view := by
  have hlower : (id.view.all fun c => (48 ≤ c && c ≤ 57) || (97 ≤ c && c ≤ 102)) = true := by
    rw [Id.view, List.all_map, List.all_eq_true]
    exact fun v _ => lowerHexDigit_lower v
  unfold readId
  rw [hf]
  simp only
  rw [if_neg (not_not.2 (show id.view.length = sha256HexChars from Id.length_view id)), hlower]
  rfl

/-- A declared number is what is read of its own document. -/
theorem readReal_again {maximum : Nat} {d : Double} (h : readReal object field path maximum = .ok (some d)) (hd : d.Declared)
    (hf : document.find (utf8 field) = some (.ofReal d)) : readReal document field path' maximum = .ok (some d) := by
  rw [ofReal_declared hd] at hf
  unfold readReal at h ⊢
  rw [hf]
  split at h
  · cases h
  · split at h
    · cases h
    · split at h
      · cases h
      · rename_i hrange
        cases h
        exact if_neg hrange

theorem readReal_absent {maximum : Nat} (hf : document.find (utf8 field) = none) :
    readReal document field path maximum = .ok none := by
  unfold readReal
  rw [hf]

/-- A list that is decoded is as long as its array. -/
theorem length_decodeEach {α : Type} {decode : Json → Nat → Except Failure α} : ∀ {items : List Json} {index : Nat} {vs : List α},
    decodeEach decode items index = .ok vs → vs.length = items.length
  | [], _, _, h => by cases h; rfl
  | item :: items, index, vs, h => by
    rw [decodeEach] at h
    simp only [bind_eq_ok] at h
    obtain ⟨v, -, vs', hvs, hout⟩ := h
    cases hout
    rw [List.length_cons, List.length_cons, length_decodeEach hvs]

theorem decodeEach_again {α : Type} {decode : Json → Nat → Except Failure α} {f : α → Json} :
    ∀ {items : List Json} {index : Nat} {vs : List α},
      (∀ item ∈ items, ∀ i v, decode item i = .ok v → decode (f v) i = .ok v) →
      decodeEach decode items index = .ok vs → decodeEach decode (vs.map f) index = .ok vs
  | [], _, _, _, h => by cases h; rfl
  | item :: items, index, vs, hall, h => by
    rw [decodeEach] at h
    simp only [bind_eq_ok] at h
    obtain ⟨v, hv, vs', hvs, hout⟩ := h
    cases hout
    rw [List.map_cons, decodeEach]
    simp only [bind_eq_ok]
    exact ⟨v, hall item List.mem_cons_self index v hv, vs',
      decodeEach_again (fun item' h' => hall item' (List.mem_cons_of_mem _ h')) hvs, rfl⟩

theorem decodeBounded_again {α : Type} {bound : Nat} {missing exceeded : String} {code : Code}
    {decode : Json → Nat → Except Failure α} {f : α → Json} {vs : List α}
    (h : decodeBounded object field bound missing code exceeded decode = .ok vs)
    (hall : ∀ items, (object.find (utf8 field)).bind Json.items? = some items → ∀ item ∈ items, ∀ i v,
      decode item i = .ok v → decode (f v) i = .ok v)
    (hf : document.find (utf8 field) = some (.array (vs.map f))) :
    decodeBounded document field bound missing code exceeded decode = .ok vs ∧ vs.length ≤ bound := by
  unfold decodeBounded at h
  split at h
  · cases h
  · rename_i items hitems
    simp only [bind_eq_ok, require_eq_ok, decide_eq_true_eq] at h
    obtain ⟨_, hbound, h⟩ := h
    have hlen := length_decodeEach h
    refine ⟨?_, hlen ▸ hbound⟩
    unfold decodeBounded
    rw [hf]
    simp only [Option.bind_some, Json.items?, List.length_map, bind_eq_ok, require_eq_ok, decide_eq_true_eq]
    exact ⟨(), hlen ▸ hbound, decodeEach_again (hall items hitems) h⟩

/-- A list that is left out when it is empty. -/
theorem decodeOptional_again {α : Type} {vs : List α} {decode : Json → Except Failure (List α)} {toJson : List α → Json}
    (h : decodeOptional object field [] decode = .ok vs)
    (hdecode : ∀ value, object.find (utf8 field) = some value → decode value = .ok vs → decode (toJson vs) = .ok vs)
    (hf : document.find (utf8 field) = if vs ≠ [] then some (toJson vs) else none) :
    decodeOptional document field [] decode = .ok vs := by
  by_cases hvs : vs = []
  · rw [if_neg (not_not.2 hvs)] at hf
    unfold decodeOptional
    rw [hf, hvs]
  · rw [if_pos hvs] at hf
    unfold decodeOptional at h ⊢
    rw [hf]
    split at h
    · cases h
      exact absurd rfl hvs
    · rename_i value hfind
      exact hdecode value hfind h

end Readers

/-! ## Requirements and scopes -/

theorem Json.isObject_put (value member : Json) (key : String) : (value.put key member).isObject = true := by
  cases value <;> rfl

theorem decodeMembers_again {value : Json} {path : Bytes} {members : List RequirementId}
    (h : decodeMembers value path = .ok members) : decodeMembers (membersToJson members) path = .ok members := by
  unfold decodeMembers at h
  split at h
  · cases h
  · simp only [bind_eq_ok, require_eq_ok, decide_eq_true_eq] at h
    obtain ⟨_, hbound, h⟩ := h
    exact decodeMembers_of_fits (length_decodeEach h ▸ hbound) path

theorem decodeAttributes_again {value : Json} {path : Bytes} {attributes : List (Bytes × Bytes)}
    (h : decodeAttributes value path = .ok attributes) :
    decodeAttributes (attributesToJson attributes) path = .ok attributes := by
  unfold decodeAttributes at h
  split at h
  · cases h
  · simp only [bind_eq_ok, require_eq_ok, decide_eq_true_eq] at h
    obtain ⟨_, hbound, h⟩ := h
    refine decodeAttributes_of_fits (length_decodeEach h ▸ hbound) (decodeEach_all (fun item _ _ a ha => ?_) h) path
    simp only [bind_eq_ok, require_eq_ok, decide_eq_true_eq] at ha
    obtain ⟨_, -, name, hname, text, htext, _, hne, ha⟩ := ha
    cases ha
    exact ⟨hne, readString_length hname, readString_length htext⟩

/-- Bounds that are declared are decoded from a document that has them, and none from one that has none. -/
theorem decodeBounds_again {value document : Json} {path : Bytes} {kind : RequirementKind}
    {bounds : Option (Double × Double)} (hvalue : value.Constructed) (h : decodeBounds value path kind = .ok bounds)
    (htarget : document.find (utf8 "target") = bounds.map fun b => .ofReal b.1)
    (hminimum : document.find (utf8 "minimum") = bounds.map fun b => .ofReal b.2) :
    decodeBounds document path kind = .ok bounds := by
  cases bounds with
  | none =>
    unfold decodeBounds
    rw [readReal_absent htarget, readReal_absent hminimum]
    rfl
  | some bounds =>
    obtain ⟨target, minimum⟩ := bounds
    obtain ⟨hdt, hdm⟩ := decodeBounds_declared hvalue h
    unfold decodeBounds at h
    simp only [bind_eq_ok] at h
    obtain ⟨target', ht, minimum', hm, h⟩ := h
    cases target' with
    | none => cases minimum' <;> cases h
    | some t =>
      cases minimum' with
      | none => cases h
      | some m =>
        simp only [bind_eq_ok] at h
        obtain ⟨_, horder, h⟩ := h
        cases h
        unfold decodeBounds
        rw [readReal_again ht hdt htarget, readReal_again hm hdm hminimum]
        exact bind_eq_ok.2 ⟨some target, rfl, bind_eq_ok.2 ⟨some minimum, rfl, bind_eq_ok.2 ⟨(), horder, rfl⟩⟩⟩

theorem requirementToJson_bounds {r : Requirement} {bounds : Option (Double × Double)}
    (hr : r.hasNumeric = bounds.isSome ∧ r.target = (bounds.map Prod.fst).getD .zero ∧
      r.minimum = (bounds.map Prod.snd).getD .zero) :
    (requirementToJson r).find (utf8 "target") = bounds.map (fun b => .ofReal b.1) ∧
      (requirementToJson r).find (utf8 "minimum") = bounds.map fun b => .ofReal b.2 := by
  have hw := requirementToJson_written r
  rw [hw.target, hw.minimum, hr.1, hr.2.1, hr.2.2]
  cases bounds <;> exact ⟨rfl, rfl⟩

theorem decodeRequirement_again {value : Json} {index : Nat} {r : Requirement} (hvalue : value.Constructed)
    (h : decodeRequirement value index = .ok r) : decodeRequirement (requirementToJson r) index = .ok r := by
  have hw := requirementToJson_written r
  unfold decodeRequirement at h ⊢
  simp only [bind_eq_ok] at h ⊢
  obtain ⟨_, -, scope, h₁, kind, h₂, strength, h₃, key, h₄, text, h₅, preferred, h₆, bounds, h₇, members, h₈,
    attributes, h₉, id, h₁₀, h⟩ := h
  have hbounds : r.hasNumeric = bounds.isSome ∧ r.target = (bounds.map Prod.fst).getD .zero ∧
      r.minimum = (bounds.map Prod.snd).getD .zero := by
    cases h
    exact ⟨rfl, rfl, rfl⟩
  obtain ⟨htarget, hminimum⟩ := requirementToJson_bounds hbounds
  cases h
  refine ⟨(), require_eq_ok.2 (Json.isObject_put _ _ _), scope, readString_again h₁ hw.scope,
    kind, readToken_again (parseRequirementKind_token kind) hw.kind,
    strength, readToken_again (parseRequirementStrength_token strength) hw.strength, key, readString_again h₄ hw.key,
    text, readString_again_optional h₅ hw.value, preferred, readString_again_optional h₆ hw.preferredValue,
    bounds, decodeBounds_again hvalue h₇ htarget hminimum,
    members, decodeOptional_again h₈ (fun _ _ => decodeMembers_again) hw.members,
    attributes, decodeOptional_again h₉ (fun _ _ => decodeAttributes_again) hw.attributes, id, ?_, rfl⟩
  unfold decodeOptional
  rw [hw.id]
  simp only [decodeRequirementId, Id.parse_view]

theorem isObject_scopeToJson (s : Scope) : (scopeToJson s).isObject = true := by
  unfold scopeToJson
  simp only
  split <;> split <;> rfl

theorem decodeScope_again {value : Json} {index : Nat} {s : Scope} (h : decodeScope value index = .ok s) :
    decodeScope (scopeToJson s) index = .ok s := by
  have hw := scopeToJson_written s
  unfold decodeScope at h ⊢
  simp only [bind_eq_ok] at h ⊢
  obtain ⟨_, -, name, h₁, _, hne, parent, h₂, rank, h₃, h⟩ := h
  cases h
  refine ⟨(), require_eq_ok.2 (isObject_scopeToJson _), name, readString_again h₁ hw.name, (), hne,
    parent, readString_again_optional h₂ hw.parent, ?_⟩
  have hrank := hw.rank
  simp only [toUInt64_readUint (by decide) h₃] at hrank
  cases hfind : value.find (utf8 "rank") with
  | none =>
    rw [hfind] at hrank hw
    unfold readUint at h₃ ⊢
    rw [hfind] at h₃
    rw [hrank]
    cases h₃
    exact ⟨0, rfl, rfl⟩
  | some v =>
    rw [hfind] at hrank
    simp only [Option.isSome_some, if_true] at hrank ⊢
    exact ⟨rank, readUint_again h₃ hrank, by rw [hrank]; rfl⟩

/-! ## Envelopes and contracts -/

/-- An envelope as it is decoded, or as it is where there is none. -/
structure ContractEnvelope.Readable (e : ContractEnvelope) : Prop where
  keyId : e.keyId.length ≤ sha256HexChars
  issuedMillis : ¬e.issuedMillis.toInt64 < 0 ∧ e.issuedMillis.toNat ≤ maxUint64
  signature : e.signature.length ≤ 1024

theorem decodeEnvelope_readable {value : Json} {e : ContractEnvelope} (h : decodeEnvelope value = .ok e) : e.Readable := by
  unfold decodeEnvelope at h
  simp only [bind_eq_ok] at h
  obtain ⟨_, -, text, -, h⟩ := h
  split at h
  · obtain ⟨_, hnone, -⟩ := bind_eq_ok.1 h
    cases hnone
  · simp only [bind_eq_ok] at h
    obtain ⟨publisher, -, algorithm, -, keyId, h₁, issued, h₂, signature, h₃, h⟩ := h
    cases h
    refine ⟨readString_length h₁, readUint_bounds h₂, ?_⟩
    unfold decodeOptional at h₃
    split at h₃
    · cases h₃
      exact Nat.zero_le _
    · unfold decodeSignature at h₃
      split at h₃
      · split at h₃
        · cases h₃
        · rename_i hdecode
          cases h₃
          exact length_base64UrlDecode hdecode
      · cases h₃

theorem isObject_envelopeToJson (e : ContractEnvelope) : (envelopeToJson e).isObject = true := by
  unfold envelopeToJson
  simp only
  split <;> exact Json.isObject_put _ _ _

theorem decodeEnvelope_written {e : ContractEnvelope} (h : e.Readable) : decodeEnvelope (envelopeToJson e) = .ok e := by
  have hw := envelopeToJson_written e
  have hsignature : decodeOptional (envelopeToJson e) "signature" [] decodeSignature = .ok e.signature := by
    unfold decodeOptional
    rw [hw.signature]
    by_cases hs : e.signature = []
    · rw [if_neg (not_not.2 hs), hs]
    · rw [if_pos hs]
      simp only [decodeSignature, base64UrlDecode_encode (by decide) h.signature]
  unfold decodeEnvelope
  simp only [bind_eq_ok]
  refine ⟨(), require_eq_ok.2 (isObject_envelopeToJson e), e.publisher.view, readId_view hw.publisher, ?_⟩
  rw [Id.parse_view]
  simp only [bind_eq_ok]
  exact ⟨e.publisher, rfl, e.algorithm, readToken_again (parseSignatureAlgorithm_token e.algorithm) hw.algorithm, e.keyId,
    readString_written h.keyId hw.keyId, e.issuedMillis, readUint_written h.issuedMillis hw.issuedMillis, e.signature,
    hsignature, rfl⟩

theorem decodeWorkload_again {body document : Json} {w : Workload} (h : decodeWorkload body = .ok w)
    (hf : document.find (utf8 "workload") = some (workloadToJson w)) : decodeWorkload document = .ok w := by
  have hw := workloadToJson_written w
  obtain ⟨members, hmembers⟩ : ∃ members, workloadToJson w = .object members := ⟨_, rfl⟩
  rw [hmembers] at hf hw
  unfold decodeWorkload at h
  split at h
  · simp only [bind_eq_ok] at h
    obtain ⟨text, -, h⟩ := h
    split at h
    · obtain ⟨_, hnone, -⟩ := bind_eq_ok.1 h
      cases hnone
    · rename_i id hparse
      split at h
      · obtain ⟨_, hzero, -⟩ := bind_eq_ok.1 h
        cases hzero
      · rename_i hzero
        simp only [bind_eq_ok] at h
        obtain ⟨id', h₂, name, h₃, generation, h₄, h⟩ := h
        cases h₂
        cases h
        unfold decodeWorkload
        rw [hf]
        simp only [bind_eq_ok]
        refine ⟨_, readId_view hw.id, ?_⟩
        rw [Id.parse_view]
        simp only [if_neg hzero, bind_eq_ok]
        exact ⟨id, rfl, name, readString_again h₃ hw.name, generation, readUint_again h₄ hw.generation, rfl⟩
  · cases h

/-- A number of 32 bits is not negative when it is signed. -/
theorem toInt64_toUInt64_nonneg (n : UInt32) : ¬n.toUInt64.toInt64 < 0 := by
  have hlt := n.toNat_lt
  have hsigned : n.toUInt64.toInt64.toInt = n.toUInt64.toBitVec.toInt := rfl
  rw [Int64.lt_iff_toInt_lt, hsigned, BitVec.toInt_eq_toNat_of_lt (by simp; omega)]
  simp

theorem decodeVersion_bounds {body : Json} {v : UInt32 × UInt32 × UInt32} (h : decodeVersion body = .ok v) :
    v.1.toNat ≤ 1000000 ∧ v.2.1.toNat ≤ 1000000 ∧ v.2.2.toNat ≤ 1000000 := by
  unfold decodeVersion at h
  split at h
  · cases h
    decide
  · simp only [bind_eq_ok] at h
    obtain ⟨major, h₁, minor, h₂, patch, h₃, h⟩ := h
    cases h
    have hsmall : ∀ n : UInt64, n.toUInt32.toNat ≤ n.toNat := fun n => by
      rw [UInt64.toNat_toUInt32]
      exact Nat.mod_le _ _
    exact ⟨(hsmall _).trans (readUint_bounds h₁).2, (hsmall _).trans (readUint_bounds h₂).2,
      (hsmall _).trans (readUint_bounds h₃).2⟩
  · cases h

theorem decodeVersion_again {body document : Json} {b : ContractBody} {members : List (Bytes × Json)}
    (h : decodeVersion body = .ok (b.major, b.minor, b.patch))
    (hf : document.find (utf8 "version") = some (.object members)) (hw : b.VersionWritten (.object members)) :
    decodeVersion document = .ok (b.major, b.minor, b.patch) := by
  obtain ⟨hmajor, hminor, hpatch⟩ := decodeVersion_bounds h
  have hbounds : ∀ n : UInt32, n.toNat ≤ 1000000 → ¬n.toUInt64.toInt64 < 0 ∧ n.toUInt64.toNat ≤ 1000000 := fun n hn =>
    ⟨toInt64_toUInt64_nonneg n, by rwa [UInt32.toNat_toUInt64]⟩
  unfold decodeVersion
  rw [hf]
  simp only [bind_eq_ok]
  exact ⟨_, readUint_written (hbounds _ hmajor) hw.major, _, readUint_written (hbounds _ hminor) hw.minor, _,
    readUint_written (hbounds _ hpatch) hw.patch, by simp⟩

theorem decodeContractId_again {document : Json} {id : ContractId}
    (hf : document.find (utf8 "contract_id") = some (.string id.view)) : decodeContractId document = .ok id := by
  unfold decodeContractId
  simp only [bind_eq_ok]
  exact ⟨_, readId_view hf, by rw [Id.parse_view]⟩

theorem checkDeclared_written {document : Json} {field message : String} {bound : Nat} {code : Code} {items : List Json}
    (hf : document.find (utf8 field) = some (.array items)) (hlen : items.length ≤ bound) :
    checkDeclared document field bound code message = .ok () := by
  unfold checkDeclared
  rw [hf]
  exact require_eq_ok.2 (decide_eq_true hlen)

theorem decodeBody_again {value : Json} {b : ContractBody} (hvalue : value.Constructed) (h : decodeBody value = .ok b) :
    decodeBody (contractBodyToJson b) = .ok b := by
  have hw := contractBodyToJson_written b
  unfold decodeBody at h
  simp only [bind_eq_ok] at h
  obtain ⟨version, h₁, _, hsupported, _, -, _, -, workload, h₂, id, h₃, generation, h₄, policy, h₅, ⟨major, minor, patch⟩,
    h₆, description, h₇, scopes, h₈, requirements, h₉, h⟩ := h
  cases h
  have hversion := hw.schemaVersion
  simp only [toUInt64_readUint (by decide) h₁] at hversion
  obtain ⟨members, hfind, hversions⟩ := hw.version
  obtain ⟨hscopes, hscopesBound⟩ := decodeBounded_again h₈ (fun _ _ _ _ _ _ => decodeScope_again) hw.scopes
  obtain ⟨hrequirements, hrequirementsBound⟩ := decodeBounded_again h₉ (fun items hitems item hitem _ _ hr => by
    obtain ⟨array, harray, hitems⟩ := Option.bind_eq_some_iff.1 hitems
    exact decodeRequirement_again ((hvalue.find harray).items hitems item hitem) hr) hw.requirements
  unfold decodeBody
  simp only [bind_eq_ok]
  exact ⟨version, readUint_again h₁ hversion, (), hsupported,
    (), checkDeclared_written hw.scopes (by rw [List.length_map]; exact hscopesBound),
    (), checkDeclared_written hw.requirements (by rw [List.length_map]; exact hrequirementsBound),
    workload, decodeWorkload_again h₂ hw.workload, id, decodeContractId_again hw.contractId,
    generation, readUint_again h₄ hw.generation, policy, readUint_again h₅ hw.policyGeneration,
    (major, minor, patch), decodeVersion_again h₆ hfind hversions, description, readString_again h₇ hw.description,
    scopes, hscopes, requirements, hrequirements, rfl⟩

theorem checkDigest_ok {value : Json} {b : ContractBody} {d : Digest} (h : checkDigest value b = .ok d) : d = bodyDigest b := by
  unfold checkDigest decodeOptional at h
  split at h
  · cases h
    rfl
  · simp only [bind_eq_ok] at h
    obtain ⟨_, -, _, -, h⟩ := h
    cases h
    rfl

theorem checkDigest_written {document : Json} {b : ContractBody}
    (hf : document.find (utf8 "digest") = some (.string (bodyDigest b).hex)) : checkDigest document b = .ok (bodyDigest b) := by
  unfold checkDigest decodeOptional
  rw [hf]
  simp only [decodeDigest, hexDecodeDigest_hex, bind_eq_ok]
  exact ⟨_, rfl, (), require_eq_ok.2 (decide_eq_true (.inr rfl)), trivial⟩

/-- A valid contract that supersedes none has no digest of one. -/
theorem supersedesDigest_of_valid {c : Contract} (h : (validateContract c).ok = true) (hnone : c.hasSupersedes = false) :
    c.supersedesDigest = .zero := by
  have hd := validateContract_ok.1 h
  unfold contractDiagnostics at hd
  rw [hnone] at hd
  simp only [List.append_eq_nil_iff, Bool.false_eq_true, if_false, diagnose_eq_nil, bne_eq_false_iff_eq] at hd
  exact hd.2

/-- A contract that is decoded and valid is decoded from its own document. -/
theorem contract_roundTrip {v : Json} {c : Contract} (hv : v.Constructed) (h : contractFromJson v = .ok c)
    (hvalid : (validateContract c).ok = true) : contractFromJson (contractToJson c) = .ok c := by
  have hw := contractToJson_written c
  have hsupersedesDigest := supersedesDigest_of_valid hvalid
  obtain ⟨members, hmembers⟩ : ∃ members, contractBodyToJson c.body = .object members := ⟨_, rfl⟩
  have hbody := hw.body
  rw [hmembers] at hbody
  unfold contractFromJson at h
  rw [bind_eq_ok] at h
  obtain ⟨_, -, h⟩ := h
  split at h
  · rename_i members' hfind
    simp only [bind_eq_ok] at h
    obtain ⟨body, h₁, envelope, h₂, supersedes, h₃, supersedesDigest, h₄, digest, h₅, h⟩ := h
    cases h
    obtain rfl := checkDigest_ok h₅
    have henvelope : envelope.Readable := by
      unfold decodeOptional at h₂
      split at h₂
      · cases h₂
        exact ⟨by decide, by decide, by decide⟩
      · exact decodeEnvelope_readable h₂
    unfold contractFromJson
    rw [hbody]
    simp only [bind_eq_ok]
    refine ⟨(), require_eq_ok.2 (Json.isObject_put _ _ _), body, hmembers ▸ decodeBody_again (hv.find hfind) h₁,
      envelope, ?_, supersedes, ?_, supersedesDigest, ?_, _, checkDigest_written hw.digest, rfl⟩
    · unfold decodeOptional
      rw [hw.envelope]
      exact decodeEnvelope_written henvelope
    · -- a contract that supersedes none leaves the members out
      have hsupersedes := hw.supersedes
      by_cases hs : supersedes = 0
      · rw [if_neg (by rw [Contract.hasSupersedes, bne_iff_ne]; exact not_not.2 hs)] at hsupersedes
        unfold readUint
        rw [hsupersedes, hs]
        rfl
      · rw [if_pos (by rw [Contract.hasSupersedes, bne_iff_ne]; exact hs)] at hsupersedes
        exact readUint_again h₃ hsupersedes
    · unfold decodeOptional
      rw [hw.supersedesDigest]
      split
      · rename_i hnone
        split at hnone
        · cases hnone
        · rename_i hs
          exact congrArg Except.ok (hsupersedesDigest (Bool.eq_false_iff.2 hs)).symm
      · rename_i w hsome
        split at hsome
        · cases hsome
          simp only [decodeDigest, hexDecodeDigest_hex]
        · cases hsome
  · cases h

/-! ## The documents of contracts are constructed -/

theorem constructed_attributesToJson (attributes : List (Bytes × Bytes)) : (attributesToJson attributes).Constructed :=
  Json.constructed_array fun _ _ => .put (.put .null (.string _) _) (.string _) _

theorem constructed_membersToJson (members : List RequirementId) : (membersToJson members).Constructed :=
  Json.constructed_array fun m _ => .string m.view

theorem constructed_requirementToJson {r : Requirement} (hr : r.Declared) : (requirementToJson r).Constructed := by
  have htarget := Json.constructed_ofReal r.target hr.target.finite
  have hminimum := Json.constructed_ofReal r.minimum hr.minimum.finite
  unfold requirementToJson
  repeat' first
    | exact trivial
    | assumption
    | exact constructed_membersToJson _
    | exact constructed_attributesToJson _
    | apply Json.Constructed.put
    | apply Json.Constructed.ite

theorem constructed_scopeToJson (s : Scope) : (scopeToJson s).Constructed := by
  unfold scopeToJson
  repeat' first
    | exact trivial
    | apply Json.Constructed.put
    | apply Json.Constructed.ite

theorem constructed_contractBodyToJson {b : ContractBody} (hb : b.Declared) : (contractBodyToJson b).Constructed := by
  have hscopes : (Json.array (b.scopes.map scopeToJson)).Constructed :=
    Json.constructed_array fun s _ => constructed_scopeToJson s
  have hrequirements : (Json.array (b.requirements.map requirementToJson)).Constructed :=
    Json.constructed_array fun r hr => constructed_requirementToJson (hb.requirements r hr)
  unfold contractBodyToJson workloadToJson
  repeat' first
    | exact trivial
    | assumption
    | apply Json.Constructed.put

/-- A document of a body alone, which leaves the digest and the envelope to the decoder. -/
def bodyDocument (b : ContractBody) : Json := Json.null.put "body" (contractBodyToJson b)

theorem declared_singleContract : (canonicalize singleContract).body.Declared := by
  refine canonicalize_declared ⟨fun s hs _ => ?_, fun r hr => ?_⟩
  · rw [List.mem_singleton.1 hs]
  · rw [List.mem_singleton.1 hr]
    exact ⟨declared_zero, declared_zero, fun _ => ⟨rfl, rfl⟩⟩

theorem valid_singleContract : (validateContract (canonicalize singleContract)).ok = true := by
  rw [validateContract_ok]
  refine contractDiagnostics_canonicalize (validateBody_canonicalize (onlyIdentities_of_nil validateBody_singleContract)
    soundDigests_singleContract (List.nodup_singleton _)) ?_ (.inl ⟨rfl, rfl⟩)
  rw [contractId_canonicalize]
  exact Id.isZero_fromDigest soundDigests_singleContract.contract

set_option maxRecDepth 100000 in
theorem contract_roundTrip_single :
    contractFromJson (contractToJson (canonicalize singleContract)) = .ok (canonicalize singleContract) := by
  have hdecoded : (contractFromJson (bodyDocument (canonicalize singleContract).body)).toOption =
      some (canonicalize singleContract) := by decide +kernel
  have hvalid := valid_singleContract
  have hdeclared := declared_singleContract
  generalize canonicalize singleContract = c at hdecoded hvalid hdeclared ⊢
  have h : contractFromJson (bodyDocument c.body) = .ok c := by
    cases h : contractFromJson (bodyDocument c.body) with
    | error f => rw [h] at hdecoded; cases hdecoded
    | ok d => rw [h] at hdecoded; cases hdecoded; rfl
  exact contract_roundTrip (Json.Constructed.null.put (constructed_contractBodyToJson hdeclared) _) h hvalid

end Wnc
