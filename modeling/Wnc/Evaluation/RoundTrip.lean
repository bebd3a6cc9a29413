/-
Evidence documents round-trip exactly when the candidate of every entry has a field: a candidate without one is
decoded from an empty object, is written as `null`, and is not decoded from that. All else that is decoded is decoded
again from its own document, the derived identity included.
-/
import Wnc.Contract.RoundTrip
import Wnc.Evaluation.Evidence

namespace Wnc

open Lib

/-! ## Documents -/

theorem find_addOptional (object : Json) (field field' : String) (value : Option Json) :
    (addOptional object field value).find (utf8 field') =
      if field = field' then value.or (object.find (utf8 field')) else object.find (utf8 field') := by
  cases value with
  | none => simp [addOptional]
  | some value => simp [addOptional, Json.find_put]

theorem isObject_addOptional (object : Json) (field : String) (value : Option Json) :
    (addOptional object field value).isObject = (object.isObject || value.isSome) := by
  cases value with
  | none => simp [addOptional]
  | some value => simp [addOptional, Json.isObject_put]

/-- The members of the document of a candidate. -/
structure Candidate.Written (c : Candidate) (document : Json) : Prop where
  minBandwidth : document.find (utf8 "min_bandwidth") = c.minBandwidth.map .ofReal
  maxLatency : document.find (utf8 "max_latency") = c.maxLatency.map .ofReal
  maxJitter : document.find (utf8 "max_jitter") = c.maxJitter.map .ofReal
  maxLoss : document.find (utf8 "max_loss") = c.maxLoss.map .ofReal
  locality : document.find (utf8 "locality") = c.locality.map .string
  pathDiversity : document.find (utf8 "path_diversity") = c.pathDiversity.map .ofReal
  failureDomainSeparation : document.find (utf8 "failure_domain_separation") = c.failureDomainSeparation.map .ofReal
  securityClass : document.find (utf8 "security_class") = c.securityClass.map .string
  trafficPriority : document.find (utf8 "traffic_priority") = c.trafficPriority.map .ofReal
  burstAllowance : document.find (utf8 "burst_allowance") = c.burstAllowance.map .ofReal
  collectiveSupported : document.find (utf8 "collective_supported") = c.collectiveSupported.map .bool
  checkpointIsolation : document.find (utf8 "checkpoint_isolation") = c.checkpointIsolation.map .bool
  disaggregatedAffinity : document.find (utf8 "disaggregated_affinity") = c.disaggregatedAffinity.map .string
  maintenanceTolerance : document.find (utf8 "maintenance_tolerance") = c.maintenanceTolerance.map .string
  attributes : document.find (utf8 "attributes") = if c.attributes ≠ [] then some (attributesToJson c.attributes) else none

theorem candidateToJson_written (c : Candidate) : c.Written (candidateToJson c) := by
  constructor <;> simp [candidateToJson, find_addOptional, Json.find_put, find_ite, Json.find_null]

/-- The document of a candidate is an object exactly when something is set in it. -/
theorem isObject_candidateToJson (c : Candidate) : (candidateToJson c).isObject = c.hasAnyDimension := by
  have hnull : Json.null.isObject = false := rfl
  unfold candidateToJson Candidate.hasAnyDimension
  by_cases ha : c.attributes = []
  · simp only [ha, ne_eq, not_true_eq_false, if_false, isObject_addOptional, hnull, Option.isSome_map]
    simp [Bool.or_comm, Bool.or_left_comm]
  · simp only [ha, ne_eq, not_false_eq_true, if_true, Json.isObject_put]
    simp [ha]

/-- The members of the document of an entry. -/
structure EvidenceEntry.Written (entry : EvidenceEntry) (document : Json) : Prop where
  scope : document.find (utf8 "scope") = some (.string entry.scope)
  publisher : document.find (utf8 "publisher") = some (.string entry.publisher.view)
  generation : document.find (utf8 "generation") = some (jsonUint entry.generation)
  capturedBy : document.find (utf8 "captured_by") =
    if !entry.capturedBy.isZero then some (.string entry.capturedBy.str) else none
  epoch : document.find (utf8 "epoch") = some (jsonUint entry.epoch)
  producedAtMillis : document.find (utf8 "produced_at_millis") = some (jsonUint entry.producedAtMillis)
  freshness : document.find (utf8 "freshness") = some (.string (freshnessToken entry.freshness))
  candidate : document.find (utf8 "candidate") = some (candidateToJson entry.candidate)

theorem evidenceEntryToJson_written (entry : EvidenceEntry) : entry.Written (evidenceEntryToJson entry) := by
  constructor <;> simp [evidenceEntryToJson, Json.find_put, find_ite, Json.find_null]

/-- The members of the document of evidence. -/
structure EvidenceSet.Written (evidence : EvidenceSet) (document : Json) : Prop where
  evidenceId : document.find (utf8 "evidence_id") = some (.string evidence.evidenceId.view)
  generation : document.find (utf8 "evidence_generation") = some (jsonUint evidence.generation)
  epoch : document.find (utf8 "epoch") = some (jsonUint evidence.epoch)
  publisher : document.find (utf8 "publisher") = some (.string evidence.publisher.view)
  producedAtMillis : document.find (utf8 "produced_at_millis") = some (jsonUint evidence.producedAtMillis)
  entries : document.find (utf8 "entries") = some (.array (evidence.entries.map evidenceEntryToJson))

theorem evidenceToJson_written (evidence : EvidenceSet) : evidence.Written (evidenceToJson evidence) := by
  constructor <;> simp [evidenceToJson, Json.find_put]

/-! ## Readers of a candidate -/

section Readers

variable {object document : Json} {field : String}

theorem readOptionalReal_declared {d : Double} (hobject : object.Constructed)
    (h : readOptionalReal object field = .ok (some d)) : d.Declared := by
  unfold readOptionalReal at h
  split at h
  · cases h
  · rename_i value hfind
    split at h
    · cases h
    · rename_i raw hraw
      split at h
      · cases h
      · rename_i hrange
        cases h
        simp only [Bool.or_eq_true, Bool.not_eq_true', not_or, Bool.not_eq_false, Bool.not_eq_true] at hrange
        obtain ⟨⟨hfinite, hbelow⟩, hmax⟩ := hrange
        exact ⟨hfinite, hbelow, asReal_unsigned (hobject.find hfind) hraw, written_of_range hfinite hbelow hmax⟩

theorem readOptionalReal_again {number : Option Double} (hobject : object.Constructed)
    (h : readOptionalReal object field = .ok number) (hf : document.find (utf8 field) = number.map .ofReal) :
    readOptionalReal document field = .ok number := by
  cases number with
  | none =>
    unfold readOptionalReal
    rw [hf]
    rfl
  | some d =>
    rw [Option.map_some, ofReal_declared (readOptionalReal_declared hobject h)] at hf
    unfold readOptionalReal at h ⊢
    rw [hf]
    split at h
    · cases h
    · split at h
      · cases h
      · split at h
        · cases h
        · rename_i hrange
          cases h
          exact if_neg hrange

theorem readOptionalString_again {text : Option Bytes} (h : readOptionalString object field = .ok text)
    (hf : document.find (utf8 field) = text.map .string) : readOptionalString document field = .ok text := by
  cases text with
  | none =>
    unfold readOptionalString
    rw [hf]
    rfl
  | some s =>
    unfold readOptionalString at h ⊢
    rw [hf]
    split at h
    · cases h
    · split at h
      · cases h
      · rename_i hfits
        split at h
        · cases h
        · rename_i hne
          cases h
          exact (if_neg hfits).trans (if_neg hne)
    · cases h

theorem readOptionalBool_written {flag : Option Bool} (hf : document.find (utf8 field) = flag.map .bool) :
    readOptionalBool document field = .ok flag := by
  unfold readOptionalBool
  rw [hf]
  cases flag <;> rfl

end Readers

theorem decodeCandidateAttribute_again {item : Json} {pair : Bytes × Bytes}
    (h : decodeCandidateAttribute item = .ok pair) :
    decodeCandidateAttribute ((Json.null.put "name" (.string pair.1)).put "value" (.string pair.2)) =
      .ok pair := by
  have hname : ((Json.null.put "name" (.string pair.1)).put "value" (.string pair.2)).find (utf8 "name") =
      some (.string pair.1) := by simp [Json.find_put]
  have hvalue : ((Json.null.put "name" (.string pair.1)).put "value" (.string pair.2)).find (utf8 "value") =
      some (.string pair.2) := by simp [Json.find_put]
  unfold decodeCandidateAttribute at h ⊢
  rw [hname, hvalue, Json.isObject_put]
  split at h
  · split at h
    · cases h
    · rename_i hfits
      cases h
      exact if_neg hfits
  · cases h

/-- Attributes that are decoded are in order, and stay so. -/
theorem decodeCandidateAttributes_again {value : Json} {attributes : List (Bytes × Bytes)}
    (h : decodeCandidateAttributes value = .ok attributes) :
    decodeCandidateAttributes (attributesToJson attributes) = .ok attributes := by
  unfold decodeCandidateAttributes at h
  split at h
  · cases h
  · rename_i items hitems
    split at h
    · cases h
    · rename_i hbound
      split at h
      · cases h
      · rename_i decoded hdecoded
        simp only at h
        split at h
        · rename_i hchain
          cases h
          have hlen : (sortBy (fun a b : Bytes × Bytes => a.1 < b.1) decoded).length = items.length := by
            rw [(perm_sortBy _ decoded).length_eq, (mapM_eq_ok.1 hdecoded).length_eq]
          have hagain : ((sortBy (fun a b : Bytes × Bytes => a.1 < b.1) decoded).map fun pair =>
              (Json.null.put "name" (.string pair.1)).put "value" (.string pair.2)).mapM
                decodeCandidateAttribute = .ok (sortBy (fun a b => a.1 < b.1) decoded) := by
            refine mapM_map_eq_ok.2 fun pair hmem => ?_
            obtain ⟨item, -, hitem⟩ := mem_of_mapM hdecoded (mem_sortBy.1 hmem)
            exact decodeCandidateAttribute_again hitem
          have hsorted : sortBy (fun a b : Bytes × Bytes => a.1 < b.1) (sortBy (fun a b => a.1 < b.1) decoded) =
              sortBy (fun a b => a.1 < b.1) decoded :=
            comparesBy_attribute.sort_of_sorted (comparesBy_attribute.sorted decoded)
          unfold decodeCandidateAttributes attributesToJson
          simp only [Json.items?, List.length_map, hlen, if_neg hbound, hagain, hsorted]
          exact if_pos hchain
        · cases h

/-- What is read where a candidate is decoded. -/
structure Candidate.ReadFrom (c : Candidate) (value : Json) : Prop where
  object : value.isObject = true
  minBandwidth : readOptionalReal value "min_bandwidth" = .ok c.minBandwidth
  maxLatency : readOptionalReal value "max_latency" = .ok c.maxLatency
  maxJitter : readOptionalReal value "max_jitter" = .ok c.maxJitter
  maxLoss : readOptionalReal value "max_loss" = .ok c.maxLoss
  pathDiversity : readOptionalReal value "path_diversity" = .ok c.pathDiversity
  failureDomainSeparation : readOptionalReal value "failure_domain_separation" = .ok c.failureDomainSeparation
  trafficPriority : readOptionalReal value "traffic_priority" = .ok c.trafficPriority
  burstAllowance : readOptionalReal value "burst_allowance" = .ok c.burstAllowance
  locality : readOptionalString value "locality" = .ok c.locality
  securityClass : readOptionalString value "security_class" = .ok c.securityClass
  disaggregatedAffinity : readOptionalString value "disaggregated_affinity" = .ok c.disaggregatedAffinity
  maintenanceTolerance : readOptionalString value "maintenance_tolerance" = .ok c.maintenanceTolerance
  collectiveSupported : readOptionalBool value "collective_supported" = .ok c.collectiveSupported
  checkpointIsolation : readOptionalBool value "checkpoint_isolation" = .ok c.checkpointIsolation
  attributes : match value.find (utf8 "attributes") with
    | none => c.attributes = []
    | some attributes => decodeCandidateAttributes attributes = .ok c.attributes

theorem decodeCandidate_eq_ok {value : Json} {c : Candidate} : decodeCandidate value = .ok c ↔ c.ReadFrom value := by
  unfold decodeCandidate
  cases hobject : value.isObject with
  | false =>
    constructor
    · intro h
      cases h
    · intro h
      cases hobject.symm.trans h.object
  | true =>
    simp only [Bool.not_true, Bool.false_eq_true, if_false]
    constructor
    · intro h
      cases hattributes : value.find (utf8 "attributes") with
      | none =>
        rw [hattributes] at h
        simp only [bind_eq_ok] at h
        obtain ⟨_, h₁, _, h₂, _, h₃, _, h₄, _, h₅, _, h₆, _, h₇, _, h₈, _, h₉, _, h₁₀, _, h₁₁, _, h₁₂, _, h₁₃, _, h₁₄,
          _, h₁₅, h⟩ := h
        cases h₁₅
        cases h
        exact ⟨hobject, h₁, h₂, h₃, h₄, h₅, h₆, h₇, h₈, h₉, h₁₀, h₁₁, h₁₂, h₁₃, h₁₄, by rw [hattributes]⟩
      | some attributes =>
        rw [hattributes] at h
        simp only [bind_eq_ok] at h
        obtain ⟨_, h₁, _, h₂, _, h₃, _, h₄, _, h₅, _, h₆, _, h₇, _, h₈, _, h₉, _, h₁₀, _, h₁₁, _, h₁₂, _, h₁₃, _, h₁₄,
          _, h₁₅, h⟩ := h
        cases h
        exact ⟨hobject, h₁, h₂, h₃, h₄, h₅, h₆, h₇, h₈, h₉, h₁₀, h₁₁, h₁₂, h₁₃, h₁₄, by rw [hattributes]; exact h₁₅⟩
    · rintro ⟨-, h₁, h₂, h₃, h₄, h₅, h₆, h₇, h₈, h₉, h₁₀, h₁₁, h₁₂, h₁₃, h₁₄, h₁₅⟩
      rw [h₁, h₂, h₃, h₄, h₅, h₆, h₇, h₈, h₉, h₁₀, h₁₁, h₁₂, h₁₃, h₁₄]
      cases hattributes : value.find (utf8 "attributes") with
      | none =>
        rw [hattributes] at h₁₅
        exact congrArg (fun attributes => Except.ok { c with attributes := attributes }) h₁₅.symm
      | some attributes =>
        rw [hattributes] at h₁₅
        simp only [bind_eq_ok]
        exact ⟨_, rfl, _, rfl, _, rfl, _, rfl, _, rfl, _, rfl, _, rfl, _, rfl, _, rfl, _, rfl, _, rfl, _, rfl, _, rfl,
          _, rfl, _, h₁₅, rfl⟩

/-- A candidate is decoded from its own document when something is set in it. -/
theorem decodeCandidate_again {value : Json} {c : Candidate} (hvalue : value.Constructed)
    (h : decodeCandidate value = .ok c) (hany : c.hasAnyDimension = true) :
    decodeCandidate (candidateToJson c) = .ok c := by
  have hw := candidateToJson_written c
  have hr := decodeCandidate_eq_ok.1 h
  refine decodeCandidate_eq_ok.2
    { object := (isObject_candidateToJson c).trans hany
      minBandwidth := readOptionalReal_again hvalue hr.minBandwidth hw.minBandwidth
      maxLatency := readOptionalReal_again hvalue hr.maxLatency hw.maxLatency
      maxJitter := readOptionalReal_again hvalue hr.maxJitter hw.maxJitter
      maxLoss := readOptionalReal_again hvalue hr.maxLoss hw.maxLoss
      pathDiversity := readOptionalReal_again hvalue hr.pathDiversity hw.pathDiversity
      failureDomainSeparation := readOptionalReal_again hvalue hr.failureDomainSeparation hw.failureDomainSeparation
      trafficPriority := readOptionalReal_again hvalue hr.trafficPriority hw.trafficPriority
      burstAllowance := readOptionalReal_again hvalue hr.burstAllowance hw.burstAllowance
      locality := readOptionalString_again hr.locality hw.locality
      securityClass := readOptionalString_again hr.securityClass hw.securityClass
      disaggregatedAffinity := readOptionalString_again hr.disaggregatedAffinity hw.disaggregatedAffinity
      maintenanceTolerance := readOptionalString_again hr.maintenanceTolerance hw.maintenanceTolerance
      collectiveSupported := readOptionalBool_written hw.collectiveSupported
      checkpointIsolation := readOptionalBool_written hw.checkpointIsolation
      attributes := ?_ }
  have hattributes := hr.attributes
  rw [hw.attributes]
  by_cases hne : c.attributes = []
  · rw [if_neg (not_not.2 hne)]
    exact hne
  · rw [if_pos hne]
    split at hattributes
    · exact absurd hattributes hne
    · exact decodeCandidateAttributes_again hattributes

/-- A candidate in which nothing is set is written as `null`, which is no candidate. -/
theorem decodeCandidate_bare {c : Candidate} (hany : c.hasAnyDimension = false) :
    decodeCandidate (candidateToJson c) = .error .jsonNotAnObject := by
  unfold decodeCandidate
  rw [isObject_candidateToJson, hany]
  rfl

/-! ## Entries -/

section Fields

variable {object document : Json} {field : String}

theorem readNonNegative_again {maximum : Nat} {failure failure' : Failure} {n : UInt64}
    (h : readNonNegative object field maximum failure = .ok n) (hf : document.find (utf8 field) = some (jsonUint n)) :
    readNonNegative document field maximum failure' = .ok n := by
  have hn : ¬n.toInt64 < 0 ∧ n.toNat ≤ maximum := by
    unfold readNonNegative at h
    split at h
    · cases h
      exact ⟨by decide, Nat.zero_le _⟩
    · split at h
      · cases h
      · rename_i hrange
        cases h
        rw [not_or, not_lt] at hrange
        rw [Int64.toInt64_toUInt64]
        exact hrange
    · cases h
  unfold readNonNegative
  rw [hf, jsonUint]
  simp only [toUInt64_jsonUint]
  exact if_neg (not_or.2 ⟨hn.1, not_lt.2 hn.2⟩)

theorem readPublisher_written {name : String} {publisher : PublisherId}
    (hf : document.find (utf8 "publisher") = some (.string publisher.view)) :
    readPublisher document name = .ok publisher := by
  unfold readPublisher
  rw [hf]
  simp only [Id.parse_view]

/-- The zero incarnation is left out, and is what is read where there is none. -/
theorem readCapturedBy_written {incarnation : Incarnation} (hf : document.find (utf8 "captured_by") =
    if !incarnation.isZero then some (.string incarnation.str) else none) : readCapturedBy document = .ok incarnation := by
  unfold readCapturedBy
  rw [hf]
  cases hzero : incarnation.isZero with
  | true => rw [(Incarnation.isZero_iff _).1 hzero]; rfl
  | false => simp [Incarnation.parse_str hzero]

theorem readFreshness_written {freshness : EvidenceFreshness}
    (hf : document.find (utf8 "freshness") = some (.string (freshnessToken freshness))) :
    readFreshness document = .ok freshness := by
  unfold readFreshness
  rw [hf]
  simp only [parseFreshness_token]

theorem readScope_again {scope : Bytes} (h : readScope object = .ok scope)
    (hf : document.find (utf8 "scope") = some (.string scope)) : readScope document = .ok scope := by
  unfold readScope at h ⊢
  rw [hf]
  split at h
  · split at h
    · cases h
    · rename_i hfits
      cases h
      exact if_neg hfits
  · cases h

end Fields

/-- A candidate is read from a document that has its own exactly when something is set in it. -/
theorem readCandidate_again {object document : Json} {c : Candidate} (hobject : object.Constructed)
    (h : readCandidate object = .ok c) (hf : document.find (utf8 "candidate") = some (candidateToJson c)) :
    readCandidate document = .ok c ↔ c.hasAnyDimension = true := by
  unfold readCandidate at h ⊢
  rw [hf]
  split at h
  · cases h
  · rename_i value hfind
    split at h
    · cases h
    · rename_i hdecode
      cases h
      -- one in which nothing is set is written as no object
      cases hany : c.hasAnyDimension with
      | true => simp only [decodeCandidate_again (hobject.find hfind) hdecode hany]
      | false => simp [decodeCandidate_bare hany, fail]

theorem isObject_evidenceEntryToJson (entry : EvidenceEntry) : (evidenceEntryToJson entry).isObject = true :=
  Json.isObject_put _ _ _

/-- An entry is decoded from its own document exactly when something is set in its candidate. -/
theorem decodeEvidenceEntry_again {item : Json} {entry : EvidenceEntry} (hitem : item.Constructed)
    (h : decodeEvidenceEntry item = .ok entry) :
    decodeEvidenceEntry (evidenceEntryToJson entry) = .ok entry ↔ entry.candidate.hasAnyDimension = true := by
  have hw := evidenceEntryToJson_written entry
  unfold decodeEvidenceEntry at h ⊢
  simp only [bind_eq_ok] at h ⊢
  obtain ⟨_, -, scope, h₁, generation, h₂, capturedBy, -, epoch, h₄, produced, h₅, publisher, -, candidate, h₇, freshness,
    -, h⟩ := h
  cases h
  have hcandidate := readCandidate_again hitem h₇ hw.candidate
  constructor
  · rintro ⟨_, -, _, -, _, -, _, -, _, -, _, -, _, -, again, hagain, _, -, hout⟩
    cases hout
    exact hcandidate.1 hagain
  · intro hany
    exact ⟨(), require_eq_ok.2 (isObject_evidenceEntryToJson _), scope, readScope_again h₁ hw.scope,
      generation, readNonNegative_again h₂ hw.generation, capturedBy, readCapturedBy_written hw.capturedBy,
      epoch, readNonNegative_again h₄ hw.epoch, produced, readNonNegative_again h₅ hw.producedAtMillis,
      publisher, readPublisher_written hw.publisher, candidate, hcandidate.2 hany,
      freshness, readFreshness_written hw.freshness, rfl⟩

/-! ## Evidence -/

theorem readEvidenceGeneration_again {object document : Json} {generation : EvidenceGeneration}
    (h : readEvidenceGeneration object = .ok generation)
    (hf : document.find (utf8 "evidence_generation") = some (jsonUint generation)) :
    readEvidenceGeneration document = .ok generation := by
  unfold readEvidenceGeneration at h ⊢
  rw [hf, jsonUint]
  split at h
  · split at h
    · cases h
    · rename_i hpositive
      cases h
      simp only [Int64.toInt64_toUInt64]
      exact if_neg hpositive
  · cases h

/-- The derived identity is the one that is checked. -/
theorem checkEvidenceId_written {document : Json} {derived : EvidenceId}
    (hf : document.find (utf8 "evidence_id") = some (.string derived.view)) : checkEvidenceId document derived = .ok () := by
  unfold checkEvidenceId
  rw [hf]
  simp only
  split
  · rfl
  · exact require_eq_ok.2 (decide_eq_true (Id.parse_view derived))

/-- What is read where evidence is decoded. -/
structure EvidenceSet.ReadFrom (e : EvidenceSet) (value : Json) : Prop where
  object : value.isObject = true
  generation : readEvidenceGeneration value = .ok e.generation
  epoch : readNonNegative value "epoch" maxUint64 ⟨.jsonWrongType, utf8 "epoch must be a non negative integer"⟩ = .ok e.epoch
  producedAtMillis : readNonNegative value "produced_at_millis" maxEvidenceMillis
    ⟨.valueOutOfRange, utf8 "produced_at_millis is outside the permitted range"⟩ = .ok e.producedAtMillis
  publisher : readPublisher value "publisher" = .ok e.publisher
  entries : ∃ items, (value.find (utf8 "entries")).bind Json.items? = some items ∧ items.length ≤ maxEvidenceEntries ∧
    items.mapM decodeEvidenceEntry = .ok e.entries
  derived : e.evidenceId = deriveEvidenceId (evidenceDigest { e with evidenceId := .zero })
  declared : checkEvidenceId value e.evidenceId = .ok ()

theorem evidenceFromJson_eq_ok {value : Json} {e : EvidenceSet} : evidenceFromJson value = .ok e ↔ e.ReadFrom value := by
  unfold evidenceFromJson
  simp only [bind_eq_ok, require_eq_ok]
  constructor
  · rintro ⟨_, hobject, generation, h₁, epoch, h₂, produced, h₃, publisher, h₄, h⟩
    split at h
    · obtain ⟨_, hmissing, -⟩ := bind_eq_ok.1 h
      cases hmissing
    · rename_i items hitems
      simp only [bind_eq_ok, require_eq_ok, decide_eq_true_eq] at h
      obtain ⟨_, hbound, entries, hentries, _, hdeclared, h⟩ := h
      cases h
      exact ⟨hobject, h₁, h₂, h₃, h₄, ⟨items, hitems, hbound, hentries⟩, rfl, hdeclared⟩
  · rintro ⟨hobject, h₁, h₂, h₃, h₄, ⟨items, hitems, hbound, hentries⟩, hderived, hdeclared⟩
    refine ⟨(), hobject, e.generation, h₁, e.epoch, h₂, e.producedAtMillis, h₃, e.publisher, h₄, ?_⟩
    rw [hitems]
    simp only [bind_eq_ok, require_eq_ok, decide_eq_true_eq]
    refine ⟨(), hbound, e.entries, hentries, (), ?_, ?_⟩
    · exact hderived ▸ hdeclared
    · exact congrArg (fun id => Except.ok { e with evidenceId := id }) hderived.symm

/-- Entries are decoded from their own documents exactly when something is set in every candidate. -/
theorem decodeEntries_again {items : List Json} {entries : List EvidenceEntry}
    (hitems : ∀ item ∈ items, item.Constructed) (h : items.mapM decodeEvidenceEntry = .ok entries) :
    (entries.map evidenceEntryToJson).mapM decodeEvidenceEntry = .ok entries ↔
      ∀ entry ∈ entries, entry.candidate.hasAnyDimension = true := by
  rw [mapM_map_eq_ok]
  refine forall₂_congr fun entry hentry => ?_
  obtain ⟨item, hmem, hdecode⟩ := mem_of_mapM h hentry
  exact decodeEvidenceEntry_again (hitems item hmem) hdecode

/-- Evidence is decoded from its own document when its entries are. -/
theorem evidenceFromJson_written {v : Json} {e : EvidenceSet} (h : evidenceFromJson v = .ok e) :
    evidenceFromJson (evidenceToJson e) = .ok e ↔
      (e.entries.map evidenceEntryToJson).mapM decodeEvidenceEntry = .ok e.entries := by
  have hw := evidenceToJson_written e
  have hr := evidenceFromJson_eq_ok.1 h
  obtain ⟨items, -, hbound, hentries⟩ := hr.entries
  have hlen := (mapM_eq_ok.1 hentries).length_eq
  have hdocument : ((evidenceToJson e).find (utf8 "entries")).bind Json.items? =
      some (e.entries.map evidenceEntryToJson) := by
    rw [hw.entries]
    rfl
  rw [evidenceFromJson_eq_ok]
  constructor
  · intro hread
    obtain ⟨written, hwritten, -, hdecode⟩ := hread.entries
    cases hdocument.symm.trans hwritten
    exact hdecode
  · intro hdecode
    exact
      { object := Json.isObject_put _ _ _
        generation := readEvidenceGeneration_again hr.generation hw.generation
        epoch := readNonNegative_again hr.epoch hw.epoch
        producedAtMillis := readNonNegative_again hr.producedAtMillis hw.producedAtMillis
        publisher := readPublisher_written hw.publisher
        entries := ⟨_, hdocument, by rw [List.length_map, ← hlen]; exact hbound, hdecode⟩
        derived := hr.derived
        declared := checkEvidenceId_written hw.evidenceId }

/-- Evidence that is decoded is decoded again from its own document exactly when something is set in the candidate of
every entry. -/
theorem evidence_roundTrip_iff {v : Json} {e : EvidenceSet} (hv : v.Constructed) (h : evidenceFromJson v = .ok e) :
    evidenceFromJson (evidenceToJson e) = .ok e ↔ ∀ entry ∈ e.entries, entry.candidate.hasAnyDimension = true := by
  obtain ⟨items, hitems, -, hentries⟩ := (evidenceFromJson_eq_ok.1 h).entries
  obtain ⟨array, harray, harrayItems⟩ := Option.bind_eq_some_iff.1 hitems
  rw [evidenceFromJson_written h, decodeEntries_again ((hv.find harray).items harrayItems) hentries]

/-- A document of evidence with one entry, which leaves out all that may be. -/
def entryDocument (candidate : Json) : Json :=
  Json.null
    |>.put "evidence_generation" (.int 1)
    |>.put "entries" (.array [Json.null |>.put "scope" (.string (utf8 "ring")) |>.put "candidate" candidate])

def entryEvidence (candidate : Candidate) : EvidenceSet :=
  let evidence : EvidenceSet := { generation := 1, entries := [{ scope := utf8 "ring", candidate := candidate }] }
  { evidence with evidenceId := deriveEvidenceId (evidenceDigest evidence) }

theorem constructed_entryDocument {candidate : Json} (h : candidate.Constructed) : (entryDocument candidate).Constructed := by
  have hentry : (Json.null |>.put "scope" (.string (utf8 "ring")) |>.put "candidate" candidate).Constructed :=
    .put (.put .null (.string _) _) h _
  have hentries : (Json.array [Json.null |>.put "scope" (.string (utf8 "ring")) |>.put "candidate" candidate]).Constructed :=
    ⟨hentry, trivial⟩
  exact .put (.put .null (show (Json.int 1).Constructed from trivial) _) hentries _

theorem evidenceFromJson_entryDocument {document : Json} {candidate : Candidate}
    (h : decodeCandidate document = .ok candidate) :
    evidenceFromJson (entryDocument document) = .ok (entryEvidence candidate) := by
  have hread : readCandidate (Json.null |>.put "scope" (.string (utf8 "ring")) |>.put "candidate" document) =
      .ok candidate := by
    simp [readCandidate, Json.find_put, h]
  have hentry : decodeEvidenceEntry (Json.null |>.put "scope" (.string (utf8 "ring")) |>.put "candidate" document) =
      .ok { scope := utf8 "ring", candidate := candidate } := by
    unfold decodeEvidenceEntry
    simp only [bind_eq_ok]
    exact ⟨(), rfl, utf8 "ring", rfl, 0, rfl, .zero, rfl, 0, rfl, 0, rfl, .zero, rfl, candidate, hread, .current, rfl, rfl⟩
  exact evidenceFromJson_eq_ok.2 ⟨rfl, rfl, rfl, rfl, rfl,
    ⟨_, rfl, show 1 ≤ maxEvidenceEntries by decide, mapM_eq_ok.2 (.cons hentry .nil)⟩, rfl, rfl⟩

theorem evidence_roundTrip_iff_locality :
    evidenceFromJson (evidenceToJson (entryEvidence { locality := some (utf8 "rack") })) =
      .ok (entryEvidence { locality := some (utf8 "rack") }) :=
  (evidence_roundTrip_iff (constructed_entryDocument (.put .null (.string (utf8 "rack")) "locality"))
    (evidenceFromJson_entryDocument rfl)).2 (by decide)

/-- The candidate of an empty object is not decoded again. -/
theorem candidate_unread : ¬∀ (v : Json) (e : EvidenceSet), v.Constructed → evidenceFromJson v = .ok e →
    evidenceFromJson (evidenceToJson e) = .ok e := by
  intro hall
  have hconstructed : (Json.object []).Constructed := trivial
  have hread : evidenceFromJson (entryDocument (.object [])) = .ok (entryEvidence {}) := evidenceFromJson_entryDocument rfl
  -- the document of the entry has `null` where it was an empty object
  have hagain := (evidenceFromJson_written hread).1 (hall _ _ (constructed_entryDocument hconstructed) hread)
  have hentry := mapM_map_eq_ok.1 hagain _ (List.mem_singleton_self _)
  exact absurd hentry (by decide)

end Wnc
