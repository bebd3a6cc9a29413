/-
What the records of the mutations decode to. A record that decodes at all says of contracts and retirements what
its mutation did, and of evidence the generation and the scopes.
-/
import Wnc.Contract.Reread
import Wnc.Contract.Validate
import Wnc.Runtime.Operations
import Wnc.Runtime.Recovery

namespace Wnc

open Lib

/-! ## Documents are proper -/

theorem proper_attributesToJson (attributes : List (Bytes × Bytes)) : (attributesToJson attributes).Proper :=
  Json.proper_array fun a _ => ⟨Json.isReal_put _ _ _, ((Json.proper_null.put (Json.proper_string a.1) "name").put
    (Json.proper_string a.2) "value")⟩

theorem proper_membersToJson (members : List RequirementId) : (membersToJson members).Proper :=
  Json.proper_array fun m _ => ⟨rfl, Json.proper_string m.view⟩

theorem proper_requirementToJson (r : Requirement) : (requirementToJson r).Proper := by
  unfold requirementToJson
  repeat' first
    | exact trivial
    | exact proper_membersToJson _
    | exact proper_attributesToJson _
    | apply Json.Proper.put
    | apply Json.Proper.ite

theorem proper_scopeToJson (s : Scope) : (scopeToJson s).Proper := by
  unfold scopeToJson
  repeat' first
    | exact trivial
    | apply Json.Proper.put
    | apply Json.Proper.ite

theorem isReal_scopeToJson (s : Scope) : (scopeToJson s).isReal = false := by
  unfold scopeToJson
  by_cases hr : s.hasRank <;> by_cases hp : s.parent = [] <;> simp [hr, hp, Json.isReal_put]

theorem proper_contractBodyToJson (b : ContractBody) : (contractBodyToJson b).Proper := by
  have hscopes : (Json.array (b.scopes.map scopeToJson)).Proper :=
    Json.proper_array fun s _ => ⟨isReal_scopeToJson s, proper_scopeToJson s⟩
  have hrequirements : (Json.array (b.requirements.map requirementToJson)).Proper :=
    Json.proper_array fun r _ => ⟨Json.isReal_put _ _ _, proper_requirementToJson r⟩
  unfold contractBodyToJson workloadToJson
  repeat' first
    | exact trivial
    | exact hscopes
    | exact hrequirements
    | apply Json.Proper.put

theorem proper_envelopeToJson (e : ContractEnvelope) : (envelopeToJson e).Proper := by
  unfold envelopeToJson
  repeat' first
    | exact trivial
    | apply Json.Proper.put
    | apply Json.Proper.ite

theorem proper_contractToJson (c : Contract) : (contractToJson c).Proper := by
  unfold contractToJson
  repeat' first
    | exact trivial
    | exact proper_contractBodyToJson _
    | exact proper_envelopeToJson _
    | apply Json.Proper.put
    | apply Json.Proper.ite

theorem proper_addOptional {object : Json} (h : object.Proper) (field : String) {value : Option Json}
    (hv : ∀ v ∈ value, v.Proper) : (addOptional object field value).Proper := by
  cases value with
  | none => exact h
  | some v => exact h.put (hv v rfl) field

theorem proper_mapped {α : Type} {f : α → Json} (hf : ∀ a, (f a).Proper) (value : Option α) :
    ∀ v ∈ value.map f, v.Proper := by
  intro v hv
  obtain ⟨a, -, rfl⟩ := Option.map_eq_some_iff.1 hv
  exact hf a

theorem proper_candidateToJson (c : Candidate) : (candidateToJson c).Proper := by
  have hreal : ∀ value : Option Double, ∀ v ∈ value.map Json.ofReal, v.Proper := proper_mapped Json.proper_ofReal
  have hstring : ∀ value : Option Bytes, ∀ v ∈ value.map Json.string, v.Proper := proper_mapped Json.proper_string
  have hbool : ∀ value : Option Bool, ∀ v ∈ value.map Json.bool, v.Proper := proper_mapped Json.proper_bool
  unfold candidateToJson
  repeat' first
    | exact hreal _
    | exact hstring _
    | exact hbool _
    | exact proper_attributesToJson _
    | apply proper_addOptional
    | apply Json.Proper.ite
    | apply Json.Proper.put
  all_goals exact trivial

theorem proper_evidenceEntryToJson (e : EvidenceEntry) : (evidenceEntryToJson e).Proper := by
  unfold evidenceEntryToJson
  repeat' first
    | exact trivial
    | exact proper_candidateToJson _
    | apply Json.Proper.put
    | apply Json.Proper.ite

theorem proper_evidenceToJson (e : EvidenceSet) : (evidenceToJson e).Proper := by
  have hentries : (Json.array (e.entries.map evidenceEntryToJson)).Proper :=
    Json.proper_array fun entry _ => ⟨Json.isReal_put _ _ _, proper_evidenceEntryToJson entry⟩
  unfold evidenceToJson
  repeat' first
    | exact trivial
    | exact hentries
    | apply Json.Proper.put

theorem proper_keyDigestPayload (domain : Bytes) (digest : Digest) : (keyDigestPayload domain digest).Proper := by
  unfold keyDigestPayload
  repeat' first
    | exact trivial
    | apply Json.Proper.put

/-! ## Documents of valid contracts read back as they are -/

theorem reread_attributesToJson (attributes : List (Bytes × Bytes)) :
    (attributesToJson attributes).reread = attributesToJson attributes := by
  simp [attributesToJson]

theorem reread_membersToJson (members : List RequirementId) : (membersToJson members).reread = membersToJson members := by
  simp [membersToJson]

theorem reread_ite {condition : Prop} [Decidable condition] (a b : Json) :
    (if condition then a else b).reread = if condition then a.reread else b.reread := by
  split <;> rfl

theorem reread_requirementToJson {r : Requirement} (h : RequirementFits r) :
    (requirementToJson r).reread = requirementToJson r := by
  unfold requirementToJson
  simp only [Json.reread_put, reread_ite, Json.reread_string, Json.reread_null, reread_membersToJson,
    reread_attributesToJson]
  cases hn : r.hasNumeric with
  | false => simp only [Bool.false_eq_true, if_false]
  | true =>
    rw [Json.reread_ofReal (h.finite hn).1 (h.nonnegative hn).1, Json.reread_ofReal (h.finite hn).2 (h.nonnegative hn).2]

theorem reread_jsonUint (n : UInt64) : (jsonUint n).reread = jsonUint n := rfl

theorem reread_scopeToJson (s : Scope) : (scopeToJson s).reread = scopeToJson s := by
  unfold scopeToJson
  simp only [Json.reread_put, reread_ite, Json.reread_string, Json.reread_null, reread_jsonUint]

theorem reread_contractBodyToJson {b : ContractBody} (h : ∀ r ∈ b.requirements, RequirementFits r) :
    (contractBodyToJson b).reread = contractBodyToJson b := by
  have hrequirements : (b.requirements.map requirementToJson).map Json.reread = b.requirements.map requirementToJson := by
    rw [List.map_map]
    exact List.map_congr_left fun r hr => reread_requirementToJson (h r hr)
  have hscopes : (b.scopes.map scopeToJson).map Json.reread = b.scopes.map scopeToJson := by
    rw [List.map_map]
    exact List.map_congr_left fun s _ => reread_scopeToJson s
  unfold contractBodyToJson workloadToJson
  simp only [Json.reread_put, Json.reread_string, Json.reread_null, reread_jsonUint, Json.reread_array, hrequirements,
    hscopes]

theorem reread_contractToJson {c : Contract} (h : ∀ r ∈ c.body.requirements, RequirementFits r) :
    (contractToJson c).reread = contractToJson c := by
  unfold contractToJson envelopeToJson
  simp only [Json.reread_put, reread_ite, Json.reread_string, Json.reread_null, reread_jsonUint,
    reread_contractBodyToJson h]

/-! ## Records -/

/-- What is decoded of a record that holds the canonical text of a value. -/
theorem recordPayload_ok {record : Ledger.Record} {v j : Json} (hv : v.Proper) (hpayload : record.payload = v.dump)
    (hlen : v.dump.length ≤ Ledger.maxRecordBytes) (h : recordPayload record = .ok j) : j = v.reread := by
  have hbound : Ledger.maxRecordBytes ≤ maxDocumentBytes * 2 := by decide
  have htext : v.dump = v.text := Json.dump_eq_text (hlen.trans hbound)
  rw [htext] at hpayload hlen
  unfold recordPayload at h
  rw [hpayload] at h
  rcases @jsonDecode_text v journalDecodeOptions hv hlen (fun h => nomatch h) with ⟨-, heq⟩ | ⟨-, e, heq⟩
  · rw [heq] at h
    split at h
    · rename_i members hobject
      cases h
      exact (Except.ok.inj hobject).symm
    · cases h
  · rw [heq] at h
    cases h

/-- A record of a contract decodes to the generation of the contract as it is documented. -/
theorem decodeRecord_contract {record : Ledger.Record} {change : Change} {v : Json} {c : Contract}
    (ht : isContractRecord record.type = true) (hv : v.Proper) (hpayload : record.payload = v.dump)
    (hlen : v.dump.length ≤ Ledger.maxRecordBytes) (hfind : v.reread.find (utf8 "contract") = some (contractToJson c))
    (h : decodeRecord record = .ok change) : ∃ recordedAtMillis, change = .generation c.documented recordedAtMillis := by
  have hgenesis : record.type ≠ .genesis := fun he => by rw [he] at ht; cases ht
  unfold decodeRecord at h
  split at h
  · cases h
  · rename_i j hj
    rw [if_neg hgenesis, if_pos ht, recordPayload_ok hv hpayload hlen hj, decodeGeneration, hfind] at h
    simp only at h
    split at h
    · cases h
    · rename_i d hd
      cases h
      rw [contractFromJson_ok hd]
      exact ⟨_, rfl⟩

theorem decodeRecord_registration {record : Ledger.Record} {change : Change} {c : Contract} {recordedAtMillis : UInt64}
    (hfits : ∀ r ∈ c.body.requirements, RequirementFits r) (ht : record.type = .workloadRegistered)
    (hpayload : record.payload = (Runtime.registrationPayload recordedAtMillis c).dump)
    (hlen : (Runtime.registrationPayload recordedAtMillis c).dump.length ≤ Ledger.maxRecordBytes)
    (h : decodeRecord record = .ok change) : ∃ t, change = .generation c.documented t := by
  refine decodeRecord_contract (by rw [ht]; rfl) ?_ hpayload hlen ?_ h
  · unfold Runtime.registrationPayload
    repeat' first
      | exact trivial
      | exact proper_contractToJson _
      | exact proper_keyDigestPayload _ _
      | apply Json.Proper.put
  · simp [Runtime.registrationPayload, Json.find_put, reread_contractToJson hfits]

theorem decodeRecord_publication {record : Ledger.Record} {change : Change} {c : Contract} {publisher : PublisherId}
    {recordedAtMillis : UInt64} (hfits : ∀ r ∈ c.body.requirements, RequirementFits r)
    (ht : record.type = .contractPublished)
    (hpayload : record.payload = (Runtime.publicationPayload recordedAtMillis publisher c).dump)
    (hlen : (Runtime.publicationPayload recordedAtMillis publisher c).dump.length ≤ Ledger.maxRecordBytes)
    (h : decodeRecord record = .ok change) : ∃ t, change = .generation c.documented t := by
  refine decodeRecord_contract (by rw [ht]; rfl) ?_ hpayload hlen ?_ h
  · unfold Runtime.publicationPayload
    repeat' first
      | exact trivial
      | exact proper_contractToJson _
      | exact proper_keyDigestPayload _ _
      | apply Json.Proper.put
  · simp [Runtime.publicationPayload, Json.find_put, reread_contractToJson hfits]

/-- A record of a retirement decodes to the retirement of its workload. -/
theorem decodeRecord_retirement {record : Ledger.Record} {change : Change} {id : WorkloadId} {recordedAtMillis : UInt64}
    (ht : record.type = .workloadRetired)
    (hpayload : record.payload = (Runtime.retirementPayload recordedAtMillis id).dump)
    (hlen : (Runtime.retirementPayload recordedAtMillis id).dump.length ≤ Ledger.maxRecordBytes)
    (h : decodeRecord record = .ok change) : change = .retirement id := by
  have hproper : (Runtime.retirementPayload recordedAtMillis id).Proper := by
    unfold Runtime.retirementPayload
    repeat' first
      | exact trivial
      | apply Json.Proper.put
  have hfind : (Runtime.retirementPayload recordedAtMillis id).reread.find (utf8 "workload") = some (.string id.view) := by
    simp [Runtime.retirementPayload, Json.find_put]
  unfold decodeRecord at h
  split at h
  · cases h
  · rename_i j hj
    rw [recordPayload_ok hproper hpayload hlen hj, ht, if_neg (by decide), if_neg (by decide), if_pos rfl,
      decodeRetirement, hfind] at h
    simp only [Id.parse_view] at h
    cases h
    rfl

theorem decodeEvidenceEntry_scope {entry e : EvidenceEntry}
    (h : decodeEvidenceEntry (evidenceEntryToJson entry).reread = .ok e) : e.scope = entry.scope := by
  have hscope : (evidenceEntryToJson entry).reread.find (utf8 "scope") = some (.string entry.scope) := by
    simp [evidenceEntryToJson, Json.find_put, reread_ite, find_ite]
  unfold decodeEvidenceEntry at h
  simp only [bind_eq_ok] at h
  obtain ⟨_, -, scope, hs, _, -, _, -, _, -, _, -, _, -, _, -, _, -, h⟩ := h
  cases h
  unfold readScope at hs
  rw [hscope] at hs
  simp only at hs
  split at hs
  · cases hs
  · cases hs; rfl

/-- The generation and the scopes of evidence are read as they were written. -/
theorem evidenceFromJson_ok {evidence e : EvidenceSet} (h : evidenceFromJson (evidenceToJson evidence).reread = .ok e) :
    e.generation = evidence.generation ∧
      e.entries.map EvidenceEntry.scope = evidence.entries.map EvidenceEntry.scope := by
  have hgeneration : (evidenceToJson evidence).reread.find (utf8 "evidence_generation") =
      some (jsonUint evidence.generation) := by
    simp [evidenceToJson, Json.find_put, reread_jsonUint]
  have hentries : (evidenceToJson evidence).reread.find (utf8 "entries") =
      some (.array ((evidence.entries.map evidenceEntryToJson).map Json.reread)) := by
    simp [evidenceToJson, Json.find_put]
  unfold evidenceFromJson at h
  rw [hentries] at h
  simp only [Option.bind_some, Json.items?, bind_eq_ok] at h
  obtain ⟨_, -, generation, hg, _, -, _, -, _, -, _, -, entries, he, _, -, h⟩ := h
  cases h
  constructor
  · unfold readEvidenceGeneration at hg
    rw [hgeneration, jsonUint] at hg
    simp only at hg
    split at hg
    · cases hg
    · cases hg; exact toUInt64_jsonUint _
  · rw [List.map_map] at he
    exact map_mapM_ok (fun _ _ => decodeEvidenceEntry_scope) he

/-- A record of an attachment decodes to what its evidence reads back as. -/
theorem decodeRecord_attachment {record : Ledger.Record} {change : Change} {evidence : EvidenceSet}
    {recordedAtMillis : UInt64} (ht : record.type = .evidenceAttached)
    (hpayload : record.payload = (Runtime.evidencePayload recordedAtMillis evidence).dump)
    (hlen : (Runtime.evidencePayload recordedAtMillis evidence).dump.length ≤ Ledger.maxRecordBytes)
    (h : decodeRecord record = .ok change) :
    ∃ e, change = .evidence e ∧ evidenceFromJson (evidenceToJson evidence).reread = .ok e := by
  have hproper : (Runtime.evidencePayload recordedAtMillis evidence).Proper := by
    unfold Runtime.evidencePayload
    repeat' first
      | exact trivial
      | exact proper_evidenceToJson _
      | apply Json.Proper.put
  have hfind : (Runtime.evidencePayload recordedAtMillis evidence).reread.find (utf8 "evidence") =
      some (evidenceToJson evidence).reread := by
    simp [Runtime.evidencePayload, Json.find_put]
  unfold decodeRecord at h
  split at h
  · cases h
  · rename_i j hj
    rw [recordPayload_ok hproper hpayload hlen hj, ht, if_neg (by decide), if_neg (by decide), if_neg (by decide),
      if_pos rfl, decodeEvidence, hfind] at h
    simp only at h
    split at h
    · cases h
    · rename_i e he
      cases h
      exact ⟨e, rfl, he⟩

/-- A record of an attachment decodes to evidence of the same generation and scopes. -/
theorem decodeRecord_evidence {record : Ledger.Record} {change : Change} {evidence : EvidenceSet}
    {recordedAtMillis : UInt64} (ht : record.type = .evidenceAttached)
    (hpayload : record.payload = (Runtime.evidencePayload recordedAtMillis evidence).dump)
    (hlen : (Runtime.evidencePayload recordedAtMillis evidence).dump.length ≤ Ledger.maxRecordBytes)
    (h : decodeRecord record = .ok change) : ∃ e, change = .evidence e ∧ e.generation = evidence.generation ∧
      e.entries.map EvidenceEntry.scope = evidence.entries.map EvidenceEntry.scope := by
  obtain ⟨e, rfl, he⟩ := decodeRecord_attachment ht hpayload hlen h
  exact ⟨e, rfl, evidenceFromJson_ok he⟩

/-- A record of an installation decodes to a policy. -/
theorem decodeRecord_policy {record : Ledger.Record} {change : Change} (ht : record.type = .policyInstalled)
    (h : decodeRecord record = .ok change) : ∃ policy, change = .policy policy := by
  have hkind := (decodeRecord_kind h).2
  rw [ht] at hkind
  cases change with
  | policy p => exact ⟨p, rfl⟩
  | _ => cases hkind

end Wnc
