/-
What a client sends and what a coordinator makes of it. A client asks for a change with the document of what it submits;
the coordinator reads back what was submitted, but for what a document does not carry and for the provenance of
evidence, which only the coordinator may give, exactly when the request is within the bounds of a document.
-/
import Wnc.Coordinator.Serving
import Wnc.Runtime.Recovered

namespace Wnc

open Lib Wire

/-! ## Requests for a change -/

namespace Mutation

def messageType : Mutation → MessageType
  | .registerWorkload _ => .registerWorkload
  | .publish _ => .publishContract
  | .attachEvidence _ => .attachEvidence
  | .installPolicy _ => .installPolicy
  | .retire _ => .retireWorkload

/-- The schema tag of the request. -/
def schema (m : Mutation) : Bytes := Coordinator.schemaPrefix ++ messageTypeToken m.messageType

/-- The member of the request that says what is submitted. -/
def field : Mutation → String
  | .registerWorkload _ | .publish _ => "contract"
  | .attachEvidence _ => "evidence"
  | .installPolicy _ => "policy"
  | .retire _ => "workload"

def document : Mutation → Json
  | .registerWorkload c | .publish c => contractToJson c
  | .attachEvidence e => evidenceToJson e
  | .installPolicy policy => policyToJson policy
  | .retire workload => .string workload.view

/-- The body of the request. -/
def request (m : Mutation) : Json := (Json.null.put "schema" (.string m.schema)).put m.field m.document

end Mutation

/-! ## Evidence without provenance -/

/-- An entry without the provenance that only the coordinator may give it. -/
def EvidenceEntry.normalized (entry : EvidenceEntry) : EvidenceEntry := { entry with capturedBy := .zero, epoch := 0 }

def EvidenceSet.normalized (e : EvidenceSet) : EvidenceSet := { e with entries := e.entries.map EvidenceEntry.normalized }

/-- The members of the document of an evidence set, in their order. -/
theorem evidenceToJson_members (e : EvidenceSet) : evidenceToJson e = .object
    [(utf8 "entries", .array (e.entries.map evidenceEntryToJson)), (utf8 "epoch", jsonUint e.epoch),
      (utf8 "evidence_generation", jsonUint e.generation), (utf8 "evidence_id", .string e.evidenceId.view),
      (utf8 "produced_at_millis", jsonUint e.producedAtMillis), (utf8 "publisher", .string e.publisher.view),
      (utf8 "schema_version", jsonUint schemaVersion.toUInt64)] := rfl

namespace Coordinator

/-- The document of an entry is normalized to that of the entry without provenance, but for an epoch of zero. -/
theorem normalizeEvidenceEntry_put (entry : EvidenceEntry) :
    (normalizeEvidenceEntry (evidenceEntryToJson entry)).put "epoch" (jsonUint 0) =
      evidenceEntryToJson entry.normalized := by
  unfold evidenceEntryToJson
  cases hzero : entry.capturedBy.isZero with
  | true => rfl
  | false => rfl

theorem decodeEvidenceEntry_normalize (entry : EvidenceEntry) :
    decodeEvidenceEntry (normalizeEvidenceEntry (evidenceEntryToJson entry)) =
      decodeEvidenceEntry (evidenceEntryToJson entry.normalized) := by
  have hepoch : (normalizeEvidenceEntry (evidenceEntryToJson entry)).find (utf8 "epoch") = none := by
    unfold evidenceEntryToJson
    cases hzero : entry.capturedBy.isZero with
    | true => rfl
    | false => rfl
  have hobject : (normalizeEvidenceEntry (evidenceEntryToJson entry)).isObject = true := by
    unfold evidenceEntryToJson
    cases hzero : entry.capturedBy.isZero with
    | true => rfl
    | false => rfl
  rw [← normalizeEvidenceEntry_put]
  generalize normalizeEvidenceEntry (evidenceEntryToJson entry) = item at hepoch hobject ⊢
  have hzero : readNonNegative (item.put "epoch" (jsonUint 0)) "epoch" maxUint64
      ⟨.jsonWrongType, utf8 "evidence entry epoch must be a non negative integer"⟩ =
        readNonNegative item "epoch" maxUint64
          ⟨.jsonWrongType, utf8 "evidence entry epoch must be a non negative integer"⟩ := by
    unfold readNonNegative
    rw [hepoch, Json.find_put, if_pos rfl]
    rfl
  unfold decodeEvidenceEntry
  rw [hzero, hobject, Json.isObject_put]
  simp [readScope, readNonNegative, readCapturedBy, readPublisher, readCandidate, readFreshness, Json.find_put]

/-- The document of an evidence set without provenance: an identity of zero is none. -/
theorem normalizeEvidenceDocument_eq (e : EvidenceSet) : normalizeEvidenceDocument (evidenceToJson e) = .object
    ((utf8 "entries", .array ((e.entries.map evidenceEntryToJson).map normalizeEvidenceEntry)) ::
      (utf8 "epoch", jsonUint e.epoch) :: (utf8 "evidence_generation", jsonUint e.generation) ::
      ((if e.evidenceId.isZero then [] else [(utf8 "evidence_id", .string e.evidenceId.view)]) ++
      [(utf8 "produced_at_millis", jsonUint e.producedAtMillis), (utf8 "publisher", .string e.publisher.view),
        (utf8 "schema_version", jsonUint schemaVersion.toUInt64)])) := by
  have hstates : statesNoIdentity (utf8 "evidence_id", .string e.evidenceId.view) = e.evidenceId.isZero := by
    simp [statesNoIdentity]
  rw [evidenceToJson_members, normalizeEvidenceDocument, List.filter_cons_of_pos rfl, List.filter_cons_of_pos rfl,
    List.filter_cons_of_pos rfl]
  cases hzero : e.evidenceId.isZero with
  | true =>
    rw [List.filter_cons_of_neg (by simp [hstates, hzero])]
    rfl
  | false =>
    rw [List.filter_cons_of_pos (by simp [hstates, hzero])]
    rfl

/-- An identity of zero is as none. -/
theorem evidenceFromJson_zero {v : Json} (hobject : v.isObject = true) (h : v.find (utf8 "evidence_id") = none) :
    evidenceFromJson (v.put "evidence_id" (.string (Id.zero : EvidenceId).view)) = evidenceFromJson v := by
  have hzero : (Id.zero : EvidenceId).view = List.replicate sha256HexChars 48 := by decide
  have hcheck : ∀ derived, checkEvidenceId (v.put "evidence_id" (.string (Id.zero : EvidenceId).view)) derived =
      checkEvidenceId v derived := by
    intro derived
    unfold checkEvidenceId
    rw [h, Json.find_put, if_pos rfl]
    simp only [hzero, if_true]
  unfold evidenceFromJson
  rw [hobject, Json.isObject_put]
  simp [hcheck, readEvidenceGeneration, readNonNegative, readPublisher, Json.find_put]

/-- Of the entries it matters what they are decoded to. -/
theorem evidenceFromJson_entries {v : Json} {items items' : List Json} (hlength : items.length = items'.length)
    (hitems : items.mapM decodeEvidenceEntry = items'.mapM decodeEvidenceEntry) :
    evidenceFromJson (v.put "entries" (.array items)) = evidenceFromJson (v.put "entries" (.array items')) := by
  have hcheck : ∀ derived items, checkEvidenceId (v.put "entries" (.array items)) derived = checkEvidenceId v derived := by
    intro derived items
    simp [checkEvidenceId, Json.find_put]
  unfold evidenceFromJson
  rw [Json.isObject_put, Json.isObject_put]
  simp [hcheck, readEvidenceGeneration, readNonNegative, readPublisher, Json.find_put, Json.items?, hlength, hitems]

/-- Normalized evidence is decoded as the evidence without provenance is. -/
theorem evidenceFromJson_normalize (e : EvidenceSet) :
    evidenceFromJson (normalizeEvidenceDocument (evidenceToJson e)) = evidenceFromJson (evidenceToJson e.normalized) := by
  have hitems : ((e.entries.map evidenceEntryToJson).map normalizeEvidenceEntry).mapM decodeEvidenceEntry =
      (e.normalized.entries.map evidenceEntryToJson).mapM decodeEvidenceEntry := by
    simp only [List.mapM_map, EvidenceSet.normalized, Function.comp_def, decodeEvidenceEntry_normalize]
  have hentries := @evidenceFromJson_entries (Json.null
    |>.put "schema_version" (jsonUint schemaVersion.toUInt64)
    |>.put "evidence_id" (.string e.evidenceId.view)
    |>.put "evidence_generation" (jsonUint e.generation)
    |>.put "epoch" (jsonUint e.epoch)
    |>.put "publisher" (.string e.publisher.view)
    |>.put "produced_at_millis" (jsonUint e.producedAtMillis)) _ _ (by simp [EvidenceSet.normalized]) hitems
  refine Eq.trans ?_ hentries
  rw [normalizeEvidenceDocument_eq]
  cases hzero : e.evidenceId.isZero with
  | true =>
    rw [(Id.isZero_iff _).1 hzero]
    refine (evidenceFromJson_zero rfl ?_).symm
    rfl
  | false => rfl

/-- Evidence is read back from its document, without its provenance, exactly when what is left of it is recordable. -/
theorem evidence_submitted_iff {o : JsonDecodeOptions} (ho : o.Roomy) {depth : Nat} (h : depth ≤ 1)
    {e v : EvidenceSet} :
    (evidenceToJson e).Readable o depth ∧ evidenceFromJson (normalizeEvidenceDocument (evidenceToJson e).reread) = .ok v ↔
      v = e.normalized.reread.documented ∧ e.normalized.Recordable := by
  have hreread : e.reread.normalized = e.normalized.reread := by
    simp only [EvidenceSet.reread, EvidenceSet.normalized, List.map_map]
    rfl
  have htextual : e.normalized.Textual ↔ e.Textual := by
    simp only [EvidenceSet.Textual, EvidenceSet.normalized, List.forall_mem_map]
    exact forall₂_congr fun entry _ => ⟨fun h => ⟨h.scope, h.candidate⟩, fun h => ⟨h.scope, h.candidate⟩⟩
  have hnumbers : e.normalized.NumbersFit ↔ e.NumbersFit := by
    simp only [EvidenceSet.NumbersFit, EvidenceSet.normalized, List.forall_mem_map]
    rfl
  have hbounded : e.normalized.EntriesBounded → e.EntriesBounded := fun h entry hentry =>
    h entry.normalized (List.mem_map_of_mem hentry)
  constructor
  · rintro ⟨hread, hdecode⟩
    have hfit := EvidenceSet.numbersFit_of_readable hread
    rw [reread_evidenceToJson hfit, evidenceFromJson_normalize, hreread, evidenceFromJson_iff] at hdecode
    obtain ⟨rfl, hd⟩ := hdecode
    have htexts := ((readable_evidenceToJson_iff ho h (hbounded hd.entriesBounded)).1 hread).1
    exact ⟨rfl, hd, htextual.2 htexts, hnumbers.2 hfit⟩
  · rintro ⟨rfl, hd, ht, hfit⟩
    rw [reread_evidenceToJson (hnumbers.1 hfit), evidenceFromJson_normalize, hreread, evidenceFromJson_iff]
    exact ⟨(readable_evidenceToJson_iff ho h (hbounded hd.entriesBounded)).2 ⟨htextual.1 ht, hnumbers.1 hfit⟩, rfl, hd⟩

end Coordinator

/-! ## What is read of a request -/

namespace Mutation

/-- The submission as its document carries it. -/
def received : Mutation → Mutation
  | .registerWorkload c => .registerWorkload c.documented
  | .publish c => .publish c.documented
  | .attachEvidence e => .attachEvidence e.normalized.reread.documented
  | .installPolicy policy => .installPolicy policy.reread.documented
  | .retire workload => .retire workload

/-- A submission that its document gives back. -/
def Carried : Mutation → Prop
  | .registerWorkload c | .publish c => c.Recordable
  | .attachEvidence e => e.normalized.Recordable
  | .installPolicy policy => policy.Recordable {}
  | .retire _ => True

/-- A submission whose request is within the bounds of a document. -/
def Submittable (m : Mutation) : Prop := m.request.dump.length ≤ maxDocumentBytes ∧ m.Carried

/-- The contract of a submission, if it has one, is valid. -/
def Valid : Mutation → Prop
  | .registerWorkload c | .publish c => (validateContract c).ok = true
  | _ => True

end Mutation

theorem proper_policyToJson (policy : Policy) : (policyToJson policy).Proper := by
  have hrules : (Json.array (policy.rules.map policyRuleToJson)).Proper :=
    Json.proper_array fun rule _ => ⟨isReal_policyRuleToJson rule, proper_policyRuleToJson rule⟩
  unfold policyToJson
  repeat' first
    | exact trivial
    | exact hrules
    | apply Json.Proper.put

namespace Coordinator

/-- What the tags of the requests for a change are to a coordinator. -/
theorem messageType_spec (m : Mutation) : definedMessageType m.messageType = true ∧
    schemaHandler m.schema = some m.messageType ∧ IsText m.schema := by
  have htags : ∀ type ∈ [MessageType.registerWorkload, .publishContract, .attachEvidence, .installPolicy, .retireWorkload],
      definedMessageType type = true ∧ schemaHandler (schemaPrefix ++ messageTypeToken type) = some type ∧
        (schemaPrefix ++ messageTypeToken type).all (· < 0x80) = true ∧
          (schemaPrefix ++ messageTypeToken type).length ≤ maxStringBytes := by decide
  have hmem : m.messageType ∈ [MessageType.registerWorkload, .publishContract, .attachEvidence, .installPolicy,
      .retireWorkload] := by
    cases m <;> simp [Mutation.messageType]
  obtain ⟨hdefined, hhandler, hascii, hlen⟩ := htags m.messageType hmem
  exact ⟨hdefined, hhandler, isText_ascii hascii hlen⟩

theorem field_spec (m : Mutation) : (utf8 m.field).all (· < 0x80) = true ∧ (utf8 m.field).length ≤ 4096 := by
  have hfields : ∀ field ∈ ["contract", "evidence", "policy", "workload"],
      (utf8 field).all (· < 0x80) = true ∧ (utf8 field).length ≤ 4096 := by decide
  exact hfields m.field (by cases m <;> simp [Mutation.field])

theorem holding_request (m : Mutation) : Holding m.request m.field m.document := by
  have hproper : m.document.Proper := by
    cases m with
    | registerWorkload c => exact proper_contractToJson c
    | publish c => exact proper_contractToJson c
    | attachEvidence e => exact proper_evidenceToJson e
    | installPolicy policy => exact proper_policyToJson policy
    | retire workload => exact Json.proper_string _
  have hfind : ∀ v : Json, (v.put m.field m.document).find (utf8 m.field) = some m.document := fun v =>
    Json.find_set_self _ _ _
  refine ⟨(Json.proper_null.put (Json.proper_string _) _).put hproper _, Json.isObject_put _ _ _, ?_, fun ho => ?_⟩
  · rw [Mutation.request, Json.reread_put]
    exact Json.find_set_self _ _ _
  · refine ⟨fun h => h.find (hfind _), fun h => ?_⟩
    exact ho.put (ho.put (ho.null (by decide)) (by decide) (ho.text (by decide) (messageType_spec m).2.2)) (field_spec m) h

/-- The request of a mutation reaches its handler exactly when it is within the bounds of a document. -/
theorem readRequest_request {m : Mutation} {frame : Frame} (hbody : frame.body = m.request.dump)
    (htype : frame.header.type = .unknown ∨ frame.header.type = m.messageType) {handler : MessageType} {body : Json} :
    readRequest frame = .ok (handler, body) ↔
      (m.request.dump.length ≤ maxDocumentBytes ∧ m.document.Readable {} 1) ∧ handler = m.messageType ∧
        body = m.request.reread := by
  have ho : ({} : JsonDecodeOptions).Roomy := ⟨by decide, by decide⟩
  have hholding := holding_request m
  obtain ⟨htag, hhandler, -⟩ := messageType_spec m
  have hdefined : definedMessageType frame.header.type = true := by
    rcases htype with h | h
    · rw [h]
      rfl
    · rw [h]
      exact htag
  have hschema : m.request.reread.find (utf8 "schema") = some (.string m.schema) := by
    cases m <;> simp [Mutation.request, Mutation.field, Json.find_put]
  unfold readRequest
  rw [hdefined, hbody]
  simp only [Bool.not_true, Bool.false_eq_true, if_false]
  by_cases hlen : m.request.dump.length ≤ maxDocumentBytes
  · have htext : m.request.dump = m.request.text := Json.dump_eq_text (hlen.trans (by decide))
    rw [htext] at hlen ⊢
    rcases @jsonDecode_text m.request {} hholding.proper hlen (fun h => nomatch h) with ⟨hread, heq⟩ | ⟨hunread, e, heq⟩
    · have hobject : m.request.reread.isObject = true := by
        rw [Mutation.request, Json.reread_put]
        exact Json.isObject_put _ _ _
      have hmatches : ¬(frame.header.type ≠ .unknown ∧ frame.header.type ≠ m.messageType) := fun h =>
        htype.elim h.1 h.2
      simp only [heq, hobject, requireString, hschema, hhandler, if_neg hmatches, Bool.not_true, Bool.false_eq_true,
        if_false, Except.ok.injEq, Prod.mk.injEq]
      have hbounds := And.intro hlen ((hholding.readable ho).1 hread)
      exact ⟨fun h => ⟨hbounds, h.1.symm, h.2.symm⟩, fun h => ⟨h.2.1.symm, h.2.2.symm⟩⟩
    · simp only [heq]
      refine iff_of_false (fun h => nomatch h) fun h => hunread ((hholding.readable ho).2 h.1.2)
  · have herror : ∃ e, jsonDecode m.request.dump {} = .error e := by
      unfold jsonDecode
      rw [if_pos (not_le.1 hlen)]
      exact ⟨_, rfl⟩
    obtain ⟨e, heq⟩ := herror
    simp only [heq]
    exact iff_of_false (fun h => nomatch h) fun h => hlen h.1.1

/-- What is decoded within bounds that say exactly when, and to what. -/
theorem some_decoded_iff {α : Type} {decode : Except Failure α} {k : α → Mutation} {a₀ : α} {m' : Mutation}
    {bounded readable recordable : Prop} (h : ∀ a, readable ∧ decode = .ok a ↔ a = a₀ ∧ recordable) :
    bounded ∧ readable ∧ decode.toOption.map k = some m' ↔ m' = k a₀ ∧ bounded ∧ recordable := by
  constructor
  · rintro ⟨hbounded, hreadable, hdecode⟩
    cases decode with
    | error f => cases hdecode
    | ok a =>
      cases hdecode
      obtain ⟨rfl, hrecordable⟩ := (h a).1 ⟨hreadable, rfl⟩
      exact ⟨rfl, hbounded, hrecordable⟩
  · rintro ⟨rfl, hbounded, hrecordable⟩
    obtain ⟨hreadable, hdecode⟩ := (h a₀).2 ⟨rfl, hrecordable⟩
    rw [hdecode]
    exact ⟨hbounded, hreadable, rfl⟩

/-- What a coordinator reads of the request for a submission, when the request is within the bounds of a document. -/
theorem requested_request_iff {m m' : Mutation} (hvalid : m.Valid) {frame : Frame} (hbody : frame.body = m.request.dump)
    (htype : frame.header.type = .unknown ∨ frame.header.type = m.messageType) :
    requested frame = some m' ↔ m' = m.received ∧ m.Submittable := by
  have ho : ({} : JsonDecodeOptions).Roomy := ⟨by decide, by decide⟩
  have hfound := (holding_request m).found
  -- a request that is read is read by the handler of the submission
  have hread : requested frame = some m' ↔ m.request.dump.length ≤ maxDocumentBytes ∧ m.document.Readable {} 1 ∧
      readMutation m.messageType m.request.reread = some m' := by
    have hiff := fun handler body => @readRequest_request m frame hbody htype handler body
    unfold requested
    cases hr : readRequest frame with
    | error f =>
      refine iff_of_false (fun h => nomatch h) fun h => ?_
      rw [(hiff _ _).2 ⟨⟨h.1, h.2.1⟩, rfl, rfl⟩] at hr
      cases hr
    | ok request =>
      obtain ⟨handler, body⟩ := request
      obtain ⟨⟨hlen, hdocument⟩, rfl, rfl⟩ := (hiff _ _).1 hr
      exact ⟨fun h => ⟨hlen, hdocument, h⟩, fun h => h.2.2⟩
  rw [hread, Mutation.Submittable]
  cases m with
  | registerWorkload c =>
    have hcontract : (readMutation .registerWorkload (Mutation.registerWorkload c).request.reread) =
        (contractFromJson (contractToJson c)).toOption.map .registerWorkload := by
      rw [← reread_contractToJson (valid_spec hvalid).2]
      exact congrArg (fun d => (Option.bind d _).map _) hfound
    rw [Mutation.messageType, hcontract]
    exact some_decoded_iff fun a => contract_recordable_iff ho (le_refl 1)
  | publish c =>
    have hcontract : (readMutation .publishContract (Mutation.publish c).request.reread) =
        (contractFromJson (contractToJson c)).toOption.map .publish := by
      rw [← reread_contractToJson (valid_spec hvalid).2]
      exact congrArg (fun d => (Option.bind d _).map _) hfound
    rw [Mutation.messageType, hcontract]
    exact some_decoded_iff fun a => contract_recordable_iff ho (le_refl 1)
  | attachEvidence e =>
    have hevidence : (readMutation .attachEvidence (Mutation.attachEvidence e).request.reread) =
        (evidenceFromJson (normalizeEvidenceDocument (evidenceToJson e).reread)).toOption.map .attachEvidence :=
      congrArg (fun d => (Option.bind d _).map _) hfound
    rw [Mutation.messageType, hevidence]
    exact some_decoded_iff fun a => evidence_submitted_iff ho (le_refl 1)
  | installPolicy policy =>
    have hpolicy : (readMutation .installPolicy (Mutation.installPolicy policy).request.reread) =
        (policyFromJson (policyToJson policy).reread).toOption.map .installPolicy :=
      congrArg (fun d => (Option.bind d _).map _) hfound
    rw [Mutation.messageType, hpolicy]
    exact some_decoded_iff fun a => policy_recordable_iff ho (show 1 ≤ 4 by decide)
  | retire workload =>
    have hworkload : readWorkloadId (Mutation.retire workload).request.reread = .ok workload := by
      have hfound : (Mutation.retire workload).request.reread.find (utf8 "workload") = some (.string workload.view) := hfound
      unfold readWorkloadId
      rw [hfound]
      simp only [Id.parse_view]
    have hretirement : (readMutation .retireWorkload (Mutation.retire workload).request.reread) = some (.retire workload) :=
      congrArg (fun decoded => (Except.toOption decoded).map Mutation.retire) hworkload
    have hdocument : (Mutation.retire workload).document.Readable {} 1 := ho.text (by decide) (isText_view workload)
    rw [Mutation.messageType, hretirement, Option.some.injEq]
    exact ⟨fun h => ⟨h.2.2.symm, h.1, trivial⟩, fun h => ⟨h.2.1, hdocument, h.1.symm⟩⟩

end Coordinator

/-! ## What is made of a submission -/

/-- A submission that a client frames is performed as it was received, if its request is within the bounds of a
document, and is refused without a change otherwise. -/
theorem submission_performed {m : Mutation} (hvalid : m.Valid) {requestId : UInt64} {bytes : Bytes}
    (hsent : encodeFrame m.messageType requestId m.request.dump [] = .ok bytes) (rest : Bytes) (around : Surroundings)
    (c : Coordinator) (s : Session) : ∃ frame, decodeFrame (bytes ++ rest) = .ok (frame, bytes.length) ∧
      ∃ change, (change = some m.received ∧ m.Submittable ∨ change = none ∧ ¬m.Submittable) ∧
        Coordinator.Outcome around c s requestId change (Coordinator.handleFrame around frame c s) := by
  have hlen : m.request.dump.length ≤ maxFrameBytes - headerBytes := by
    by_contra hlong
    rw [encodeFrame, if_pos (not_le.1 hlong)] at hsent
    cases hsent
  rw [encodeFrame_eq _ _ _ hlen, List.nil_append, Except.ok.injEq] at hsent
  subst hsent
  refine ⟨_, by rw [length_builtFrame]; exact decodeFrame_builtFrame _ _ _ hlen rest, ?_⟩
  have houtcome := Coordinator.handleFrame_outcome around c s (frameOf m.messageType requestId m.request.dump)
  have hrequested : ∀ m', Coordinator.requested (frameOf m.messageType requestId m.request.dump) = some m' ↔
      m' = m.received ∧ m.Submittable := fun m' => Coordinator.requested_request_iff hvalid rfl (.inr rfl)
  refine ⟨_, ?_, houtcome⟩
  by_cases hsubmittable : m.Submittable
  · exact .inl ⟨(hrequested _).2 ⟨rfl, hsubmittable⟩, hsubmittable⟩
  · refine .inr ⟨Option.eq_none_iff_forall_not_mem.2 fun m' h => ?_, hsubmittable⟩
    exact hsubmittable ((hrequested m').1 h).2

/-- The request for a retirement is within every bound. -/
theorem retirement_submittable : (Mutation.retire (.repeating 1)).Submittable := ⟨by decide +kernel, trivial⟩

theorem submission_performed_retirement : ∃ (bytes : Bytes) (frame : Frame),
    decodeFrame bytes = .ok (frame, bytes.length) ∧ Coordinator.Outcome undisturbed
      (Coordinator.start {} idleRuntime (.fresh [])).coordinator {} 1 (some (.retire (.repeating 1)))
      (Coordinator.handleFrame undisturbed frame (Coordinator.start {} idleRuntime (.fresh [])).coordinator {}) := by
  have hlen : (Mutation.retire (.repeating 1)).request.dump.length ≤ maxFrameBytes - headerBytes :=
    retirement_submittable.1.trans (by decide)
  obtain ⟨frame, hdecode, change, hchange, houtcome⟩ := @submission_performed (.retire (.repeating 1)) trivial 1 _
    (encodeFrame_eq _ _ _ hlen []) [] undisturbed (Coordinator.start {} idleRuntime (.fresh [])).coordinator {}
  rcases hchange with ⟨rfl, -⟩ | ⟨-, hnot⟩
  · exact ⟨_, frame, by rw [List.append_nil] at hdecode; exact hdecode, houtcome⟩
  · exact (hnot retirement_submittable).elim

end Wnc
