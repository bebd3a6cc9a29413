/-
Mutations after a restart. The record that an accepted mutation appends is replayed exactly when what was submitted is
recordable: within the bounds of its decoder, its texts valid and the texts of its numbers no longer than a literal. A
journal can be replayed exactly when every mutation accepted for it was recordable.
-/
import Wnc.Evaluation.Recorded
import Wnc.Policy.Recorded
import Wnc.Runtime.Counters

namespace Wnc

open Lib

/-! ## Mutations that are recordable -/

/-- What a runtime accepts and its journal can give back. -/
def Mutation.Recordable (around : Surroundings) (r : Runtime) : Mutation → Prop
  | .registerWorkload submitted => submitted.Recordable
  | .publish submitted => submitted.Recordable
  | .attachEvidence submitted => (submitted.stamp r.info around.clock).Recordable
  | .installPolicy policy => policy.Recordable journalDecodeOptions
  | .retire _ => True

/-- What the record of a mutation says happened. -/
def Mutation.change (around : Surroundings) (r : Runtime) : Mutation → Change
  | .registerWorkload submitted => .generation submitted.documented (around.clock 0)
  | .publish submitted => .generation submitted.documented (around.clock 0)
  | .attachEvidence submitted => .evidence (submitted.stamp r.info around.clock).reread.documented
  | .installPolicy policy => .policy policy.reread.documented
  | .retire workload => .retirement workload

/-! ## Records that are taken back -/

theorem roomy_journalDecodeOptions : journalDecodeOptions.Roomy := ⟨by decide, by decide⟩

/-- The record of a canonical text holds the value as it reads back when that is within the bounds of the decoder, and
nothing otherwise. -/
theorem recordPayload_iff {record : Ledger.Record} {v j : Json} (hv : v.Proper) (hobject : v.isObject = true)
    (hpayload : record.payload = v.dump) (hlen : v.dump.length ≤ Ledger.maxRecordBytes) :
    recordPayload record = .ok j ↔ v.Readable journalDecodeOptions 0 ∧ j = v.reread := by
  have hbound : Ledger.maxRecordBytes ≤ maxDocumentBytes * 2 := by decide
  have htext : v.dump = v.text := Json.dump_eq_text (hlen.trans hbound)
  rw [htext] at hpayload hlen
  unfold recordPayload
  rw [hpayload]
  rcases @jsonDecode_text v journalDecodeOptions hv hlen (fun h => nomatch h) with ⟨hread, heq⟩ | ⟨hread, e, heq⟩
  · rw [heq]
    cases v with
    | object members =>
      show Except.ok (Json.object members).reread = .ok j ↔ _
      rw [Except.ok.injEq]
      exact ⟨fun h => ⟨hread, h.symm⟩, fun h => h.2.symm⟩
    | _ => cases hobject
  · rw [heq]
    exact iff_of_false (fun h => nomatch h) fun h => hread h.1

/-- A record is decoded by the decoder of its type. -/
theorem decodeRecord_eq_ok {record : Ledger.Record} {change : Change} : decodeRecord record = .ok change ↔
    ∃ payload, recordPayload record = .ok payload ∧
      (if record.type = .genesis then .ok .genesis
      else if isContractRecord record.type then decodeGeneration payload
      else if record.type = .workloadRetired then decodeRetirement payload
      else if record.type = .evidenceAttached then decodeEvidence payload
      else if record.type = .policyInstalled then decodePolicy payload
      else if record.type = .evaluationRecorded then decodeEvaluation payload
      else .error ⟨.ledgerIncompatible, utf8 "journal record " ++ toDecimal record.sequence.toNat ++
        utf8 " has a record type this build does not define"⟩) = .ok change := by
  unfold decodeRecord
  cases recordPayload record with
  | error f => exact iff_of_false (fun h => nomatch h) fun ⟨_, h, _⟩ => nomatch h
  | ok payload => simp only [Except.ok.injEq, exists_eq_left']

theorem decodeGeneration_iff {payload document : Json} {change : Change} {n : UInt64}
    (hcontract : payload.find (utf8 "contract") = some document)
    (hrecorded : payload.find (utf8 "recorded_at_millis") = some (jsonUint n)) :
    decodeGeneration payload = .ok change ↔ ∃ c, contractFromJson document = .ok c ∧ change = .generation c n := by
  unfold decodeGeneration
  rw [hcontract, hrecorded, jsonUint]
  simp only [toUInt64_jsonUint]
  cases contractFromJson document with
  | error f =>
    refine iff_of_false (by rintro ⟨⟩) ?_
    rintro ⟨_, h, -⟩
    cases h
  | ok c =>
    simp only [Except.ok.injEq, exists_eq_left']
    exact eq_comm

theorem decodeEvidence_iff {payload document : Json} {change : Change}
    (hf : payload.find (utf8 "evidence") = some document) :
    decodeEvidence payload = .ok change ↔ ∃ e, evidenceFromJson document = .ok e ∧ change = .evidence e := by
  unfold decodeEvidence
  rw [hf]
  simp only
  cases evidenceFromJson document with
  | error f => exact iff_of_false (fun h => nomatch h) fun ⟨_, h, _⟩ => nomatch h
  | ok e =>
    simp only [Except.ok.injEq, exists_eq_left']
    exact eq_comm

theorem decodePolicy_iff {payload document : Json} {change : Change}
    (hf : payload.find (utf8 "policy") = some document) :
    decodePolicy payload = .ok change ↔ ∃ policy, policyFromJson document = .ok policy ∧ change = .policy policy := by
  unfold decodePolicy
  rw [hf]
  simp only
  cases policyFromJson document with
  | error f => exact iff_of_false (fun h => nomatch h) fun ⟨_, h, _⟩ => nomatch h
  | ok policy =>
    simp only [Except.ok.injEq, exists_eq_left']
    exact eq_comm

/-! ## Payloads -/

/-- A payload that holds a document under a name: it is read when the document is. -/
structure Holding (v : Json) (field : String) (document : Json) : Prop where
  proper : v.Proper
  object : v.isObject = true
  found : v.reread.find (utf8 field) = some document.reread
  readable : ∀ {o : JsonDecodeOptions}, o.Roomy → (v.Readable o 0 ↔ document.Readable o 1)

section Payloads

variable {c : Contract} {t : UInt64}

theorem holding_registration : Holding (Runtime.registrationPayload t c) "contract" (contractToJson c) := by
  refine ⟨?_, Json.isObject_put _ _ _, by simp [Runtime.registrationPayload, Json.find_put],
    fun ho => ⟨fun h => ?_, fun h => ?_⟩⟩
  · unfold Runtime.registrationPayload
    repeat' first
      | exact trivial
      | exact proper_contractToJson _
      | exact proper_keyDigestPayload _ _
      | apply Json.Proper.put
  · have hfind : (Runtime.registrationPayload t c).find (utf8 "contract") = some (contractToJson c) := by
      simp [Runtime.registrationPayload, Json.find_put]
    exact h.find hfind
  · unfold Runtime.registrationPayload keyDigestPayload
    repeat' first
      | exact h
      | exact ho.null (by decide)
      | exact ho.uint (by decide)
      | exact ho.text (by decide) (isText_view _)
      | exact ho.text (by decide) (isText_hex _)
      | exact ho.text (by decide) (isText_ascii (by decide) (by decide))
      | decide
      | refine ho.put ?_ ?_ ?_

theorem holding_publication {publisher : PublisherId} :
    Holding (Runtime.publicationPayload t publisher c) "contract" (contractToJson c) := by
  refine ⟨?_, Json.isObject_put _ _ _, by simp [Runtime.publicationPayload, Json.find_put],
    fun ho => ⟨fun h => ?_, fun h => ?_⟩⟩
  · unfold Runtime.publicationPayload
    repeat' first
      | exact trivial
      | exact proper_contractToJson _
      | exact proper_keyDigestPayload _ _
      | apply Json.Proper.put
  · have hfind : (Runtime.publicationPayload t publisher c).find (utf8 "contract") = some (contractToJson c) := by
      simp [Runtime.publicationPayload, Json.find_put]
    exact h.find hfind
  · unfold Runtime.publicationPayload keyDigestPayload
    repeat' first
      | exact h
      | exact ho.null (by decide)
      | exact ho.uint (by decide)
      | exact ho.text (by decide) (isText_view _)
      | exact ho.text (by decide) (isText_hex _)
      | exact ho.text (by decide) (isText_ascii (by decide) (by decide))
      | decide
      | refine ho.put ?_ ?_ ?_

theorem holding_evidence {e : EvidenceSet} : Holding (Runtime.evidencePayload t e) "evidence" (evidenceToJson e) := by
  refine ⟨?_, Json.isObject_put _ _ _, by simp [Runtime.evidencePayload, Json.find_put],
    fun ho => ⟨fun h => ?_, fun h => ?_⟩⟩
  · unfold Runtime.evidencePayload
    repeat' first
      | exact trivial
      | exact proper_evidenceToJson _
      | apply Json.Proper.put
  · have hfind : (Runtime.evidencePayload t e).find (utf8 "evidence") = some (evidenceToJson e) := by
      simp [Runtime.evidencePayload, Json.find_put]
    exact h.find hfind
  · unfold Runtime.evidencePayload
    repeat' first
      | exact h
      | exact ho.null (by decide)
      | exact ho.uint (by decide)
      | exact ho.text (by decide) (isText_view _)
      | decide
      | refine ho.put ?_ ?_ ?_

theorem holding_policy {policy : Policy} : Holding (Runtime.policyPayload t policy) "policy" (policyToJson policy) := by
  refine ⟨proper_policyPayload _ _, Json.isObject_put _ _ _, by simp [Runtime.policyPayload, Json.find_put],
    fun ho => ⟨fun h => ?_, fun h => ?_⟩⟩
  · have hfind : (Runtime.policyPayload t policy).find (utf8 "policy") = some (policyToJson policy) := by
      simp [Runtime.policyPayload, Json.find_put]
    exact h.find hfind
  · unfold Runtime.policyPayload
    repeat' first
      | exact h
      | exact ho.null (by decide)
      | exact ho.uint (by decide)
      | exact ho.text (by decide) (isText_hex _)
      | decide
      | refine ho.put ?_ ?_ ?_

end Payloads

/-- What a record of a payload is decoded to, when its type has a reader that looks for the document. -/
theorem Holding.decodes {v document : Json} {field : String} (hv : Holding v field document) {record : Ledger.Record}
    (hpayload : record.payload = v.dump) (hlen : v.dump.length ≤ Ledger.maxRecordBytes) {α : Type}
    {decode : Json → Except Failure α} {k : α → Change} {reader : Json → Except Failure Change}
    (htype : ∀ j change, recordPayload record = .ok j → (decodeRecord record = .ok change ↔ reader j = .ok change))
    (hreader : ∀ change, reader v.reread = .ok change ↔ ∃ a, decode document.reread = .ok a ∧ change = k a)
    {change : Change} : decodeRecord record = .ok change ↔
      ∃ a, (document.Readable journalDecodeOptions 1 ∧ decode document.reread = .ok a) ∧ change = k a := by
  have hrecord := fun j => @recordPayload_iff record v j hv.proper hv.object hpayload hlen
  constructor
  · intro h
    obtain ⟨j, hj, -⟩ := decodeRecord_eq_ok.1 h
    obtain ⟨hread, rfl⟩ := (hrecord j).1 hj
    obtain ⟨a, ha, rfl⟩ := (hreader change).1 ((htype _ _ hj).1 h)
    exact ⟨a, ⟨(hv.readable roomy_journalDecodeOptions).1 hread, ha⟩, rfl⟩
  · rintro ⟨a, ⟨hread, ha⟩, rfl⟩
    exact (htype _ _ ((hrecord _).2 ⟨(hv.readable roomy_journalDecodeOptions).2 hread, rfl⟩)).2 ((hreader _).2 ⟨a, ha, rfl⟩)

section Types

variable {record : Ledger.Record} {j : Json} {change : Change}

theorem decodeRecord_contract_iff (ht : isContractRecord record.type = true) (hj : recordPayload record = .ok j) :
    decodeRecord record = .ok change ↔ decodeGeneration j = .ok change := by
  have hgenesis : record.type ≠ .genesis := fun he => by rw [he] at ht; cases ht
  rw [decodeRecord, hj]
  simp only [if_neg hgenesis, if_pos ht]

theorem decodeRecord_retired_iff (ht : record.type = .workloadRetired) (hj : recordPayload record = .ok j) :
    decodeRecord record = .ok change ↔ decodeRetirement j = .ok change := by
  rw [decodeRecord, hj, ht]
  exact Iff.rfl

theorem decodeRecord_evidence_iff (ht : record.type = .evidenceAttached) (hj : recordPayload record = .ok j) :
    decodeRecord record = .ok change ↔ decodeEvidence j = .ok change := by
  rw [decodeRecord, hj, ht]
  exact Iff.rfl

theorem decodeRecord_policy_iff (ht : record.type = .policyInstalled) (hj : recordPayload record = .ok j) :
    decodeRecord record = .ok change ↔ decodePolicy j = .ok change := by
  rw [decodeRecord, hj, ht]
  exact Iff.rfl

end Types

theorem exists_eq_and_change {α : Type} {P : Prop} {a₀ : α} {k : α → Change} {change : Change} :
    (∃ a, (a = a₀ ∧ P) ∧ change = k a) ↔ change = k a₀ ∧ P := by
  constructor
  · rintro ⟨a, ⟨rfl, h⟩, rfl⟩
    exact ⟨rfl, h⟩
  · rintro ⟨rfl, h⟩
    exact ⟨_, ⟨rfl, h⟩, rfl⟩

section Effects

variable {around : Surroundings} {r : Runtime} {m : Mutation} {p : Planned}

theorem decodeRecord_submission {record : Ledger.Record} {c : Contract} {v : Json} {t : UInt64}
    (hfits : ∀ q ∈ c.body.requirements, RequirementFits q) (hv : Holding v "contract" (contractToJson c))
    (hrecorded : v.reread.find (utf8 "recorded_at_millis") = some (jsonUint t)) (ht : isContractRecord record.type = true)
    (hpayload : record.payload = v.dump) (hlen : v.dump.length ≤ Ledger.maxRecordBytes) {change : Change} :
    decodeRecord record = .ok change ↔ change = .generation c.documented t ∧ c.Recordable := by
  rw [hv.decodes hpayload hlen (fun j change hj => decodeRecord_contract_iff ht hj) (k := fun d => .generation d t)
    fun change => decodeGeneration_iff hv.found hrecorded, reread_contractToJson hfits]
  simp only [contract_recordable_iff roomy_journalDecodeOptions (le_refl 1)]
  exact exists_eq_and_change

/-- The record of a mutation that passed its checks is decoded, to what the mutation did, exactly when the mutation is
recordable. -/
theorem Effect.decodes_iff (h : Effect around r m p) {record : Ledger.Record} (ht : record.type = p.type)
    (hpayload : record.payload = p.payload.dump) (hlen : p.payload.dump.length ≤ Ledger.maxRecordBytes)
    {change : Change} : decodeRecord record = .ok change ↔ change = m.change around r ∧ m.Recordable around r := by
  have ho := roomy_journalDecodeOptions
  cases h with
  | registerWorkload hreg =>
    exact decodeRecord_submission (valid_spec hreg.valid).2 holding_registration
      (by simp [Runtime.registrationPayload, Json.find_put, jsonUint]) (by rw [ht]; rfl) hpayload hlen
  | publish hpub =>
    exact decodeRecord_submission (valid_spec hpub.valid).2 holding_publication
      (by simp [Runtime.publicationPayload, Json.find_put, jsonUint]) (by rw [ht]; rfl) hpayload hlen
  | attachEvidence _ =>
    rw [holding_evidence.decodes hpayload hlen (fun j change hj => decodeRecord_evidence_iff ht hj)
      fun change => decodeEvidence_iff holding_evidence.found]
    simp only [evidence_recordable_iff ho (le_refl 1)]
    exact exists_eq_and_change
  | installPolicy =>
    rw [holding_policy.decodes hpayload hlen (fun j change hj => decodeRecord_policy_iff ht hj)
      fun change => decodePolicy_iff holding_policy.found]
    simp only [policy_recordable_iff ho (show 1 ≤ 4 by decide)]
    exact exists_eq_and_change
  | @retire id w hfound hactive =>
    have hproper : (Runtime.retirementPayload (around.clock 0) id).Proper := by
      unfold Runtime.retirementPayload
      repeat' first
        | exact trivial
        | apply Json.Proper.put
    have hread : (Runtime.retirementPayload (around.clock 0) id).Readable journalDecodeOptions 0 := by
      unfold Runtime.retirementPayload
      repeat' first
        | exact ho.null (by decide)
        | exact ho.uint (by decide)
        | exact ho.text (by decide) (isText_view _)
        | decide
        | refine ho.put ?_ ?_ ?_
    have hfind : (Runtime.retirementPayload (around.clock 0) id).reread.find (utf8 "workload") =
        some (.string id.view) := by simp [Runtime.retirementPayload, Json.find_put]
    have hj := (recordPayload_iff hproper (Json.isObject_put _ _ _) hpayload hlen).2 ⟨hread, rfl⟩
    rw [decodeRecord_retired_iff ht hj, decodeRetirement, hfind]
    simp only [Id.parse_view, Except.ok.injEq]
    exact ⟨fun h => ⟨h.symm, trivial⟩, fun h => h.1.symm⟩

/-- A state with the history of the live one takes what a mutation of the live one did. -/
theorem Effect.applies (h : Effect around r m p) (hchained : r.state.workloads.All WorkloadState.Chained)
    {s : RuntimeState} (hs : s.SameHistory r.state) : ∃ s', s.apply (m.change around r) = .ok s' := by
  have hgeneration : ∀ (c : Contract) (t : UInt64),
      ¬((s.workloads.find? c.body.workload.id).getD {}).generations.getLast?.any
        (fun g => g.generation == c.body.generation) = true → ∃ s', s.apply (.generation c t) = .ok s' :=
    fun c t hnew => ⟨_, if_neg hnew⟩
  cases h with
  | @registerWorkload c hreg =>
    refine hgeneration c.documented _ ?_
    have hnone : s.workloads.find? c.documented.body.workload.id = none := hs.symm.absent hreg.new
    rw [hnone]
    exact Bool.false_ne_true
  | @publish c w publisher hpub =>
    refine hgeneration c.documented _ ?_
    obtain ⟨w', hw', hcore⟩ := hs.symm.find hpub.found
    have hfound : s.workloads.find? c.documented.body.workload.id = some w' := hw'
    have hchain := congrArg Prod.snd hcore
    have hc := hchained _ _ hpub.found
    obtain ⟨g, hlast, hg, hpos⟩ := (hc.of_chain hchain.symm).last
    have hnumber := ((hc.of_chain hchain.symm).numbered _ g hg).1
    have hlength := WorkloadState.length_of_chain hchain
    have hnext := hc.next
    have hbody : c.documented.body.generation = w.contractGeneration + 1 := hpub.generation
    rw [hfound, Option.getD_some, hlast, Option.any_some, beq_iff_eq, hbody, ← UInt64.toNat_inj, hnext]
    omega
  | attachEvidence _ => exact ⟨_, rfl⟩
  | installPolicy => exact ⟨_, rfl⟩
  | @retire id w hfound hactive =>
    obtain ⟨w', hw', -⟩ := hs.symm.find hfound
    unfold Mutation.change RuntimeState.apply
    simp only [hw']
    exact ⟨_, rfl⟩

end Effects

/-! ## Journals that can be replayed -/

/-- A record of an entry, whatever the frame around it says. -/
def Ledger.Entry.record (e : Ledger.Entry) : Ledger.Record := ⟨0, e.type, e.payload, .zero, .zero, .zero⟩

theorem map_entry_record (journal : List Ledger.Entry) :
    (journal.map Ledger.Entry.record).map Ledger.Record.entry = journal := by
  rw [List.map_map]
  exact List.map_id _

theorem replayRecord_eq_ok {s s' : RuntimeState} {record : Ledger.Record} {change : Change}
    (hdecode : decodeRecord record = .ok change) : replayRecord s record = .ok s' ↔ s.apply change = .ok s' := by
  rw [replayRecord, hdecode]

theorem replay_snoc_eq_ok {records : List Ledger.Record} {record : Ledger.Record} {state : RuntimeState} :
    replay (records ++ [record]) {} = .ok state ↔
      ∃ middle, replay records {} = .ok middle ∧ replayRecord middle record = .ok state := by
  have hsingle : ∀ middle, replay [record] middle = .ok state ↔ replayRecord middle record = .ok state := by
    intro middle
    show (replayRecord middle record >>= replay []) = .ok state ↔ _
    rw [bind_eq_ok]
    exact ⟨fun ⟨_, h, h'⟩ => by cases h'; exact h, fun h => ⟨_, h, rfl⟩⟩
  rw [replay_append]
  show (replay records {} >>= replay [record]) = .ok state ↔ _
  simp only [bind_eq_ok, hsingle]

namespace System

/-- The records of the accepted mutations can be replayed, under whatever sequences and times they are read. -/
def Replayable (s : System) : Prop :=
  ∀ records, records.map Ledger.Record.entry = s.journal → ∃ state, replay records {} = .ok state

/-- A mutation that is refused or recordable. -/
def Takes (s : System) : Event → Prop
  | .mutate around m => (m.perform around s.runtime s.dir).1.ok = true → m.Recordable around s.runtime
  | .reopen _ => True

variable {s t : System}

/-- An accepted mutation has one record. -/
theorem journal_of_accepted {around : Surroundings} {m : Mutation} (h : (m.perform around s.runtime s.dir).1.ok = true) :
    ∃ e, (s.mutate around m).journal = s.journal ++ [e] := by
  rcases s.mutate_planned around m with ⟨l, dir, left, hrefused, -⟩ | ⟨p, l, dir, -, -, -, heq⟩
  · exact Bool.noConfusion (h.symm.trans hrefused)
  · exact ⟨_, by rw [heq]⟩

/-- It is enough that some records of the journal can be. -/
theorem replays_of_records {records : List Ledger.Record} (hrecords : records.map Ledger.Record.entry = s.journal) :
    s.Replayable ↔ ∃ state, replay records {} = .ok state :=
  ⟨fun h => h records hrecords, fun ⟨state, h⟩ _ hothers => ⟨state, replay_of_entries (hrecords.trans hothers.symm) h⟩⟩

theorem replays_of_journal (h : t.journal = s.journal) : t.Replayable ↔ s.Replayable := by
  unfold Replayable
  rw [h]

/-- The accepted records can be replayed after a mutation exactly when they could be before it and the mutation, where it
is accepted, is recordable. -/
theorem replays_mutate_iff {T : TrustSet → Prop} (hi : s.Inv T WorkloadState.Chained) (around : Surroundings)
    (m : Mutation) : (s.mutate around m).Replayable ↔ s.Replayable ∧ s.Takes (.mutate around m) := by
  rcases s.mutate_cases around m with ⟨l, dir, left, hok, heq⟩ | ⟨p, l, dir, hok, heffect, hlen, heq⟩
  · have htakes : s.Takes (.mutate around m) := fun h => Bool.noConfusion (hok.symm.trans h)
    rw [and_iff_left htakes]
    exact replays_of_journal (by rw [heq])
  · have hjournal : (s.mutate around m).journal = s.journal ++ [⟨p.type, p.payload.dump⟩] := by rw [heq]
    have hdecodes : ∀ record : Ledger.Record, record.entry = ⟨p.type, p.payload.dump⟩ → ∀ change,
        decodeRecord record = .ok change ↔ change = m.change around s.runtime ∧ m.Recordable around s.runtime :=
      fun record hentry change => heffect.decodes_iff (congrArg Ledger.Entry.type hentry)
        (congrArg Ledger.Entry.payload hentry) hlen
    unfold Replayable
    rw [hjournal]
    constructor
    · intro h
      have hsnoc : ∀ (records : List Ledger.Record) (record : Ledger.Record), records.map Ledger.Record.entry = s.journal →
          record.entry = ⟨p.type, p.payload.dump⟩ → ∃ state, replay (records ++ [record]) {} = .ok state :=
        fun records record hrecords hrecord => h _ (by rw [List.map_append, hrecords, List.map_singleton, hrecord])
      constructor
      · intro records hrecords
        obtain ⟨state, hreplay⟩ := hsnoc records (Ledger.Entry.record ⟨p.type, p.payload.dump⟩) hrecords rfl
        obtain ⟨middle, hmiddle, -⟩ := replay_snoc_eq_ok.1 hreplay
        exact ⟨middle, hmiddle⟩
      · intro _
        obtain ⟨state, hreplay⟩ :=
          hsnoc _ (Ledger.Entry.record ⟨p.type, p.payload.dump⟩) (map_entry_record s.journal) rfl
        obtain ⟨middle, -, hrecord⟩ := replay_snoc_eq_ok.1 hreplay
        obtain ⟨change, hdecode, -⟩ := replayRecord_ok hrecord
        exact ((hdecodes _ rfl change).1 hdecode).2
    · rintro ⟨h, htakes⟩ records hrecords
      obtain ⟨before, tail, rfl, hbefore, htail⟩ := List.map_eq_append_iff.1 hrecords
      obtain ⟨last, rfl, hlast⟩ := List.map_eq_singleton_iff.1 htail
      obtain ⟨middle, hmiddle⟩ := h before hbefore
      obtain ⟨state, happly⟩ := heffect.applies hi.workloads (hi.replayed before middle hbefore hmiddle)
      have hdecode := (hdecodes last hlast _).2 ⟨rfl, htakes hok⟩
      exact ⟨state, replay_snoc_eq_ok.2 ⟨middle, hmiddle, (replayRecord_eq_ok hdecode).2 happly⟩⟩

/-- A mutation, and no other boot. -/
def Within : Event → Prop
  | .mutate _ _ => True
  | .reopen _ => False

/-- After mutations of one boot the accepted records can be replayed exactly when each mutation was refused or
recordable. -/
theorem replays_iff {s₀ : System} {before events : List Event} (hstart : s₀.Started)
    (hbefore : Run System.Step (fun _ _ => True) s₀ before s) (hs : s.Replayable)
    (hrun : Run System.Step (fun _ e => Within e) s events t) :
    t.Replayable ↔ Run System.Step (fun s e => Within e ∧ s.Takes e) s events t := by
  have hQ := historic_chained (fun _ => True)
  have hunder : ∀ e : Event, e.Under fun _ => True := fun e => by cases e <;> trivial
  refine hrun.guarded_iff (fun _ e _ hi _ hstep => hi.step hQ (hunder e) hstep) (fun s e t hi hg hstep => ?_)
    (hQ.run hstart trivial (hbefore.mono fun _ e _ => hunder e)) hs
  cases hstep with
  | mutate around m => exact replays_mutate_iff hi around m
  | reopen _ _ => exact hg.elim

end System

/-! ## A registration that is recordable -/

section Witness

set_option maxRecDepth 100000

theorem isolationContract_scopes : ∀ s ∈ isolationContract.body.scopes, s.name ≠ [] ∧ s.name.length ≤ maxNameBytes ∧
    s.parent.length ≤ maxNameBytes ∧ s.hasRank = false ∧ s.name.all (· < 0x80) = true ∧
    s.parent.all (· < 0x80) = true := by
  decide +kernel

theorem isolationContract_requirements : ∀ r ∈ isolationContract.body.requirements, r.scope.length ≤ maxNameBytes ∧
    r.key.length ≤ maxNameBytes ∧ r.value.length ≤ maxStringBytes ∧ r.preferredValue.length ≤ maxStringBytes ∧
    r.hasNumeric = false ∧ r.members.length ≤ maxMemberCount ∧ r.attributes = [] ∧
    [r.scope, r.key, r.value, r.preferredValue].all (fun s => s.all (· < 0x80)) = true := by
  decide +kernel

theorem isolationContract_documentable : isolationContract.body.Documentable := by
  have hattributes : AttributesDocumentable [] := ⟨Nat.zero_le _, fun _ ha => nomatch ha⟩
  refine ⟨by decide, ⟨by decide, by decide, by unfold NotNegative; decide⟩, by unfold NotNegative; decide,
    by unfold NotNegative; decide, ⟨by decide, by decide, by decide⟩, by decide, ⟨by decide +kernel, fun s hs => ?_⟩,
    ⟨by decide +kernel, fun r hr => ?_⟩⟩
  · obtain ⟨hnamed, hshort, hparent, hrank, -⟩ := isolationContract_scopes s hs
    exact ⟨hnamed, hshort, hparent, fun h => Bool.noConfusion (hrank.symm.trans h)⟩
  · obtain ⟨hscope, hkey, hvalue, hpreferred, hnumeric, hmembers, hnone, -⟩ := isolationContract_requirements r hr
    exact ⟨hscope, hkey, hvalue, hpreferred, fun h => Bool.noConfusion (hnumeric.symm.trans h), hmembers,
      hnone ▸ hattributes⟩

/-- A signed contract with the body of that one, under whatever identity and generation. -/
theorem recordable_of_isolation {c : Contract} {domain : Bytes} (id : ContractId) (generation : ContractGeneration)
    (hbody : c.body = { isolationContract.body with contractId := id, generation := generation })
    (hgeneration : NotNegative generation) (hsupersedes : NotNegative c.supersedes)
    (hdigest : bodyDigest c.body = c.digest) (hsigned : ∃ c₀, c = signed domain c₀) : c.Recordable := by
  have hname : maxNameBytes ≤ maxStringBytes := by decide
  have hd := isolationContract_documentable
  obtain ⟨c₀, rfl⟩ := hsigned
  have hkey : (signed domain c₀).envelope.keyId.length = sha256HexChars := Digest.length_hex _
  have hsignature : (signed domain c₀).envelope.signature.length = 32 := Digest.length_eq _
  have hissued : (signed domain c₀).envelope.issuedMillis = 0 := rfl
  refine ⟨⟨?_, ⟨hkey.le, by rw [hissued]; decide, by rw [hsignature]; decide⟩, hsupersedes, .inr hdigest.symm⟩,
    ⟨?_, ?_, fun s hs => ?_, fun r hr => ?_, isText_hex _, by rw [hsignature]; decide⟩, fun r hr hn => ?_⟩
  · rw [hbody]
    exact ⟨hd.schemaVersion, hd.workload, hgeneration, hd.policyGeneration, hd.version, hd.description, hd.scopes,
      hd.requirements⟩
  · rw [hbody]
    exact isText_ascii (show isolationContract.body.workload.name.all (· < 0x80) = true by decide)
      (hd.workload.name.trans hname)
  · rw [hbody]
    exact isText_nil
  · rw [hbody] at hs
    obtain ⟨-, hshort, hparent, -, hascii, hascii'⟩ := isolationContract_scopes s hs
    exact ⟨isText_ascii hascii (hshort.trans hname), isText_ascii hascii' (hparent.trans hname)⟩
  · rw [hbody] at hr
    obtain ⟨hscope, hkey, hvalue, hpreferred, -, -, hnone, hascii⟩ := isolationContract_requirements r hr
    simp only [List.all_cons, List.all_nil, Bool.and_true, Bool.and_eq_true] at hascii
    refine ⟨isText_ascii hascii.1 (hscope.trans hname), isText_ascii hascii.2.1 (hkey.trans hname),
      isText_ascii hascii.2.2.1 hvalue, isText_ascii hascii.2.2.2 hpreferred, ?_⟩
    rw [hnone]
    exact fun _ ha => nomatch ha
  · rw [hbody] at hr
    obtain ⟨-, -, -, -, hnumeric, -⟩ := isolationContract_requirements r hr
    exact Bool.noConfusion (hnumeric.symm.trans hn)

theorem isolationContract_recordable : isolationContract.Recordable :=
  recordable_of_isolation isolationContract.body.contractId 1 rfl (by unfold NotNegative; decide)
    (by unfold NotNegative; decide) (valid_spec isolationContract_checks.1).1 isolationContract_signed

theorem isolationSuccessor_recordable : isolationSuccessor.Recordable :=
  recordable_of_isolation isolationSuccessor.body.contractId 2 (by decide +kernel)
    (by unfold NotNegative; decide) (by unfold NotNegative; decide) (valid_spec isolation_supersedes.valid).1 ⟨_, rfl⟩

theorem stampedEvidence_recordable : stampedEvidence.Recordable := by
  have hattributes : CandidateAttributesDocumentable [] :=
    ⟨Nat.zero_le _, fun _ ha => absurd ha List.not_mem_nil, List.IsChain.nil⟩
  refine ⟨⟨by unfold IsPositive; decide, by unfold NotNegative; decide, ⟨by unfold NotNegative; decide, by decide⟩,
    ⟨by decide, fun entry he => ?_⟩, .inr (by decide +kernel)⟩, fun entry he => ?_, fun entry he d hd => ?_⟩
  · obtain rfl := List.mem_singleton.1 he
    refine ⟨⟨by decide, by decide⟩, by unfold NotNegative; decide, by unfold NotNegative; decide,
      ⟨by unfold NotNegative; decide, by decide⟩, rfl, fun d hd => ?_, fun s hs => ?_, hattributes⟩
    · exact absurd hd List.not_mem_nil
    · exact absurd hs List.not_mem_nil
  · obtain rfl := List.mem_singleton.1 he
    refine ⟨isText_ascii (by decide) (by decide), fun s hs => ?_, fun a ha => ?_⟩
    · exact absurd hs List.not_mem_nil
    · exact absurd ha List.not_mem_nil
  · obtain rfl := List.mem_singleton.1 he
    exact absurd hd List.not_mem_nil

/-- A boot on an empty directory accepts it. -/
theorem isolation_accepted : ∃ s : System,
    openRuntime .succeeds { trust := isolationTrust } .zero 0 (.fresh (utf8 "state")) = (.ok s.runtime, s.dir) ∧
      s.journal = [] ∧ s.unsettled = [] ∧
      ((Mutation.registerWorkload isolationContract).perform undisturbed s.runtime s.dir).1.ok = true ∧
      (s.mutate undisturbed (.registerWorkload isolationContract)).runtime.state.workloads.find? (.repeating 1) =
        some (registeredWorkload isolationContract 1) := by
  obtain ⟨r, head, hopen, hblank, -⟩ :=
    openRuntime_fresh { trust := isolationTrust } .zero 0 (show utf8 "state" ≠ [] by decide +kernel)
  have hregisters : ∀ s : System, s.runtime = r →
      ((Mutation.registerWorkload isolationContract).perform undisturbed s.runtime s.dir).1.ok = true ∧
        (s.mutate undisturbed (.registerWorkload isolationContract)).runtime.state.workloads.find? (.repeating 1) =
          some (registeredWorkload isolationContract 1) := by
    rintro s rfl
    obtain ⟨hok, l, hafter, -⟩ := hblank.registers isolationContract_signed isolationContract_checks.1 rfl rfl
      isolationContract_checks.2 s.dir
    refine ⟨hok, ?_⟩
    rw [System.mutate_runtime, hafter]
    exact SortedMap.find?_set_self _ _ _
  exact ⟨⟨r, _, [], []⟩, hopen, rfl, rfl, hregisters _ rfl⟩

/-- The same boot supersedes it, and attaches evidence. -/
theorem isolation_succeeded : ∃ s : System,
    openRuntime .succeeds { trust := isolationTrust } .zero 0 (.fresh (utf8 "state")) = (.ok s.runtime, s.dir) ∧
      s.journal = [] ∧ s.unsettled = [] ∧
      let registered := s.mutate undisturbed (.registerWorkload isolationContract)
      let published := registered.mutate undisturbed (.publish isolationSuccessor)
      ((Mutation.registerWorkload isolationContract).perform undisturbed s.runtime s.dir).1.ok = true ∧
        ((Mutation.publish isolationSuccessor).perform undisturbed registered.runtime registered.dir).1.ok = true ∧
        ((Mutation.attachEvidence isolationEvidence).perform undisturbed published.runtime published.dir).1.ok = true ∧
        isolationEvidence.stamp published.runtime.info undisturbed.clock = stampedEvidence ∧
        published.runtime.Current ((registeredWorkload isolationContract 1).publish isolationSuccessor 1)
          isolationSuccessor 13 := by
  obtain ⟨s, hopen, hstart, hblank, hstate, hincarnation, hepoch⟩ := isolation_opened
  have hregistered := System.current_register hblank (show isolationContract.body.workload.id = .repeating 1 from rfl)
    isolationContract_signed isolationContract_checks.1 rfl rfl isolationContract_checks.2
  have hpublished := System.current_publish hregistered isolation_supersedes (by decide)
  have hinfo := (System.mutate_info (s.mutate undisturbed (.registerWorkload isolationContract)) undisturbed
    (.publish isolationSuccessor)).trans (s.mutate_info undisturbed (.registerWorkload isolationContract))
  have hfloor := (System.mutate_floor (s.mutate undisturbed (.registerWorkload isolationContract)) undisturbed
    (m := .publish isolationSuccessor) fun _ => Mutation.noConfusion).trans
      (s.mutate_floor undisturbed (m := .registerWorkload isolationContract) fun _ => Mutation.noConfusion)
  have hzero : s.floor = 0 := by
    unfold System.floor
    rw [hstate]
  have hincarnation' := (congrArg RuntimeInfo.incarnation hinfo).trans hincarnation
  have hepoch' := (congrArg RuntimeInfo.epoch hinfo).trans hepoch
  exact ⟨s, hopen, hstart.journal, hstart.unsettled,
    (hblank.registers isolationContract_signed isolationContract_checks.1 rfl rfl isolationContract_checks.2 s.dir).1,
    (hregistered.publishes isolation_supersedes (by decide) _).1,
    System.attaches hpublished.trust hpublished.room hincarnation' hepoch' (hfloor.trans hzero),
    EvidenceSet.stamp_congr hincarnation' hepoch' _ _, hpublished⟩

theorem System.replays_nil {s : System} (h : s.journal = []) : s.Replayable := fun records hrecords => by
  rw [h] at hrecords
  rw [List.map_eq_nil_iff.1 hrecords]
  exact ⟨{}, rfl⟩

theorem replays_iff_registered : ∃ s : System,
    (s.mutate undisturbed (.registerWorkload isolationContract)).journal.length = 1 ∧
      (s.mutate undisturbed (.registerWorkload isolationContract)).Replayable := by
  obtain ⟨⟨r, dir, journal, unsettled⟩, hopen, rfl, rfl, hok, -⟩ := isolation_accepted
  have hstart := started_of_fresh hopen
  have hwithin : System.Within (.mutate undisturbed (.registerWorkload isolationContract)) := trivial
  have hreplays := (System.replays_iff hstart (.nil _) (System.replays_nil hstart.journal)
    (.cons hwithin (.mutate _ _ _) (.nil _))).2
    (.cons ⟨hwithin, fun _ => isolationContract_recordable⟩ (.mutate _ _ _) (.nil _))
  obtain ⟨e, hjournal⟩ := System.journal_of_accepted hok
  exact ⟨_, by rw [hjournal, List.nil_append, List.length_singleton], hreplays⟩

end Witness

end Wnc
