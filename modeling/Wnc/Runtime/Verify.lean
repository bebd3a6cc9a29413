/-
The audit of a history: every record of a contract that the journal holds must be among the generations of the index. A
runtime whose directory reads as what it wrote has them all, in every history, so an audit never finds the journal and
the index in disagreement: it fails only on a torn tail or on a record over the bounds of a document.
-/
import Wnc.Runtime.Durable
import Wnc.Runtime.Survival

namespace Wnc

open Lib

/-- The text of a value, empty when it is no string. -/
def Json.asString : Json → Bytes
  | .string text => text
  | _ => []

/-- The integer of a value, zero when it is none. -/
def Json.asInt : Json → Int64
  | .int i => i
  | _ => 0

namespace Runtime

/-- Whether a record of a contract is in the index. -/
def verifyRecord (state : RuntimeState) (record : Ledger.Record) : Except Failure Unit :=
  let place := utf8 "record " ++ toDecimal record.sequence.toNat
  if !isContractRecord record.type then .ok ()
  else
    match jsonDecode record.payload {} with
    | .error _ => .error ⟨.ledgerCorrupt, place ++ utf8 " is not canonical JSON"⟩
    | .ok payload =>
      match payload.find (utf8 "workload"), payload.find (utf8 "contract_generation"), payload.find (utf8 "digest") with
      | some workload, some generation, some digest =>
        match Id.parse workload.asString with
        | none => .error ⟨.ledgerCorrupt, place ++ utf8 " names an invalid workload"⟩
        | some id =>
          match state.workloads.find? id with
          | none => fail .indexMismatch "journal holds a contract for a workload the index does not"
          | some w =>
            if w.generations.any fun g =>
                g.generation == generation.asInt.toUInt64 && g.digest.hex == digest.asString then .ok ()
            else fail .indexMismatch "journal and index disagree about a contract generation"
      | _, _, _ => .error ⟨.ledgerCorrupt, place ++ utf8 " is missing contract fields"⟩

/-- The records in their order, up to the first that fails. -/
def verifyRecords (state : RuntimeState) : List Ledger.Record → Except Failure Unit
  | [] => .ok ()
  | record :: rest =>
    match verifyRecord state record with
    | .error f => .error f
    | .ok () => verifyRecords state rest

/-- Whether the journal reads in full and the index has every contract that it holds. -/
def verifyHistory (r : Runtime) (dir : Directory) : Except Failure Unit :=
  match Ledger.readAll dir with
  | .error f => .error f
  | .ok (records, report) =>
    if report.recovered then .error ⟨.ledgerTruncated, utf8 "journal has a torn tail: " ++ report.detail⟩
    else verifyRecords r.state records

end Runtime

/-! ## Records that are indexed -/

/-- The record of a contract, and the generation of a state that it is the record of. -/
structure Ledger.Entry.Names (e : Ledger.Entry) (state : RuntimeState) (v : Json) (c : Contract) (t : UInt64)
    (w : WorkloadState) (g : GenerationRecord) : Prop where
  holding : Holding v "contract" (contractToJson c)
  fits : ∀ q ∈ c.body.requirements, RequirementFits q
  payload : e.payload = v.dump
  length_le : v.dump.length ≤ Ledger.maxRecordBytes
  recorded : v.reread.find (utf8 "recorded_at_millis") = some (jsonUint t)
  workload : v.reread.find (utf8 "workload") = some (.string c.body.workload.id.view)
  generation : v.reread.find (utf8 "contract_generation") = some (jsonUint g.generation)
  digest : v.reread.find (utf8 "digest") = some (.string g.digest.hex)
  found : state.workloads.find? c.body.workload.id = some w
  retained : g ∈ w.generations

/-- Every contract that an entry records is in the index. -/
def Ledger.Entry.Indexed (e : Ledger.Entry) (state : RuntimeState) : Prop :=
  isContractRecord e.type = true → ∃ v c t w g, e.Names state v c t w g

/-- What is indexed stays so while nothing is taken away. -/
theorem Ledger.Entry.Indexed.extends {e : Ledger.Entry} {s t : RuntimeState} (h : e.Indexed s) (hst : s.Extends t) :
    e.Indexed t := by
  intro ht
  obtain ⟨v, c, time, w, g, hn⟩ := h ht
  obtain ⟨w', hw', hextends⟩ := hst _ w hn.found
  obtain ⟨i, hi⟩ := List.getElem?_of_mem hn.retained
  obtain ⟨g', hg', hcontent⟩ := hextends.generation hi
  have hgeneration : g'.generation = g.generation := congrArg Prod.fst hcontent
  have hdigest : g'.digest = g.digest := congrArg (fun content => content.2.1) hcontent
  exact ⟨v, c, time, w', g', { hn with
    generation := hgeneration ▸ hn.generation
    digest := hdigest ▸ hn.digest
    found := hw'
    retained := List.mem_of_getElem? hg' }⟩

/-- The record of a mutation is indexed by what the mutation makes of the state. -/
theorem Effect.indexed {around : Surroundings} {r : Runtime} {m : Mutation} {p : Planned} (h : Effect around r m p)
    (hlen : p.payload.dump.length ≤ Ledger.maxRecordBytes) :
    Ledger.Entry.Indexed ⟨p.type, p.payload.dump⟩ p.state := by
  intro ht
  cases h with
  | @registerWorkload c hreg =>
    refine ⟨_, c, around.clock 0, registeredWorkload c (around.clock 1), generationOf c (around.clock 1),
      holding_registration, (valid_spec hreg.valid).2, rfl, hlen, ?_, ?_, ?_, ?_, SortedMap.find?_set_self _ _ _,
      List.mem_singleton_self _⟩
    all_goals simp [Runtime.registrationPayload, Json.find_put, generationOf, reread_jsonUint]
  | @publish c w publisher hpub =>
    refine ⟨_, c, around.clock 0, w.publish c (around.clock 1), generationOf c (around.clock 1), holding_publication,
      (valid_spec hpub.valid).2, rfl, hlen, ?_, ?_, ?_, ?_, SortedMap.find?_set_self _ _ _,
      List.mem_append_right _ (List.mem_singleton_self _)⟩
    all_goals simp [Runtime.publicationPayload, Json.find_put, generationOf, reread_jsonUint]
  | attachEvidence _ => cases ht
  | installPolicy => cases ht
  | retire _ _ => cases ht

/-- Every record of a journal is indexed, and so is every record that an open may read back instead. -/
structure System.Indexed (s : System) : Prop where
  history : s.Inv (fun _ => True) WorkloadState.Chained
  journal : ∀ e ∈ s.journal, e.Indexed s.runtime.state
  left : s.Leaves fun written state => ∀ e ∈ written, e.Indexed state

/-- What a refused mutation may leave is indexed. -/
theorem System.Indexed.refused {s : System} (h : s.Indexed) (around : Surroundings) (m : Mutation) :
    (s.mutate around m).Leaves fun written state => ∀ e ∈ written, e.Indexed state := by
  refine h.left.mutate fun _ p hplan hlen records state hreads hreplay e he => ?_
  have heffect := effect_of_plan hplan
  rcases h.history.stands_for (historic_chained _) heffect hlen hreads hreplay with ⟨hjournal, hsame⟩ |
    ⟨before, last, middle, hbefore, hmiddle, hmiddleSame, htype, hpayload, hrecord, hsame⟩
  · exact (h.journal e (hjournal ▸ he)).extends (.of_sameHistory hsame.symm)
  · refine Ledger.Entry.Indexed.extends ?_ (.of_sameHistory hsame.symm)
    rcases hreads with hreads | hreads
    · have hjournal : records.map Ledger.Record.entry = s.journal := hreads
      exact (h.journal e (hjournal ▸ he)).extends heffect.extends
    · rw [hreads] at he
      rcases List.mem_append.1 he with he | he
      · exact (h.journal e he).extends heffect.extends
      · rw [List.mem_singleton.1 he]
        exact heffect.indexed hlen

theorem System.Indexed.step {s t : System} {event : Event} (h : s.Indexed) (hstep : System.Step s event t) :
    t.Indexed := by
  have hhistory : t.Inv (fun _ => True) WorkloadState.Chained :=
    h.history.step (historic_chained _) (by cases event <;> trivial) hstep
  cases hstep with
  | mutate around m =>
    have hleft := h.refused around m
    rcases s.mutate_cases around m with ⟨l, dir, left, -, heq⟩ | ⟨p, l, dir, -, heffect, hlen, heq⟩
    · rw [heq] at hhistory hleft ⊢
      exact ⟨hhistory, h.journal, hleft⟩
    · rw [heq] at hhistory hleft ⊢
      refine ⟨hhistory, fun e he => ?_, hleft⟩
      rcases List.mem_append.1 he with he | he
      · exact (h.journal e he).extends heffect.extends
      · rw [List.mem_singleton.1 he]
        exact heffect.indexed hlen
  | @reopen options r dir records hopen hwrote =>
    obtain ⟨state, hreplay, hstate, -⟩ := hopen.spec
    have hindexed : ∀ e ∈ records.map Ledger.Record.entry, e.Indexed state :=
      h.left.wrote hwrote hreplay fun hjournal e he => (h.journal e (hjournal ▸ he)).extends
        (.of_sameHistory (h.history.replayed records state hjournal hreplay).symm)
    refine ⟨hhistory, fun e he => (hindexed e he).extends (.of_sameHistory ?_), System.leaves_nil rfl _⟩
    show RuntimeState.SameHistory _ r.state
    rw [hstate]
    exact (RuntimeState.sameHistory_clearDecisions state).symm

theorem System.indexed_run {s₀ s : System} {events : List Event} (hstart : s₀.Started)
    (hrun : Run System.Step (fun _ _ => True) s₀ events s) : s.Indexed := by
  refine hrun.invariant System.Indexed (fun _ _ _ h _ hstep => h.step hstep)
    ⟨hstart.inv trivial, fun e he => ?_, System.leaves_nil hstart.unsettled _⟩
  rw [hstart.journal] at he
  cases he

/-! ## The audit -/

/-- A record of a contract is within the bounds of a document. -/
def Ledger.Record.Documented (record : Ledger.Record) : Prop :=
  isContractRecord record.type = true → ∃ payload, jsonDecode record.payload {} = .ok payload

section Documented

variable {record : Ledger.Record} {state : RuntimeState} {v : Json} {c : Contract} {t : UInt64} {w : WorkloadState}
  {g : GenerationRecord}

theorem Ledger.Entry.Names.decoded (h : record.entry.Names state v c t w g) :
    (v.Readable {} 0 ∧ jsonDecode record.payload {} = .ok v.reread) ∨
      (¬v.Readable {} 0 ∧ ∃ e, jsonDecode record.payload {} = .error e) := by
  have hpayload : record.payload = v.dump := h.payload
  have htext : v.dump = v.text := Json.dump_eq_text (h.length_le.trans (by decide))
  have hlen : v.text.length ≤ ({} : JsonDecodeOptions).maxBytes := htext ▸ h.length_le
  rw [hpayload, htext]
  exact jsonDecode_text h.holding.proper hlen fun h => nomatch h

/-- An indexed record that is replayed is within the bounds of a document. -/
theorem Ledger.Entry.Indexed.documented (h : record.entry.Indexed state) {change : Change}
    (hdecode : decodeRecord record = .ok change) : record.Documented := by
  intro ht
  obtain ⟨v, c, t, w, g, hn⟩ := h ht
  obtain ⟨-, hrecordable⟩ := (decodeRecord_submission hn.fits hn.holding hn.recorded ht hn.payload hn.length_le).1 hdecode
  have ho : ({} : JsonDecodeOptions).Roomy := ⟨by decide, by decide⟩
  have hread : v.Readable {} 0 :=
    (hn.holding.readable ho).2 (readable_contractToJson ho (le_refl 1) hrecordable.textual hrecordable.numbers)
  rcases hn.decoded with ⟨-, heq⟩ | ⟨hunread, -⟩
  · exact ⟨_, heq⟩
  · exact (hunread hread).elim

end Documented

/-- Whatever is replayed was decoded. -/
theorem replay_decoded {records : List Ledger.Record} {s s' : RuntimeState} (h : replay records s = .ok s') :
    ∀ record ∈ records, ∃ change, decodeRecord record = .ok change := by
  induction records generalizing s with
  | nil => exact fun _ hr => nomatch hr
  | cons record rest ih =>
    obtain ⟨change, middle, hdecode, -, hrest⟩ := replay_cons_ok h
    exact List.forall_mem_cons.2 ⟨⟨change, hdecode⟩, ih hrest⟩

namespace Runtime

variable {state : RuntimeState}

/-- An indexed record passes the audit exactly when its payload is within the bounds of a document. -/
theorem verifyRecord_indexed {record : Ledger.Record} (h : record.entry.Indexed state) :
    (verifyRecord state record = .ok () ↔ record.Documented) ∧
      ∀ f, verifyRecord state record = .error f → f.code = .ledgerCorrupt := by
  unfold verifyRecord Ledger.Record.Documented
  cases ht : isContractRecord record.type with
  | false =>
    simp only [Bool.not_false, if_true]
    exact ⟨iff_of_true trivial fun h => Bool.noConfusion h, fun f hf => nomatch hf⟩
  | true =>
    obtain ⟨v, c, t, w, g, hn⟩ := h ht
    simp only [Bool.not_true, Bool.false_eq_true, if_false, forall_const]
    cases hdecode : jsonDecode record.payload {} with
    | error e =>
      refine ⟨iff_of_false (fun h => nomatch h) fun h => ?_, fun f hf => ?_⟩
      · obtain ⟨_, h⟩ := h
        cases h
      · cases hf
        rfl
    | ok payload =>
      obtain rfl : payload = v.reread := by
        rcases hn.decoded with ⟨-, heq⟩ | ⟨-, e, heq⟩
        · rw [heq] at hdecode
          exact (Except.ok.inj hdecode).symm
        · rw [heq] at hdecode
          cases hdecode
      have hmatched : (w.generations.any fun g' =>
          g'.generation == (jsonUint g.generation).asInt.toUInt64 && g'.digest.hex == g.digest.hex) = true := by
        refine List.any_eq_true.2 ⟨g, hn.retained, ?_⟩
        simp only [jsonUint, Json.asInt, toUInt64_jsonUint, beq_self_eq_true, Bool.and_self]
      simp only [hn.workload, hn.generation, hn.digest, Json.asString, Id.parse_view, hn.found, hmatched, if_true]
      exact ⟨iff_of_true trivial ⟨_, rfl⟩, fun f hf => nomatch hf⟩

theorem verifyRecords_indexed {records : List Ledger.Record} (h : ∀ record ∈ records, record.entry.Indexed state) :
    (verifyRecords state records = .ok () ↔ ∀ record ∈ records, record.Documented) ∧
      ∀ f, verifyRecords state records = .error f → f.code = .ledgerCorrupt := by
  induction records with
  | nil =>
    refine ⟨iff_of_true rfl fun _ h => ?_, fun f hf => ?_⟩
    · cases h
    · cases hf
  | cons record rest ih =>
    obtain ⟨hiff, hcode⟩ := verifyRecord_indexed (h record List.mem_cons_self)
    obtain ⟨hrest, hrestCode⟩ := ih fun record hr => h record (List.mem_cons_of_mem _ hr)
    rw [List.forall_mem_cons, ← hiff, ← hrest]
    simp only [verifyRecords]
    cases hr : verifyRecord state record with
    | error f =>
      refine ⟨iff_of_false (fun h => ?_) fun h => ?_, fun f' hf => ?_⟩
      · cases h
      · cases h.1
      · cases hf
        exact hcode f hr
    | ok u => exact ⟨⟨fun h => ⟨rfl, h⟩, fun h => h.2⟩, hrestCode⟩

end Runtime

/-- In every history, an audit of a directory that reads as what the history wrote passes exactly when the journal has
no torn tail and every contract that it records is within the bounds of a document, as it is when the journal can be
replayed. It never finds that the journal and the index disagree. -/
theorem verifyHistory_iff {s₀ s : System} {events : List Event} (hstart : s₀.Started)
    (hrun : Run System.Step (fun _ _ => True) s₀ events s) {records : List Ledger.Record} {report : Ledger.RecoveryReport}
    (hread : Ledger.readAll s.dir = .ok (records, report)) (hwrote : records.map Ledger.Record.entry = s.journal) :
    (s.runtime.verifyHistory s.dir = .ok () ↔ report.recovered = false ∧ ∀ record ∈ records, record.Documented) ∧
      ((∃ state, replay records {} = .ok state) →
        (s.runtime.verifyHistory s.dir = .ok () ↔ report.recovered = false)) ∧
      ∀ f, s.runtime.verifyHistory s.dir = .error f → f.code = .ledgerTruncated ∨ f.code = .ledgerCorrupt := by
  have hindexed : ∀ record ∈ records, record.entry.Indexed s.runtime.state := fun record hr =>
    (System.indexed_run hstart hrun).journal _ (hwrote ▸ List.mem_map_of_mem hr)
  have hpasses : s.runtime.verifyHistory s.dir = .ok () ↔
      report.recovered = false ∧ ∀ record ∈ records, record.Documented := by
    unfold Runtime.verifyHistory
    rw [hread, ← (Runtime.verifyRecords_indexed hindexed).1]
    cases hrecovered : report.recovered with
    | true =>
      simp only [hrecovered, if_true]
      refine iff_of_false (fun h => ?_) fun h => ?_
      · cases h
      · cases h.1
    | false => simp only [hrecovered, Bool.false_eq_true, if_false, true_and]
  refine ⟨hpasses, fun hreplay => ?_, fun f hf => ?_⟩
  · obtain ⟨state, hreplay⟩ := hreplay
    refine hpasses.trans (and_iff_left fun record hr => ?_)
    obtain ⟨change, hdecode⟩ := replay_decoded hreplay record hr
    exact (hindexed record hr).documented hdecode
  · unfold Runtime.verifyHistory at hf
    rw [hread] at hf
    simp only at hf
    split at hf
    · cases hf
      exact .inl rfl
    · exact .inr ((Runtime.verifyRecords_indexed hindexed).2 f hf)

/-- The history of a boot that registered a workload passes the audit. -/
theorem verifyHistory_iff_registered : ∃ s : System,
    (s.mutate undisturbed (.registerWorkload isolationContract)).journal.length = 1 ∧
      (s.mutate undisturbed (.registerWorkload isolationContract)).runtime.verifyHistory
        (s.mutate undisturbed (.registerWorkload isolationContract)).dir = .ok () := by
  obtain ⟨⟨r, dir, journal, unsettled⟩, hopen, rfl, rfl, hok, -⟩ := isolation_accepted
  have hstart := started_of_fresh hopen
  have hfirst := System.firstBoot_of_accepted hok
  have hstep := System.Step.mutate ⟨r, dir, [], []⟩ undisturbed (.registerWorkload isolationContract)
  obtain ⟨parts, hrecorded⟩ := recorded_run hopen (.cons hfirst hstep (.nil _))
  have hi := System.Started.inv (T := fun _ => True) (Q := WorkloadState.Chained) hstart trivial
  have hreplays := (System.replays_mutate_iff hi undisturbed
    (.registerWorkload isolationContract)).2 ⟨System.replays_nil rfl, fun _ => isolationContract_recordable⟩
  have hentries : (Ledger.recordsOf .start parts.flatten).map Ledger.Record.entry =
      (System.mutate ⟨r, dir, [], []⟩ undisturbed (.registerWorkload isolationContract)).journal := by
    rw [Ledger.map_entry_recordsOf]
    exact hrecorded.journal
  have hpasses := (verifyHistory_iff hstart (.cons trivial hstep (.nil _)) hrecorded.holds.readAll hentries).2.1
    (hreplays _ hentries)
  obtain ⟨e, hjournal⟩ := System.journal_of_accepted hok
  exact ⟨_, by rw [hjournal, List.nil_append, List.length_singleton], hpasses.2 hrecorded.holds.readFrames.regular⟩

end Wnc
