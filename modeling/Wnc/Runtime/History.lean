/-
Histories of a coordinator: mutations in any order, accepted or refused, between reopens from the journal they
wrote, those that cut it where an append failed included. What a replay rebuilds agrees with the live state on the
generations of every workload, so a property of generations that registrations establish and publications keep holds
in every state of every history.
-/
import Wnc.Runtime.Isolation
import Wnc.Runtime.Record

namespace Wnc

open Lib

/-! ## Systems -/

def Ledger.Record.entry (r : Ledger.Record) : Ledger.Entry := ⟨r.type, r.payload⟩

/-- What a failed append left in the journal, a part of a frame or all of it: the records before it, and the record that
it was for. -/
structure Remnant where
  before : List Ledger.Entry
  entry : Ledger.Entry

/-- A runtime and its directory, with the records of the accepted mutations, and what the appends that failed since the
open have left among them. -/
structure System where
  runtime : Runtime
  dir : Directory
  journal : List Ledger.Entry
  unsettled : List Remnant

inductive Event
  | mutate (around : Surroundings) (m : Mutation)
  | reopen (options : Options)

/-- A runtime that an open gave, from the records of its directory alone. -/
def OpenedFrom (options : Options) (r : Runtime) (dir : Directory) (records : List Ledger.Record) : Prop :=
  dir.snapshot = none ∧ (∃ report, Ledger.readAfter 0 dir = .ok (records, report)) ∧
    ∃ io incarnation startedAtMillis found, openRuntime io options incarnation startedAtMillis found = (.ok r, dir)

namespace System

/-- The record that a mutation hands to the ledger, if it gets there. -/
def record (s : System) (around : Surroundings) (m : Mutation) : List Ledger.Entry :=
  match m.plan around s.runtime with
  | .error _ => []
  | .ok p => if p.payload.dump.length ≤ Ledger.maxRecordBytes then [⟨p.type, p.payload.dump⟩] else []

/-- A mutation, accepted or refused. One that is refused may have grown the journal all the same. -/
def mutate (s : System) (around : Surroundings) (m : Mutation) : System :=
  let after := m.perform around s.runtime s.dir
  let grown := s.dir.journalBytes < after.2.2.journalBytes
  { runtime := after.2.1
    dir := after.2.2
    journal := if after.1.ok then s.journal ++ s.record around m else s.journal
    unsettled :=
      if after.1.ok = false ∧ grown then (s.record around m).map (Remnant.mk s.journal) ++ s.unsettled
      else s.unsettled }

theorem mutate_runtime (s : System) (around : Surroundings) (m : Mutation) :
    (s.mutate around m).runtime = (m.perform around s.runtime s.dir).2.1 := rfl

theorem mutate_dir (s : System) (around : Surroundings) (m : Mutation) :
    (s.mutate around m).dir = (m.perform around s.runtime s.dir).2.2 := rfl

end System

/-- An open cuts the journal at a frame that ends early, whatever was accepted behind it, so of a remnant the records
before it are read back, and its own with them when the frame is whole. -/
def Remnant.Reads (u : Remnant) (written : List Ledger.Entry) : Prop :=
  written = u.before ∨ written = u.before ++ [u.entry]

namespace System

/-- Records that an open may read back: those of the accepted mutations, or no more than those up to a remnant. -/
def Wrote (s : System) (written : List Ledger.Entry) : Prop :=
  written = s.journal ∨ ∃ u ∈ s.unsettled, u.Reads written

inductive Step : System → Event → System → Prop
  | mutate (s : System) (around : Surroundings) (m : Mutation) : Step s (.mutate around m) (s.mutate around m)
  | reopen {s : System} {options : Options} {r : Runtime} {dir : Directory} {records : List Ledger.Record}
      (hopen : OpenedFrom options r dir records) (hwrote : s.Wrote (records.map Ledger.Record.entry)) :
      Step s (.reopen options) ⟨r, dir, records.map Ledger.Record.entry, []⟩

/-- A system whose runtime was opened on a directory that holds no records. -/
structure Started (s : System) : Prop where
  opened : ∃ options, OpenedFrom options s.runtime s.dir []
  journal : s.journal = []
  unsettled : s.unsettled = []

end System

/-! ## What replay and live state agree on -/

/-- What is the same of a generation in memory and of the same generation replayed. -/
def GenerationRecord.core (g : GenerationRecord) : ContractGeneration × Digest × Bool × Contract :=
  (g.generation, g.digest, g.superseded, g.body.documented)

def WorkloadState.chain (w : WorkloadState) :
    ContractGeneration × Digest × List (ContractGeneration × Digest × Bool × Contract) :=
  (w.contractGeneration, w.digest, w.generations.map GenerationRecord.core)

def WorkloadState.core (w : WorkloadState) :
    Bool × ContractGeneration × Digest × List (ContractGeneration × Digest × Bool × Contract) := (w.retired, w.chain)

/-- States with the same workloads, each with the same generations. -/
def RuntimeState.SameHistory (s t : RuntimeState) : Prop :=
  ∀ id, (s.workloads.find? id).map WorkloadState.core = (t.workloads.find? id).map WorkloadState.core

namespace RuntimeState

theorem SameHistory.symm {s t : RuntimeState} (h : s.SameHistory t) : t.SameHistory s := fun id => (h id).symm

theorem SameHistory.trans {s t u : RuntimeState} (h : s.SameHistory t) (h' : t.SameHistory u) : s.SameHistory u :=
  fun id => (h id).trans (h' id)

/-- A workload of one state has its like in the other. -/
theorem SameHistory.find {s t : RuntimeState} (h : s.SameHistory t) {id : WorkloadId} {w : WorkloadState}
    (hw : s.workloads.find? id = some w) : ∃ w', t.workloads.find? id = some w' ∧ w'.core = w.core := by
  have hid := h id
  rw [hw, Option.map_some] at hid
  obtain ⟨w', hw', hcore⟩ := Option.map_eq_some_iff.1 hid.symm
  exact ⟨w', hw', hcore⟩

theorem SameHistory.absent {s t : RuntimeState} (h : s.SameHistory t) {id : WorkloadId}
    (hw : s.workloads.find? id = none) : t.workloads.find? id = none := by
  have hid := h id
  rw [hw, Option.map_none] at hid
  exact Option.map_eq_none_iff.1 hid.symm

theorem SameHistory.set {s t : RuntimeState} (h : s.SameHistory t) {w w' : WorkloadState} (hw : w.core = w'.core)
    (id : WorkloadId) :
    SameHistory { s with workloads := s.workloads.set id w } { t with workloads := t.workloads.set id w' } := by
  intro id'
  show ((s.workloads.set id w).find? id').map _ = ((t.workloads.set id w').find? id').map _
  rw [SortedMap.find?_set, SortedMap.find?_set]
  split
  · rw [Option.map_some, Option.map_some, hw]
  · exact h id'

theorem sameHistory_mapVal (s : RuntimeState) {f : WorkloadState → WorkloadState} (hf : ∀ w, (f w).core = w.core) :
    SameHistory { s with workloads := s.workloads.mapVal fun _ w => f w } s := by
  intro id
  show ((s.workloads.mapVal fun _ w => f w).find? id).map _ = _
  rw [SortedMap.find?_mapVal, Option.map_map]
  cases s.workloads.find? id with
  | none => rfl
  | some w => simp [hf w]

theorem sameHistory_attach (s : RuntimeState) (stamped : EvidenceSet) : (s.attach stamped).SameHistory s := by
  refine sameHistory_mapVal s fun w => ?_
  split <;> rfl

theorem sameHistory_replayEvidence (s : RuntimeState) (evidence : EvidenceSet) :
    (s.replayEvidence evidence).SameHistory s := by
  unfold replayEvidence
  split
  · refine sameHistory_mapVal s fun w => ?_
    split <;> rfl
  · exact fun _ => rfl

theorem sameHistory_installPolicy (s : RuntimeState) (policy : Policy) : (s.installPolicy policy).SameHistory s :=
  sameHistory_mapVal s fun _ => rfl

theorem sameHistory_clearDecisions (s : RuntimeState) : (clearDecisions s).SameHistory s :=
  sameHistory_mapVal s fun _ => rfl

end RuntimeState

theorem documentedReal_idem (d : Double) : documentedReal (documentedReal d) = documentedReal d := by
  have hzero : Double.zero.eq .zero = true := by decide
  unfold documentedReal
  by_cases h : d.eq .zero = true
  · simp only [if_pos h, if_pos hzero]
  · simp only [if_neg h]

theorem requirement_documented_idem (r : Requirement) : r.documented.documented = r.documented := by
  unfold Requirement.documented
  cases r.hasNumeric <;> simp [documentedReal_idem]

theorem scope_documented_idem (s : Scope) : s.documented.documented = s.documented := by
  unfold Scope.documented
  cases s.hasRank <;> rfl

theorem body_documented_idem (b : ContractBody) : b.documented.documented = b.documented := by
  unfold ContractBody.documented
  simp only [List.map_map, Function.comp_def, requirement_documented_idem, scope_documented_idem]

/-- A document is decoded to what is documented the same. -/
theorem documented_idem (c : Contract) : c.documented.documented = c.documented := by
  have hdigest : (if c.hasSupersedes then (if c.hasSupersedes then c.supersedesDigest else .zero) else .zero) =
      if c.hasSupersedes then c.supersedesDigest else Digest.zero := by
    split <;> rfl
  unfold Contract.documented
  simp only [body_documented_idem]
  congr 1

/-! ## Generations -/

/-- The generations of a workload: numbered from one, the last of them current and the others superseded, each
naming the one before it. -/
structure WorkloadState.Chained (w : WorkloadState) : Prop where
  nonempty : w.generations ≠ []
  retained : w.generations.length ≤ maxRetainedGenerations
  current : w.contractGeneration.toNat = w.generations.length
  digest : ∀ g : GenerationRecord, w.generations.getLast? = some g → w.digest = bodyDigest g.body.body
  numbered : ∀ (i : Nat) (g : GenerationRecord), w.generations[i]? = some g → g.generation.toNat = i + 1 ∧ g.body.body.generation = g.generation
  digests : ∀ (i : Nat) (g : GenerationRecord), w.generations[i]? = some g → g.digest = bodyDigest g.body.body
  linked : ∀ (i : Nat) (g h : GenerationRecord), w.generations[i]? = some g → w.generations[i + 1]? = some h →
    h.body.hasSupersedes = true ∧ h.body.supersedes = g.generation ∧ h.body.supersedesDigest = g.digest
  publisher : ∀ (i : Nat) (f g : GenerationRecord), w.generations[0]? = some f → w.generations[i]? = some g →
    g.body.envelope.publisher = f.body.envelope.publisher ∧ g.body.body.major = f.body.body.major
  superseded : ∀ (i : Nat) (g : GenerationRecord), w.generations[i]? = some g → (g.superseded = true ↔ i + 1 < w.generations.length)

/-- The generations of workloads with one chain correspond. -/
theorem WorkloadState.generation_of_chain {w w' : WorkloadState} (h : w.chain = w'.chain) {i : Nat} {g' : GenerationRecord}
    (hg : w'.generations[i]? = some g') : ∃ g, w.generations[i]? = some g ∧ g.core = g'.core := by
  have hlist : w.generations.map GenerationRecord.core = w'.generations.map GenerationRecord.core :=
    congrArg (fun c => c.2.2) h
  have hi := congrArg (fun l => l[i]?) hlist
  simp only [List.getElem?_map, hg, Option.map_some] at hi
  exact Option.map_eq_some_iff.1 hi

theorem WorkloadState.length_of_chain {w w' : WorkloadState} (h : w.chain = w'.chain) :
    w.generations.length = w'.generations.length := by
  have hlist : w.generations.map GenerationRecord.core = w'.generations.map GenerationRecord.core :=
    congrArg (fun c => c.2.2) h
  simpa using congrArg List.length hlist

/-- What generations with one core have in common. -/
structure GenerationRecord.Alike (g g' : GenerationRecord) : Prop where
  generation : g.generation = g'.generation
  digest : g.digest = g'.digest
  superseded : g.superseded = g'.superseded
  document : g.body.documented = g'.body.documented

theorem GenerationRecord.alike_of_core {g g' : GenerationRecord} (h : g.core = g'.core) : g.Alike g' :=
  ⟨congrArg (fun c => c.1) h, congrArg (fun c => c.2.1) h, congrArg (fun c => c.2.2.1) h, congrArg (fun c => c.2.2.2) h⟩

namespace GenerationRecord.Alike

variable {g g' : GenerationRecord} (h : g.Alike g')

include h

theorem bodyDigest_eq : bodyDigest g.body.body = bodyDigest g'.body.body := by
  have := congrArg Contract.digest h.document
  exact (bodyDigest_documented _).symm.trans (this.trans (bodyDigest_documented _))

theorem bodyGeneration : g.body.body.generation = g'.body.body.generation := by
  have hd := congrArg (fun c : Contract => c.body.generation) h.document
  exact hd

theorem major : g.body.body.major = g'.body.body.major := by
  have hd := congrArg (fun c : Contract => c.body.major) h.document
  exact hd

theorem envelope : g.body.envelope = g'.body.envelope := by
  have hd := congrArg Contract.envelope h.document
  exact hd

theorem supersedes : g.body.supersedes = g'.body.supersedes := by
  have hd := congrArg Contract.supersedes h.document
  exact hd

theorem hasSupersedes : g.body.hasSupersedes = g'.body.hasSupersedes := by
  rw [Contract.hasSupersedes, Contract.hasSupersedes, h.supersedes]

theorem supersedesDigest (hs : g'.body.hasSupersedes = true) : g.body.supersedesDigest = g'.body.supersedesDigest := by
  have hd := congrArg Contract.supersedesDigest h.document
  simp only [Contract.documented] at hd
  rwa [if_pos (by rw [h.hasSupersedes, hs]), if_pos hs] at hd

end GenerationRecord.Alike

theorem WorkloadState.getLast?_of_chain {w w' : WorkloadState} (h : w.chain = w'.chain) {g' : GenerationRecord}
    (hg : w'.generations.getLast? = some g') : ∃ g, w.generations.getLast? = some g ∧ g.core = g'.core := by
  rw [List.getLast?_eq_getElem?] at hg ⊢
  rw [WorkloadState.length_of_chain h]
  exact WorkloadState.generation_of_chain h hg

/-- Whether generations form a chain can be told from what replay preserves. -/
theorem WorkloadState.Chained.of_chain {w w' : WorkloadState} (hc : w.Chained) (h : w.chain = w'.chain) : w'.Chained := by
  have hlen := WorkloadState.length_of_chain h
  have hgen : ∀ {i : Nat} {g' : GenerationRecord}, w'.generations[i]? = some g' →
      ∃ g, w.generations[i]? = some g ∧ g.Alike g' := by
    intro i g' hg
    obtain ⟨g, hg, hcore⟩ := WorkloadState.generation_of_chain h hg
    exact ⟨g, hg, GenerationRecord.alike_of_core hcore⟩
  have hcurrent : w.contractGeneration = w'.contractGeneration := congrArg (fun c => c.1) h
  have hdigest : w.digest = w'.digest := congrArg (fun c => c.2.1) h
  constructor
  · intro he
    rw [he] at hlen
    exact hc.nonempty (List.length_eq_zero_iff.1 hlen)
  · rw [← hlen]; exact hc.retained
  · rw [← hcurrent, ← hlen]; exact hc.current
  · intro g' hg
    obtain ⟨g, hg, hcore⟩ := WorkloadState.getLast?_of_chain h hg
    rw [← hdigest, hc.digest g hg, (GenerationRecord.alike_of_core hcore).bodyDigest_eq]
  · intro i g' hg
    obtain ⟨g, hg, ha⟩ := hgen hg
    rw [← ha.generation, ← ha.bodyGeneration]
    exact hc.numbered i g hg
  · intro i g' hg
    obtain ⟨g, hg, ha⟩ := hgen hg
    rw [← ha.digest, ← ha.bodyDigest_eq]
    exact hc.digests i g hg
  · intro i f' g' hf hg
    obtain ⟨f, hf, haf⟩ := hgen hf
    obtain ⟨g, hg, hag⟩ := hgen hg
    obtain ⟨hs, hsupersedes, hsdigest⟩ := hc.linked i f g hf hg
    rw [hag.hasSupersedes] at hs
    rw [← hag.supersedes, ← haf.generation, ← haf.digest, ← hag.supersedesDigest hs]
    exact ⟨hs, hsupersedes, hsdigest⟩
  · intro i f' g' hf hg
    obtain ⟨f, hf, haf⟩ := hgen hf
    obtain ⟨g, hg, hag⟩ := hgen hg
    rw [← hag.envelope, ← haf.envelope, ← hag.major, ← haf.major]
    exact hc.publisher i f g hf hg
  · intro i g' hg
    obtain ⟨g, hg, ha⟩ := hgen hg
    rw [← ha.superseded, ← hlen]
    exact hc.superseded i g hg

/-! ## Replay follows the mutations -/

theorem validBody_of_valid {c : Contract} (h : (validateContract c).ok = true) :
    (validateContractBody c.body).ok = true := by
  have hd := validateContract_ok.1 h
  unfold contractDiagnostics at hd
  simp only [List.append_eq_nil_iff] at hd
  exact validateContractBody_ok.2 hd.1.1.1

theorem valid_spec {c : Contract} (h : (validateContract c).ok = true) :
    bodyDigest c.body = c.digest ∧ ∀ r ∈ c.body.requirements, RequirementFits r := by
  refine ⟨?_, fun r hr => requirementFits_of_valid (validBody_of_valid h) hr⟩
  have hd := validateContract_ok.1 h
  unfold contractDiagnostics at hd
  simp only [List.append_eq_nil_iff, diagnose_eq_nil] at hd
  simpa using hd.1.1.2

theorem documented_digest {c : Contract} (h : (validateContract c).ok = true) : c.documented.digest = c.digest := by
  rw [← (valid_spec h).1]
  exact bodyDigest_documented _

theorem replayRecord_ok {s s' : RuntimeState} {record : Ledger.Record} (h : replayRecord s record = .ok s') :
    ∃ change, decodeRecord record = .ok change ∧ s.apply change = .ok s' := by
  unfold replayRecord at h
  split at h
  · cases h
  · rename_i change hd
    exact ⟨change, hd, h⟩

theorem apply_generation_ok {s s' : RuntimeState} {c : Contract} {t : UInt64} (h : s.apply (.generation c t) = .ok s') :
    s' =
      { s with
        workloads := s.workloads.set c.body.workload.id
          (((s.workloads.find? c.body.workload.id).getD {}).replayGeneration c t) } := by
  unfold RuntimeState.apply at h
  simp only at h
  split at h
  · cases h
  · exact (Except.ok.inj h).symm

theorem WorkloadState.Chained.generation_le {w : WorkloadState} (h : w.Chained) {g : GenerationRecord}
    (hg : g ∈ w.generations) : g.generation.toNat ≤ w.generations.length := by
  obtain ⟨i, hi⟩ := List.getElem?_of_mem hg
  have hlt := (List.getElem?_eq_some_iff.1 hi).1
  rw [(h.numbered i g hi).1]
  exact hlt

/-- The next generation of a chain. -/
theorem WorkloadState.Chained.next {w : WorkloadState} (h : w.Chained) :
    (w.contractGeneration + 1).toNat = w.generations.length + 1 := by
  have hbound : maxRetainedGenerations = 4096 := rfl
  have hretained := h.retained
  rw [UInt64.toNat_add, h.current, UInt64.toNat_one]
  omega

/-- A replayed registration. -/
theorem core_replay_registered {c : Contract} (h : (validateContract c).ok = true) (t t' : UInt64) :
    (({} : WorkloadState).replayGeneration c.documented t).core = (registeredWorkload c t').core := by
  unfold WorkloadState.replayGeneration registeredWorkload WorkloadState.core WorkloadState.chain
  simp only [List.map_nil, List.nil_append, List.map_cons, generationOf, GenerationRecord.core, documented_idem,
    documented_digest h]
  rfl

/-- The core of a superseded generation. -/
def supersededCore (core : ContractGeneration × Digest × Bool × Contract) :
    ContractGeneration × Digest × Bool × Contract := (core.1, core.2.1, true, core.2.2.2)

/-- A replayed publication. -/
theorem core_replay_published {c : Contract} (h : (validateContract c).ok = true) {w w' : WorkloadState}
    (hcore : w.core = w'.core) (hbelow : ∀ g ∈ w.generations, g.generation < c.body.generation) (t t' : UInt64) :
    (w.replayGeneration c.documented t).core = (w'.publish c t').core := by
  have hlist : w.generations.map GenerationRecord.core = w'.generations.map GenerationRecord.core :=
    congrArg (fun c => c.2.2.2) hcore
  have hretired : w.retired = w'.retired := congrArg (fun c => c.1) hcore
  have hreplayed : (w.generations.map fun g => if g.generation < c.body.generation then { g with superseded := true } else g).map
      GenerationRecord.core = (w.generations.map GenerationRecord.core).map supersededCore := by
    rw [List.map_map, List.map_map]
    refine List.map_congr_left fun g hg => ?_
    rw [Function.comp_apply, if_pos (hbelow g hg)]
    rfl
  have hlive : (w'.generations.map fun g => { g with superseded := true }).map GenerationRecord.core =
      (w'.generations.map GenerationRecord.core).map supersededCore := by
    rw [List.map_map, List.map_map]
    rfl
  unfold WorkloadState.core WorkloadState.chain WorkloadState.replayGeneration WorkloadState.publish
  simp only [List.map_append]
  have hgeneration : c.documented.body.generation = c.body.generation := rfl
  rw [hgeneration, hreplayed, hlive, hlist, hretired, documented_digest h]
  simp only [List.map_cons, List.map_nil, generationOf, GenerationRecord.core, documented_idem, documented_digest h]
  rfl

/-- A record that a mutation wrote takes a state that agrees with the live one to one that agrees with what the
mutation makes of it. -/
theorem Effect.replayed {around : Surroundings} {r : Runtime} {m : Mutation} {p : Planned} (h : Effect around r m p)
    (hchained : r.state.workloads.All WorkloadState.Chained) {s s' : RuntimeState} (hs : s.SameHistory r.state)
    {record : Ledger.Record} (htype : record.type = p.type) (hpayload : record.payload = p.payload.dump)
    (hlen : p.payload.dump.length ≤ Ledger.maxRecordBytes) (hreplay : replayRecord s record = .ok s') :
    s'.SameHistory p.state := by
  obtain ⟨change, hdecode, happly⟩ := replayRecord_ok hreplay
  cases h with
  | @registerWorkload c hreg =>
    obtain ⟨t, rfl⟩ := decodeRecord_registration (valid_spec hreg.valid).2 htype hpayload hlen hdecode
    have hnone : s.workloads.find? c.body.workload.id = none := hs.symm.absent hreg.new
    have hid : c.documented.body.workload.id = c.body.workload.id := rfl
    rw [apply_generation_ok happly, hid, hnone]
    exact hs.set (core_replay_registered hreg.valid t _) _
  | @publish c w publisher hpub =>
    obtain ⟨t, rfl⟩ := decodeRecord_publication (valid_spec hpub.valid).2 htype hpayload hlen hdecode
    obtain ⟨w₀, hw₀, hcore⟩ := hs.symm.find hpub.found
    have hc := hchained _ _ hpub.found
    have hid : c.documented.body.workload.id = c.body.workload.id := rfl
    rw [apply_generation_ok happly, hid, hw₀]
    refine hs.set (core_replay_published hpub.valid hcore (fun g hg => ?_) t _) _
    have hle := (hc.of_chain (congrArg Prod.snd hcore.symm)).generation_le hg
    rw [hpub.generation, UInt64.lt_iff_toNat_lt, hc.next, ← WorkloadState.length_of_chain (congrArg Prod.snd hcore)]
    omega
  | @attachEvidence e _ =>
    obtain ⟨e', rfl, -⟩ := decodeRecord_evidence htype hpayload hlen hdecode
    cases happly
    exact (RuntimeState.sameHistory_replayEvidence _ _).trans (hs.trans (RuntimeState.sameHistory_attach _ _).symm)
  | @installPolicy p =>
    obtain ⟨p', rfl⟩ := decodeRecord_policy htype hdecode
    cases happly
    exact hs.trans (RuntimeState.sameHistory_installPolicy _ _).symm
  | @retire id w hfound hactive =>
    obtain rfl := decodeRecord_retirement htype hpayload hlen hdecode
    obtain ⟨w₀, hw₀, hcore⟩ := hs.symm.find hfound
    unfold RuntimeState.apply at happly
    simp only [hw₀] at happly
    cases happly
    refine hs.set ?_ id
    have hgenerations : (w.generations.map fun g => { g with retired := true }).map GenerationRecord.core =
        w.generations.map GenerationRecord.core := by
      rw [List.map_map]
      rfl
    have hlist : w₀.generations.map GenerationRecord.core = w.generations.map GenerationRecord.core :=
      congrArg (fun c => c.2.2.2) hcore
    have hcurrent : w₀.contractGeneration = w.contractGeneration := congrArg (fun c => c.2.1) hcore
    have hdigest : w₀.digest = w.digest := congrArg (fun c => c.2.2.1) hcore
    unfold WorkloadState.core WorkloadState.chain
    simp only [hgenerations, hlist, hcurrent, hdigest]

/-- The replay of a journal depends on the types and the payloads of its records. -/
theorem recordPayload_of_entry {a b : Ledger.Record} (h : a.entry = b.entry) {j : Json} (hj : recordPayload a = .ok j) :
    recordPayload b = .ok j := by
  have hpayload : a.payload = b.payload := congrArg Ledger.Entry.payload h
  unfold recordPayload at hj ⊢
  rw [← hpayload]
  split at hj
  · exact hj
  · cases hj

theorem ite_eq_ok_of {α : Type} {P : Prop} [Decidable P] {x y y' : Except Failure α} {v : α}
    (h : (if P then x else y) = .ok v) (hy : y = .ok v → y' = .ok v) : (if P then x else y') = .ok v := by
  by_cases hp : P
  · rw [if_pos hp] at h ⊢
    exact h
  · rw [if_neg hp] at h ⊢
    exact hy h

theorem decodeRecord_of_entry {a b : Ledger.Record} (h : a.entry = b.entry) {change : Change}
    (ha : decodeRecord a = .ok change) : decodeRecord b = .ok change := by
  have htype : a.type = b.type := congrArg Ledger.Entry.type h
  unfold decodeRecord at ha ⊢
  split at ha
  · cases ha
  · rename_i j hj
    rw [recordPayload_of_entry h hj, ← htype]
    simp only
    exact ite_eq_ok_of ha fun ha => ite_eq_ok_of ha fun ha => ite_eq_ok_of ha fun ha => ite_eq_ok_of ha fun ha =>
      ite_eq_ok_of ha fun ha => ite_eq_ok_of ha fun ha => nomatch ha

theorem replay_of_entries {records records' : List Ledger.Record}
    (h : records.map Ledger.Record.entry = records'.map Ledger.Record.entry) {s state : RuntimeState}
    (hreplay : replay records s = .ok state) : replay records' s = .ok state := by
  induction records generalizing records' s with
  | nil =>
    rw [List.map_nil, eq_comm, List.map_eq_nil_iff] at h
    rw [h]
    exact hreplay
  | cons a records ih =>
    obtain ⟨b, tail, rfl, hb, htail⟩ := List.map_eq_cons_iff.1 h.symm
    obtain ⟨middle, ha, hrest⟩ := bind_eq_ok.1 (show (replayRecord s a >>= replay records) = .ok state from hreplay)
    obtain ⟨change, hdecode, happly⟩ := replayRecord_ok ha
    have hb' : replayRecord s b = .ok middle := by
      unfold replayRecord
      rw [decodeRecord_of_entry hb.symm hdecode]
      exact happly
    exact bind_eq_ok.2 ⟨middle, hb', ih htail.symm hrest⟩

/-! ## Histories -/

theorem Runtime.commit_length {io : State.AppendIo} {type : Ledger.RecordType} {payload : Json} {r r' : Runtime}
    {dir dir' : Directory} {n : UInt64} (h : r.commit io type payload dir = (.ok n, r', dir')) :
    payload.dump.length ≤ Ledger.maxRecordBytes := by
  unfold commit at h
  simp only at h
  split at h
  · cases h
  · rename_i hlen
    exact not_lt.1 hlen

theorem System.mem_record {s : System} {around : Surroundings} {m : Mutation} {e : Ledger.Entry}
    (he : e ∈ s.record around m) : ∃ p, m.plan around s.runtime = .ok p ∧
      p.payload.dump.length ≤ Ledger.maxRecordBytes ∧ e = ⟨p.type, p.payload.dump⟩ := by
  unfold record at he
  split at he
  · cases he
  · rename_i p hplan
    split at he
    · rename_i hlen
      exact ⟨p, hplan, hlen, List.mem_singleton.1 he⟩
    · cases he

/-- A mutation leaves the state as it was, or as planned, with its record. -/
theorem System.mutate_planned (s : System) (around : Surroundings) (m : Mutation) :
    (∃ l dir left, (m.perform around s.runtime s.dir).1.ok = false ∧
        s.mutate around m = ⟨{ s.runtime with ledger := l }, dir, s.journal, left⟩) ∨
      ∃ p l dir, (m.perform around s.runtime s.dir).1.ok = true ∧ m.plan around s.runtime = .ok p ∧
        p.payload.dump.length ≤ Ledger.maxRecordBytes ∧ s.mutate around m =
          ⟨{ s.runtime with state := p.state, ledger := l }, dir, s.journal ++ [⟨p.type, p.payload.dump⟩], s.unsettled⟩ := by
  unfold mutate
  rcases Mutation.perform_cases around s.runtime s.dir m with ⟨f, hplan, hok, heq⟩ | ⟨p, hplan, hrest⟩
  · exact .inl ⟨s.runtime.ledger, s.dir, _, hok, by simp only [heq, hok, Bool.false_eq_true, if_false]; rfl⟩
  · rcases hrest with ⟨f, l, dir', hcommit, hok, heq⟩ | ⟨n, l, dir', hcommit, hok, heq⟩
    · exact .inl ⟨l, dir', _, hok, by simp only [heq, hok, Bool.false_eq_true, if_false]; rfl⟩
    · have hlen := Runtime.commit_length hcommit
      have hnew : s.record around m = [⟨p.type, p.payload.dump⟩] := by
        unfold record
        rw [hplan]
        simp only [if_pos hlen]
      exact .inr ⟨p, l, dir', hok, hplan, hlen, by simp [heq, hok, hnew]⟩

/-- The same of what a mutation does to a state. -/
theorem System.mutate_cases (s : System) (around : Surroundings) (m : Mutation) :
    (∃ l dir left, (m.perform around s.runtime s.dir).1.ok = false ∧
        s.mutate around m = ⟨{ s.runtime with ledger := l }, dir, s.journal, left⟩) ∨
      ∃ p l dir, (m.perform around s.runtime s.dir).1.ok = true ∧ Effect around s.runtime m p ∧
        p.payload.dump.length ≤ Ledger.maxRecordBytes ∧ s.mutate around m =
          ⟨{ s.runtime with state := p.state, ledger := l }, dir, s.journal ++ [⟨p.type, p.payload.dump⟩], s.unsettled⟩ := by
  rcases s.mutate_planned around m with hrefused | ⟨p, l, dir, hok, hplan, hlen, heq⟩
  · exact .inl hrefused
  · exact .inr ⟨p, l, dir, hok, effect_of_plan hplan, hlen, heq⟩

theorem System.unsettled_of_accepted {s : System} {around : Surroundings} {m : Mutation}
    (h : (m.perform around s.runtime s.dir).1.ok = true) : (s.mutate around m).unsettled = s.unsettled := by
  unfold mutate
  simp only [h, Bool.true_eq_false, false_and, if_false]

theorem System.mutate_info (s : System) (around : Surroundings) (m : Mutation) :
    (s.mutate around m).runtime.info = s.runtime.info := by
  rcases s.mutate_planned around m with ⟨l, dir, left, -, heq⟩ | ⟨p, l, dir, -, -, -, heq⟩
  · rw [heq]
  · rw [heq]

/-- What may be read back of the journal no further than a remnant is replayed to states of a kind. -/
def System.Leaves (s : System) (P : List Ledger.Entry → RuntimeState → Prop) : Prop :=
  ∀ u ∈ s.unsettled, ∀ (records : List Ledger.Record) (state : RuntimeState),
    u.Reads (records.map Ledger.Record.entry) → replay records {} = .ok state →
      P (records.map Ledger.Record.entry) state

theorem System.leaves_nil {s : System} (h : s.unsettled = []) (P : List Ledger.Entry → RuntimeState → Prop) :
    s.Leaves P := by
  intro u hu
  rw [h] at hu
  exact absurd hu List.not_mem_nil

theorem System.Leaves.mono {s : System} {P P' : List Ledger.Entry → RuntimeState → Prop} (h : s.Leaves P)
    (hP : ∀ written state, P written state → P' written state) : s.Leaves P' :=
  fun u hu records state hreads hreplay => hP _ _ (h u hu records state hreads hreplay)

/-- What is replayed from the records that an open may read back. -/
theorem System.Leaves.wrote {s : System} {P : List Ledger.Entry → RuntimeState → Prop} (h : s.Leaves P)
    {records : List Ledger.Record} {state : RuntimeState} (hwrote : s.Wrote (records.map Ledger.Record.entry))
    (hreplay : replay records {} = .ok state)
    (hjournal : records.map Ledger.Record.entry = s.journal → P (records.map Ledger.Record.entry) state) :
    P (records.map Ledger.Record.entry) state := by
  rcases hwrote with hwrote | ⟨u, hu, hreads⟩
  · exact hjournal hwrote
  · exact h u hu records state hreads hreplay

/-- A mutation leaves no remnant but one behind the journal, and that only when it is refused. -/
theorem System.mem_unsettled {s : System} {around : Surroundings} {m : Mutation} {u : Remnant}
    (hu : u ∈ (s.mutate around m).unsettled) : u ∈ s.unsettled ∨ (m.perform around s.runtime s.dir).1.ok = false ∧
      ∃ p, m.plan around s.runtime = .ok p ∧ p.payload.dump.length ≤ Ledger.maxRecordBytes ∧
        u = ⟨s.journal, ⟨p.type, p.payload.dump⟩⟩ := by
  unfold mutate at hu
  simp only at hu
  split at hu
  · rename_i hrefused
    rcases List.mem_append.1 hu with hu | hu
    · obtain ⟨e, he, rfl⟩ := List.mem_map.1 hu
      obtain ⟨p, hplan, hlen, rfl⟩ := mem_record he
      exact .inr ⟨hrefused.1, p, hplan, hlen, rfl⟩
    · exact .inl hu
  · exact .inl hu

/-- A property of workloads that their chains decide, and that registrations establish and publications keep under
trust sets of a kind. -/
structure Historic (T : TrustSet → Prop) (Q : WorkloadState → Prop) : Prop where
  chained : ∀ w, Q w → w.Chained
  ofChain : ∀ w w', Q w → w.chain = w'.chain → Q w'
  registered : ∀ r c t, T r.trust → Registrable r c → Q (registeredWorkload c t)
  published : ∀ r c w publisher t, T r.trust → Publishable r c w publisher → Q w → Q (w.publish c t)

section Historic

variable {T : TrustSet → Prop} {Q : WorkloadState → Prop}

theorem Historic.all (hQ : Historic T Q) {s t : RuntimeState} (h : s.SameHistory t) (hs : s.workloads.All Q) :
    t.workloads.All Q := by
  intro id w hw
  obtain ⟨w', hw', hcore⟩ := h.symm.find hw
  exact hQ.ofChain w' w (hs id w' hw') (congrArg Prod.snd hcore)

theorem chain_retire (w : WorkloadState) (evaluation : Option StoredEvaluation) :
    WorkloadState.chain { w with
      retired := true
      generations := w.generations.map fun g => { g with retired := true }
      evaluation := evaluation } = w.chain := by
  unfold WorkloadState.chain
  rw [List.map_map]
  rfl

theorem Historic.effect (hQ : Historic T Q) {around : Surroundings} {r : Runtime} {m : Mutation} {p : Planned}
    (ht : T r.trust) (h : Effect around r m p) (hr : r.state.workloads.All Q) : p.state.workloads.All Q := by
  cases h with
  | registerWorkload hreg => exact hr.set (hQ.registered _ _ _ ht hreg) _
  | publish hpub => exact hr.set (hQ.published _ _ _ _ _ ht hpub (hr _ _ hpub.found)) _
  | attachEvidence _ => exact hQ.all (RuntimeState.sameHistory_attach _ _).symm hr
  | installPolicy => exact hQ.all (RuntimeState.sameHistory_installPolicy _ _).symm hr
  | retire hfound _ => exact hr.set (hQ.ofChain _ _ (hr _ _ hfound) (chain_retire _ _).symm) _

/-- The records of a journal with one more record behind them. -/
theorem replay_snoc {records : List Ledger.Record} {journal : List Ledger.Entry} {e : Ledger.Entry}
    {state : RuntimeState} (hrecords : records.map Ledger.Record.entry = journal ++ [e])
    (h : replay records {} = .ok state) : ∃ before last middle, before.map Ledger.Record.entry = journal ∧
      last.entry = e ∧ replay before {} = .ok middle ∧ replayRecord middle last = .ok state := by
  obtain ⟨before, tail, rfl, hbefore, htail⟩ := List.map_eq_append_iff.1 hrecords
  obtain ⟨last, rfl, hlast⟩ := List.map_eq_singleton_iff.1 htail
  have happend : (replay before {} >>= replay [last]) = .ok state := by
    rw [replay_append] at h
    exact h
  obtain ⟨middle, hmiddle, hlast'⟩ := bind_eq_ok.1 happend
  obtain ⟨state', hrecord, hnil⟩ := bind_eq_ok.1 (show (replayRecord middle last >>= replay []) = .ok state from hlast')
  cases hnil
  exact ⟨before, last, middle, hbefore, hlast, hmiddle, hrecord⟩

/-- The invariant of histories: the replay of the journal agrees with the live state, and what is historic holds of the
replay of whatever an open may read back instead. -/
structure System.Inv (T : TrustSet → Prop) (Q : WorkloadState → Prop) (s : System) : Prop where
  trusted : T s.runtime.trust
  workloads : s.runtime.state.workloads.All Q
  replayed : ∀ records state, records.map Ledger.Record.entry = s.journal → replay records {} = .ok state →
    state.SameHistory s.runtime.state
  left : s.Leaves fun _ state => state.workloads.All Q

/-- What a refused mutation may leave is replayed to a state with the history of the live one, or of what the mutation
was to make of it: `middle` then is the state before its record, the last. -/
theorem System.Inv.stands_for (hQ : Historic T Q) {s : System} (hi : s.Inv T Q) {around : Surroundings} {m : Mutation}
    {p : Planned} (heffect : Effect around s.runtime m p) (hlen : p.payload.dump.length ≤ Ledger.maxRecordBytes)
    {records : List Ledger.Record} {state : RuntimeState}
    (hreads : Remnant.Reads ⟨s.journal, ⟨p.type, p.payload.dump⟩⟩ (records.map Ledger.Record.entry))
    (hreplay : replay records {} = .ok state) :
    records.map Ledger.Record.entry = s.journal ∧ state.SameHistory s.runtime.state ∨
      ∃ (before : List Ledger.Record) (last : Ledger.Record) (middle : RuntimeState),
        before.map Ledger.Record.entry = s.journal ∧ replay before {} = .ok middle ∧
          middle.SameHistory s.runtime.state ∧ last.type = p.type ∧ last.payload = p.payload.dump ∧
          replayRecord middle last = .ok state ∧ state.SameHistory p.state := by
  rcases hreads with hreads | hreads
  · exact .inl ⟨hreads, hi.replayed records state hreads hreplay⟩
  · obtain ⟨before, last, middle, hbefore, hlast, hmiddle, hrecord⟩ := replay_snoc hreads hreplay
    have hsame := hi.replayed before middle hbefore hmiddle
    have htype := congrArg Ledger.Entry.type hlast
    have hpayload := congrArg Ledger.Entry.payload hlast
    have hchained : s.runtime.state.workloads.All WorkloadState.Chained := fun id w hw =>
      hQ.chained w (hi.workloads id w hw)
    exact .inr ⟨before, last, middle, hbefore, hmiddle, hsame, htype, hpayload, hrecord,
      heffect.replayed hchained hsame htype hpayload hlen hrecord⟩

/-- What holds of whatever an open may read back before a mutation and of what the mutation leaves when it is refused
holds of whatever an open may read back after it. -/
theorem System.Leaves.mutate {s : System} {P : List Ledger.Entry → RuntimeState → Prop} (h : s.Leaves P)
    {around : Surroundings} {m : Mutation}
    (hnew : (m.perform around s.runtime s.dir).1.ok = false → ∀ p, m.plan around s.runtime = .ok p →
      p.payload.dump.length ≤ Ledger.maxRecordBytes → ∀ (records : List Ledger.Record) (state : RuntimeState),
        Remnant.Reads ⟨s.journal, ⟨p.type, p.payload.dump⟩⟩ (records.map Ledger.Record.entry) →
          replay records {} = .ok state → P (records.map Ledger.Record.entry) state) : (s.mutate around m).Leaves P := by
  intro u hu records state hreads hreplay
  rcases System.mem_unsettled hu with hu | ⟨hrefused, p, hplan, hlen, rfl⟩
  · exact h u hu records state hreads hreplay
  · exact hnew hrefused p hplan hlen records state hreads hreplay

/-- What a mutation may leave is as what was left before, or has the history of the live state or of what the mutation was
to make of it. -/
theorem System.Inv.leaves_mutate (hQ : Historic T Q) {s : System} (hi : s.Inv T Q) {P : RuntimeState → Prop}
    (hleft : s.Leaves fun _ state => P state) {around : Surroundings} {m : Mutation}
    (hlive : ∀ state : RuntimeState, state.SameHistory s.runtime.state → P state)
    (hplanned : ∀ (p : Planned) (state : RuntimeState), m.plan around s.runtime = .ok p → state.SameHistory p.state →
      P state) : (s.mutate around m).Leaves fun _ state => P state := by
  refine hleft.mutate fun _ p hplan hlen records state hreads hreplay => ?_
  rcases hi.stands_for hQ (effect_of_plan hplan) hlen hreads hreplay with
    ⟨-, hsame⟩ | ⟨-, -, -, -, -, -, -, -, -, hsame⟩
  · exact hlive state hsame
  · exact hplanned p state hplan hsame

end Historic

/-- The state of an open is the replay of the records, its decisions cleared. -/
theorem OpenedFrom.spec {options : Options} {r : Runtime} {dir : Directory} {records : List Ledger.Record}
    (h : OpenedFrom options r dir records) :
    ∃ state, replay records {} = .ok state ∧ r.state = clearDecisions state ∧ r.trust = options.trust := by
  obtain ⟨hsnapshot, ⟨report, hread⟩, io, incarnation, startedAtMillis, found, hopen⟩ := h
  unfold openRuntime at hopen
  split at hopen
  · cases hopen
  · simp only at hopen
    split at hopen
    · cases hopen
    · split at hopen
      · cases hopen
      · rename_i state hrecover
        cases hopen
        have hsequence : ∀ last, snapshotSequence last dir = .ok 0 := by
          intro last
          have hnone : dir = { dir with snapshot := none } := by rw [← hsnapshot]
          rw [hnone]
          exact snapshotSequence_of_none last dir
        simp only [recoverState, bind_eq_ok] at hrecover
        obtain ⟨sequence, hs, ⟨records', report'⟩, hread', state', hreplay, hclear⟩ := hrecover
        rw [hsequence] at hs
        cases hs
        rw [hread] at hread'
        cases hread'
        cases hclear
        exact ⟨state', hreplay, rfl, rfl⟩

section Runs

variable {T : TrustSet → Prop} {Q : WorkloadState → Prop}

/-- A reopen under a trust set of a kind. -/
def Event.Under (T : TrustSet → Prop) : Event → Prop
  | .mutate _ _ => True
  | .reopen options => T options.trust

theorem System.Started.inv {s : System} (h : s.Started) (ht : T s.runtime.trust) : s.Inv T Q := by
  obtain ⟨options, hopened⟩ := h.opened
  obtain ⟨state, hreplay, hstate, -⟩ := hopened.spec
  cases hreplay
  refine ⟨ht, ?_, ?_, System.leaves_nil h.unsettled _⟩
  · rw [hstate]
    exact fun id w hw => nomatch hw
  · intro records state hrecords hreplay
    rw [h.journal, List.map_eq_nil_iff] at hrecords
    rw [hrecords] at hreplay
    cases hreplay
    rw [hstate]
    exact (RuntimeState.sameHistory_clearDecisions _).symm

/-- What is historic holds of the replay of whatever an open may read back. -/
theorem System.Inv.wrote (hQ : Historic T Q) {s : System} (hi : s.Inv T Q) {records : List Ledger.Record}
    {state : RuntimeState} (hwrote : s.Wrote (records.map Ledger.Record.entry)) (hreplay : replay records {} = .ok state) :
    state.workloads.All Q :=
  hi.left.wrote hwrote hreplay fun hjournal => hQ.all (hi.replayed records state hjournal hreplay).symm hi.workloads

theorem System.Inv.step (hQ : Historic T Q) {s t : System} {e : Event} (hi : s.Inv T Q) (hg : e.Under T)
    (h : System.Step s e t) : t.Inv T Q := by
  cases h with
  | mutate around m =>
    have hleft : (s.mutate around m).Leaves fun _ state => state.workloads.All Q :=
      hi.leaves_mutate hQ hi.left (fun _ hsame => hQ.all hsame.symm hi.workloads)
        fun _ _ hplan hsame => hQ.all hsame.symm (hQ.effect hi.trusted (effect_of_plan hplan) hi.workloads)
    rcases s.mutate_cases around m with ⟨l, dir, left, -, heq⟩ | ⟨p, l, dir, -, heffect, hlen, heq⟩
    · rw [heq] at hleft ⊢
      exact ⟨hi.trusted, hi.workloads, hi.replayed, hleft⟩
    · rw [heq] at hleft ⊢
      refine ⟨hi.trusted, hQ.effect hi.trusted heffect hi.workloads, ?_, hleft⟩
      intro records state hrecords hreplay
      obtain ⟨before, last, middle, hbefore, hlast, hmiddle, hrecord⟩ := replay_snoc hrecords hreplay
      exact heffect.replayed (fun id w hw => hQ.chained w (hi.workloads id w hw))
        (hi.replayed before middle hbefore hmiddle) (congrArg Ledger.Entry.type hlast)
        (congrArg Ledger.Entry.payload hlast) hlen hrecord
  | @reopen options r dir records hopen hwrote =>
    obtain ⟨state, hreplay, hstate, htrust⟩ := hopen.spec
    have hsame : r.state.SameHistory state := by
      rw [hstate]
      exact RuntimeState.sameHistory_clearDecisions state
    refine ⟨?_, hQ.all hsame.symm (hi.wrote hQ hwrote hreplay), ?_, System.leaves_nil rfl _⟩
    · show T r.trust
      rw [htrust]
      exact hg
    · intro records' state' hrecords' hreplay'
      have hagain := replay_of_entries hrecords' hreplay'
      rw [hreplay] at hagain
      cases hagain
      exact hsame.symm

/-- What is historic holds of every workload in every state of every history. -/
theorem Historic.run (hQ : Historic T Q) {s₀ s : System} {events : List Event} (hstart : s₀.Started)
    (ht : T s₀.runtime.trust) (hrun : Run System.Step (fun _ e => e.Under T) s₀ events s) : s.Inv T Q :=
  hrun.invariant (System.Inv T Q) (fun _ _ _ hi hg hs => hi.step hQ hg hs) (hstart.inv ht)

end Runs

/-! ## The chain of generations -/

theorem getElem?_singleton_eq {α : Type} {a b : α} {i : Nat} (h : [a][i]? = some b) : i = 0 ∧ b = a := by
  cases i with
  | zero => cases h; exact ⟨rfl, rfl⟩
  | succ i => cases h

/-- An element of a list that was mapped and got one more at its end. -/
theorem getElem?_map_snoc {α : Type} {f : α → α} {l : List α} {a b : α} {i : Nat}
    (h : (l.map f ++ [a])[i]? = some b) : (i < l.length ∧ ∃ c, l[i]? = some c ∧ b = f c) ∨ (i = l.length ∧ b = a) := by
  by_cases hi : i < l.length
  · rw [List.getElem?_append_left (by rw [List.length_map]; exact hi), List.getElem?_map] at h
    obtain ⟨c, hc, rfl⟩ := Option.map_eq_some_iff.1 h
    exact .inl ⟨hi, c, hc, rfl⟩
  · rw [List.getElem?_append_right (by rw [List.length_map]; exact not_lt.1 hi), List.length_map] at h
    obtain ⟨h0, rfl⟩ := getElem?_singleton_eq h
    exact .inr ⟨by omega, rfl⟩

theorem chained_registered {r : Runtime} {c : Contract} (t : UInt64) (h : Registrable r c) :
    (registeredWorkload c t).Chained := by
  obtain ⟨hdigest, -⟩ := valid_spec h.valid
  have hfirst : c.body.generation.toNat = 1 := by rw [h.first]; rfl
  have hone : 1 ≤ maxRetainedGenerations := by decide
  refine ⟨List.cons_ne_nil _ _, hone, hfirst, ?_, ?_, ?_, ?_, ?_, ?_⟩
  · intro g hg
    cases hg
    exact hdigest.symm
  · intro i g hg
    obtain ⟨rfl, rfl⟩ := getElem?_singleton_eq hg
    exact ⟨hfirst, rfl⟩
  · intro i g hg
    obtain ⟨rfl, rfl⟩ := getElem?_singleton_eq hg
    exact hdigest.symm
  · intro i g g' _ hg'
    obtain ⟨h0, -⟩ := getElem?_singleton_eq hg'
    exact absurd h0 (Nat.succ_ne_zero i)
  · intro i f g hf hg
    obtain ⟨-, rfl⟩ := getElem?_singleton_eq hf
    obtain ⟨-, rfl⟩ := getElem?_singleton_eq hg
    exact ⟨rfl, rfl⟩
  · intro i g hg
    obtain ⟨rfl, rfl⟩ := getElem?_singleton_eq hg
    exact iff_of_false Bool.false_ne_true (lt_irrefl 1)

/-- The last generation of a chain. -/
theorem WorkloadState.Chained.last {w : WorkloadState} (h : w.Chained) :
    ∃ g, w.generations.getLast? = some g ∧ w.generations[w.generations.length - 1]? = some g ∧
      0 < w.generations.length := by
  have hpos := List.length_pos_iff.2 h.nonempty
  refine ⟨w.generations.getLast h.nonempty, List.getLast?_eq_some_getLast h.nonempty, ?_, hpos⟩
  rw [← List.getLast?_eq_getElem?]
  exact List.getLast?_eq_some_getLast h.nonempty

/-- A publication goes to the end of the chain, under its publisher and its major version. -/
theorem Publishable.owned {r : Runtime} {c : Contract} {w : WorkloadState} {publisher : PublisherId}
    (h : Publishable r c w publisher) (hw : w.Chained) {f : GenerationRecord} (hf : w.generations[0]? = some f) :
    c.envelope.publisher = f.body.envelope.publisher ∧ c.body.major = f.body.body.major := by
  obtain ⟨g, hlast, hg, -⟩ := hw.last
  obtain ⟨v, hv, hpublisher⟩ := h.verified
  obtain ⟨hp, hm⟩ := hw.publisher _ f g hf hg
  refine ⟨?_, (h.major g hlast).trans hm⟩
  rw [← verifySignature_publisher hv, hpublisher, ← h.owner g hlast, hp]

theorem chained_published {r : Runtime} {c : Contract} {w : WorkloadState} {publisher : PublisherId} (t : UInt64)
    (h : Publishable r c w publisher) (hw : w.Chained) : (w.publish c t).Chained := by
  obtain ⟨hdigest, -⟩ := valid_spec h.valid
  obtain ⟨last, hlast, hlastAt, hpos⟩ := hw.last
  have hgeneration : c.body.generation.toNat = w.generations.length + 1 := by rw [h.generation, hw.next]
  have hlength : (w.publish c t).generations.length = w.generations.length + 1 := by
    simp [WorkloadState.publish]
  refine ⟨?_, ?_, ?_, ?_, ?_, ?_, ?_, ?_, ?_⟩
  · rw [← List.length_pos_iff, hlength]
    exact Nat.succ_pos _
  · rw [hlength]
    exact h.retained
  · rw [hlength]
    exact hgeneration
  · intro g hg
    rw [WorkloadState.publish, List.getLast?_concat] at hg
    cases hg
    exact hdigest.symm
  · intro i g hg
    rcases getElem?_map_snoc hg with ⟨-, g₀, hg₀, rfl⟩ | ⟨rfl, rfl⟩
    · exact hw.numbered i g₀ hg₀
    · exact ⟨hgeneration, rfl⟩
  · intro i g hg
    rcases getElem?_map_snoc hg with ⟨-, g₀, hg₀, rfl⟩ | ⟨rfl, rfl⟩
    · exact hw.digests i g₀ hg₀
    · exact hdigest.symm
  · intro i g g' hg hg'
    rcases getElem?_map_snoc hg' with ⟨-, g₁, hg₁, rfl⟩ | ⟨hi, rfl⟩
    · rcases getElem?_map_snoc hg with ⟨-, g₀, hg₀, rfl⟩ | ⟨rfl, rfl⟩
      · exact hw.linked i g₀ g₁ hg₀ hg₁
      · have := (List.getElem?_eq_some_iff.1 hg₁).1
        omega
    · -- the new generation supersedes the last
      rcases getElem?_map_snoc hg with ⟨-, g₀, hg₀, rfl⟩ | ⟨hi', -⟩
      · have hi₀ : i = w.generations.length - 1 := by omega
        rw [hi₀, hlastAt] at hg₀
        cases hg₀
        obtain ⟨hs, hsupersedes, hsdigest⟩ := h.supersedes
        refine ⟨hs, ?_, ?_⟩
        · show c.supersedes = last.generation
          rw [hsupersedes, ← UInt64.toNat_inj, hw.current, (hw.numbered _ _ hlastAt).1]
          omega
        · show c.supersedesDigest = last.digest
          rw [hsdigest, hw.digest last hlast, hw.digests _ _ hlastAt]
      · omega
  · intro i f g hf hg
    rcases getElem?_map_snoc hf with ⟨-, f₀, hf₀, rfl⟩ | ⟨h0, -⟩
    · rcases getElem?_map_snoc hg with ⟨-, g₀, hg₀, rfl⟩ | ⟨-, rfl⟩
      · exact hw.publisher i f₀ g₀ hf₀ hg₀
      · have howned := h.owned hw hf₀
        exact howned
    · omega
  · intro i g hg
    rw [hlength]
    rcases getElem?_map_snoc hg with ⟨hi, g₀, hg₀, rfl⟩ | ⟨rfl, rfl⟩
    · exact iff_of_true rfl (Nat.succ_lt_succ hi)
    · exact iff_of_false Bool.false_ne_true (lt_irrefl _)

theorem historic_chained (T : TrustSet → Prop) : Historic T WorkloadState.Chained where
  chained _ h := h
  ofChain _ _ h hc := h.of_chain hc
  registered _ _ t _ h := chained_registered t h
  published _ _ _ _ t _ h hw := chained_published t h hw

/-- An open of a directory that holds nothing. -/
theorem openedFrom_fresh {options : Options} {incarnation : Incarnation} {startedAtMillis : UInt64} {path : Bytes}
    {r : Runtime} {dir : Directory}
    (h : openRuntime .succeeds options incarnation startedAtMillis (.fresh path) = (.ok r, dir)) :
    OpenedFrom options r dir [] := by
  have hpath : path ≠ [] := by
    rintro rfl
    cases h
  obtain ⟨r', head, hopen, -⟩ := openRuntime_fresh options incarnation startedAtMillis hpath
  have hdir : dir = ⟨path, head, none, .empty⟩ := by
    rw [h] at hopen
    cases hopen
    rfl
  subst hdir
  exact ⟨rfl, ⟨{}, rfl⟩, .succeeds, incarnation, startedAtMillis, .fresh path, h⟩

/-- The system that a boot on an empty directory starts. -/
theorem started_of_fresh {options : Options} {incarnation : Incarnation} {startedAtMillis : UInt64} {path : Bytes}
    {r : Runtime} {dir : Directory}
    (h : openRuntime .succeeds options incarnation startedAtMillis (.fresh path) = (.ok r, dir)) :
    System.Started ⟨r, dir, [], []⟩ := ⟨⟨options, openedFrom_fresh h⟩, rfl, rfl⟩

/-- A registration makes its contract the current one. -/
theorem System.current_register {s : System} (h : s.runtime.Blank isolationTrust) {c : Contract}
    (hworkload : c.body.workload.id = .repeating 1) (hsigned : ∃ c₀, c = signed domainRegistration c₀)
    (hvalid : (validateContract c).ok = true) (hgeneration : c.body.generation = 1) (horiginal : c.hasSupersedes = false)
    (hfits : (Runtime.registrationPayload 1 c).dump.length ≤ Ledger.maxRecordBytes) :
    (s.mutate undisturbed (.registerWorkload c)).runtime.Current (registeredWorkload c 1) c 14 := by
  rw [System.mutate_runtime]
  exact h.current hworkload hsigned hvalid hgeneration horiginal hfits s.dir

/-- So does a publication that supersedes the current one. -/
theorem System.current_publish {s : System} {w : WorkloadState} {previous c : Contract} {n : Nat}
    (h : s.runtime.Current w previous (n + 1)) (hs : Supersedes previous c)
    (hretained : w.generations.length < maxRetainedGenerations) :
    (s.mutate undisturbed (.publish c)).runtime.Current (w.publish c 1) c n := by
  rw [System.mutate_runtime]
  exact (h.publishes hs hretained s.dir).2

/-- The system of a first boot. -/
theorem isolation_opened : ∃ s : System,
    openRuntime .succeeds { trust := isolationTrust } .zero 0 (.fresh (utf8 "state")) = (.ok s.runtime, s.dir) ∧
      s.Started ∧ s.runtime.Blank isolationTrust ∧ s.runtime.state = {} ∧ s.runtime.info.incarnation = .zero ∧
      s.runtime.info.epoch = 1 := by
  obtain ⟨r, head, hopen, hblank, hstate, hincarnation, hepoch, -⟩ :=
    openRuntime_fresh { trust := isolationTrust } .zero 0 (show utf8 "state" ≠ [] by decide +kernel)
  exact ⟨⟨r, _, [], []⟩, hopen, started_of_fresh hopen, hblank, hstate, hincarnation, hepoch⟩

end Wnc
