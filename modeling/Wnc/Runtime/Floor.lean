/-
The floor under evidence generations. An attachment checks its generation against the floor and then sets it; a
replay raises the floor as the records have it. Both agree as long as every attachment that is accepted has a
generation other than zero, covers a scope that some workload declares and is not behind what a failed append left.
-/
import Wnc.Runtime.History

namespace Wnc

open Lib

/-! ## Coverage -/

/-- Whether the current contract of some workload declares a scope that some entry covers. -/
def RuntimeState.covers (s : RuntimeState) (entries : List EvidenceEntry) : Bool :=
  s.workloads.entries.any fun e => e.2.covered entries

namespace RuntimeState

theorem covers_iff {s : RuntimeState} {entries : List EvidenceEntry} :
    s.covers entries = true ↔ ∃ id w, s.workloads.find? id = some w ∧ w.covered entries = true := by
  unfold covers
  rw [List.any_eq_true]
  constructor
  · rintro ⟨⟨id, w⟩, hmem, hcovered⟩
    exact ⟨id, w, s.workloads.sorted.find_eq_some_iff.2 hmem, hcovered⟩
  · rintro ⟨id, w, hfind, hcovered⟩
    exact ⟨(id, w), s.workloads.sorted.find_eq_some_iff.1 hfind, hcovered⟩

end RuntimeState

/-- Coverage is a matter of the names of scopes. -/
theorem coversScope_documented (entries : List EvidenceEntry) (body : ContractBody) :
    coversScope entries body = (entries.map EvidenceEntry.scope).any fun name =>
      (body.documented.scopes.map Scope.name).any fun scope => scope == name := by
  unfold coversScope ContractBody.documented
  simp only [List.any_map, List.map_map, Function.comp_def]
  rfl

theorem WorkloadState.covered_of_core {w w' : WorkloadState} (h : w.core = w'.core) {entries entries' : List EvidenceEntry}
    (he : entries.map EvidenceEntry.scope = entries'.map EvidenceEntry.scope) :
    w.covered entries = w'.covered entries' := by
  have hlist : w.generations.map GenerationRecord.core = w'.generations.map GenerationRecord.core :=
    congrArg (fun c => c.2.2.2) h
  have hlast := congrArg List.getLast? hlist
  rw [List.getLast?_map, List.getLast?_map] at hlast
  unfold covered currentBody
  cases hg : w.generations.getLast? with
  | none =>
    rw [hg, Option.map_none] at hlast
    rw [Option.map_eq_none_iff.1 hlast.symm]
    rfl
  | some g =>
    rw [hg, Option.map_some] at hlast
    obtain ⟨g', hg', hcore⟩ := Option.map_eq_some_iff.1 hlast.symm
    have hbody : g.body.body.documented = g'.body.body.documented := by
      have hd := congrArg Contract.body (GenerationRecord.alike_of_core hcore).document
      exact hd.symm
    rw [hg']
    show coversScope entries g.body.body = coversScope entries' g'.body.body
    rw [coversScope_documented, coversScope_documented, he, hbody]

namespace RuntimeState

/-- States with one history are covered alike. -/
theorem SameHistory.covers {s t : RuntimeState} (h : s.SameHistory t) {entries entries' : List EvidenceEntry}
    (he : entries.map EvidenceEntry.scope = entries'.map EvidenceEntry.scope) : s.covers entries = t.covers entries' := by
  rw [Bool.eq_iff_iff, covers_iff, covers_iff]
  constructor
  · rintro ⟨id, w, hfind, hcovered⟩
    obtain ⟨w', hfind', hcore⟩ := h.find hfind
    exact ⟨id, w', hfind', by rw [WorkloadState.covered_of_core hcore he.symm, hcovered]⟩
  · rintro ⟨id, w, hfind, hcovered⟩
    obtain ⟨w', hfind', hcore⟩ := h.symm.find hfind
    exact ⟨id, w', hfind', by rw [WorkloadState.covered_of_core hcore he, hcovered]⟩

end RuntimeState

theorem scopes_restored (evidence : EvidenceSet) :
    evidence.restored.entries.map EvidenceEntry.scope = evidence.entries.map EvidenceEntry.scope := by
  unfold EvidenceSet.restored
  rw [List.map_map]
  rfl

theorem scopes_stamp (info : RuntimeInfo) (clock : Nat → UInt64) (evidence : EvidenceSet) :
    (evidence.stamp info clock).entries.map EvidenceEntry.scope = evidence.entries.map EvidenceEntry.scope := by
  refine List.ext_getElem? fun i => ?_
  unfold EvidenceSet.stamp
  simp only [List.getElem?_map, List.getElem?_mapIdx, Option.map_map]
  rfl

/-! ## The floor -/

/-- The floor that a replay makes of a mutation: only evidence that covers something raises it, and nothing lowers
it. -/
def Mutation.floorAfter (s : RuntimeState) : Mutation → EvidenceGeneration
  | .attachEvidence e =>
    if s.covers e.entries && e.generation > s.evidenceFloor then e.generation else s.evidenceFloor
  | _ => s.evidenceFloor

theorem Mutation.le_floorAfter (s : RuntimeState) (m : Mutation) : s.evidenceFloor ≤ m.floorAfter s := by
  unfold floorAfter
  split
  · split
    · rename_i h
      rw [Bool.and_eq_true, decide_eq_true_eq] at h
      exact UInt64.le_of_lt h.2
    · exact UInt64.le_refl _
  · exact UInt64.le_refl _

theorem floor_replayEvidence (s : RuntimeState) (evidence : EvidenceSet) :
    (s.replayEvidence evidence).evidenceFloor =
      if s.covers evidence.entries && evidence.generation > s.evidenceFloor then evidence.generation
      else s.evidenceFloor := by
  unfold RuntimeState.replayEvidence RuntimeState.covers
  by_cases hcovers : (s.workloads.entries.any fun e => e.2.covered evidence.entries) = true
  · simp only [hcovers, if_true, Bool.true_and, decide_eq_true_eq]
  · simp only [hcovers, Bool.false_and, Bool.false_eq_true, if_false]

/-- A record that a mutation wrote is replayed to the floor that the mutation is replayed to. -/
theorem Effect.replayed_floor {around : Surroundings} {r : Runtime} {m : Mutation} {p : Planned}
    (h : Effect around r m p) {s s' : RuntimeState} (hs : s.SameHistory r.state)
    (hfloor : s.evidenceFloor = r.state.evidenceFloor) {record : Ledger.Record} (htype : record.type = p.type)
    (hpayload : record.payload = p.payload.dump) (hlen : p.payload.dump.length ≤ Ledger.maxRecordBytes)
    (hreplay : replayRecord s record = .ok s') : s'.evidenceFloor = m.floorAfter r.state := by
  obtain ⟨change, hdecode, happly⟩ := replayRecord_ok hreplay
  cases h with
  | @registerWorkload c hreg =>
    obtain ⟨t, rfl⟩ := decodeRecord_registration (valid_spec hreg.valid).2 htype hpayload hlen hdecode
    rw [apply_generation_ok happly]
    exact hfloor
  | @publish c w publisher hpub =>
    obtain ⟨t, rfl⟩ := decodeRecord_publication (valid_spec hpub.valid).2 htype hpayload hlen hdecode
    rw [apply_generation_ok happly]
    exact hfloor
  | @attachEvidence e _ =>
    obtain ⟨e', rfl, hgeneration, hscopes⟩ := decodeRecord_evidence htype hpayload hlen hdecode
    cases happly
    have hcovers : s.covers e'.restored.entries = r.state.covers e.entries :=
      hs.covers (by rw [scopes_restored, hscopes, scopes_stamp])
    have hgeneration' : e'.restored.generation = e.generation := hgeneration
    rw [floor_replayEvidence, hcovers, hgeneration', hfloor]
    rfl
  | installPolicy =>
    obtain ⟨p', rfl⟩ := decodeRecord_policy htype hdecode
    cases happly
    exact hfloor
  | @retire id w hfound hactive =>
    obtain rfl := decodeRecord_retirement htype hpayload hlen hdecode
    obtain ⟨w₀, hw₀, -⟩ := hs.symm.find hfound
    unfold RuntimeState.apply at happly
    simp only [hw₀] at happly
    cases happly
    exact hfloor

/-! ## Histories whose attachments advance -/

/-- Whether an attachment is accepted. -/
def System.Accepts (s : System) (around : Surroundings) (e : EvidenceSet) : Prop :=
  ((Mutation.attachEvidence e).perform around s.runtime s.dir).1.ok = true

/-- An attachment that is accepted has a generation other than zero, covers a scope that some workload declares, and is
not behind what a failed append of the same boot left in the journal. -/
def System.Advancing (s : System) : Event → Prop
  | .mutate around (.attachEvidence e) =>
    s.Accepts around e → e.generation ≠ 0 ∧ s.runtime.state.covers e.entries = true ∧ s.unsettled = []
  | _ => True

def System.floor (s : System) : EvidenceGeneration := s.runtime.state.evidenceFloor

/-- The floor of a mutation that advances is the one it is replayed to. -/
theorem Effect.floor {around : Surroundings} {r : Runtime} {m : Mutation} {p : Planned} (h : Effect around r m p)
    (hadvancing : ∀ e, m = .attachEvidence e → e.generation ≠ 0 ∧ r.state.covers e.entries = true) :
    p.state.evidenceFloor = m.floorAfter r.state := by
  cases h with
  | @attachEvidence e hattach =>
    obtain ⟨hne, hcovers⟩ := hadvancing e rfl
    have hadvances : r.state.evidenceFloor < e.generation := hattach.advances.resolve_left hne
    unfold Mutation.floorAfter
    simp only [hcovers, Bool.true_and, decide_eq_true_eq]
    rw [if_pos hadvances]
    rfl
  | _ => rfl

/-- The replay of the journal has the floor of the live state, and that of whatever else an open may read back is not
below it. -/
structure System.Level (s : System) : Prop where
  history : s.Inv (fun _ => True) WorkloadState.Chained
  floor : ∀ records state, records.map Ledger.Record.entry = s.journal → replay records {} = .ok state →
    state.evidenceFloor = s.floor
  left : s.Leaves fun _ state => s.floor ≤ state.evidenceFloor

theorem System.Started.level {s : System} (h : s.Started) : s.Level := by
  refine ⟨h.inv trivial, fun records state hrecords hreplay => ?_, System.leaves_nil h.unsettled _⟩
  obtain ⟨options, hopened⟩ := h.opened
  obtain ⟨state', hreplay', hstate, -⟩ := hopened.spec
  cases hreplay'
  rw [h.journal, List.map_eq_nil_iff] at hrecords
  rw [hrecords] at hreplay
  cases hreplay
  unfold System.floor
  rw [hstate]
  rfl

/-- What a refused mutation may leave is replayed to no lower floor. -/
theorem System.Level.refused {s : System} (hl : s.Level) (around : Surroundings) (m : Mutation) :
    (s.mutate around m).Leaves fun _ state => s.floor ≤ state.evidenceFloor := by
  refine hl.left.mutate fun _ p hplan hlen records state hreads hreplay => ?_
  have heffect := effect_of_plan hplan
  rcases hl.history.stands_for (historic_chained _) heffect hlen hreads hreplay with ⟨hjournal, -⟩ |
    ⟨before, last, middle, hbefore, hmiddle, hsame, htype, hpayload, hrecord, -⟩
  · rw [hl.floor records state hjournal hreplay]
    exact UInt64.le_refl _
  · rw [heffect.replayed_floor hsame (hl.floor before middle hbefore hmiddle) htype hpayload hlen hrecord]
    exact m.le_floorAfter _

/-- No mutation but an attachment moves the floor. -/
theorem Mutation.floorAfter_eq {m : Mutation} (s : RuntimeState) (h : ∀ e, m ≠ .attachEvidence e) :
    m.floorAfter s = s.evidenceFloor := by
  cases m with
  | attachEvidence e => exact absurd rfl (h e)
  | _ => rfl

theorem System.mutate_floor (s : System) (around : Surroundings) {m : Mutation} (h : ∀ e, m ≠ .attachEvidence e) :
    (s.mutate around m).floor = s.floor := by
  rcases s.mutate_cases around m with ⟨l, dir, left, -, heq⟩ | ⟨p, l, dir, -, heffect, -, heq⟩
  · rw [heq]
    rfl
  · rw [heq]
    exact (heffect.floor fun e he => absurd he (h e)).trans (Mutation.floorAfter_eq _ h)

theorem System.Level.mutated {s : System} {around : Surroundings} {m : Mutation} (hl : s.Level)
    (hg : s.Advancing (.mutate around m)) : (s.mutate around m).Level ∧ s.floor ≤ (s.mutate around m).floor := by
  have hhistory : (s.mutate around m).Inv (fun _ => True) WorkloadState.Chained :=
    hl.history.step (e := .mutate around m) (historic_chained _) trivial (.mutate s around m)
  have hleft := hl.refused around m
  rcases s.mutate_cases around m with ⟨l, dir, left, -, heq⟩ | ⟨p, l, dir, hok, heffect, hlen, heq⟩
  · rw [heq] at hhistory hleft ⊢
    exact ⟨⟨hhistory, hl.floor, hleft⟩, UInt64.le_refl _⟩
  · rw [heq] at hhistory hleft ⊢
    have hfloor : p.state.evidenceFloor = m.floorAfter s.runtime.state := by
      refine heffect.floor fun e he => ?_
      subst he
      exact ⟨(hg hok).1, (hg hok).2.1⟩
    refine ⟨⟨hhistory, fun records state hrecords hreplay => ?_, ?_⟩, ?_⟩
    · obtain ⟨before, last, middle, hbefore, hlast, hmiddle, hrecord⟩ := replay_snoc hrecords hreplay
      rw [heffect.replayed_floor (hl.history.replayed before middle hbefore hmiddle)
        (hl.floor before middle hbefore hmiddle) (congrArg Ledger.Entry.type hlast)
        (congrArg Ledger.Entry.payload hlast) hlen hrecord, ← hfloor]
      rfl
    · by_cases hattach : ∃ e, m = .attachEvidence e
      · -- an attachment is accepted only where nothing is left
        obtain ⟨e, rfl⟩ := hattach
        refine System.leaves_nil ?_ _
        exact (hg hok).2.2
      · refine hleft.mono fun _ state hle => ?_
        show p.state.evidenceFloor ≤ state.evidenceFloor
        rw [hfloor, Mutation.floorAfter_eq _ fun e he => hattach ⟨e, he⟩]
        exact hle
    · show s.runtime.state.evidenceFloor ≤ p.state.evidenceFloor
      rw [hfloor]
      exact m.le_floorAfter _

/-- A step that advances keeps the replay level with the live state, and never lowers the floor. -/
theorem System.Level.step {s t : System} {event : Event} (hl : s.Level) (hg : s.Advancing event)
    (h : System.Step s event t) : t.Level ∧ s.floor ≤ t.floor := by
  have hhistory : t.Inv (fun _ => True) WorkloadState.Chained :=
    hl.history.step (historic_chained _) (by cases event <;> trivial) h
  cases h with
  | mutate around m => exact hl.mutated hg
  | @reopen options r dir records hopen hwrote =>
    obtain ⟨state, hreplay, hstate, -⟩ := hopen.spec
    have hfloor : r.state.evidenceFloor = state.evidenceFloor := by rw [hstate]; rfl
    refine ⟨⟨hhistory, fun records' state' hrecords' hreplay' => ?_, System.leaves_nil rfl _⟩, ?_⟩
    · have hsame := replay_of_entries hrecords' hreplay'
      rw [hreplay] at hsame
      cases hsame
      exact hfloor.symm
    · show s.runtime.state.evidenceFloor ≤ r.state.evidenceFloor
      rw [hfloor]
      refine hl.left.wrote hwrote hreplay fun hjournal => ?_
      rw [hl.floor records state hjournal hreplay]
      exact UInt64.le_refl _

theorem System.Level.run {s t : System} {events : List Event} (hl : s.Level)
    (hrun : Run System.Step System.Advancing s events t) : t.Level ∧ s.floor ≤ t.floor :=
  hrun.invariant (fun u => u.Level ∧ s.floor ≤ u.floor)
    (fun _ _ _ hu hg hs => ⟨(hu.1.step hg hs).1, UInt64.le_trans hu.2 (hu.1.step hg hs).2⟩) ⟨hl, UInt64.le_refl _⟩

/-- Evidence that is accepted is above the floor, which becomes its generation. -/
theorem System.Accepts.floor {s : System} {around : Surroundings} {e : EvidenceSet} (h : s.Accepts around e)
    (hg : s.Advancing (.mutate around (.attachEvidence e))) :
    s.floor < e.generation ∧ (s.mutate around (.attachEvidence e)).floor = e.generation := by
  have hok : ((Mutation.attachEvidence e).perform around s.runtime s.dir).1.ok = true := h
  rcases s.mutate_cases around (.attachEvidence e) with ⟨l, dir, left, hrefused, -⟩ | ⟨p, l, dir, -, heffect, -, heq⟩
  · rw [hok] at hrefused
    cases hrefused
  · rw [heq]
    cases heffect with
    | attachEvidence hattach => exact ⟨hattach.advances.resolve_left (hg h).1, rfl⟩

/-- The floor never goes back, and every accepted generation is above those accepted before it. -/
def System.NeverGoesBack (guard : System → Event → Prop) (s : System) : Prop :=
  (∀ events t, Run System.Step guard s events t → s.floor ≤ t.floor) ∧
    ∀ around e events t around' e', s.Accepts around e →
      Run System.Step guard s (.mutate around (.attachEvidence e) :: events) t → t.Accepts around' e' →
      guard t (.mutate around' (.attachEvidence e')) → e.generation < e'.generation

/-- In every history whose attachments advance, evidence generations never go back. -/
theorem evidence_advances {s₀ s : System} {events : List Event} (hstart : s₀.Started)
    (hrun : Run System.Step System.Advancing s₀ events s) : s.NeverGoesBack System.Advancing := by
  have hlevel := (hstart.level.run hrun).1
  refine ⟨fun events t ht => (hlevel.run ht).2, fun around e events t around' e' haccepts ht haccepts' hg' => ?_⟩
  cases ht with
  | cons hg hstep hrest =>
    have hnext := (hlevel.step hg hstep).1
    cases hstep with
    | mutate _ _ =>
      have hkept : (s.mutate around (.attachEvidence e)).floor ≤ t.floor := (hnext.run hrest).2
      rw [(haccepts.floor hg).2] at hkept
      exact UInt64.lt_of_le_of_lt hkept (haccepts'.floor hg').1

set_option maxRecDepth 100000 in
theorem isolationEvidence_covers :
    (({} : RuntimeState).register isolationContract 1).covers isolationEvidence.entries = true := by
  decide +kernel

/-- The evidence is accepted in a history of those boots without any before. -/
theorem System.attaches {s : System} {n : Nat} (htrust : s.runtime.trust = isolationTrust)
    (hroom : Ledger.Room s.runtime.ledger (n + 1)) (hincarnation : s.runtime.info.incarnation = .zero)
    (hepoch : s.runtime.info.epoch = 1) (hfloor : s.floor = 0) : s.Accepts undisturbed isolationEvidence :=
  (Runtime.attaches htrust hroom hincarnation hepoch hfloor rfl rfl stampedEvidence_checks.2 s.dir).1

theorem evidence_advances_attached : ∃ s : System, s.Accepts undisturbed isolationEvidence ∧
    (s.mutate undisturbed (.attachEvidence isolationEvidence)).floor = 1 ∧
    (s.mutate undisturbed (.attachEvidence isolationEvidence)).NeverGoesBack System.Advancing := by
  obtain ⟨s₀, -, hstart, hblank, hstate, hincarnation, hepoch⟩ := isolation_opened
  obtain ⟨hok, l, hafter, hroom⟩ := hblank.registers isolationContract_signed isolationContract_checks.1 rfl rfl
    isolationContract_checks.2 s₀.dir
  obtain ⟨s, hs⟩ : ∃ s, s₀.mutate undisturbed (.registerWorkload isolationContract) = s := ⟨_, rfl⟩
  have hruntime : s.runtime =
      { s₀.runtime with state := ({} : RuntimeState).register isolationContract 1, ledger := l } := by
    rw [← hs, System.mutate_runtime, hafter, hstate]
  have hunsettled : s.unsettled = [] := by
    rw [← hs, System.unsettled_of_accepted hok, hstart.unsettled]
  have haccepts : s.Accepts undisturbed isolationEvidence := by
    refine System.attaches (n := 13) ?_ ?_ ?_ ?_ ?_
    · rw [hruntime]
      exact hblank.trust
    · rw [hruntime]
      exact hroom
    · rw [hruntime]
      exact hincarnation
    · rw [hruntime]
      exact hepoch
    · unfold System.floor
      rw [hruntime]
      rfl
  have hadvancing : s.Advancing (.mutate undisturbed (.attachEvidence isolationEvidence)) := fun _ =>
    ⟨by decide, by rw [hruntime]; exact isolationEvidence_covers, hunsettled⟩
  have hrun : Run System.Step System.Advancing s₀
      [.mutate undisturbed (.registerWorkload isolationContract), .mutate undisturbed (.attachEvidence isolationEvidence)]
      (s.mutate undisturbed (.attachEvidence isolationEvidence)) :=
    .cons trivial (hs ▸ .mutate _ _ _) (.cons hadvancing (.mutate _ _ _) (.nil _))
  exact ⟨s, haccepts, (haccepts.floor hadvancing).2, evidence_advances hstart hrun⟩

/-! ## A generation of zero -/

/-- The evidence of isolation under a generation. -/
def evidenceAt (generation : EvidenceGeneration) : EvidenceSet := { isolationEvidence with generation := generation }

/-- A history in which evidence of generation five is attached, and then evidence of generation zero: the floors
behind them. -/
def zeroBoot : Option (EvidenceGeneration × EvidenceGeneration) :=
  match openRuntime .succeeds { trust := isolationTrust } .zero 0 (.fresh (utf8 "state")) with
  | (.error _, _) => none
  | (.ok r, dir) =>
    let five := System.mutate ⟨r, dir, [], []⟩ undisturbed (.attachEvidence (evidenceAt 5))
    let zero := five.mutate undisturbed (.attachEvidence (evidenceAt 0))
    some (five.floor, zero.floor)

set_option maxRecDepth 100000 in
theorem zeroBoot_eq : zeroBoot = some (5, 0) := by decide +kernel

theorem zeroBoot_spec : ∃ s five zero : System, s.Started ∧
    System.Step s (.mutate undisturbed (.attachEvidence (evidenceAt 5))) five ∧
    System.Step five (.mutate undisturbed (.attachEvidence (evidenceAt 0))) zero ∧ five.floor = 5 ∧ zero.floor = 0 := by
  have h := zeroBoot_eq
  unfold zeroBoot at h
  generalize evidenceAt 5 = e at h ⊢
  generalize evidenceAt 0 = e' at h ⊢
  cases hopen : openRuntime .succeeds { trust := isolationTrust } .zero 0 (.fresh (utf8 "state")) with
  | mk result dir =>
  rw [hopen] at h
  cases result with
  | error f => cases h
  | ok r =>
    simp only [Option.some.injEq, Prod.mk.injEq] at h
    exact ⟨⟨r, dir, [], []⟩, _, _, started_of_fresh hopen, .mutate _ _ _, .mutate _ _ _, h.1, h.2⟩

/-- Evidence of generation zero is accepted behind any other and takes the floor with it. -/
theorem zero_goes_back : ¬ ∀ (s₀ s : System) (events : List Event), s₀.Started →
    Run System.Step (fun _ _ => True) s₀ events s → s.NeverGoesBack fun _ _ => True := by
  intro h
  obtain ⟨s₀, five, zero, hstart, hfive, hzero, hfloor, hback⟩ := zeroBoot_spec
  have hrun : Run System.Step (fun _ _ => True) s₀ [.mutate undisturbed (.attachEvidence (evidenceAt 5))] five :=
    .cons trivial hfive (.nil _)
  have hnext : Run System.Step (fun _ _ => True) five [.mutate undisturbed (.attachEvidence (evidenceAt 0))] zero :=
    .cons trivial hzero (.nil _)
  have hle := (h s₀ five _ hstart hrun).1 _ _ hnext
  rw [hfloor, hback] at hle
  exact absurd hle (by decide)

end Wnc
