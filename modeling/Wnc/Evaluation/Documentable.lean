/-
Evidence that its own document gives back. The document of an evidence set is decoded exactly when every field is
within the bounds of the decoder, something is set in the candidate of every entry, and the identity is the one that
the decoder derives.
-/
import Wnc.Contract.Documentable
import Wnc.Evaluation.RoundTrip

namespace Wnc

open Lib

/-- A traversal of images succeeds when each of them is taken. -/
theorem Lib.mapM_map_iff {ε α β γ : Type} {f : β → Except ε γ} {g : α → β} {k : α → γ} {P : α → Prop} :
    ∀ {l : List α} {vs : List γ}, (∀ a ∈ l, ∀ v, f (g a) = .ok v ↔ v = k a ∧ P a) →
      ((l.map g).mapM f = .ok vs ↔ vs = l.map k ∧ ∀ a ∈ l, P a)
  | [], vs, _ => by
    rw [mapM_eq_ok, List.map_nil, List.forall₂_nil_left_iff]
    exact ⟨fun h => ⟨h, fun _ ha => nomatch ha⟩, fun h => h.1⟩
  | a :: l, vs, h => by
    have hrest : ∀ vs', (l.map g).mapM f = .ok vs' ↔ vs' = l.map k ∧ ∀ b ∈ l, P b := fun _ =>
      mapM_map_iff fun b hb => h b (List.mem_cons_of_mem _ hb)
    rw [mapM_eq_ok, List.map_cons, List.forall₂_cons_left_iff, List.forall_mem_cons]
    simp only [h a List.mem_cons_self, ← mapM_eq_ok, hrest]
    constructor
    · rintro ⟨v, vs', ⟨rfl, ha⟩, ⟨rfl, hl⟩, rfl⟩
      exact ⟨rfl, ha, hl⟩
    · rintro ⟨rfl, ha, hl⟩
      exact ⟨_, _, ⟨rfl, ha⟩, ⟨rfl, hl⟩, rfl⟩

/-! ## Candidates -/

section Readers

variable {document : Json} {field : String}

theorem readOptionalReal_iff {number v : Option Double} (hf : document.find (utf8 field) = number.map .ofReal) :
    readOptionalReal document field = .ok v ↔ v = number.map documentedReal ∧ ∀ d ∈ number, d.Documentable := by
  unfold readOptionalReal
  rw [hf]
  cases number with
  | none =>
    simp only [Option.map_none, Except.ok.injEq]
    exact ⟨fun h => ⟨h.symm, fun _ hd => nomatch hd⟩, fun h => h.1.symm⟩
  | some d =>
    simp only [Option.map_some, asReal_ofReal, Option.mem_def, Option.some.injEq, forall_eq']
    constructor
    · intro h
      split at h
      · cases h
      · rename_i hrange
        cases h
        simp only [Bool.or_eq_true, Bool.not_eq_true', not_or, Bool.not_eq_true, Bool.not_eq_false] at hrange
        exact ⟨rfl, hrange.1.1, hrange.1.2, hrange.2⟩
    · rintro ⟨rfl, hfinite, hnonnegative, hbounded⟩
      rw [hfinite, hnonnegative, hbounded]
      rfl

theorem readOptionalString_iff {text v : Option Bytes} (hf : document.find (utf8 field) = text.map .string) :
    readOptionalString document field = .ok v ↔ v = text ∧ ∀ s ∈ text, s ≠ [] ∧ s.length ≤ maxStringBytes := by
  unfold readOptionalString
  rw [hf]
  cases text with
  | none =>
    simp only [Option.map_none, Except.ok.injEq]
    exact ⟨fun h => ⟨h.symm, fun _ hs => nomatch hs⟩, fun h => h.1.symm⟩
  | some s =>
    simp only [Option.map_some, Option.mem_def, Option.some.injEq, forall_eq']
    split
    · rename_i hlong
      exact iff_of_false (fun h => nomatch h) fun h => absurd h.2.2 (not_le.2 hlong)
    · rename_i hfits
      split
      · rename_i hempty
        exact iff_of_false (fun h => nomatch h) fun h => h.2.1 hempty
      · rename_i hnonempty
        rw [Except.ok.injEq]
        exact ⟨fun h => ⟨h.symm, hnonempty, not_lt.1 hfits⟩, fun h => h.1.symm⟩

theorem readOptionalBool_iff {flag v : Option Bool} (hf : document.find (utf8 field) = flag.map .bool) :
    readOptionalBool document field = .ok v ↔ v = flag := by
  rw [readOptionalBool_written hf, Except.ok.injEq]
  exact eq_comm

end Readers

theorem decodeCandidateAttribute_iff {pair v : Bytes × Bytes} :
    decodeCandidateAttribute ((Json.null.put "name" (.string pair.1)).put "value" (.string pair.2)) = .ok v ↔
      v = pair ∧ pair.1.length ≤ maxStringBytes ∧ pair.2.length ≤ maxStringBytes := by
  have hname : ((Json.null.put "name" (.string pair.1)).put "value" (.string pair.2)).find (utf8 "name") =
      some (.string pair.1) := by simp [Json.find_put]
  have hvalue : ((Json.null.put "name" (.string pair.1)).put "value" (.string pair.2)).find (utf8 "value") =
      some (.string pair.2) := by simp [Json.find_put]
  unfold decodeCandidateAttribute
  rw [hname, hvalue, Json.isObject_put]
  simp only
  split
  · rename_i hlong
    exact iff_of_false (fun h => nomatch h) fun h => by omega
  · rename_i hfits
    rw [Except.ok.injEq]
    exact ⟨fun h => ⟨h.symm, by omega⟩, fun h => h.1.symm⟩

/-- The attributes of a candidate in the order of their names. -/
def sortedAttributes (attributes : List (Bytes × Bytes)) : List (Bytes × Bytes) :=
  sortBy (fun a b => a.1 < b.1) attributes

/-- Attributes of a candidate within the bounds of the decoder, each of a name of its own. -/
structure CandidateAttributesDocumentable (attributes : List (Bytes × Bytes)) : Prop where
  count : attributes.length ≤ maxAttributesPerRequirement
  each : ∀ a ∈ attributes, a.1.length ≤ maxStringBytes ∧ a.2.length ≤ maxStringBytes
  distinct : (sortedAttributes attributes).IsChain fun a b => a.1 ≠ b.1

theorem decodeCandidateAttributes_iff {attributes vs : List (Bytes × Bytes)} :
    decodeCandidateAttributes (attributesToJson attributes) = .ok vs ↔
      vs = sortedAttributes attributes ∧ CandidateAttributesDocumentable attributes := by
  unfold decodeCandidateAttributes attributesToJson
  simp only [Json.items?, List.length_map]
  split
  · rename_i hlong
    exact iff_of_false (by rintro ⟨⟩) fun h => absurd h.2.count (not_le.2 hlong)
  · rename_i hfits
    have hdecoded : ∀ out, (attributes.map fun pair => (Json.null.put "name" (.string pair.1)).put "value"
        (.string pair.2)).mapM decodeCandidateAttribute = .ok out ↔
          out = attributes.map id ∧ ∀ a ∈ attributes, a.1.length ≤ maxStringBytes ∧ a.2.length ≤ maxStringBytes :=
      fun _ => mapM_map_iff fun _ _ _ => decodeCandidateAttribute_iff
    split
    · rename_i hfailed
      refine iff_of_false (by rintro ⟨⟩) fun h => ?_
      rw [(hdecoded _).2 ⟨rfl, h.2.each⟩] at hfailed
      cases hfailed
    · rename_i out hout
      obtain ⟨rfl, heach⟩ := (hdecoded _).1 hout
      rw [List.map_id]
      split
      · rename_i hchain
        rw [Except.ok.injEq]
        exact ⟨fun h => ⟨h.symm, not_lt.1 hfits, heach, hchain⟩, fun h => h.1.symm⟩
      · rename_i hchain
        exact iff_of_false (by rintro ⟨⟩) fun h => hchain h.2.distinct

/-- A candidate as its document gives it back. -/
def Candidate.documented (c : Candidate) : Candidate :=
  { c with
    minBandwidth := c.minBandwidth.map documentedReal
    maxLatency := c.maxLatency.map documentedReal
    maxJitter := c.maxJitter.map documentedReal
    maxLoss := c.maxLoss.map documentedReal
    pathDiversity := c.pathDiversity.map documentedReal
    failureDomainSeparation := c.failureDomainSeparation.map documentedReal
    trafficPriority := c.trafficPriority.map documentedReal
    burstAllowance := c.burstAllowance.map documentedReal
    attributes := sortedAttributes c.attributes }

/-- The numbers and the texts of a candidate that are set. -/
def Candidate.numbers (c : Candidate) : List Double :=
  [c.minBandwidth, c.maxLatency, c.maxJitter, c.maxLoss, c.pathDiversity, c.failureDomainSeparation, c.trafficPriority,
    c.burstAllowance].flatMap Option.toList

def Candidate.texts (c : Candidate) : List Bytes :=
  [c.locality, c.securityClass, c.disaggregatedAffinity, c.maintenanceTolerance].flatMap Option.toList

/-- A candidate in which something is set, and all of it within the bounds of the decoder. -/
structure Candidate.Documentable (c : Candidate) : Prop where
  something : c.hasAnyDimension = true
  numbers : ∀ d ∈ c.numbers, d.Documentable
  texts : ∀ s ∈ c.texts, s ≠ [] ∧ s.length ≤ maxStringBytes
  attributes : CandidateAttributesDocumentable c.attributes

theorem forall_mem_toList {α : Type} {P : α → Prop} {l : List (Option α)} :
    (∀ a ∈ l.flatMap Option.toList, P a) ↔ ∀ o ∈ l, ∀ a ∈ o, P a := by
  simp only [List.mem_flatMap, Option.mem_toList]
  exact ⟨fun h o ho a ha => h a ⟨o, ho, ha⟩, fun h a ⟨o, ho, ha⟩ => h o ho a ha⟩

theorem decodeCandidate_iff {c v : Candidate} :
    decodeCandidate (candidateToJson c) = .ok v ↔ v = c.documented ∧ c.Documentable := by
  have hw := candidateToJson_written c
  have hobject := isObject_candidateToJson c
  rw [decodeCandidate_eq_ok]
  constructor
  · rintro ⟨hread, h₁, h₂, h₃, h₄, h₅, h₆, h₇, h₈, h₉, h₁₀, h₁₁, h₁₂, h₁₃, h₁₄, h₁₅⟩
    rw [readOptionalReal_iff hw.minBandwidth] at h₁
    rw [readOptionalReal_iff hw.maxLatency] at h₂
    rw [readOptionalReal_iff hw.maxJitter] at h₃
    rw [readOptionalReal_iff hw.maxLoss] at h₄
    rw [readOptionalReal_iff hw.pathDiversity] at h₅
    rw [readOptionalReal_iff hw.failureDomainSeparation] at h₆
    rw [readOptionalReal_iff hw.trafficPriority] at h₇
    rw [readOptionalReal_iff hw.burstAllowance] at h₈
    rw [readOptionalString_iff hw.locality] at h₉
    rw [readOptionalString_iff hw.securityClass] at h₁₀
    rw [readOptionalString_iff hw.disaggregatedAffinity] at h₁₁
    rw [readOptionalString_iff hw.maintenanceTolerance] at h₁₂
    rw [readOptionalBool_iff hw.collectiveSupported] at h₁₃
    rw [readOptionalBool_iff hw.checkpointIsolation] at h₁₄
    have hattributes : v.attributes = sortedAttributes c.attributes ∧ CandidateAttributesDocumentable c.attributes := by
      rw [hw.attributes] at h₁₅
      by_cases hc : c.attributes = []
      · rw [hc, if_neg (not_not.2 rfl)] at h₁₅
        rw [hc]
        exact ⟨h₁₅, Nat.zero_le _, fun _ ha => (nomatch ha), List.isChain_nil⟩
      · rw [if_pos hc] at h₁₅
        exact decodeCandidateAttributes_iff.1 h₁₅
    refine ⟨?_, hobject.symm.trans hread, forall_mem_toList.2 ?_, forall_mem_toList.2 ?_, hattributes.2⟩
    · cases v
      unfold Candidate.documented
      rw [← h₁.1, ← h₂.1, ← h₃.1, ← h₄.1, ← h₅.1, ← h₆.1, ← h₇.1, ← h₈.1, ← h₉.1, ← h₁₀.1, ← h₁₁.1, ← h₁₂.1, ← h₁₃,
        ← h₁₄, ← hattributes.1]
    · simp only [List.forall_mem_cons]
      exact ⟨h₁.2, h₂.2, h₃.2, h₄.2, h₅.2, h₆.2, h₇.2, h₈.2, fun _ ho => nomatch ho⟩
    · simp only [List.forall_mem_cons]
      exact ⟨h₉.2, h₁₀.2, h₁₁.2, h₁₂.2, fun _ ho => nomatch ho⟩
  · rintro ⟨rfl, hany, hnumbers, htexts, hattributes⟩
    have hnumbers := forall_mem_toList.1 hnumbers
    have htexts := forall_mem_toList.1 htexts
    simp only [List.forall_mem_cons] at hnumbers htexts
    obtain ⟨h₁, h₂, h₃, h₄, h₅, h₆, h₇, h₈, -⟩ := hnumbers
    obtain ⟨h₉, h₁₀, h₁₁, h₁₂, -⟩ := htexts
    exact
      { object := hobject.trans hany
        minBandwidth := (readOptionalReal_iff hw.minBandwidth).2 ⟨rfl, h₁⟩
        maxLatency := (readOptionalReal_iff hw.maxLatency).2 ⟨rfl, h₂⟩
        maxJitter := (readOptionalReal_iff hw.maxJitter).2 ⟨rfl, h₃⟩
        maxLoss := (readOptionalReal_iff hw.maxLoss).2 ⟨rfl, h₄⟩
        pathDiversity := (readOptionalReal_iff hw.pathDiversity).2 ⟨rfl, h₅⟩
        failureDomainSeparation := (readOptionalReal_iff hw.failureDomainSeparation).2 ⟨rfl, h₆⟩
        trafficPriority := (readOptionalReal_iff hw.trafficPriority).2 ⟨rfl, h₇⟩
        burstAllowance := (readOptionalReal_iff hw.burstAllowance).2 ⟨rfl, h₈⟩
        locality := (readOptionalString_iff hw.locality).2 ⟨rfl, h₉⟩
        securityClass := (readOptionalString_iff hw.securityClass).2 ⟨rfl, h₁₀⟩
        disaggregatedAffinity := (readOptionalString_iff hw.disaggregatedAffinity).2 ⟨rfl, h₁₁⟩
        maintenanceTolerance := (readOptionalString_iff hw.maintenanceTolerance).2 ⟨rfl, h₁₂⟩
        collectiveSupported := readOptionalBool_written hw.collectiveSupported
        checkpointIsolation := readOptionalBool_written hw.checkpointIsolation
        attributes := by
          rw [hw.attributes]
          by_cases hc : c.attributes = []
          · rw [hc, if_neg (not_not.2 rfl)]
            show sortedAttributes c.attributes = []
            rw [hc]
            rfl
          · rw [if_pos hc]
            exact decodeCandidateAttributes_iff.2 ⟨rfl, hattributes⟩ }

/-! ## Entries -/

section Fields

variable {document : Json} {field : String}

theorem readNonNegative_iff {maximum : Nat} {failure : Failure} {n v : UInt64}
    (hf : document.find (utf8 field) = some (jsonUint n)) :
    readNonNegative document field maximum failure = .ok v ↔ v = n ∧ NotNegative n ∧ n.toNat ≤ maximum := by
  unfold readNonNegative NotNegative
  rw [hf, jsonUint]
  simp only [toUInt64_jsonUint]
  split
  · rename_i hrange
    refine iff_of_false (by rintro ⟨⟩) fun h => ?_
    rcases hrange with hnegative | hlarge
    · exact h.2.1 hnegative
    · exact absurd h.2.2 (not_le.2 hlarge)
  · rename_i hrange
    rw [not_or, not_lt] at hrange
    rw [Except.ok.injEq]
    exact ⟨fun h => ⟨h.symm, hrange⟩, fun h => h.1.symm⟩

theorem readScope_iff {scope v : Bytes} (hf : document.find (utf8 "scope") = some (.string scope)) :
    readScope document = .ok v ↔ v = scope ∧ scope ≠ [] ∧ scope.length ≤ maxStringBytes := by
  unfold readScope
  rw [hf]
  simp only
  split
  · rename_i hrange
    refine iff_of_false (fun h => nomatch h) fun h => ?_
    rcases hrange with hempty | hlong
    · exact h.2.1 hempty
    · exact absurd h.2.2 (not_le.2 hlong)
  · rename_i hrange
    rw [not_or, not_lt] at hrange
    rw [Except.ok.injEq]
    exact ⟨fun h => ⟨h.symm, hrange⟩, fun h => h.1.symm⟩

theorem readCandidate_iff {c v : Candidate} (hf : document.find (utf8 "candidate") = some (candidateToJson c)) :
    readCandidate document = .ok v ↔ v = c.documented ∧ c.Documentable := by
  rw [← decodeCandidate_iff]
  unfold readCandidate
  rw [hf]
  simp only
  cases decodeCandidate (candidateToJson c) with
  | error code => exact iff_of_false (fun h => nomatch h) fun h => nomatch h
  | ok c' => simp only [Except.ok.injEq]

theorem readEvidenceGeneration_iff {generation v : EvidenceGeneration}
    (hf : document.find (utf8 "evidence_generation") = some (jsonUint generation)) :
    readEvidenceGeneration document = .ok v ↔ v = generation ∧ IsPositive generation := by
  unfold readEvidenceGeneration IsPositive
  rw [hf, jsonUint]
  simp only [toUInt64_jsonUint]
  split
  · rename_i hlow
    exact iff_of_false (by rintro ⟨⟩) fun h => h.2 hlow
  · rename_i hpositive
    rw [Except.ok.injEq]
    exact ⟨fun h => ⟨h.symm, hpositive⟩, fun h => h.1.symm⟩

/-- A declared identity is checked unless it is zero. -/
theorem checkEvidenceId_iff {id derived : EvidenceId} {u : Unit}
    (hf : document.find (utf8 "evidence_id") = some (.string id.view)) :
    checkEvidenceId document derived = .ok u ↔ id = .zero ∨ id = derived := by
  have hzero : (Id.zero : EvidenceId).view = List.replicate sha256HexChars 48 := by decide
  unfold checkEvidenceId
  rw [hf]
  simp only
  split
  · rename_i hview
    exact iff_of_true rfl (.inl (Id.view_injective (hview.trans hzero.symm)))
  · rename_i hview
    rw [Id.parse_view, require_eq_ok, decide_eq_true_eq, Option.some.injEq]
    refine (or_iff_right fun h => hview ?_).symm
    rw [h, hzero]

end Fields

/-- An entry as its document gives it back: without its identity, which is not read. -/
def EvidenceEntry.documented (entry : EvidenceEntry) : EvidenceEntry :=
  { entry with id := .zero, candidate := entry.candidate.documented }

/-- An entry whose fields are within the bounds of the decoder. -/
structure EvidenceEntry.Documentable (entry : EvidenceEntry) : Prop where
  scope : entry.scope ≠ [] ∧ entry.scope.length ≤ maxStringBytes
  generation : NotNegative entry.generation
  epoch : NotNegative entry.epoch
  producedAtMillis : NotNegative entry.producedAtMillis ∧ entry.producedAtMillis.toNat ≤ maxEvidenceMillis
  candidate : entry.candidate.Documentable

theorem decodeEvidenceEntry_iff {entry v : EvidenceEntry} :
    decodeEvidenceEntry (evidenceEntryToJson entry) = .ok v ↔ v = entry.documented ∧ entry.Documentable := by
  have hw := evidenceEntryToJson_written entry
  have hbound : ∀ n : UInt64, n.toNat ≤ maxUint64 := fun n => Nat.le_of_lt_succ n.toNat_lt
  unfold decodeEvidenceEntry
  simp only [bind_eq_ok, require_eq_ok, isObject_evidenceEntryToJson, readScope_iff hw.scope,
    readNonNegative_iff hw.generation, readCapturedBy_written hw.capturedBy, readNonNegative_iff hw.epoch,
    readNonNegative_iff hw.producedAtMillis, readPublisher_written hw.publisher, readCandidate_iff hw.candidate,
    readFreshness_written hw.freshness, hbound, and_true, and_assoc, exists_eq_left, exists_const, true_and,
    Except.ok.injEq, exists_eq_left']
  constructor
  · rintro ⟨hne, hscope, hgeneration, hepoch, hproduced, hmillis, hcandidate, rfl⟩
    exact ⟨rfl, ⟨hne, hscope⟩, hgeneration, hepoch, ⟨hproduced, hmillis⟩, hcandidate⟩
  · rintro ⟨rfl, ⟨hne, hscope⟩, hgeneration, hepoch, ⟨hproduced, hmillis⟩, hcandidate⟩
    exact ⟨hne, hscope, hgeneration, hepoch, hproduced, hmillis, hcandidate, rfl⟩

/-! ## Evidence -/

/-- The content of an evidence set, as its document gives it back: the set without an identity. -/
def EvidenceSet.content (e : EvidenceSet) : EvidenceSet :=
  { e with evidenceId := .zero, entries := e.entries.map EvidenceEntry.documented }

/-- The identity that a decoder derives for a set. -/
def EvidenceSet.contentId (e : EvidenceSet) : EvidenceId := deriveEvidenceId (evidenceDigest e.content)

def EvidenceSet.documented (e : EvidenceSet) : EvidenceSet := { e.content with evidenceId := e.contentId }

/-- A set whose fields are within the bounds of the decoder, with the identity of its content or none. -/
structure EvidenceSet.Documentable (e : EvidenceSet) : Prop where
  generation : IsPositive e.generation
  epoch : NotNegative e.epoch
  producedAtMillis : NotNegative e.producedAtMillis ∧ e.producedAtMillis.toNat ≤ maxEvidenceMillis
  entries : e.entries.length ≤ maxEvidenceEntries ∧ ∀ entry ∈ e.entries, entry.Documentable
  identity : e.evidenceId = .zero ∨ e.evidenceId = e.contentId

/-- The document of an evidence set gives the set back, as it documents it, exactly when every field is within the
bounds of the decoder and the identity is the one of the content. -/
theorem evidenceFromJson_iff {e d : EvidenceSet} :
    evidenceFromJson (evidenceToJson e) = .ok d ↔ d = e.documented ∧ e.Documentable := by
  have hw := evidenceToJson_written e
  have hbound : e.epoch.toNat ≤ maxUint64 := Nat.le_of_lt_succ e.epoch.toNat_lt
  have hentries : ∀ vs, (e.entries.map evidenceEntryToJson).mapM decodeEvidenceEntry = .ok vs ↔
      vs = e.entries.map EvidenceEntry.documented ∧ ∀ entry ∈ e.entries, entry.Documentable := fun _ =>
    mapM_map_iff fun _ _ _ => decodeEvidenceEntry_iff
  unfold evidenceFromJson
  simp only [hw.entries, Option.bind_some, Json.items?, List.length_map, bind_eq_ok, require_eq_ok, decide_eq_true_eq,
    show (evidenceToJson e).isObject = true from Json.isObject_put _ _ _, readEvidenceGeneration_iff hw.generation,
    readNonNegative_iff hw.epoch, readNonNegative_iff hw.producedAtMillis, readPublisher_written hw.publisher, hentries,
    checkEvidenceId_iff hw.evidenceId, hbound, and_true, and_assoc, exists_eq_left, exists_const, true_and,
    Except.ok.injEq, exists_eq_left']
  constructor
  · rintro ⟨hgeneration, hepoch, hproduced, hmillis, hcount, hentry, hidentity, rfl⟩
    exact ⟨rfl, hgeneration, hepoch, ⟨hproduced, hmillis⟩, ⟨hcount, hentry⟩, hidentity⟩
  · rintro ⟨rfl, hgeneration, hepoch, ⟨hproduced, hmillis⟩, ⟨hcount, hentry⟩, hidentity⟩
    exact ⟨hgeneration, hepoch, hproduced, hmillis, hcount, hentry, hidentity, rfl⟩

end Wnc
