/-
Evidence in records. The document of an evidence set is read when its texts are valid and the text of every number in
it fits a number literal. As with policies, what is read may have lost the sign of a number.
-/
import Wnc.Contract.Recorded
import Wnc.Evaluation.Documentable

namespace Wnc

open Lib

/-! ## The texts and the numbers of evidence -/

structure Candidate.Textual (c : Candidate) : Prop where
  texts : ∀ s ∈ c.texts, IsText s
  attributes : ∀ a ∈ c.attributes, IsText a.1 ∧ IsText a.2

structure EvidenceEntry.Textual (entry : EvidenceEntry) : Prop where
  scope : IsText entry.scope
  candidate : entry.candidate.Textual

/-- Every text of an evidence set is valid and fits a string. -/
def EvidenceSet.Textual (e : EvidenceSet) : Prop := ∀ entry ∈ e.entries, entry.Textual

/-- The text of every number of an evidence set fits a number literal. -/
def EvidenceSet.NumbersFit (e : EvidenceSet) : Prop := ∀ entry ∈ e.entries, ∀ d ∈ entry.candidate.numbers, d.Fits

/-- A candidate as the text of its document reads. -/
def Candidate.reread (c : Candidate) : Candidate :=
  { c with
    minBandwidth := c.minBandwidth.map Double.canonical
    maxLatency := c.maxLatency.map Double.canonical
    maxJitter := c.maxJitter.map Double.canonical
    maxLoss := c.maxLoss.map Double.canonical
    pathDiversity := c.pathDiversity.map Double.canonical
    failureDomainSeparation := c.failureDomainSeparation.map Double.canonical
    trafficPriority := c.trafficPriority.map Double.canonical
    burstAllowance := c.burstAllowance.map Double.canonical }

def EvidenceEntry.reread (entry : EvidenceEntry) : EvidenceEntry := { entry with candidate := entry.candidate.reread }

def EvidenceSet.reread (e : EvidenceSet) : EvidenceSet := { e with entries := e.entries.map EvidenceEntry.reread }

theorem reread_addOptional (object : Json) (field : String) (value : Option Json) :
    (addOptional object field value).reread = addOptional object.reread field (value.map Json.reread) := by
  cases value with
  | none => rfl
  | some v => exact Json.reread_put _ _ _

theorem reread_optionalReal {number : Option Double} (h : ∀ d ∈ number, d.Fits) :
    (number.map Json.ofReal).map Json.reread = (number.map Double.canonical).map Json.ofReal := by
  cases number with
  | none => rfl
  | some d => exact congrArg some (Json.reread_ofReal_canonical (h d rfl).isFinite)

theorem reread_candidateToJson {c : Candidate} (h : ∀ d ∈ c.numbers, d.Fits) :
    (candidateToJson c).reread = candidateToJson c.reread := by
  have hnumbers := forall_mem_toList.1 h
  simp only [List.forall_mem_cons] at hnumbers
  obtain ⟨h₁, h₂, h₃, h₄, h₅, h₆, h₇, h₈, -⟩ := hnumbers
  have htext : ∀ text : Option Bytes, (text.map Json.string).map Json.reread = text.map Json.string := fun text => by
    cases text <;> rfl
  have hflag : ∀ flag : Option Bool, (flag.map Json.bool).map Json.reread = flag.map Json.bool := fun flag => by
    cases flag <;> rfl
  unfold candidateToJson Candidate.reread
  simp only [reread_ite, Json.reread_put, reread_addOptional, reread_attributesToJson, reread_optionalReal h₁,
    reread_optionalReal h₂, reread_optionalReal h₃, reread_optionalReal h₄, reread_optionalReal h₅,
    reread_optionalReal h₆, reread_optionalReal h₇, reread_optionalReal h₈, htext, hflag, Json.reread_null]

theorem reread_evidenceEntryToJson {entry : EvidenceEntry} (h : ∀ d ∈ entry.candidate.numbers, d.Fits) :
    (evidenceEntryToJson entry).reread = evidenceEntryToJson entry.reread := by
  unfold evidenceEntryToJson EvidenceEntry.reread
  simp only [reread_ite, Json.reread_put, Json.reread_string, Json.reread_null, reread_jsonUint,
    reread_candidateToJson h]

theorem reread_evidenceToJson {e : EvidenceSet} (h : e.NumbersFit) :
    (evidenceToJson e).reread = evidenceToJson e.reread := by
  have hentries : (e.entries.map evidenceEntryToJson).map Json.reread =
      (e.entries.map EvidenceEntry.reread).map evidenceEntryToJson := by
    rw [List.map_map, List.map_map]
    exact List.map_congr_left fun entry hentry => reread_evidenceEntryToJson (h entry hentry)
  unfold evidenceToJson EvidenceSet.reread
  simp only [Json.reread_put, Json.reread_string, Json.reread_null, reread_jsonUint, Json.reread_array, hentries]

/-! ## Documents that are read -/

section Readable

variable {o : JsonDecodeOptions} {depth : Nat}

theorem readable_addOptional (ho : o.Roomy) {object : Json} (h : object.Readable o depth) {field : String}
    (hfield : (utf8 field).all (· < 0x80) = true ∧ (utf8 field).length ≤ 4096) {value : Option Json}
    (hv : ∀ v ∈ value, v.Readable o (depth + 1)) : (addOptional object field value).Readable o depth := by
  cases value with
  | none => exact h
  | some v => exact ho.put h hfield (hv v rfl)

theorem readable_mapped {α : Type} {f : α → Json} {value : Option α} (h : ∀ a ∈ value, (f a).Readable o depth) :
    ∀ v ∈ value.map f, v.Readable o depth := by
  intro v hv
  obtain ⟨a, ha, rfl⟩ := Option.map_eq_some_iff.1 hv
  exact h a ha

theorem readable_candidateToJson (ho : o.Roomy) (h : depth ≤ 4) {c : Candidate} (ht : c.Textual)
    (hfit : ∀ d ∈ c.numbers, d.Fits) : (candidateToJson c).Readable o depth := by
  have hreal : ∀ number : Option Double, (∀ d ∈ number, d.Fits) →
      ∀ v ∈ number.map Json.ofReal, v.Readable o (depth + 1) := fun _ hnumber =>
    readable_mapped fun d hd => ho.number (by omega) (hnumber d hd)
  have hstring : ∀ text : Option Bytes, (∀ s ∈ text, IsText s) → ∀ v ∈ text.map Json.string, v.Readable o (depth + 1) :=
    fun _ htext => readable_mapped fun s hs => ho.text (by omega) (htext s hs)
  have hbool : ∀ flag : Option Bool, ∀ v ∈ flag.map Json.bool, v.Readable o (depth + 1) := fun _ =>
    readable_mapped fun _ _ => ho.within (by omega)
  have hnumbers := forall_mem_toList.1 hfit
  have htexts := forall_mem_toList.1 ht.texts
  simp only [List.forall_mem_cons] at hnumbers htexts
  obtain ⟨h₁, h₂, h₃, h₄, h₅, h₆, h₇, h₈, -⟩ := hnumbers
  obtain ⟨h₉, h₁₀, h₁₁, h₁₂, -⟩ := htexts
  unfold candidateToJson
  repeat' first
    | exact hreal _ (by assumption)
    | exact hstring _ (by assumption)
    | exact hbool _
    | exact readable_attributesToJson ho (by omega) ht.attributes
    | exact ho.null (by omega)
    | decide
    | apply readable_addOptional ho
    | refine ho.put ?_ ?_ ?_
    | refine Json.Readable.ite (fun _ => ?_) fun _ => ?_

theorem isText_freshnessToken (f : EvidenceFreshness) : IsText (freshnessToken f) := by
  cases f <;> exact isText_ascii (by decide) (by decide)

theorem isText_str (incarnation : Incarnation) : IsText incarnation.str :=
  isText_base64Url (by rw [incarnation.length_eq]; decide)

theorem readable_evidenceEntryToJson (ho : o.Roomy) (h : depth ≤ 3) {entry : EvidenceEntry} (ht : entry.Textual)
    (hfit : ∀ d ∈ entry.candidate.numbers, d.Fits) : (evidenceEntryToJson entry).Readable o depth := by
  unfold evidenceEntryToJson
  repeat' first
    | exact readable_candidateToJson ho (by omega) ht.candidate hfit
    | exact ho.null (by omega)
    | exact ho.uint (by omega)
    | exact ho.text (by omega) ht.scope
    | exact ho.text (by omega) (isText_view _)
    | exact ho.text (by omega) (isText_str _)
    | exact ho.text (by omega) (isText_freshnessToken _)
    | decide
    | refine ho.put ?_ ?_ ?_
    | refine Json.Readable.ite (fun _ => ?_) fun _ => ?_

/-- The numbers of a candidate whose document is read fit. -/
theorem Candidate.numbersFit_of_readable {c : Candidate} (h : (candidateToJson c).Readable o depth) :
    ∀ d ∈ c.numbers, d.Fits := by
  have hw := candidateToJson_written c
  have hreal : ∀ {key : Bytes} {number : Option Double}, (candidateToJson c).find key = number.map .ofReal →
      ∀ d ∈ number, d.Fits := by
    rintro key number hf d hd
    rw [Option.mem_def.1 hd, Option.map_some] at hf
    exact (Json.readable_ofReal_iff.1 (h.find hf)).2
  refine forall_mem_toList.2 ?_
  simp only [List.forall_mem_cons]
  exact ⟨hreal hw.minBandwidth, hreal hw.maxLatency, hreal hw.maxJitter, hreal hw.maxLoss, hreal hw.pathDiversity,
    hreal hw.failureDomainSeparation, hreal hw.trafficPriority, hreal hw.burstAllowance, fun _ ho => nomatch ho⟩

theorem Candidate.textual_of_readable {c : Candidate} (hc : c.reread.Documentable)
    (h : (candidateToJson c).Readable o depth) : c.Textual := by
  have hw := candidateToJson_written c
  have hbounds := forall_mem_toList.1 hc.texts
  simp only [List.forall_mem_cons] at hbounds
  obtain ⟨h₁, h₂, h₃, h₄, -⟩ := hbounds
  have htext : ∀ {key : Bytes} {text : Option Bytes}, (candidateToJson c).find key = text.map .string →
      (∀ s ∈ text, s ≠ [] ∧ s.length ≤ maxStringBytes) → ∀ s ∈ text, IsText s := by
    rintro key text hf hlen s hs
    rw [Option.mem_def.1 hs, Option.map_some] at hf
    exact .of_find h hf (hlen s hs).2
  constructor
  · refine forall_mem_toList.2 ?_
    simp only [List.forall_mem_cons]
    exact ⟨htext hw.locality h₁, htext hw.securityClass h₂, htext hw.disaggregatedAffinity h₃,
      htext hw.maintenanceTolerance h₄, fun _ ho => nomatch ho⟩
  · intro a ha
    have hattributes := hw.attributes
    rw [if_pos (List.ne_nil_of_mem ha)] at hattributes
    obtain ⟨hname, hvalue⟩ := hc.attributes.each a ha
    exact isText_of_attribute ((h.find hattributes).items (List.mem_map_of_mem ha)) hname hvalue

theorem EvidenceSet.entry_readable {e : EvidenceSet} (h : (evidenceToJson e).Readable o depth) {entry : EvidenceEntry}
    (hentry : entry ∈ e.entries) : (evidenceEntryToJson entry).Readable o (depth + 1 + 1) :=
  (h.find (evidenceToJson_written e).entries).items (List.mem_map_of_mem hentry)

/-- The text of every number of a document that is read fits. -/
theorem EvidenceSet.numbersFit_of_readable {e : EvidenceSet} (h : (evidenceToJson e).Readable o depth) : e.NumbersFit :=
  fun entry hentry => Candidate.numbersFit_of_readable
    ((entry_readable h hentry).find (evidenceEntryToJson_written entry).candidate)

/-- The scopes and the candidates of a set are within the bounds of the decoder as their texts read. -/
def EvidenceSet.EntriesBounded (e : EvidenceSet) : Prop :=
  ∀ entry ∈ e.entries, entry.scope.length ≤ maxStringBytes ∧ entry.candidate.reread.Documentable

theorem EvidenceSet.Documentable.entriesBounded {e : EvidenceSet} (h : e.reread.Documentable) : e.EntriesBounded := by
  intro entry hentry
  have hbounds := h.entries.2 entry.reread (List.mem_map_of_mem hentry)
  exact ⟨hbounds.scope.2, hbounds.candidate⟩

/-- A document within the bounds of the decoder is read exactly when its texts are valid and its numbers fit. -/
theorem readable_evidenceToJson_iff (ho : o.Roomy) (h : depth ≤ 1) {e : EvidenceSet} (he : e.EntriesBounded) :
    (evidenceToJson e).Readable o depth ↔ e.Textual ∧ e.NumbersFit := by
  constructor
  · intro hread
    refine ⟨fun entry hentry => ?_, EvidenceSet.numbersFit_of_readable hread⟩
    obtain ⟨hscope, hcandidate⟩ := he entry hentry
    have hitem := EvidenceSet.entry_readable hread hentry
    have hw := evidenceEntryToJson_written entry
    exact ⟨.of_find hitem hw.scope hscope, Candidate.textual_of_readable hcandidate (hitem.find hw.candidate)⟩
  · rintro ⟨ht, hfit⟩
    have hentries : (Json.array (e.entries.map evidenceEntryToJson)).Readable o (depth + 1) :=
      ho.mapped (by omega) fun entry hentry =>
        readable_evidenceEntryToJson ho (by omega) (ht entry hentry) (hfit entry hentry)
    unfold evidenceToJson
    repeat' first
      | exact hentries
      | exact ho.null (by omega)
      | exact ho.uint (by omega)
      | exact ho.text (by omega) (isText_view _)
      | decide
      | refine ho.put ?_ ?_ ?_

end Readable

/-! ## Evidence that a record gives back -/

/-- An evidence set whose document is read, and decoded to the set as the text documents it. -/
structure EvidenceSet.Recordable (e : EvidenceSet) : Prop where
  documentable : e.reread.Documentable
  textual : e.Textual
  numbers : e.NumbersFit

theorem evidence_recordable_iff {o : JsonDecodeOptions} (ho : o.Roomy) {depth : Nat} (h : depth ≤ 1)
    {e v : EvidenceSet} :
    (evidenceToJson e).Readable o depth ∧ evidenceFromJson (evidenceToJson e).reread = .ok v ↔
      v = e.reread.documented ∧ e.Recordable := by
  constructor
  · rintro ⟨hread, hdecode⟩
    have hfit := EvidenceSet.numbersFit_of_readable hread
    rw [reread_evidenceToJson hfit, evidenceFromJson_iff] at hdecode
    obtain ⟨rfl, hd⟩ := hdecode
    exact ⟨rfl, hd, ((readable_evidenceToJson_iff ho h hd.entriesBounded).1 hread).1, hfit⟩
  · rintro ⟨rfl, hd, ht, hfit⟩
    rw [reread_evidenceToJson hfit, evidenceFromJson_iff]
    exact ⟨(readable_evidenceToJson_iff ho h hd.entriesBounded).2 ⟨ht, hfit⟩, rfl, hd⟩

end Wnc
