/-
What every generation of a workload owes to those before it: it is signed by the publisher of the first, and it
keeps their required requirements, in every state of every history.
-/
import Wnc.Policy.Succession
import Wnc.Runtime.Durable

namespace Wnc

open Lib

/-! ## Authority -/

/-- The domain under which a generation is signed. -/
def GenerationRecord.domain (g : GenerationRecord) : Bytes :=
  if g.generation = 1 then domainRegistration else domainPublication

/-- The envelope of a generation verifies over the canonical bytes of its stored body. -/
def GenerationRecord.Signed (trust : TrustSet) (g : GenerationRecord) : Prop :=
  ∃ v, verifySignature trust g.body.envelope.publisher g.domain (submissionBytes g.body) (signatureOf g.body.envelope) =
    .ok v

structure WorkloadState.Authorised (trust : TrustSet) (w : WorkloadState) : Prop where
  chained : w.Chained
  signed : ∀ (i : Nat) (g : GenerationRecord), w.generations[i]? = some g → g.Signed trust

theorem submissionBytes_documented (c : Contract) : submissionBytes c.documented = submissionBytes c := by
  unfold submissionBytes
  rw [show c.documented.body = c.body.documented from rfl, contractBodyToJson_documented]

theorem GenerationRecord.Alike.signed {g g' : GenerationRecord} (h : g.Alike g') {trust : TrustSet}
    (hg : g.Signed trust) : g'.Signed trust := by
  have hbytes : submissionBytes g.body = submissionBytes g'.body := by
    rw [← submissionBytes_documented g.body, h.document, submissionBytes_documented]
  unfold Signed domain at hg ⊢
  rw [← h.envelope, ← h.generation, ← hbytes]
  exact hg

theorem historic_authorised (trust : TrustSet) : Historic (· = trust) (WorkloadState.Authorised trust) where
  chained _ h := h.chained
  ofChain := by
    intro w w' h hchain
    refine ⟨h.chained.of_chain hchain, fun i g' hg' => ?_⟩
    obtain ⟨g, hg, hcore⟩ := WorkloadState.generation_of_chain hchain hg'
    exact (GenerationRecord.alike_of_core hcore).signed (h.signed i g hg)
  registered := by
    rintro r c t rfl h
    refine ⟨chained_registered t h, fun i g hg => ?_⟩
    obtain ⟨-, rfl⟩ := getElem?_singleton_eq hg
    have hdomain : (generationOf c t).domain = domainRegistration := if_pos h.first
    unfold GenerationRecord.Signed
    rw [hdomain]
    exact h.verified
  published := by
    rintro r c w publisher t rfl h hw
    refine ⟨chained_published t h hw.chained, fun i g hg => ?_⟩
    rcases getElem?_map_snoc hg with ⟨-, g₀, hg₀, rfl⟩ | ⟨-, rfl⟩
    · exact hw.signed i g₀ hg₀
    · have hne : c.body.generation ≠ 1 := by
        have hpos := List.length_pos_iff.2 hw.chained.nonempty
        intro he
        have hnext := hw.chained.next
        rw [← h.generation, he, UInt64.toNat_one] at hnext
        omega
      have hdomain : (generationOf c t).domain = domainPublication := if_neg hne
      obtain ⟨v, hv, -⟩ := h.verified
      unfold GenerationRecord.Signed
      rw [hdomain]
      exact ⟨v, hv⟩

/-- In every state of every history under one trust set every generation is signed, and by the publisher of the
first. -/
theorem generation_authority {s₀ s : System} {events : List Event} (hstart : s₀.Started)
    (hrun : Run System.Step (fun _ e => e.Under (· = s₀.runtime.trust)) s₀ events s) {id : WorkloadId}
    {w : WorkloadState} (hw : s.runtime.state.workloads.find? id = some w) :
    s.runtime.trust = s₀.runtime.trust ∧ ∀ g ∈ w.generations, g.Signed s.runtime.trust ∧
      ∀ f, w.generations.head? = some f → g.body.envelope.publisher = f.body.envelope.publisher := by
  have hi := (historic_authorised s₀.runtime.trust).run hstart rfl hrun
  have hauthorised := hi.workloads id w hw
  refine ⟨hi.trusted, fun g hg => ?_⟩
  obtain ⟨i, hi'⟩ := List.getElem?_of_mem hg
  refine ⟨by rw [hi.trusted]; exact hauthorised.signed i g hi', fun f hf => ?_⟩
  rw [List.head?_eq_getElem?] at hf
  exact (hauthorised.chained.publisher i f g hf hi').1

theorem generation_authority_restarted : ∃ (s : System) (w : WorkloadState),
    s.runtime.state.workloads.find? (.repeating 1) = some w ∧ w.generations.length = 2 ∧
      ∀ g ∈ w.generations, g.Signed s.runtime.trust := by
  obtain ⟨s₀, s, t, events, w, hstart, htrust, hrun, -, -, hreopen, -, hfind, hlength⟩ := isolation_restarted
  have hunder : Event.Under (· = s₀.runtime.trust) (.reopen { trust := isolationTrust }) := htrust.symm
  have h := generation_authority hstart
    ((hrun _ fun _ _ _ _ => trivial).append (.cons hunder hreopen (.nil _))) hfind
  exact ⟨t, w, hfind, hlength, fun g hg => (h.2 g hg).1⟩

/-! ## Required requirements -/

/-- A required requirement that keeps what another requires. -/
structure Upholds (q r : Requirement) : Prop where
  key : q.compositeKey = r.compositeKey
  required : q.strength = .required
  form : q.hasNumeric = r.hasNumeric
  numeric : r.hasNumeric = true → NoWeaker r.kind q.target r.target ∧ NoWeaker r.kind q.minimum r.minimum
  textual : r.hasNumeric = false → q.value = r.value ∧ q.preferredValue = r.preferredValue

/-- A body that keeps every required requirement of another. -/
def Keeps (before after : ContractBody) : Prop :=
  ∀ r ∈ before.requirements, r.strength = .required → ∃ q ∈ after.requirements, Upholds q r

theorem Upholds.trans {p q r : Requirement} (hpq : Upholds p q) (hqr : Upholds q r) : Upholds p r := by
  have hkind : q.kind = r.kind := congrArg RequirementKey.kind hqr.key
  refine ⟨hpq.key.trans hqr.key, hpq.required, hpq.form.trans hqr.form, fun hn => ?_, fun hn => ?_⟩
  · have hp := hpq.numeric (by rw [hqr.form]; exact hn)
    have hq := hqr.numeric hn
    rw [hkind] at hp
    exact ⟨hp.1.trans hq.1, hp.2.trans hq.2⟩
  · have hp := hpq.textual (by rw [hqr.form]; exact hn)
    have hq := hqr.textual hn
    exact ⟨hp.1.trans hq.1, hp.2.trans hq.2⟩

theorem Keeps.trans {a b c : ContractBody} (hab : Keeps a b) (hbc : Keeps b c) : Keeps a c := by
  intro r hr hs
  obtain ⟨q, hq, hqr⟩ := hab r hr hs
  obtain ⟨p, hp, hpq⟩ := hbc q hq hqr.required
  exact ⟨p, hp, hpq.trans hqr⟩

/-- Documents keep the values of bounds. -/
theorem documentedReal_spec (d : Double) : (documentedReal d).isNan = d.isNan ∧ (documentedReal d).order = d.order := by
  unfold documentedReal
  split
  · rename_i h
    simp only [Double.eq, Bool.and_eq_true, Bool.not_eq_true', beq_iff_eq] at h
    exact ⟨by rw [h.1.1, h.1.2], h.2.symm⟩
  · exact ⟨rfl, rfl⟩

theorem documentedReal_le (a b : Double) : (documentedReal a).le (documentedReal b) = a.le b := by
  unfold Double.le
  rw [(documentedReal_spec a).1, (documentedReal_spec a).2, (documentedReal_spec b).1, (documentedReal_spec b).2]

theorem noWeaker_documented {kind : RequirementKind} {a b : Double} :
    NoWeaker kind (documentedReal a) (documentedReal b) ↔ NoWeaker kind a b := by
  unfold NoWeaker
  rw [documentedReal_le, documentedReal_le]

theorem upholds_documented {q r : Requirement} : Upholds q.documented r.documented ↔ Upholds q r := by
  have hnumeric : q.hasNumeric = r.hasNumeric → r.hasNumeric = true →
      (NoWeaker r.kind q.documented.target r.documented.target ↔ NoWeaker r.kind q.target r.target) ∧
        (NoWeaker r.kind q.documented.minimum r.documented.minimum ↔ NoWeaker r.kind q.minimum r.minimum) := by
    intro hform hn
    unfold Requirement.documented
    simp only [hform, hn, if_true, noWeaker_documented, and_self]
  constructor
  · intro h
    have hform : q.hasNumeric = r.hasNumeric := h.form
    exact ⟨h.key, h.required, hform, fun hn => ⟨(hnumeric hform hn).1.1 (h.numeric hn).1,
      (hnumeric hform hn).2.1 (h.numeric hn).2⟩, h.textual⟩
  · intro h
    exact ⟨h.key, h.required, h.form, fun hn => ⟨(hnumeric h.form hn).1.2 (h.numeric hn).1,
      (hnumeric h.form hn).2.2 (h.numeric hn).2⟩, h.textual⟩

theorem keeps_documented {a b : ContractBody} : Keeps a.documented b.documented ↔ Keeps a b := by
  unfold Keeps ContractBody.documented
  simp only [List.mem_map, forall_exists_index, and_imp, forall_apply_eq_imp_iff₂, exists_exists_and_eq_and,
    upholds_documented]
  rfl

theorem sane_documented {b : ContractBody} : Sane b.documented ↔ Sane b := by
  unfold Sane ContractBody.documented
  simp only [List.mem_map, forall_exists_index, and_imp, forall_apply_eq_imp_iff₂]
  refine forall₂_congr fun r _ => forall_congr' fun hn => ?_
  have hn' : r.hasNumeric = true := hn
  unfold Requirement.documented
  simp only [hn', if_true, (documentedReal_spec _).1]

theorem sane_of_valid {c : Contract} (h : (validateContract c).ok = true) : Sane c.body := by
  intro r hr hn
  have hfits := (valid_spec h).2 r hr
  exact ⟨Double.not_isNan_of_isFinite (hfits.finite hn).1, Double.not_isNan_of_isFinite (hfits.finite hn).2⟩

/-- A compatible body keeps what the one before it requires. -/
theorem keeps_of_compatible {a b : ContractBody} (ha : Sane a) (hb : Sane b)
    (h : (checkCompatibility a b).compatible = true) : Keeps a b := by
  intro r hr hs
  obtain ⟨q, hq, hstrength, hform⟩ := successor_of_compatible h hr hs
  have hmem := Keyed.mem_of_get hq
  refine ⟨q, hmem, Keyed.key_of_get hq, hstrength, ?_, fun hn => ?_, fun hn => ?_⟩
  · rcases hform with ⟨hr, hq, -⟩ | ⟨hr, hq, -⟩ <;> rw [hr, hq]
  · rcases hform with ⟨_, hqn, hminimum, htarget⟩ | ⟨hr', -⟩
    · obtain ⟨hrt, hrm⟩ := ha r hr hn
      obtain ⟨hqt, hqm⟩ := hb q hmem hqn
      exact ⟨(not_looser_iff hqt hrt).1 htarget, (not_looser_iff hqm hrm).1 hminimum⟩
    · rw [hn] at hr'
      cases hr'
  · rcases hform with ⟨hr', -⟩ | ⟨_, _, hvalue, hpreferred⟩
    · rw [hn] at hr'
      cases hr'
    · exact ⟨hvalue, hpreferred⟩

structure WorkloadState.Continued (w : WorkloadState) : Prop where
  chained : w.Chained
  sane : ∀ (i : Nat) (g : GenerationRecord), w.generations[i]? = some g → Sane g.body.body
  keeps : ∀ (i j : Nat) (g h : GenerationRecord), i < j → w.generations[i]? = some g → w.generations[j]? = some h →
    Keeps g.body.body h.body.body

theorem GenerationRecord.Alike.body {g g' : GenerationRecord} (h : g.Alike g') :
    g.body.body.documented = g'.body.body.documented := by
  have hd := congrArg Contract.body h.document
  exact hd

theorem historic_continued (T : TrustSet → Prop) : Historic T WorkloadState.Continued where
  chained _ h := h.chained
  ofChain := by
    intro w w' h hchain
    have hgen : ∀ {i : Nat} {g' : GenerationRecord}, w'.generations[i]? = some g' →
        ∃ g, w.generations[i]? = some g ∧ g.body.body.documented = g'.body.body.documented := by
      intro i g' hg'
      obtain ⟨g, hg, hcore⟩ := WorkloadState.generation_of_chain hchain hg'
      exact ⟨g, hg, (GenerationRecord.alike_of_core hcore).body⟩
    refine ⟨h.chained.of_chain hchain, fun i g' hg' => ?_, fun i j g' k' hij hg' hk' => ?_⟩
    · obtain ⟨g, hg, hbody⟩ := hgen hg'
      rw [← sane_documented, ← hbody, sane_documented]
      exact h.sane i g hg
    · obtain ⟨g, hg, hgbody⟩ := hgen hg'
      obtain ⟨k, hk, hkbody⟩ := hgen hk'
      rw [← keeps_documented, ← hgbody, ← hkbody, keeps_documented]
      exact h.keeps i j g k hij hg hk
  registered := by
    intro r c t _ h
    refine ⟨chained_registered t h, fun i g hg => ?_, fun i j g k hij hg hk => ?_⟩
    · obtain ⟨-, rfl⟩ := getElem?_singleton_eq hg
      exact sane_of_valid h.valid
    · obtain ⟨rfl, -⟩ := getElem?_singleton_eq hk
      exact absurd hij (Nat.not_lt_zero i)
  published := by
    intro r c w publisher t _ h hw
    obtain ⟨last, hlast, hlastAt, hpos⟩ := hw.chained.last
    have hnew : Keeps last.body.body c.body :=
      keeps_of_compatible (hw.sane _ _ hlastAt) (sane_of_valid h.valid) (h.compatible last hlast)
    refine ⟨chained_published t h hw.chained, fun i g hg => ?_, fun i j g k hij hg hk => ?_⟩
    · rcases getElem?_map_snoc hg with ⟨-, g₀, hg₀, rfl⟩ | ⟨-, rfl⟩
      · exact hw.sane i g₀ hg₀
      · exact sane_of_valid h.valid
    · rcases getElem?_map_snoc hg with ⟨hi, g₀, hg₀, rfl⟩ | ⟨hi, -⟩
      · rcases getElem?_map_snoc hk with ⟨-, k₀, hk₀, rfl⟩ | ⟨-, rfl⟩
        · exact hw.keeps i j g₀ k₀ hij hg₀ hk₀
        · -- through the generation that the new one supersedes
          by_cases hil : i = w.generations.length - 1
          · rw [hil, hlastAt] at hg₀
            cases hg₀
            exact hnew
          · exact (hw.keeps i _ g₀ last (by omega) hg₀ hlastAt).trans hnew
      · rcases getElem?_map_snoc hk with ⟨hj, -⟩ | ⟨hj, -⟩ <;> omega

/-- In every state of every history every generation keeps the required requirements of every earlier one. -/
theorem requirements_survive {s₀ s : System} {events : List Event} (hstart : s₀.Started)
    (hrun : Run System.Step (fun _ _ => True) s₀ events s) {id : WorkloadId} {w : WorkloadState}
    (hw : s.runtime.state.workloads.find? id = some w) (i j : Nat) (g h : GenerationRecord) :
    i < j → w.generations[i]? = some g → w.generations[j]? = some h → Keeps g.body.body h.body.body := by
  intro hij hg hh
  have hi := (historic_continued fun _ => True).run hstart trivial
    (hrun.mono fun _ e _ => show e.Under fun _ => True by cases e <;> trivial)
  exact (hi.workloads id w hw).keeps i j g h hij hg hh

theorem requirements_survive_restarted : ∃ (s : System) (w : WorkloadState) (g h : GenerationRecord),
    s.runtime.state.workloads.find? (.repeating 1) = some w ∧ w.generations = [g, h] ∧ Keeps g.body.body h.body.body := by
  obtain ⟨s₀, s, t, events, w, hstart, -, hrun, -, -, hreopen, -, hfind, hlength⟩ := isolation_restarted
  obtain ⟨g, h, hgenerations⟩ := List.length_eq_two.1 hlength
  exact ⟨t, w, g, h, hfind, hgenerations, requirements_survive hstart
    ((hrun _ fun _ _ _ _ => trivial).append (.cons trivial hreopen (.nil _))) hfind 0 1 g h Nat.zero_lt_one
    (by rw [hgenerations]; rfl) (by rw [hgenerations]; rfl)⟩

end Wnc
