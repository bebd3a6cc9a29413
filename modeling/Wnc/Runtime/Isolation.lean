/-
A boot on an empty directory in which one contract is registered and gets its evidence, and what that evidence does a
minute later. The contracts are under the signature of a publisher that the boot trusts.
-/
import Wnc.Contract.Publishing
import Wnc.Core.Trust
import Wnc.Runtime.Accepted

namespace Wnc

open Lib

/-! ## Signed contracts -/

def isolationKey : Bytes := utf8 "k"

def isolationPublisher : PublisherId := publisherIdentity .hmacSha256 isolationKey

def isolationTrust : TrustSet := ({} : TrustSet).addHmac isolationPublisher isolationKey

/-- A contract under the signature of the publisher. -/
def signed (domain : Bytes) (c : Contract) : Contract :=
  let keyId := issuerKeyId .hmacSha256 isolationKey
  let subject := signatureSubject domain (submissionBytes c)
  { c with
    envelope :=
      { publisher := isolationPublisher
        algorithm := .hmacSha256
        keyId := keyId
        signature := (hmacSha256 isolationKey (bindClaim isolationPublisher keyId subject.hex).bytes).bytes
        issuedMillis := 0 } }

set_option maxRecDepth 100000 in
theorem isolationPublisher_isZero : isolationPublisher.isZero = false := by decide +kernel

/-- The one record of the trust set. -/
theorem findKey_isolationTrust : isolationTrust.findKey isolationPublisher (issuerKeyId .hmacSha256 isolationKey) =
    some ⟨isolationPublisher, .hmacSha256, issuerKeyId .hmacSha256 isolationKey, zeroPublicKey, isolationKey⟩ := by
  unfold TrustSet.findKey
  exact List.find?_cons_of_pos (by rw [beq_self_eq_true, beq_self_eq_true]; rfl)

/-- A signed contract verifies under the publisher. -/
theorem verifySignature_signed (domain : Bytes) (c : Contract) :
    verifySignature isolationTrust (signed domain c).envelope.publisher domain (submissionBytes (signed domain c))
      (signatureOf (signed domain c).envelope) = .ok ⟨isolationPublisher, issuerKeyId .hmacSha256 isolationKey⟩ :=
  verifySignature_hmac isolationPublisher_isZero (Digest.length_hex _) findKey_isolationTrust rfl domain (submissionBytes c)

theorem find_isolationTrust : (isolationTrust.find isolationPublisher).isSome = true := by
  unfold TrustSet.find
  rw [List.find?_isSome]
  exact ⟨_, List.mem_singleton_self _, beq_self_eq_true _⟩

/-- Nothing fails, and the clock stands still. -/
def undisturbed : Surroundings := ⟨.succeeds, fun _ => 1⟩

/-- A runtime accepts the first contract of a workload under the signature of the publisher, past its policy gate. -/
theorem Mutation.registers {r : Runtime} {n : Nat} {c : Contract} (htrust : r.trust = isolationTrust)
    (hroom : Ledger.Room r.ledger (n + 1)) (hnew : r.state.workloads.find? c.body.workload.id = none)
    (hgate : Runtime.checkPolicy c r.state = .ok ()) (hsigned : ∃ c₀, c = signed domainRegistration c₀)
    (hvalid : (validateContract c).ok = true) (hgeneration : c.body.generation = 1) (horiginal : c.hasSupersedes = false)
    (hfits : (Runtime.registrationPayload 1 c).dump.length ≤ Ledger.maxRecordBytes) (dir : Directory) :
    ((Mutation.registerWorkload c).perform undisturbed r dir).1.ok = true ∧
      ∃ l, ((Mutation.registerWorkload c).perform undisturbed r dir).2.1 =
        { r with state := r.state.register c 1, ledger := l } ∧ Ledger.Room l n := by
  have hverified : verifySignature r.trust c.envelope.publisher domainRegistration (submissionBytes c)
      (signatureOf c.envelope) = .ok ⟨isolationPublisher, issuerKeyId .hmacSha256 isolationKey⟩ := by
    obtain ⟨c₀, rfl⟩ := hsigned
    rw [htrust]
    exact verifySignature_signed domainRegistration c₀
  have hplan : (Mutation.registerWorkload c).plan undisturbed r = .ok
      ⟨.workloadRegistered, Runtime.registrationPayload 1 c, r.state.register c 1⟩ := by
    rw [Mutation.plan, planRegistration_of ⟨hvalid, hgeneration, horiginal, ⟨_, hverified⟩, hnew⟩ hgate]
    rfl
  exact Mutation.perform_accepted rfl hroom hplan hfits dir

/-- So does a blank runtime. -/
theorem Runtime.Blank.registers {r : Runtime} (h : r.Blank isolationTrust) {c : Contract}
    (hsigned : ∃ c₀, c = signed domainRegistration c₀) (hvalid : (validateContract c).ok = true)
    (hgeneration : c.body.generation = 1) (horiginal : c.hasSupersedes = false)
    (hfits : (Runtime.registrationPayload 1 c).dump.length ≤ Ledger.maxRecordBytes) (dir : Directory) :
    ((Mutation.registerWorkload c).perform undisturbed r dir).1.ok = true ∧
      ∃ l, ((Mutation.registerWorkload c).perform undisturbed r dir).2.1 =
        { r with state := r.state.register c 1, ledger := l } ∧ Ledger.Room l 14 :=
  Mutation.registers h.trust h.room (by rw [h.workloads]; rfl) (checkPolicy_none h.policy) hsigned hvalid hgeneration
    horiginal hfits dir

/-! ## Contracts in succession -/

theorem exists_of_isOk {ε α : Type} {x : Except ε α} (h : x.isOk = true) : ∃ a, x = .ok a := by
  cases x with
  | error e => cases h
  | ok a => exact ⟨a, rfl⟩

/-- What a publication has to pass, whatever the workload it goes to. -/
structure Supersedes (previous c : Contract) : Prop where
  valid : (validateContract c).ok = true
  verified : (verifySignature isolationTrust c.envelope.publisher domainPublication (submissionBytes c)
    (signatureOf c.envelope)).isOk = true
  compatible : (checkCompatibility previous.body c.body).compatible = true
  bounded : (Runtime.publicationPayload 1 isolationPublisher c).dump.length ≤ Ledger.maxRecordBytes
  workload : c.body.workload.id = .repeating 1
  generation : c.body.generation = previous.body.generation + 1
  major : c.body.major = previous.body.major
  named : c.hasSupersedes = true ∧ c.supersedes = previous.body.generation ∧ c.supersedesDigest = previous.digest
  publisher : c.envelope.publisher = isolationPublisher ∧ previous.envelope.publisher = isolationPublisher

/-- A workload whose current generation is that of a contract. -/
structure WorkloadState.Heads (w : WorkloadState) (c : Contract) : Prop where
  active : w.retired = false
  generation : w.contractGeneration = c.body.generation
  digest : w.digest = c.digest
  last : ∃ g : GenerationRecord, w.generations.getLast? = some g ∧ g.body = c

/-- A runtime without a policy, with room in its journal, that has a workload under a contract. -/
structure Runtime.Current (r : Runtime) (w : WorkloadState) (c : Contract) (n : Nat) : Prop where
  trust : r.trust = isolationTrust
  policy : r.state.policy = none
  room : Ledger.Room r.ledger n
  found : r.state.workloads.find? (.repeating 1) = some w
  heads : w.Heads c

/-- A contract that supersedes the current one is accepted, and is the current one then. -/
theorem Runtime.Current.publishes {r : Runtime} {w : WorkloadState} {previous c : Contract} {n : Nat}
    (h : r.Current w previous (n + 1)) (hs : Supersedes previous c)
    (hretained : w.generations.length < maxRetainedGenerations) (dir : Directory) :
    ((Mutation.publish c).perform undisturbed r dir).1.ok = true ∧
      ((Mutation.publish c).perform undisturbed r dir).2.1.Current (w.publish c 1) c n := by
  obtain ⟨g, hg, hbody⟩ := h.heads.last
  have hlast : ∀ g', w.generations.getLast? = some g' → g'.body = previous := by
    intro g' hg'
    rw [hg] at hg'
    cases hg'
    exact hbody
  obtain ⟨hnamed, hsupersedes, hdigest⟩ := hs.named
  have hpub : Publishable r c w isolationPublisher := by
    refine ⟨hs.valid, by rw [hs.workload]; exact h.found, h.heads.active, by rw [h.heads.generation]; exact hs.generation,
      ⟨hnamed, hsupersedes.trans h.heads.generation.symm, hdigest.trans h.heads.digest.symm⟩,
      fun g' hg' => by rw [hlast g' hg']; exact hs.major, ?_, fun g' hg' => by rw [hlast g' hg']; exact hs.publisher.2,
      fun g' hg' => by rw [hlast g' hg']; exact hs.compatible, hretained⟩
    obtain ⟨v, hv⟩ := exists_of_isOk hs.verified
    exact ⟨v, by rw [h.trust]; exact hv, (verifySignature_publisher hv).trans hs.publisher.1⟩
  have hne : w.generations ≠ [] := by
    rintro he
    rw [he] at hg
    cases hg
  have hplan : (Mutation.publish c).plan undisturbed r = .ok
      ⟨.contractPublished, Runtime.publicationPayload 1 isolationPublisher c, r.state.publish w c 1⟩ := by
    rw [Mutation.plan, planPublication_of hpub h.policy hne]
    rfl
  obtain ⟨hok, l, hafter, hroom⟩ := Mutation.perform_accepted rfl h.room hplan hs.bounded dir
  refine ⟨hok, ?_⟩
  rw [hafter]
  refine ⟨h.trust, h.policy, hroom, ?_, h.heads.active, rfl, rfl, generationOf c 1, List.getLast?_concat, rfl⟩
  show (r.state.workloads.set c.body.workload.id _).find? _ = _
  rw [hs.workload, SortedMap.find?_set_self]

/-- A registration makes its contract the current one. -/
theorem Runtime.Blank.current {r : Runtime} (h : r.Blank isolationTrust) {c : Contract}
    (hworkload : c.body.workload.id = .repeating 1) (hsigned : ∃ c₀, c = signed domainRegistration c₀)
    (hvalid : (validateContract c).ok = true) (hgeneration : c.body.generation = 1) (horiginal : c.hasSupersedes = false)
    (hfits : (Runtime.registrationPayload 1 c).dump.length ≤ Ledger.maxRecordBytes) (dir : Directory) :
    ((Mutation.registerWorkload c).perform undisturbed r dir).2.1.Current (registeredWorkload c 1) c 14 := by
  obtain ⟨-, l, hafter, hroom⟩ := h.registers hsigned hvalid hgeneration horiginal hfits dir
  rw [hafter]
  refine ⟨h.trust, h.policy, hroom, ?_, rfl, rfl, rfl, generationOf c 1, rfl, rfl⟩
  rw [← hworkload]
  exact SortedMap.find?_set_self _ _ _

/-! ## Contracts that are accepted -/

/-- A body with one requirement that passes the checks which do not concern identities, and none of whose identities is
derived as zero. -/
structure ContractBody.Sole (b : ContractBody) : Prop where
  checked : OnlyIdentities (validateBody b)
  requirement : ∃ r, b.requirements = [r] ∧ sha256 r.identityInput ≠ .zero
  contract : sha256 ({ body := b } : Contract).identityInput ≠ .zero

/-- A contract with such a body is valid in its canonical form. -/
theorem ContractBody.Sole.valid {c : Contract} (h : c.body.Sole) (hsupersedes : c.SupersedesBelow) (domain : Bytes) :
    (validateContract (signed domain (canonicalize c))).ok = true := by
  obtain ⟨r, hr, hrequirement⟩ := h.requirement
  have hsingle : ∀ {α : Type} (f : Requirement → α), c.body.requirements.map f = [f r] := fun f => by rw [hr]; rfl
  have hdigests : c.SoundDigests := by
    refine ⟨?_, ?_, ?_, h.contract⟩
    · rw [hsingle]
      exact Ledger.collisionFree_singleton _
    · rw [hsingle]
      exact Ledger.collisionFree_singleton _
    · rw [hr]
      exact List.forall_mem_singleton.2 hrequirement
  have hids : ((c.body.requirements.map canonicalizeRequirement).map Requirement.id).Nodup := by
    rw [hsingle]
    exact List.nodup_singleton _
  have hzero : (canonicalize c).body.contractId.isZero = false := by
    rw [contractId_canonicalize]
    exact Id.isZero_fromDigest h.contract
  exact validateContract_ok.2
    (contractDiagnostics_canonicalize (validateBody_canonicalize h.checked hdigests hids) hzero hsupersedes)

/-- A contract that supersedes another one, under the same publisher. -/
def supersedingContract (previous : Contract) (body : ContractBody) : Contract :=
  signed domainPublication
    { canonicalize { body := body } with
      supersedes := previous.body.generation
      supersedesDigest := previous.digest }

theorem verified_superseding (previous : Contract) (body : ContractBody) :
    (verifySignature isolationTrust (supersedingContract previous body).envelope.publisher domainPublication
      (submissionBytes (supersedingContract previous body)) (signatureOf (supersedingContract previous body).envelope)).isOk =
      true := by
  unfold supersedingContract
  rw [verifySignature_signed]
  rfl

/-- The next generation of a contract supersedes it, when the two are compatible. -/
theorem ContractBody.Sole.supersedes {previous : Contract} {body : ContractBody} (h : body.Sole)
    (hdigest : previous.digest ≠ .zero) (hpublisher : previous.envelope.publisher = isolationPublisher)
    (hworkload : body.workload.id = .repeating 1)
    (hgeneration : previous.body.generation ≠ 0 ∧ body.generation = previous.body.generation + 1 ∧
      previous.body.generation < body.generation)
    (hmajor : body.major = previous.body.major)
    (hcompatible : (checkCompatibility previous.body (supersedingContract previous body).body).compatible = true)
    (hextent : (Runtime.publicationPayload 1 isolationPublisher (supersedingContract previous body)).extent ≤
      Ledger.maxRecordBytes) : Supersedes previous (supersedingContract previous body) where
  valid := ContractBody.Sole.valid
    (c := { body := body, supersedes := previous.body.generation, supersedesDigest := previous.digest }) h
    (.inr ⟨hgeneration.1, hdigest, hgeneration.2.2⟩) domainPublication
  verified := verified_superseding previous body
  compatible := hcompatible
  bounded := (Json.length_dump_le _).trans hextent
  workload := hworkload
  generation := hgeneration.2.1
  major := hmajor
  named := ⟨bne_iff_ne.2 hgeneration.1, rfl, rfl⟩
  publisher := ⟨rfl, hpublisher⟩

/-! ## A contract whose evidence outlives its age -/

/-- A generation of a workload that requires checkpoint isolation in one scope. -/
def isolationBody (generation : ContractGeneration) : ContractBody where
  workload := { id := .repeating 1, name := utf8 "w", generation := 1 }
  generation := generation
  policyGeneration := 1
  scopes := [{ name := utf8 "s" }]
  requirements := [{ scope := utf8 "s", kind := .checkpointIsolation, value := utf8 "full" }]

/-- The first contract of the workload. -/
def isolationContract : Contract := signed domainRegistration (canonicalize { body := isolationBody 1 })

/-- The scope is isolated, as observed at one millisecond. -/
def isolationEvidence : EvidenceSet :=
  { generation := 1
    publisher := isolationPublisher
    producedAtMillis := 1
    entries := [{ scope := utf8 "s", producedAtMillis := 1, candidate := { checkpointIsolation := some true } }] }

theorem isolationContract_signed : ∃ c, isolationContract = signed domainRegistration c := ⟨_, rfl⟩

set_option maxRecDepth 100000 in
theorem isolationBody_sole : (isolationBody 1).Sole ∧ (isolationBody 2).Sole :=
  ⟨⟨by decide +kernel, ⟨_, rfl, by decide +kernel⟩, by decide +kernel⟩,
    ⟨by decide +kernel, ⟨_, rfl, by decide +kernel⟩, by decide +kernel⟩⟩

set_option maxRecDepth 100000 in
theorem isolationContract_checks : (validateContract isolationContract).ok = true ∧
    (Runtime.registrationPayload 1 isolationContract).dump.length ≤ Ledger.maxRecordBytes :=
  ⟨ContractBody.Sole.valid (c := { body := isolationBody 1 }) isolationBody_sole.1 (.inl ⟨rfl, rfl⟩) _,
    (Json.length_dump_le _).trans (by decide +kernel)⟩

/-- The next generation of the contract, with the same requirement. -/
def isolationSuccessor : Contract := supersedingContract isolationContract (isolationBody 2)

set_option maxRecDepth 100000 in
theorem isolation_supersedes : Supersedes isolationContract isolationSuccessor :=
  isolationBody_sole.2.supersedes (by decide +kernel) rfl rfl (by decide) rfl (by decide +kernel) (by decide +kernel)

set_option maxRecDepth 100000 in
/-- What the evidence observes meets the requirement. -/
theorem isolationContract_observed : ∃ q ∈ isolationContract.body.requirements, q.strength ≠ .informational ∧
    q.scope = utf8 "s" ∧ Observes q { checkpointIsolation := some true } := by
  have h : (isolationContract.body.requirements.any fun q => q.strength != .informational && q.scope == utf8 "s" &&
      (decideObserved q { checkpointIsolation := some true }).satisfaction == .satisfied) = true := by decide +kernel
  obtain ⟨q, hq, h⟩ := List.any_eq_true.1 h
  simp only [Bool.and_eq_true, bne_iff_ne, beq_iff_eq] at h
  exact ⟨q, hq, h.1.1, h.1.2, (decideObserved_satisfied _ _).1 h.2⟩

/-- A stamp depends on the incarnation and the epoch. -/
theorem EvidenceSet.stamp_congr {info info' : RuntimeInfo} (hincarnation : info.incarnation = info'.incarnation)
    (hepoch : info.epoch = info'.epoch) (clock : Nat → UInt64) (e : EvidenceSet) :
    e.stamp info clock = e.stamp info' clock := by
  unfold stamp
  rw [hincarnation, hepoch]

/-- What the stamp of a boot on an empty directory takes from the runtime. -/
def blankInfo : RuntimeInfo := ⟨.zero, .zero, 1, .zero, 0, false, 0, 0⟩

/-- The evidence as that boot attaches it. -/
def stampedEvidence : EvidenceSet := isolationEvidence.stamp blankInfo fun _ => 1

set_option maxRecDepth 100000 in
theorem stampedEvidence_checks : (registeredWorkload isolationContract 1).affected stampedEvidence.entries = true ∧
    (Runtime.evidencePayload 1 stampedEvidence).dump.length ≤ Ledger.maxRecordBytes :=
  ⟨by decide +kernel, (Json.length_dump_le _).trans (by decide +kernel)⟩

/-- The evidence is accepted by a runtime that has none, at every reading of the clock that its record has room for. -/
theorem Runtime.attaches {r : Runtime} {n : Nat} (htrust : r.trust = isolationTrust) (hroom : Ledger.Room r.ledger (n + 1))
    (hincarnation : r.info.incarnation = .zero) (hepoch : r.info.epoch = 1) (hfloor : r.state.evidenceFloor = 0)
    {around : Surroundings} {t : UInt64} (hio : around.io = .succeeds) (hclock : around.clock = fun _ => t)
    (hfits : (Runtime.evidencePayload t stampedEvidence).dump.length ≤ Ledger.maxRecordBytes) (dir : Directory) :
    ((Mutation.attachEvidence isolationEvidence).perform around r dir).1.ok = true ∧
      ∃ l, ((Mutation.attachEvidence isolationEvidence).perform around r dir).2.1 =
        { r with state := r.state.attach stampedEvidence, ledger := l } := by
  have hadvances : r.state.evidenceFloor < isolationEvidence.generation := by
    rw [hfloor]
    exact show (0 : UInt64) < 1 by decide
  have hattachable : Attachable r isolationEvidence :=
    ⟨List.cons_ne_nil _ _, .inr hadvances, by rw [htrust]; exact find_isolationTrust⟩
  have hstamp : isolationEvidence.stamp r.info (fun _ => t) = stampedEvidence :=
    EvidenceSet.stamp_congr hincarnation hepoch _ _
  have hplan : (Mutation.attachEvidence isolationEvidence).plan around r = .ok
      ⟨.evidenceAttached, Runtime.evidencePayload t stampedEvidence, r.state.attach stampedEvidence⟩ := by
    rw [Mutation.plan, planEvidence_of hattachable]
    simp only [Except.map, hclock, hstamp]
  obtain ⟨hok, l, hattached, -⟩ := Mutation.perform_accepted hio hroom hplan hfits dir
  exact ⟨hok, l, hattached⟩

/-- A runtime that opened an empty directory and registered the contract. -/
structure Runtime.Isolated (r : Runtime) : Prop where
  state : r.state = ({} : RuntimeState).register isolationContract 1
  trust : r.trust = isolationTrust
  room : Ledger.Room r.ledger 14
  incarnation : r.info.incarnation = .zero
  epoch : r.info.epoch = 1
  maxAge : r.evidenceMaxAgeMillis = defaultEvidenceMaxAgeMillis

theorem isolation_registered : ∃ opened registered : Runtime × Directory,
    openRuntime .succeeds { trust := isolationTrust } .zero 0 (.fresh (utf8 "state")) = (.ok opened.1, opened.2) ∧
      BootStep opened (undisturbed, .registerWorkload isolationContract) registered ∧ registered.1.Isolated := by
  obtain ⟨r, head, hopen, hblank, hstate, hincarnation, hepoch, hage⟩ :=
    openRuntime_fresh { trust := isolationTrust } .zero 0 (show utf8 "state" ≠ [] by decide +kernel)
  obtain ⟨hok, l, hregistered, hroom⟩ := hblank.registers isolationContract_signed isolationContract_checks.1 rfl rfl
    isolationContract_checks.2 ⟨utf8 "state", head, none, .empty⟩
  refine ⟨⟨r, _⟩, ((Mutation.registerWorkload isolationContract).perform undisturbed r _).2, hopen, rfl, ?_⟩
  rw [show (r, (⟨utf8 "state", head, none, .empty⟩ : Directory)).2 = _ from rfl, hregistered]
  exact ⟨by rw [hstate], hblank.trust, hroom, hincarnation, hepoch, hage⟩

/-- The evidence is accepted then. -/
theorem Runtime.Isolated.attaches {r : Runtime} (h : r.Isolated) {around : Surroundings} {t : UInt64}
    (hio : around.io = .succeeds) (hclock : around.clock = fun _ => t)
    (hfits : (Runtime.evidencePayload t stampedEvidence).dump.length ≤ Ledger.maxRecordBytes) (dir : Directory) :
    ((Mutation.attachEvidence isolationEvidence).perform around r dir).1.ok = true ∧
      ∃ l, ((Mutation.attachEvidence isolationEvidence).perform around r dir).2.1 =
        { r with state := (({} : RuntimeState).register isolationContract 1).attach stampedEvidence, ledger := l } := by
  have hfloor : r.state.evidenceFloor = 0 := by rw [h.state]; rfl
  have hattaches := Runtime.attaches h.trust h.room h.incarnation h.epoch hfloor hio hclock hfits dir
  rw [h.state] at hattaches
  exact hattaches

/-- The workload has the evidence attached then. -/
theorem find_attached : ((({} : RuntimeState).register isolationContract 1).attach stampedEvidence).workloads.find?
    (.repeating 1) = some { registeredWorkload isolationContract 1 with
      evidence := some stampedEvidence
      evidenceGeneration := 1 } := by
  unfold RuntimeState.attach
  rw [SortedMap.find?_mapVal, RuntimeState.register]
  rw [show isolationContract.body.workload.id = .repeating 1 from rfl, SortedMap.find?_set_self]
  rw [Option.map_some, if_pos stampedEvidence_checks.1]
  rfl

/-- The boot in which the contract is registered and the evidence attached: an evaluation a minute later still calls
the requirement satisfied. -/
theorem isolationBoot_spec : ∃ opened registered attached : Runtime × Directory,
    openRuntime .succeeds { trust := isolationTrust } .zero 0 (.fresh (utf8 "state")) = (.ok opened.1, opened.2) ∧
      BootStep opened (undisturbed, .registerWorkload isolationContract) registered ∧
      BootStep registered (undisturbed, .attachEvidence isolationEvidence) attached ∧
      SatisfiesStale attached.1 (fun _ => 60000) (.repeating 1) := by
  obtain ⟨opened, registered, hopen, hregister, hisolated⟩ := isolation_registered
  obtain ⟨-, l, hafter⟩ := hisolated.attaches (show undisturbed.io = .succeeds from rfl) rfl stampedEvidence_checks.2 registered.2
  generalize hattach : ((Mutation.attachEvidence isolationEvidence).perform undisturbed registered.1 registered.2).2 =
    attached
  have hattached : attached.1 = { registered.1 with
      state := (({} : RuntimeState).register isolationContract 1).attach stampedEvidence
      ledger := l } := by rw [← hattach]; exact hafter
  refine ⟨opened, registered, attached, hopen, hregister, hattach, ?_⟩
  have hrun : Run BootStep (fun _ _ => True) opened [(undisturbed, .registerWorkload isolationContract),
      (undisturbed, .attachEvidence isolationEvidence)] attached :=
    .cons trivial hregister (.cons trivial hattach (.nil _))
  rw [satisfiesStale_iff (boot_undecided hopen hrun), hattached]
  obtain ⟨q, hq, hstrength, hscope, hobserves⟩ := isolationContract_observed
  refine ⟨_, stampedEvidence, _, generationOf isolationContract 1, find_attached, rfl, rfl, q, hq, hstrength,
    by rw [hscope]; rfl, hisolated.incarnation.symm, rfl, hobserves, ?_⟩
  show UInt64.toNat _ < _
  rw [hisolated.maxAge]
  decide

/-- Readings of the clock that never go back: within a step, from one step to the next, and since the start. -/
def NeverBack (startedAtMillis : UInt64) (clocks : List (Nat → UInt64)) : Prop :=
  (∀ f ∈ clocks, (∀ i j, i ≤ j → f i ≤ f j) ∧ startedAtMillis ≤ f 0) ∧ clocks.Pairwise fun f g => ∀ i j, f i ≤ g j

theorem evaluate_stale_iff_attached : ∃ opened attached : Runtime × Directory,
    openRuntime .succeeds { trust := isolationTrust } .zero 0 (.fresh (utf8 "state")) = (.ok opened.1, opened.2) ∧
      (¬ SatisfiesStale attached.1 (fun _ => 60000) (.repeating 1) ↔ ¬ Outlived attached.1 60000 (.repeating 1)) := by
  obtain ⟨opened, registered, attached, hopen, hregister, hattach, _⟩ := isolationBoot_spec
  have hrun : Run BootStep (fun _ _ => True) opened [(undisturbed, .registerWorkload isolationContract),
      (undisturbed, .attachEvidence isolationEvidence)] attached :=
    .cons trivial hregister (.cons trivial hattach (.nil _))
  exact ⟨opened, attached, hopen, evaluate_stale_iff hopen hrun (fun _ => 60000) (.repeating 1)⟩

/-- A minute after it was observed the isolation still counts, at twice the age that is permitted. -/
theorem evaluate_satisfies_stale : ¬ ∀ (io : Ledger.OpenIo) (options : Options) (incarnation : Incarnation)
    (startedAtMillis : UInt64) (dir : Directory) (opened s : Runtime × Directory)
    (steps : List (Surroundings × Mutation)) (clock : Nat → UInt64) (workload : WorkloadId),
    openRuntime io options incarnation startedAtMillis dir = (.ok opened.1, opened.2) →
    Run BootStep (fun _ _ => True) opened steps s →
    NeverBack startedAtMillis (steps.map (fun a => a.1.clock) ++ [clock]) →
    ¬ SatisfiesStale s.1 clock workload := by
  intro h
  obtain ⟨opened, registered, attached, hopen, hregister, hattach, hstale⟩ := isolationBoot_spec
  have hrun : Run BootStep (fun _ _ => True) opened [(undisturbed, .registerWorkload isolationContract),
      (undisturbed, .attachEvidence isolationEvidence)] attached :=
    .cons trivial hregister (.cons trivial hattach (.nil _))
  refine h _ _ _ _ _ opened attached _ (fun _ => 60000) _ hopen hrun ?_ hstale
  refine ⟨?_, ?_⟩
  · intro f hf
    have hf : f = undisturbed.clock ∨ f = undisturbed.clock ∨ f = fun _ => 60000 := by simpa using hf
    rcases hf with rfl | rfl | rfl <;> exact ⟨fun _ _ _ => UInt64.le_refl _, by decide⟩
  · refine .cons (fun g hg i j => ?_) (.cons (fun g hg i j => ?_) (.cons (fun g hg => nomatch hg) .nil))
    · have hg : g = undisturbed.clock ∨ g = fun _ => 60000 := by simpa using hg
      rcases hg with rfl | rfl
      · exact UInt64.le_refl _
      · exact show (1 : UInt64) ≤ 60000 by decide
    · have hg : g = fun _ => 60000 := by simpa using hg
      rw [hg]
      exact show (1 : UInt64) ≤ 60000 by decide

end Wnc
