/-
Signing and what a signature stands for. What a local signer signs verifies under the sets that hold its key and under no
other. A signature that verifies stands for one publisher, one domain and one text: it cannot be shown for another.
-/
import Wnc.Core.Trust
import Wnc.Ed25519.Signatures

namespace Wnc

open Lib Ed25519

/-! ## Local signers -/

/-- A key pair derived from a seed. -/
structure LocalSigner where
  seed : Ed25519Seed
  publicKey : Ed25519PublicKey
  publisher : PublisherId

namespace LocalSigner

def keyId (signer : LocalSigner) : Bytes := issuerKeyId .ed25519 signer.publicKey.bytes

def issuer (signer : LocalSigner) : Issuer where
  publisher := signer.publisher
  algorithm := .ed25519
  keyId := signer.keyId
  ed25519PublicKey := signer.publicKey
  hmacKey := []

/-- The call that adds its key to a trust set. -/
def call (signer : LocalSigner) : TrustCall := .addEd25519 signer.publisher signer.publicKey

end LocalSigner

def localSignerFromSeed (seed : Ed25519Seed) : LocalSigner where
  seed := seed
  publicKey := ed25519PublicKey seed
  publisher := publisherIdentity .ed25519 (ed25519PublicKey seed).bytes

theorem localSignerFromSeed_publicKey (seed : Ed25519Seed) :
    (localSignerFromSeed seed).publicKey = ed25519PublicKey (localSignerFromSeed seed).seed := by
  simp only [localSignerFromSeed]

def signWithLocalSigner (signer : LocalSigner) (domain canonicalBytes : Bytes) : SignatureBytes :=
  let subject := signatureSubject domain canonicalBytes
  let bound := bindClaim signer.publisher signer.keyId subject.hex
  ⟨.ed25519, signer.keyId, (ed25519Sign signer.seed bound.bytes).bytes⟩

/-! ## The issuers a set finds -/

theorem find?_order {issuers : List Issuer} (h : issuers.Pairwise fun a b => a.order < b.order) {i : Issuer}
    {p : Issuer → Bool} (hi : i ∈ issuers) (hp : ∀ j, p j = true ↔ j.order = i.order) : issuers.find? p = some i := by
  cases hfind : issuers.find? p with
  | none => exact absurd ((hp i).2 rfl) (List.find?_eq_none.1 hfind i hi)
  | some j =>
    have hsame := (hp j).1 (List.find?_some hfind)
    rw [List.inj_on_of_nodup_map (f := Issuer.order) (List.pairwise_map.2 (h.imp fun hlt => hlt.ne))
      (List.mem_of_find?_eq_some hfind) hi hsame]

/-- A set finds under a publisher and a key identifier the issuer that was added with them. -/
theorem findKey_trustOf {calls : List TrustCall} (h : Apart calls) {publisher : PublisherId} {keyId : Bytes}
    {i : Issuer} :
    (trustOf calls).findKey publisher keyId = some i ↔
      ∃ c ∈ calls, c.publisher = publisher ∧ issuerKeyId c.algorithm c.key = keyId ∧ c.issuer = i := by
  constructor
  · intro hfind
    obtain ⟨c, hc, rfl⟩ := (mem_trustOf h).1 (List.mem_of_find?_eq_some hfind)
    have hfound := List.find?_some hfind
    rw [Bool.and_eq_true, beq_iff_eq, beq_iff_eq, TrustCall.issuer_publisher, TrustCall.issuer_keyId] at hfound
    exact ⟨c, hc, hfound.1, hfound.2, rfl⟩
  · rintro ⟨c, hc, rfl, rfl, rfl⟩
    refine find?_order (trustOf_sorted calls) ((mem_trustOf h).2 ⟨c, hc, rfl⟩) fun j => ?_
    rw [Bool.and_eq_true, beq_iff_eq, beq_iff_eq, Issuer.order, Issuer.order, toLex_inj, Prod.mk.injEq,
      TrustCall.issuer_publisher, TrustCall.issuer_keyId]

theorem findKey_trustOf_eq_none {calls : List TrustCall} (h : Apart calls) {publisher : PublisherId} {keyId : Bytes} :
    (trustOf calls).findKey publisher keyId = none ↔
      ∀ c ∈ calls, c.publisher = publisher → issuerKeyId c.algorithm c.key ≠ keyId := by
  rw [Option.eq_none_iff_forall_ne_some]
  constructor
  · rintro hnone c hc hpublisher hkeyId
    exact hnone _ ((findKey_trustOf h).2 ⟨c, hc, hpublisher, hkeyId, rfl⟩)
  · rintro hnone i hi
    obtain ⟨c, hc, hpublisher, hkeyId, -⟩ := (findKey_trustOf h).1 hi
    exact hnone c hc hpublisher hkeyId

/-! ## Signatures of local signers -/

theorem ed25519VerifyStrict_sign {signer : LocalSigner} (h : signer.publicKey = ed25519PublicKey signer.seed)
    (message : Bytes) : ed25519VerifyStrict signer.publicKey message (ed25519Sign signer.seed message) = true := by
  obtain ⟨hfirst, hsecond⟩ := ed25519Sign_parts signer.seed message
  have hkey := ed25519PublicKey_bytes signer.seed
  rw [h]
  have hverifies : ed25519Verify (ed25519PublicKey signer.seed) message (ed25519Sign signer.seed message) = true := by
    refine ed25519Verify_iff.2 ⟨_, _, hkey.symm, hfirst.symm, ?_, ?_⟩
    · rw [hsecond]
      exact Nat.mod_lt _ prime_groupOrder.pos
    · rw [hsecond, hfirst, mod_nsmul_base, add_nsmul, mul_nsmul', add_comm]
  exact ed25519VerifyStrict_iff.2 ⟨⟨_, hkey.symm, eight_nsmul_ne signer.seed⟩, hverifies⟩

theorem signatureOfBytes_signature (signature : Ed25519Signature) : signatureOfBytes signature.bytes = signature := by
  rw [signatureOfBytes, dif_pos signature.length_eq]

theorem signature_ne_nil (signature : Ed25519Signature) : signature.bytes ≠ [] := by
  intro h
  have hlength := signature.length_eq
  rw [h] at hlength
  cases hlength

theorem verifySignature_ed25519 {trust : TrustSet} {publisher : PublisherId} {keyId domain bytes : Bytes} {issuer : Issuer}
    {signature : Ed25519Signature} (hzero : publisher.isZero = false) (hlength : keyId.length = sha256HexChars)
    (hfind : trust.findKey publisher keyId = some issuer) (halgorithm : issuer.algorithm = .ed25519)
    (hverifies : ed25519VerifyStrict issuer.ed25519PublicKey
      (bindClaim publisher keyId (signatureSubject domain bytes).hex).bytes signature = true) :
    verifySignature trust publisher domain bytes ⟨.ed25519, keyId, signature.bytes⟩ =
      .ok ⟨issuer.publisher, issuer.keyId⟩ := by
  unfold verifySignature
  rw [if_neg (by rw [hzero]; decide), if_neg (not_or.2 ⟨by rintro ⟨⟩, signature_ne_nil signature⟩),
    if_neg (not_not.2 hlength), hfind]
  simp only [halgorithm, signature.length_eq, signatureOfBytes_signature, hverifies]
  rfl

theorem verifySignature_absent {trust : TrustSet} {publisher : PublisherId} {keyId : Bytes} {signature : Ed25519Signature}
    (hzero : publisher.isZero = false) (hlength : keyId.length = sha256HexChars)
    (hfind : trust.findKey publisher keyId = none) (domain bytes : Bytes) :
    ∃ f, verifySignature trust publisher domain bytes ⟨.ed25519, keyId, signature.bytes⟩ = .error f ∧
      (f.code = .publisherNotTrusted ∨ f.code = .publisherMismatch) := by
  unfold verifySignature
  rw [if_neg (by rw [hzero]; decide), if_neg (not_or.2 ⟨by rintro ⟨⟩, signature_ne_nil signature⟩),
    if_neg (not_not.2 hlength), hfind]
  simp only
  split
  · exact ⟨_, rfl, .inl rfl⟩
  · exact ⟨_, rfl, .inr rfl⟩

/-- What a local signer signs verifies under the sets that hold its key under its publisher, and under no other. Where it
does not, the publisher is refused and not the signature. -/
theorem local_signature_verifies {signer : LocalSigner} (hkey : signer.publicKey = ed25519PublicKey signer.seed)
    {calls : List TrustCall} (hfree : Ledger.CollisionFree ((signer.call :: calls).flatMap TrustCall.hashed))
    (domain bytes : Bytes) {outcome : Except Failure VerifyOutcome}
    (houtcome : verifySignature (trustOf calls) signer.publisher domain bytes (signWithLocalSigner signer domain bytes) =
      outcome) :
    ((∃ v, outcome = .ok v) ↔ signer.publisher.isZero = false ∧ signer.call ∈ calls) ∧
      (∀ v, outcome = .ok v → v = ⟨signer.publisher, signer.keyId⟩) ∧
      ∀ f, outcome = .error f → f.code = .zeroIdentity ∨ f.code = .publisherNotTrusted ∨ f.code = .publisherMismatch := by
  have hall := apart_of_collisionFree hfree
  have hcalls := hall.subset (show ∀ c ∈ calls, c ∈ signer.call :: calls from fun c hc => List.mem_cons_of_mem _ hc)
  have hid : signer.keyId.length = sha256HexChars := Digest.length_hex _
  have hissuer : signer.call.issuer = signer.issuer := rfl
  cases hzero : signer.publisher.isZero with
  | true =>
    rw [verifySignature, if_pos hzero] at houtcome
    subst houtcome
    refine ⟨iff_of_false (by rintro ⟨v, ⟨⟩⟩) (by rintro ⟨⟨⟩, -⟩), by rintro v ⟨⟩, ?_⟩
    rintro f ⟨⟩
    exact .inl rfl
  | false =>
    by_cases hc : signer.call ∈ calls
    · have hfind := (findKey_trustOf hcalls).2 ⟨_, hc, rfl, rfl, hissuer⟩
      rw [signWithLocalSigner, verifySignature_ed25519 hzero hid hfind rfl (ed25519VerifyStrict_sign hkey _)] at houtcome
      subst houtcome
      refine ⟨iff_of_true ⟨_, rfl⟩ ⟨rfl, hc⟩, ?_, by rintro f ⟨⟩⟩
      rintro v ⟨⟩
      rfl
    · have hfind : (trustOf calls).findKey signer.publisher signer.keyId = none := by
        refine (findKey_trustOf_eq_none hcalls).2 fun c hmem hpublisher hkeyId => hc ?_
        -- apart from collisions the identifier of a key stands for the key
        rwa [← hall c (List.mem_cons_of_mem _ hmem) _ List.mem_cons_self (by
          rw [Issuer.order, Issuer.order, toLex_inj, Prod.mk.injEq, TrustCall.issuer_publisher, TrustCall.issuer_keyId,
            TrustCall.issuer_publisher, TrustCall.issuer_keyId]
          exact ⟨hpublisher, hkeyId⟩)]
      obtain ⟨f, hrefused, hcode⟩ := verifySignature_absent hzero hid hfind domain bytes
      rw [signWithLocalSigner, hrefused] at houtcome
      subst houtcome
      refine ⟨iff_of_false (by rintro ⟨v, ⟨⟩⟩) ?_, by rintro v ⟨⟩, ?_⟩
      · rintro ⟨-, h⟩
        exact hc h
      · rintro f ⟨⟩
        exact .inr hcode

/-- A signer and the set that holds its key alone. -/
def loneSeed : Ed25519Seed := ⟨List.replicate 32 1, rfl⟩

theorem local_signature_verifies_lone :
    (∃ v, verifySignature (trustOf [(localSignerFromSeed loneSeed).call]) (localSignerFromSeed loneSeed).publisher
      (utf8 "domain") (utf8 "text") (signWithLocalSigner (localSignerFromSeed loneSeed) (utf8 "domain") (utf8 "text")) =
        .ok v) ↔
    (localSignerFromSeed loneSeed).publisher.isZero = false := by
  have hkey : (localSignerFromSeed loneSeed).publicKey = ed25519PublicKey (localSignerFromSeed loneSeed).seed :=
    localSignerFromSeed_publicKey loneSeed
  generalize localSignerFromSeed loneSeed = signer at hkey ⊢
  have hhashed : signer.call.hashed = [signer.call.keyInput] := by
    rw [TrustCall.hashed, if_neg]
    rw [LocalSigner.call, TrustCall.key, Ed25519PublicKey.length_eq]
    decide
  have hfree : Ledger.CollisionFree ([signer.call, signer.call].flatMap TrustCall.hashed) := by
    intro a ha b hb _
    simp only [List.flatMap_cons, List.flatMap_nil, hhashed, List.append_nil, List.cons_append, List.nil_append,
      List.mem_cons, List.not_mem_nil, or_false, or_self] at ha hb
    rw [ha, hb]
  exact (local_signature_verifies hkey hfree _ _ rfl).1.trans (and_iff_left (List.mem_singleton.2 rfl))

/-! ## Shared keys -/

theorem foldl_or_eq_zero {xs : Bytes} {a : UInt8} : xs.foldl (· ||| ·) a = 0 ↔ a = 0 ∧ ∀ x ∈ xs, x = 0 := by
  induction xs generalizing a with
  | nil => simp
  | cons x xs ih =>
    rw [List.foldl_cons, ih, UInt8.or_eq_zero_iff, List.forall_mem_cons, and_assoc]

theorem constantTimeEqual_iff {a b : Bytes} : constantTimeEqual a b = true ↔ a = b := by
  constructor
  · intro h
    unfold constantTimeEqual at h
    rw [Bool.and_eq_true, beq_iff_eq, beq_iff_eq, foldl_or_eq_zero] at h
    -- the differences are gathered by or, so that each of them is zero
    obtain ⟨hlength, -, hzero⟩ := h
    refine List.ext_getElem hlength fun n hn hn' => ?_
    have hshared : n < (List.zipWith (· ^^^ ·) a b).length := by
      rw [List.length_zipWith]
      omega
    have hx := hzero _ (List.getElem_mem hshared)
    rw [List.getElem_zipWith] at hx
    exact UInt8.xor_eq_zero_iff.1 hx
  · rintro rfl
    exact constantTimeEqual_self a

/-- A key filled up to a block. -/
def hmacBlock (key : Bytes) : Bytes :=
  let shortKey := if key.length > Sha256.blockBytes then (sha256 key).bytes else key
  shortKey ++ List.replicate (Sha256.blockBytes - shortKey.length) 0

def hmacInner (key message : Bytes) : Bytes := (hmacBlock key).map (· ^^^ 0x36) ++ message

def hmacOuter (key message : Bytes) : Bytes :=
  (hmacBlock key).map (· ^^^ 0x5C) ++ (sha256 (hmacInner key message)).bytes

theorem hmacSha256_eq (key message : Bytes) : hmacSha256 key message = sha256 (hmacOuter key message) := by
  have hpass : ∀ first second : Bytes,
      ((({} : Sha256).update first).update second).digest = sha256 (first ++ second) := by
    intro first second
    rw [← Sha256.fed_nil, Sha256.update_fed, Sha256.update_fed, List.nil_append, Sha256.sha256_eq]
  -- the source feeds a stream in two parts, once for each of the two hashes
  unfold hmacSha256 hmacOuter hmacInner hmacBlock
  simp only [hpass]

/-- All that is hashed for a code. -/
def hmacHashed (key message : Bytes) : List Bytes := [hmacInner key message, hmacOuter key message]

/-- Apart from collisions a code stands for one message. -/
theorem hmacSha256_injective {key message message' : Bytes}
    (hfree : Ledger.CollisionFree (hmacHashed key message ++ hmacHashed key message'))
    (h : hmacSha256 key message = hmacSha256 key message') : message = message' := by
  rw [hmacSha256_eq, hmacSha256_eq] at h
  have houter := hfree _ (by simp [hmacHashed]) _ (by simp [hmacHashed]) h
  have hinner := hfree _ (by simp [hmacHashed]) _ (by simp [hmacHashed]) (Digest.ext (List.append_cancel_left houter))
  exact List.append_cancel_left hinner

/-! ## Keys of seeds -/

/-- A signature that verifies for two messages under the key of a seed has one challenge for both. -/
theorem challengeOf_eq {seed : Ed25519Seed} {message message' : Bytes} {signature : Ed25519Signature}
    (h : ed25519VerifyStrict (ed25519PublicKey seed) message signature = true)
    (h' : ed25519VerifyStrict (ed25519PublicKey seed) message' signature = true) :
    challengeOf (ed25519PublicKey seed) message (signature.bytes.take 32) =
      challengeOf (ed25519PublicKey seed) message' (signature.bytes.take 32) := by
  have hcoprime : Nat.gcd groupOrder (limbsValue (expandKey seed).scalar) = 1 := by
    refine (Nat.Prime.coprime_iff_not_dvd prime_groupOrder).2 fun hdvd => eight_nsmul_ne seed ?_
    rw [nsmul_base_eq_zero_iff.2 hdvd, nsmul_zero]
  have hk : challengeOf (ed25519PublicKey seed) message (signature.bytes.take 32) < groupOrder :=
    Nat.mod_lt _ prime_groupOrder.pos
  have hk' : challengeOf (ed25519PublicKey seed) message' (signature.bytes.take 32) < groupOrder :=
    Nat.mod_lt _ prime_groupOrder.pos
  obtain ⟨A, R, hA, hR, -, hequal⟩ := ed25519Verify_iff.1 (ed25519VerifyStrict_iff.1 h).2
  obtain ⟨A', R', hA', hR', -, hequal'⟩ := ed25519Verify_iff.1 (ed25519VerifyStrict_iff.1 h').2
  have hkey := ed25519PublicKey_bytes seed
  generalize limbsValue (expandKey seed).scalar = a at hkey hcoprime
  obtain rfl := compressed_injective (hR.trans hR'.symm)
  rw [compressed_injective (hA.trans hkey)] at hequal
  rw [compressed_injective (hA'.trans hkey)] at hequal'
  -- the two multiples of the key are one point, and the key is a multiple of the base point by a unit
  have hsame := add_left_cancel (hequal.symm.trans hequal')
  generalize challengeOf (ed25519PublicKey seed) message (signature.bytes.take 32) = k at hk hsame ⊢
  generalize challengeOf (ed25519PublicKey seed) message' (signature.bytes.take 32) = k' at hk' hsame ⊢
  rw [← mul_nsmul', ← mul_nsmul', nsmul_eq_nsmul_iff_modEq, addOrderOf_base] at hsame
  exact (Nat.ModEq.cancel_right_of_coprime hcoprime hsame).eq_of_lt_of_lt hk hk'

/-! ## What a signature stands for -/

/-- The bytes are a signature of the message under the key that a call adds. -/
def TrustCall.Signed (message bytes : Bytes) : TrustCall → Prop
  | .addEd25519 _ key => bytes.length = 64 ∧ ed25519VerifyStrict key message (signatureOfBytes bytes) = true
  | .addHmac _ key => (hmacSha256 key message).bytes = bytes

/-- What a signature is shown for. -/
structure Claim where
  publisher : PublisherId
  domain : Bytes
  canonicalBytes : Bytes

namespace Claim

/-- The digest that is signed for a claim. -/
def bound (c : Claim) (keyId : Bytes) : Digest :=
  bindClaim c.publisher keyId (signatureSubject c.domain c.canonicalBytes).hex

/-- The bytes hashed for that digest. -/
def boundInput (c : Claim) (keyId : Bytes) : Bytes :=
  [utf8 "wnc/v1/bind", c.publisher.view, keyId, (signatureSubject c.domain c.canonicalBytes).hex].flatMap partInput

/-- All that is hashed for it. -/
def hashed (c : Claim) (keyId : Bytes) : List Bytes :=
  [c.boundInput keyId, domainInput c.domain c.canonicalBytes, c.canonicalBytes]

theorem bound_eq (c : Claim) (keyId : Bytes) : c.bound keyId = sha256 (c.boundInput keyId) := sha256Parts_eq _

/-- Apart from collisions the digest that is signed stands for one claim. -/
theorem bound_injective {c c' : Claim} {keyId : Bytes} (hid : keyId.length = sha256HexChars)
    (hdomain : c.domain.length ≤ 0xFFFFFFFF) (hdomain' : c'.domain.length ≤ 0xFFFFFFFF)
    (hfree : Ledger.CollisionFree (c.hashed keyId ++ c'.hashed keyId)) (h : c.bound keyId = c'.bound keyId) : c = c' := by
  have hmem : ∀ m ∈ c.hashed keyId, m ∈ c.hashed keyId ++ c'.hashed keyId := fun m => List.mem_append_left _
  have hmem' : ∀ m ∈ c'.hashed keyId, m ∈ c.hashed keyId ++ c'.hashed keyId := fun m => List.mem_append_right _
  rw [bound_eq, bound_eq] at h
  have hbound := hfree _ (hmem _ (by simp [hashed])) _ (hmem' _ (by simp [hashed])) h
  have hparts : ∀ c : Claim, ∀ part ∈ [utf8 "wnc/v1/bind", c.publisher.view, keyId,
      (signatureSubject c.domain c.canonicalBytes).hex], part.length ≤ 0xFFFFFFFF := by
    intro c part hpart
    simp only [List.mem_cons, List.not_mem_nil, or_false] at hpart
    rcases hpart with rfl | rfl | rfl | rfl
    · decide
    · rw [Id.length_view]
      decide
    · rw [hid]
      decide
    · rw [Digest.length_hex]
      decide
  have hclaim := flatMap_partInput_inj (hparts c) (hparts c') hbound
  simp only [List.cons.injEq, and_true, true_and] at hclaim
  obtain ⟨hpublisher, hsubject⟩ := hclaim
  -- the subject is the hash of the domain and of the hash of the text
  have hsubject := Digest.hex_injective hsubject
  rw [signatureSubject, signatureSubject, digestDomain_eq, digestDomain_eq] at hsubject
  have hinput := hfree _ (hmem _ (by simp [hashed])) _ (hmem' _ (by simp [hashed])) hsubject
  unfold domainInput at hinput
  simp only [List.flatMap_cons, List.flatMap_nil, List.append_nil] at hinput
  obtain ⟨hdomains, hbytes⟩ := partInput_append_inj hdomain hdomain' (List.append_cancel_left hinput)
  have hbytes := partInput_injective
    (hfree _ (hmem _ (by simp [hashed])) _ (hmem' _ (by simp [hashed]))) hbytes
  cases c
  cases c'
  simp only [Claim.mk.injEq]
  exact ⟨Id.view_injective hpublisher, hdomains, hbytes⟩

/-- A signature that verifies for a claim under a trust set. -/
def Verifies (trust : TrustSet) (signature : SignatureBytes) (c : Claim) : Prop :=
  ∃ v, verifySignature trust c.publisher c.domain c.canonicalBytes signature = .ok v

/-- What is hashed for two claims that a signature is shown for, and for the keys, has no collision. -/
structure Apart (calls : List TrustCall) (signature : SignatureBytes) (c c' : Claim) : Prop where
  keys : Ledger.CollisionFree (calls.flatMap TrustCall.hashed)
  claims : Ledger.CollisionFree (c.hashed signature.keyId ++ c'.hashed signature.keyId)
  codes : ∀ k ∈ calls, Ledger.CollisionFree (hmacHashed k.key (c.bound signature.keyId).bytes ++
    hmacHashed k.key (c'.bound signature.keyId).bytes)
  challenges : ∀ publisher key, .addEd25519 publisher key ∈ calls →
    challengeOf key (c.bound signature.keyId).bytes (signature.bytes.take 32) =
        challengeOf key (c'.bound signature.keyId).bytes (signature.bytes.take 32) →
      c.bound signature.keyId = c'.bound signature.keyId

theorem eq_true_of_ok {α : Type} {b : Bool} {code : Code} {message : String} {x v : α}
    (h : (if !b then fail code message else .ok x) = Except.ok v) : b = true := by
  cases b with
  | false => cases h
  | true => rfl

/-- A signature that verifies was made with a key that was added for its publisher. -/
theorem Verifies.added {calls : List TrustCall} (hcalls : Wnc.Apart calls) {signature : SignatureBytes} {c : Claim}
    (h : c.Verifies (trustOf calls) signature) : signature.keyId.length = sha256HexChars ∧
      ∃ k ∈ calls, issuerKeyId k.algorithm k.key = signature.keyId ∧
        k.Signed (c.bound signature.keyId).bytes signature.bytes := by
  obtain ⟨v, h⟩ := h
  -- the zero publisher, a key identifier that is none, and a key that was not added are refused before any check
  unfold verifySignature at h
  split at h
  · cases h
  · split at h
    · cases h
    · split at h
      · cases h
      · rename_i hid
        refine ⟨not_not.1 hid, ?_⟩
        split at h
        · split at h <;> cases h
        · rename_i issuer hfind
          obtain ⟨k, hk, -, hkeyId, rfl⟩ := (findKey_trustOf hcalls).1 hfind
          refine ⟨k, hk, hkeyId, ?_⟩
          cases k with
          | addEd25519 publisher key =>
            simp only [TrustCall.issuer] at h
            split at h
            · cases h
            · rename_i hlength
              exact ⟨not_not.1 hlength, eq_true_of_ok h⟩
          | addHmac publisher key =>
            simp only [TrustCall.issuer] at h
            exact constantTimeEqual_iff.1 (eq_true_of_ok h)

end Claim

/-- Under keys of seeds and shared keys a signature stands for one claim, apart from collisions: what was signed for a
publisher, a domain and a text verifies for no other publisher, in no other domain and for no other text. -/
theorem signature_stands_for {calls : List TrustCall}
    (hseeds : ∀ publisher key, .addEd25519 publisher key ∈ calls → ∃ seed, key = ed25519PublicKey seed)
    {signature : SignatureBytes} {c c' : Claim} (hdomain : c.domain.length ≤ 0xFFFFFFFF)
    (hdomain' : c'.domain.length ≤ 0xFFFFFFFF) (hapart : c.Apart calls signature c')
    (h : c.Verifies (trustOf calls) signature) (h' : c'.Verifies (trustOf calls) signature) : c = c' := by
  have hcalls := apart_of_collisionFree hapart.keys
  obtain ⟨hid, k, hk, hkeyId, hverifies⟩ := h.added hcalls
  obtain ⟨-, k', hk', hkeyId', hverifies'⟩ := h'.added hcalls
  refine Claim.bound_injective hid hdomain hdomain' hapart.claims ?_
  -- one key identifier stands for one key
  have hmem : ∀ k ∈ calls, ∀ m ∈ k.hashed, m ∈ calls.flatMap TrustCall.hashed :=
    fun k hk m hm => List.mem_flatMap.2 ⟨k, hk, hm⟩
  rw [issuerKeyId_eq] at hkeyId hkeyId'
  have hinput : k.keyInput = k'.keyInput := hapart.keys _ (hmem k hk _ List.mem_cons_self) _
    (hmem k' hk' _ List.mem_cons_self) (Digest.hex_injective (hkeyId.trans hkeyId'.symm))
  obtain ⟨halgorithm, hkey⟩ := keyInput_injective (hapart.keys.subset fun m hm => by
    rcases List.mem_append.1 hm with hm | hm
    · exact hmem k hk m hm
    · exact hmem k' hk' m hm) hinput
  cases k with
  | addEd25519 publisher key =>
    cases k' with
    | addHmac _ _ => cases halgorithm
    | addEd25519 publisher' key' =>
      obtain rfl := Ed25519PublicKey.bytes_inj.1 hkey
      obtain ⟨hlength, hverifies⟩ := hverifies
      obtain ⟨-, hverifies'⟩ := hverifies'
      -- both equations hold of the same point, so the challenges are one
      have hchallenges := hapart.challenges _ _ hk
      obtain ⟨seed, hseed⟩ := hseeds _ _ hk
      rw [hseed] at hverifies hverifies' hchallenges
      have hchallenge := challengeOf_eq hverifies hverifies'
      rw [signatureOfBytes_bytes hlength] at hchallenge
      exact hchallenges hchallenge
  | addHmac publisher key =>
    cases k' with
    | addEd25519 _ _ => cases halgorithm
    | addHmac publisher' key' =>
      obtain rfl : key = key' := hkey
      have hcodes := Digest.ext (hverifies.trans hverifies'.symm)
      exact Digest.ext (hmacSha256_injective (hapart.codes _ hk) hcodes)

/-- What is signed for the registration of a text, and the same text shown for a publication. -/
def signedClaim : Claim := ⟨.repeating 1, utf8 "wnc/v1/submission/registration", utf8 "text"⟩

def shownClaim : Claim := ⟨.repeating 1, utf8 "wnc/v1/submission/publication", utf8 "text"⟩

/-- The code made for it under the shared key. -/
def sharedSignature : SignatureBytes where
  algorithm := .hmacSha256
  keyId := issuerKeyId .hmacSha256 (utf8 "k")
  bytes := (hmacSha256 (utf8 "k") (signedClaim.bound (issuerKeyId .hmacSha256 (utf8 "k"))).bytes).bytes

theorem sharedKey_ne (publisher : PublisherId) (key : Ed25519PublicKey) : .addEd25519 publisher key ≠ sharedKey := by
  unfold sharedKey
  rintro ⟨⟩

set_option maxRecDepth 100000 in
theorem apart_sharedSignature : signedClaim.Apart [sharedKey] sharedSignature shownClaim where
  keys := by
    have hhashed : [sharedKey].flatMap TrustCall.hashed = [sharedKey.keyInput] := rfl
    rw [hhashed]
    exact Ledger.collisionFree_singleton _
  claims := by
    have hnodup : ([signedClaim.boundInput sharedSignature.keyId, shownClaim.boundInput sharedSignature.keyId,
      domainInput signedClaim.domain signedClaim.canonicalBytes, domainInput shownClaim.domain shownClaim.canonicalBytes,
      signedClaim.canonicalBytes].map sha256).Nodup := by decide +kernel
    have hmem : ∀ {a b d d' t m : Bytes}, m ∈ [a, d, t] ++ [b, d', t] → m ∈ [a, b, d, d', t] := by
      intro a b d d' t m hm
      simp only [List.cons_append, List.nil_append, List.mem_cons, List.not_mem_nil, or_false] at hm ⊢
      tauto
    exact (Ledger.CollisionFree.of_nodup hnodup).subset fun m hm => hmem hm
  codes := by
    have hnodup : ((hmacHashed sharedKey.key (signedClaim.bound sharedSignature.keyId).bytes ++
      hmacHashed sharedKey.key (shownClaim.bound sharedSignature.keyId).bytes).map sha256).Nodup := by decide +kernel
    rintro k hk
    rw [List.mem_singleton.1 hk]
    exact Ledger.CollisionFree.of_nodup hnodup
  challenges publisher key hk := absurd (List.mem_singleton.1 hk) (sharedKey_ne publisher key)

/-- The signature of a registration is not one of a publication. -/
theorem signature_stands_for_registration : signedClaim.Verifies (trustOf [sharedKey]) sharedSignature ∧
    ¬shownClaim.Verifies (trustOf [sharedKey]) sharedSignature := by
  have hcalls := apart_of_collisionFree apart_sharedSignature.keys
  have hfind := (findKey_trustOf hcalls).2 ⟨sharedKey, List.mem_singleton.2 rfl, rfl, rfl, rfl⟩
  have hsigned : signedClaim.Verifies (trustOf [sharedKey]) sharedSignature :=
    ⟨_, verifySignature_hmac (by decide) (Digest.length_hex _) hfind rfl _ _⟩
  refine ⟨hsigned, fun hshown => ?_⟩
  have hsame := signature_stands_for (fun publisher key hk => absurd (List.mem_singleton.1 hk) (sharedKey_ne publisher key))
    (by decide) (by decide) apart_sharedSignature hsigned hshown
  exact absurd (congrArg Claim.domain hsame) (by decide)

end Wnc
