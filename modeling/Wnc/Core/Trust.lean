/-
What a trust set holds and how signatures verify under it. A set has exactly the issuers that were added, in one order,
and its digest tells it from every other set.
-/
import Wnc.Core.Parts
import Wnc.Core.Signature
import Wnc.Lib.Sorting

namespace Wnc

open Lib

/-! ## Signatures under a shared key -/

theorem constantTimeEqual_self (a : Bytes) : constantTimeEqual a a = true := by
  have hzero : ∀ a : Bytes, (List.zipWith (· ^^^ ·) a a).foldl (· ||| ·) 0 = 0 := by
    intro a
    induction a with
    | nil => rfl
    | cons x xs ih => rw [List.zipWith_cons_cons, List.foldl_cons, UInt8.xor_self, UInt8.or_zero, ih]
  unfold constantTimeEqual
  rw [hzero, beq_self_eq_true, beq_self_eq_true, Bool.and_self]

/-- The code made under the shared key of an issuer verifies under it. -/
theorem verifySignature_hmac {trust : TrustSet} {publisher : PublisherId} {keyId : Bytes} {issuer : Issuer}
    (hzero : publisher.isZero = false) (hlength : keyId.length = sha256HexChars)
    (hfind : trust.findKey publisher keyId = some issuer) (halgorithm : issuer.algorithm = .hmacSha256)
    (domain bytes : Bytes) :
    verifySignature trust publisher domain bytes ⟨.hmacSha256, keyId,
      (hmacSha256 issuer.hmacKey (bindClaim publisher keyId (signatureSubject domain bytes).hex).bytes).bytes⟩ =
      .ok ⟨issuer.publisher, issuer.keyId⟩ := by
  generalize hcode : hmacSha256 issuer.hmacKey (bindClaim publisher keyId (signatureSubject domain bytes).hex).bytes = code
  have hsome : code.bytes ≠ [] := by
    intro h
    have hlength := code.length_eq
    rw [h] at hlength
    cases hlength
  unfold verifySignature
  rw [if_neg (by rw [hzero]; decide), if_neg (not_or.2 ⟨nofun, hsome⟩), if_neg (not_not.2 hlength), hfind]
  simp only [halgorithm, hcode, constantTimeEqual_self]
  rfl

/-! ## The publisher of a signature -/

/-- A signature that verifies is one of the publisher it claims. -/
theorem verifySignature_publisher {trust : TrustSet} {publisher : PublisherId} {domain bytes : Bytes}
    {signature : SignatureBytes} {v : VerifyOutcome} (h : verifySignature trust publisher domain bytes signature = .ok v) :
    v.publisher = publisher := by
  unfold verifySignature at h
  split at h
  · cases h
  · split at h
    · cases h
    · split at h
      · cases h
      · split at h
        · split at h <;> cases h
        · rename_i issuer hfind
          have hissuer : issuer.publisher = publisher := by
            have hfound := List.find?_some hfind
            rw [Bool.and_eq_true, beq_iff_eq] at hfound
            exact hfound.1
          simp only at h
          split at h
          · split at h
            · cases h
            · split at h
              · cases h
              · cases h; exact hissuer
          · split at h
            · cases h
            · cases h; exact hissuer
          · cases h

/-! ## Additions -/

/-- A call that adds an issuer to a trust set. -/
inductive TrustCall
  | addEd25519 (publisher : PublisherId) (key : Ed25519PublicKey)
  | addHmac (publisher : PublisherId) (key : Bytes)

namespace TrustCall

def apply (trust : TrustSet) : TrustCall → TrustSet
  | addEd25519 publisher key => trust.addEd25519 publisher key
  | addHmac publisher key => trust.addHmac publisher key

def publisher : TrustCall → PublisherId
  | addEd25519 publisher _ => publisher
  | addHmac publisher _ => publisher

def algorithm : TrustCall → SignatureAlgorithm
  | addEd25519 _ _ => .ed25519
  | addHmac _ _ => .hmacSha256

def key : TrustCall → Bytes
  | addEd25519 _ key => key.bytes
  | addHmac _ key => key

/-- What a call adds. -/
def triple (c : TrustCall) : PublisherId × SignatureAlgorithm × Bytes := (c.publisher, c.algorithm, c.key)

/-- The record it is kept as. -/
def issuer : TrustCall → Issuer
  | addEd25519 publisher key => ⟨publisher, .ed25519, issuerKeyId .ed25519 key.bytes, key, []⟩
  | addHmac publisher key => ⟨publisher, .hmacSha256, issuerKeyId .hmacSha256 key, zeroPublicKey, key⟩

@[simp] theorem issuer_publisher (c : TrustCall) : c.issuer.publisher = c.publisher := by cases c <;> rfl

@[simp] theorem issuer_algorithm (c : TrustCall) : c.issuer.algorithm = c.algorithm := by cases c <;> rfl

@[simp] theorem issuer_keyId (c : TrustCall) : c.issuer.keyId = issuerKeyId c.algorithm c.key := by cases c <;> rfl

theorem apply_issuers (trust : TrustSet) (c : TrustCall) :
    (c.apply trust).issuers = TrustSet.sortRecords (trust.issuers ++ [c.issuer]) := by
  cases c <;> rfl

/-- Calls that add one triple are the same. -/
theorem eq_of_triple {c d : TrustCall} (h : c.triple = d.triple) : c = d := by
  cases c <;> cases d <;> simp only [triple, publisher, algorithm, key, Prod.mk.injEq] at h
  · rw [h.1, Ed25519PublicKey.bytes_inj.1 h.2.2]
  · cases h.2.1
  · cases h.2.1
  · rw [h.1, h.2.2]

/-- The bytes hashed for the identifier of its key. -/
def keyInput (c : TrustCall) : Bytes :=
  [utf8 "wnc/v1/key", signatureAlgorithmToken c.algorithm, c.key].flatMap partInput

/-- All that is hashed for that: a key too long for a part stands for itself by its digest. -/
def hashed (c : TrustCall) : List Bytes := c.keyInput :: if c.key.length > 0xFFFFFFFF then [c.key] else []

end TrustCall

/-- The trust set that a sequence of calls leaves. -/
def trustOf (calls : List TrustCall) : TrustSet := calls.foldl TrustCall.apply {}

theorem issuerKeyId_eq (c : TrustCall) : issuerKeyId c.algorithm c.key = (sha256 c.keyInput).hex := by
  rw [issuerKeyId, sha256Parts_eq]
  rfl

theorem signatureAlgorithmToken_injective {a b : SignatureAlgorithm}
    (h : signatureAlgorithmToken a = signatureAlgorithmToken b) : a = b := by
  have ha := parseSignatureAlgorithm_token a
  rw [h, parseSignatureAlgorithm_token] at ha
  exact (Option.some.inj ha).symm

/-- What a key of one algorithm is hashed as tells it from every other, apart from collisions. -/
theorem keyInput_injective {c d : TrustCall} (hfree : Ledger.CollisionFree (c.hashed ++ d.hashed))
    (h : c.keyInput = d.keyInput) : c.algorithm = d.algorithm ∧ c.key = d.key := by
  have hshort : ∀ a : SignatureAlgorithm, (signatureAlgorithmToken a).length ≤ 0xFFFFFFFF := by
    intro a
    cases a <;> decide
  unfold TrustCall.keyInput at h
  simp only [List.flatMap_cons, List.flatMap_nil, List.append_nil] at h
  obtain ⟨-, h⟩ := partInput_append_inj (by decide) (by decide) h
  obtain ⟨htoken, h⟩ := partInput_append_inj (hshort _) (hshort _) h
  refine ⟨signatureAlgorithmToken_injective htoken, ?_⟩
  refine partInput_injective_of_long (fun hlong hlong' => hfree _ ?_ _ ?_) h
  · simp [TrustCall.hashed, hlong]
  · simp [TrustCall.hashed, hlong']

/-! ## The records of a set -/

/-- What the records of a set are ordered by. -/
def Issuer.order (i : Issuer) : Lex (PublisherId × Bytes) := toLex (i.publisher, i.keyId)

theorem comparesBy_issuer : ComparesBy TrustSet.precedes Issuer.order := by
  intro a b
  unfold TrustSet.precedes Issuer.order
  rw [Prod.Lex.toLex_lt_toLex]
  by_cases h : a.publisher = b.publisher <;> simp [h]

theorem sameKey_iff (a b : Issuer) : TrustSet.sameKey a b = true ↔ a.order = b.order := by
  unfold TrustSet.sameKey Issuer.order
  rw [Bool.and_eq_true, beq_iff_eq, beq_iff_eq, toLex_inj, Prod.mk.injEq]

/-- Calls of which no two that differ are kept under one publisher and one key identifier. -/
def Apart (calls : List TrustCall) : Prop := ∀ c ∈ calls, ∀ d ∈ calls, c.issuer.order = d.issuer.order → c = d

theorem Apart.subset {calls calls' : List TrustCall} (h : Apart calls) (hsub : ∀ c ∈ calls', c ∈ calls) : Apart calls' :=
  fun c hc d hd => h c (hsub c hc) d (hsub d hd)

theorem apart_of_collisionFree {calls : List TrustCall} (hfree : Ledger.CollisionFree (calls.flatMap TrustCall.hashed)) :
    Apart calls := by
  intro c hc d hd h
  have hmem : ∀ c ∈ calls, ∀ m ∈ c.hashed, m ∈ calls.flatMap TrustCall.hashed :=
    fun c hc m hm => List.mem_flatMap.2 ⟨c, hc, hm⟩
  obtain ⟨hpublisher, hkeyId⟩ := Prod.mk.inj (toLex_inj.1 h)
  rw [TrustCall.issuer_keyId, TrustCall.issuer_keyId, issuerKeyId_eq, issuerKeyId_eq] at hkeyId
  have hinput : c.keyInput = d.keyInput := hfree _ (hmem c hc _ List.mem_cons_self) _ (hmem d hd _ List.mem_cons_self)
    (Digest.hex_injective hkeyId)
  obtain ⟨halgorithm, hkey⟩ := keyInput_injective (hfree.subset fun m hm => by
    rcases List.mem_append.1 hm with hm | hm
    · exact hmem c hc m hm
    · exact hmem d hd m hm) hinput
  rw [TrustCall.issuer_publisher, TrustCall.issuer_publisher] at hpublisher
  exact TrustCall.eq_of_triple (by rw [TrustCall.triple, TrustCall.triple, hpublisher, halgorithm, hkey])

theorem trustOf_concat (calls : List TrustCall) (c : TrustCall) : trustOf (calls ++ [c]) = c.apply (trustOf calls) := by
  rw [trustOf, List.foldl_append]
  rfl

theorem trustOf_sorted (calls : List TrustCall) : (trustOf calls).issuers.Pairwise fun a b => a.order < b.order := by
  rcases List.eq_nil_or_concat calls with rfl | ⟨calls, c, rfl⟩
  · exact .nil
  · rw [List.concat_eq_append, trustOf_concat, TrustCall.apply_issuers]
    exact pairwise_destutter sameKey_iff (comparesBy_issuer.sorted _)

/-- A set has the issuers that were added. -/
theorem mem_trustOf {calls : List TrustCall} (h : Apart calls) {i : Issuer} :
    i ∈ (trustOf calls).issuers ↔ ∃ c ∈ calls, c.issuer = i := by
  induction calls using List.reverseRecOn generalizing i with
  | nil => exact iff_of_false List.not_mem_nil (by rintro ⟨c, hc, -⟩; cases hc)
  | append_singleton calls c ih =>
    have ih : ∀ {i : Issuer}, i ∈ (trustOf calls).issuers ↔ ∃ c ∈ calls, c.issuer = i :=
      ih (h.subset fun c hc => List.mem_append_left _ hc)
    have hmem : ∀ {i : Issuer}, i ∈ (trustOf calls).issuers ++ [c.issuer] ↔ ∃ d ∈ calls ++ [c], d.issuer = i := by
      intro i
      rw [List.mem_append, List.mem_singleton, ih, eq_comm]
      simp only [List.mem_append, List.mem_singleton, or_and_right, exists_or, exists_eq_left]
    rw [trustOf_concat, TrustCall.apply_issuers, TrustSet.sortRecords, mem_destutter_sort sameKey_iff, hmem]
    intro a ha b hb hab
    obtain ⟨d, hd, rfl⟩ := hmem.1 ha
    obtain ⟨e, he, rfl⟩ := hmem.1 hb
    rw [h d hd e he hab]

/-- Two sets with the same issuers are the same. -/
theorem trustOf_congr {a b : List TrustCall} (ha : Apart a) (hb : Apart b) (h : ∀ c, c ∈ a ↔ c ∈ b) :
    trustOf a = trustOf b := by
  have hissuers : (trustOf a).issuers = (trustOf b).issuers := by
    refine eq_of_pairwise_lt (trustOf_sorted a) (trustOf_sorted b) fun i => ?_
    rw [mem_trustOf ha, mem_trustOf hb]
    simp only [h]
  cases ha : trustOf a
  cases hb : trustOf b
  rw [ha, hb] at hissuers
  exact congrArg TrustSet.mk hissuers

/-! ## The digest of a set -/

/-- The parts of an issuer in the digest of its set. -/
def Issuer.parts (i : Issuer) : List Bytes := [i.publisher.view, signatureAlgorithmToken i.algorithm, i.keyId]

/-- The bytes hashed for the digest of a set. -/
def TrustSet.input (trust : TrustSet) : Bytes := (utf8 "wnc/v1/trust" :: trust.issuers.flatMap Issuer.parts).flatMap partInput

theorem TrustSet.digest_eq (trust : TrustSet) : trust.digest = sha256 trust.input := sha256Parts_eq _

/-- The parts tell what an issuer shows of itself. -/
theorem flatMap_parts_inj : ∀ {xs ys : List Issuer}, xs.flatMap Issuer.parts = ys.flatMap Issuer.parts →
    xs.map (fun i => (i.publisher, i.algorithm, i.keyId)) = ys.map fun i => (i.publisher, i.algorithm, i.keyId)
  | [], [], _ => rfl
  | [], _ :: _, h => by cases h
  | _ :: _, [], h => by cases h
  | x :: xs, y :: ys, h => by
    simp only [List.flatMap_cons, Issuer.parts, List.cons_append, List.nil_append, List.cons.injEq] at h
    obtain ⟨hpublisher, htoken, hkeyId, hrest⟩ := h
    rw [List.map_cons, List.map_cons, flatMap_parts_inj hrest, Id.view_injective hpublisher,
      signatureAlgorithmToken_injective htoken, hkeyId]

theorem length_issuerPart {calls : List TrustCall} (h : Apart calls) :
    ∀ part ∈ utf8 "wnc/v1/trust" :: (trustOf calls).issuers.flatMap Issuer.parts, part.length ≤ 0xFFFFFFFF := by
  intro part hpart
  rcases List.mem_cons.1 hpart with rfl | hpart
  · decide
  · obtain ⟨i, hi, hpart⟩ := List.mem_flatMap.1 hpart
    obtain ⟨c, -, rfl⟩ := (mem_trustOf h).1 hi
    simp only [Issuer.parts, List.mem_cons, List.not_mem_nil, or_false] at hpart
    rcases hpart with rfl | rfl | rfl
    · rw [Id.length_view]
      decide
    · cases c.issuer.algorithm <;> decide
    · rw [TrustCall.issuer_keyId, issuerKeyId, Digest.length_hex]
      decide

/-- A call that another sequence's issuers show as well was made there too. -/
theorem mem_of_shown {a b : List TrustCall} (hall : Apart (a ++ b)) {c : TrustCall} (hc : c ∈ a)
    (h : (trustOf a).issuers.map (fun i => (i.publisher, i.algorithm, i.keyId)) =
      (trustOf b).issuers.map fun i => (i.publisher, i.algorithm, i.keyId)) : c ∈ b := by
  have ha := hall.subset (show ∀ c ∈ a, c ∈ a ++ b from fun c hc => List.mem_append_left _ hc)
  have hb := hall.subset (show ∀ c ∈ b, c ∈ a ++ b from fun c hc => List.mem_append_right _ hc)
  have hshown := List.mem_map_of_mem (f := fun i : Issuer => (i.publisher, i.algorithm, i.keyId))
    ((mem_trustOf ha).2 ⟨c, hc, rfl⟩)
  rw [h] at hshown
  obtain ⟨i, hi, hshown⟩ := List.mem_map.1 hshown
  obtain ⟨d, hd, rfl⟩ := (mem_trustOf hb).1 hi
  simp only [Prod.mk.injEq] at hshown
  have horder : d.issuer.order = c.issuer.order := by
    rw [Issuer.order, Issuer.order, hshown.1, hshown.2.2]
  rwa [← hall d (List.mem_append_right _ hd) c (List.mem_append_left _ hc) horder]

/-- Apart from collisions, two sequences of calls leave sets with one digest exactly when they add the same triples; and
a set finds under a publisher and a key identifier exactly the issuer that was added with them. -/
theorem trust_digest_iff {a b : List TrustCall} (hfree : Ledger.CollisionFree ((a ++ b).flatMap TrustCall.hashed ++
    [(trustOf a).input, (trustOf b).input])) :
    ((trustOf a).digest = (trustOf b).digest ↔
      ∀ t, t ∈ a.map TrustCall.triple ↔ t ∈ b.map TrustCall.triple) ∧
    ∀ publisher keyId issuer, (trustOf a).findKey publisher keyId = some issuer ↔
      ∃ c ∈ a, c.publisher = publisher ∧ issuerKeyId c.algorithm c.key = keyId ∧ c.issuer = issuer := by
  have hall : Apart (a ++ b) := apart_of_collisionFree (hfree.subset fun m hm => List.mem_append_left _ hm)
  have hall' : Apart (b ++ a) := hall.subset fun c hc => List.mem_append.2 (List.mem_append.1 hc).symm
  have ha := hall.subset (show ∀ c ∈ a, c ∈ a ++ b from fun c hc => List.mem_append_left _ hc)
  have hb := hall.subset (show ∀ c ∈ b, c ∈ a ++ b from fun c hc => List.mem_append_right _ hc)
  refine ⟨⟨fun h => ?_, fun h => ?_⟩, fun publisher keyId issuer => ?_⟩
  · rw [TrustSet.digest_eq, TrustSet.digest_eq] at h
    have hinput := hfree _ (List.mem_append_right _ List.mem_cons_self) _
      (List.mem_append_right _ (List.mem_cons_of_mem _ List.mem_cons_self)) h
    have hparts := flatMap_partInput_inj (length_issuerPart ha) (length_issuerPart hb) hinput
    have hshown := flatMap_parts_inj (List.cons.inj hparts).2
    intro t
    rw [List.mem_map, List.mem_map]
    constructor
    · rintro ⟨c, hc, rfl⟩
      exact ⟨c, mem_of_shown hall hc hshown, rfl⟩
    · rintro ⟨c, hc, rfl⟩
      exact ⟨c, mem_of_shown hall' hc hshown.symm, rfl⟩
  · have hmem : ∀ {a b : List TrustCall} {c : TrustCall}, c ∈ a →
        (∀ t, t ∈ a.map TrustCall.triple → t ∈ b.map TrustCall.triple) → c ∈ b := by
      intro a b c hc h
      obtain ⟨d, hd, htriple⟩ := List.mem_map.1 (h c.triple (List.mem_map_of_mem hc))
      rwa [← TrustCall.eq_of_triple htriple]
    rw [trustOf_congr ha hb fun c => ⟨fun hc => hmem hc fun t => (h t).1, fun hc => hmem hc fun t => (h t).2⟩]
  · unfold TrustSet.findKey
    constructor
    · intro h
      have hfound := List.find?_some h
      rw [Bool.and_eq_true, beq_iff_eq, beq_iff_eq] at hfound
      obtain ⟨c, hc, rfl⟩ := (mem_trustOf ha).1 (List.mem_of_find?_eq_some h)
      rw [TrustCall.issuer_publisher, TrustCall.issuer_keyId] at hfound
      exact ⟨c, hc, hfound.1, hfound.2, rfl⟩
    · rintro ⟨c, hc, rfl, rfl, rfl⟩
      have hc' := (mem_trustOf ha).2 ⟨c, hc, rfl⟩
      cases hfind : (trustOf a).issuers.find? fun issuer =>
          issuer.publisher == c.publisher && issuer.keyId == issuerKeyId c.algorithm c.key with
      | none =>
        have hnone := List.find?_eq_none.1 hfind _ hc'
        simp at hnone
      | some i =>
        have hfound := List.find?_some hfind
        rw [Bool.and_eq_true, beq_iff_eq, beq_iff_eq] at hfound
        obtain ⟨d, hd, rfl⟩ := (mem_trustOf ha).1 (List.mem_of_find?_eq_some hfind)
        have horder : d.issuer.order = c.issuer.order := by
          rw [Issuer.order, Issuer.order, hfound.1, hfound.2, TrustCall.issuer_publisher, TrustCall.issuer_keyId]
        rw [ha d hd c hc horder]

/-- A publisher with a shared key. -/
def sharedKey : TrustCall := .addHmac (.repeating 1) (utf8 "k")

set_option maxRecDepth 100000 in
theorem collisionFree_sharedKey :
    Ledger.CollisionFree (([sharedKey, sharedKey] ++ [sharedKey]).flatMap TrustCall.hashed ++
      [(trustOf [sharedKey, sharedKey]).input, (trustOf [sharedKey]).input]) := by
  have hnodup : ([sharedKey.keyInput, (trustOf [sharedKey]).input].map sha256).Nodup := by decide +kernel
  have hapart : ∀ {calls : List TrustCall}, (∀ c ∈ calls, c = sharedKey) → Apart calls :=
    fun h c hc d hd _ => (h c hc).trans (h d hd).symm
  have hsame : trustOf [sharedKey, sharedKey] = trustOf [sharedKey] :=
    trustOf_congr (hapart (by simp)) (hapart (by simp)) (by simp)
  refine (Ledger.CollisionFree.of_nodup hnodup).subset fun m hm => ?_
  rw [hsame] at hm
  generalize (trustOf [sharedKey]).input = input at hm ⊢
  have hhashed : sharedKey.hashed = [sharedKey.keyInput] := rfl
  simpa [hhashed] using hm

theorem trust_digest_iff_repeated : (trustOf [sharedKey, sharedKey]).digest = (trustOf [sharedKey]).digest :=
  (trust_digest_iff collisionFree_sharedKey).1.2 (by simp)

end Wnc
