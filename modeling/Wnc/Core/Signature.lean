/-
Publisher identity binding and signature verification: the trust set of a coordinator, and the
verification of a signature over the canonical bytes of a submission under one of its keys.
-/
import Wnc.Core.Ed25519
import Wnc.Core.Error
import Mathlib.Data.List.Destutter
import Mathlib.Data.List.Sort

namespace Wnc

open Lib

/-! ## Identities derived from names and keys -/

def toolIdentity (name : Bytes) : ToolId := Id.fromDigest (sha256Parts [utf8 "wnc/tool", name])

inductive SignatureAlgorithm
  | none
  | ed25519
  | hmacSha256
deriving DecidableEq

def signatureAlgorithmToken : SignatureAlgorithm → Bytes
  | .ed25519 => utf8 "ED25519"
  | .hmacSha256 => utf8 "HMAC-SHA256"
  | .none => utf8 "NONE"

def parseSignatureAlgorithm (token : Bytes) : Option SignatureAlgorithm :=
  if token = utf8 "ED25519" then some .ed25519
  else if token = utf8 "HMAC-SHA256" then some .hmacSha256
  else if token = utf8 "NONE" then some .none
  else Option.none

@[simp] theorem parseSignatureAlgorithm_token (a : SignatureAlgorithm) :
    parseSignatureAlgorithm (signatureAlgorithmToken a) = some a := by
  cases a <;> decide

def issuerKeyId (algorithm : SignatureAlgorithm) (keyBytes : Bytes) : Bytes :=
  (sha256Parts [utf8 "wnc/v1/key", signatureAlgorithmToken algorithm, keyBytes]).hex

def publisherIdentity (algorithm : SignatureAlgorithm) (keyBytes : Bytes) : PublisherId :=
  Id.fromDigest (sha256Parts [utf8 "wnc/v1/publisher", signatureAlgorithmToken algorithm, keyBytes])

/-! ## Trust sets -/

structure Issuer where
  publisher : PublisherId
  algorithm : SignatureAlgorithm
  keyId : Bytes
  ed25519PublicKey : Ed25519PublicKey
  hmacKey : Bytes
deriving DecidableEq

/-- The key a default-initialised issuer has. -/
def zeroPublicKey : Ed25519PublicKey := ⟨List.replicate 32 0, Digest.zero.length_eq⟩

/-- The issuers a coordinator trusts, sorted by publisher and key. -/
structure TrustSet where
  issuers : List Issuer := []

namespace TrustSet

/-- Two issuers with one publisher and one key identifier. -/
def sameKey (a b : Issuer) : Bool := a.publisher == b.publisher && a.keyId == b.keyId

/-- The order of the trust records. -/
def precedes (a b : Issuer) : Bool :=
  if a.publisher ≠ b.publisher then a.publisher < b.publisher else a.keyId < b.keyId

def sortRecords (issuers : List Issuer) : List Issuer :=
  (issuers.insertionSort fun a b => !precedes b a).destutter fun a b => !sameKey a b

def addEd25519 (trust : TrustSet) (publisher : PublisherId) (key : Ed25519PublicKey) : TrustSet where
  issuers := sortRecords (trust.issuers ++ [
    { publisher := publisher
      algorithm := .ed25519
      keyId := issuerKeyId .ed25519 key.bytes
      ed25519PublicKey := key
      hmacKey := [] }])

def addHmac (trust : TrustSet) (publisher : PublisherId) (key : Bytes) : TrustSet where
  issuers := sortRecords (trust.issuers ++ [
    { publisher := publisher
      algorithm := .hmacSha256
      keyId := issuerKeyId .hmacSha256 key
      ed25519PublicKey := zeroPublicKey
      hmacKey := key }])

def find (trust : TrustSet) (publisher : PublisherId) : Option Issuer :=
  trust.issuers.find? fun issuer => issuer.publisher == publisher

def findKey (trust : TrustSet) (publisher : PublisherId) (keyId : Bytes) : Option Issuer :=
  trust.issuers.find? fun issuer => issuer.publisher == publisher && issuer.keyId == keyId

def digest (trust : TrustSet) : Digest :=
  sha256Parts (utf8 "wnc/v1/trust" :: trust.issuers.flatMap fun issuer =>
    [issuer.publisher.view, signatureAlgorithmToken issuer.algorithm, issuer.keyId])

end TrustSet

/-! ## Verification -/

structure SignatureBytes where
  algorithm : SignatureAlgorithm
  keyId : Bytes
  bytes : Bytes

/-- Binds a claim to the publisher and the key that must have signed it. -/
def bindClaim (publisher : PublisherId) (keyId subjectHex : Bytes) : Digest :=
  sha256Parts [utf8 "wnc/v1/bind", publisher.view, keyId, subjectHex]

def signatureSubject (domain canonicalBytes : Bytes) : Digest := digestDomain domain canonicalBytes

/-- The publisher and the key that a signature verified under. -/
structure VerifyOutcome where
  publisher : PublisherId
  keyId : Bytes

/-- Verifies a signature against the trust set. The publisher is that of the trust record whose key
verified, not the claimed one alone. -/
def verifySignature (trust : TrustSet) (claimedPublisher : PublisherId) (domain canonicalBytes : Bytes)
    (signature : SignatureBytes) : Except Failure VerifyOutcome :=
  if claimedPublisher.isZero then fail .zeroIdentity "submission carries the zero publisher identity"
  else if signature.algorithm = .none ∨ signature.bytes = [] then
    fail .signatureMissing "submission carries no signature"
  else if signature.keyId.length ≠ sha256HexChars then
    fail .signatureInvalid "signature key identifier is not a 64 character digest"
  else
    match trust.findKey claimedPublisher signature.keyId with
    | none =>
      if (trust.find claimedPublisher).isNone then
        fail .publisherNotTrusted "publisher is not present in the trust set"
      else fail .publisherMismatch "trust set holds no key with that identifier for the publisher"
    | some issuer =>
      let subject := signatureSubject domain canonicalBytes
      let bound := bindClaim claimedPublisher signature.keyId subject.hex
      match issuer.algorithm with
      | .ed25519 =>
        if signature.bytes.length ≠ 64 then fail .signatureInvalid "ed25519 signature must be 64 bytes"
        else if !ed25519VerifyStrict issuer.ed25519PublicKey bound.bytes
            (Ed25519.signatureOfBytes signature.bytes) then
          fail .signatureInvalid "ed25519 signature does not verify for the submitted bytes"
        else .ok ⟨issuer.publisher, issuer.keyId⟩
      | .hmacSha256 =>
        if !constantTimeEqual (hmacSha256 issuer.hmacKey bound.bytes).bytes signature.bytes then
          fail .signatureInvalid "hmac does not verify for the submitted bytes"
        else .ok ⟨issuer.publisher, issuer.keyId⟩
      | .none => fail .signatureInvalid "signature algorithm is not verifiable"

end Wnc
