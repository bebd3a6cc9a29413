/-
Signatures. Verification decides the equation of the signature in the group; the base point has prime order, so signatures
made with a seed verify, and no accepted one has a second form.
-/
import Wnc.Core.Padding
import Wnc.Ed25519.Encoding
import Wnc.Ed25519.Scalar
import Mathlib.GroupTheory.OrderOfElement

namespace Wnc.Ed25519

open Lib

/-! ## The base point -/

def baseX : ℕ := 15112221349535400772501151409588531511454012693041857206046113283949847762202

def baseY : ℕ := 46316835694926478169428394003475163141307993866256225615783033603165251855960

theorem onCurve_base : edwards25519.OnCurve baseX baseY := by
  have h : (((limbsValue kD * baseY ^ 2 + 1) * baseX ^ 2 + 1 : ℕ) : ZMod fieldPrime) = (baseY ^ 2 : ℕ) :=
    (ZMod.natCast_eq_natCast_iff' _ _ _).2 rfl
  push_cast at h
  rw [onCurve_iff, toField]
  exact eq_sub_of_add_eq h

/-- The base point. -/
def base : edwards25519.Pt := ⟨baseX, baseY, onCurve_base⟩

theorem compressed_base : compressed base = basePointBytes := by
  have h : writeLe 32 (baseY % fieldPrime + 2 ^ 255 * (baseX % fieldPrime % 2)) = basePointBytes := by decide +kernel
  rw [compressed, base, ZMod.val_natCast, ZMod.val_natCast]
  exact h

theorem denotes_basePoint : Denotes basePoint base := by
  obtain ⟨p, hp, hbase⟩ := pointFromBytes_compressed base
  rw [basePoint, ← compressed_base, hp, Option.getD_some]
  exact hbase

/-- The coordinates of the base point. -/
def baseCoordinates : Edwards.Extended (ZMod fieldPrime) := ⟨baseX, baseY, 1, baseX * baseY⟩

theorem represents_base : Edwards.Represents baseCoordinates base :=
  ⟨one_ne_zero, (mul_one _).symm, (mul_one _).symm, mul_one _⟩

set_option maxRecDepth 100000 in
theorem order_nsmul_base : groupOrder • base = 0 := by
  have hsize : groupOrder < 2 ^ 253 := by decide
  have hmultiple : (Edwards.Extended.multiple (2 * edwards25519.d) baseCoordinates 253 groupOrder).x = 0 ∧
      (Edwards.Extended.multiple (2 * edwards25519.d) baseCoordinates 253 groupOrder).y =
        (Edwards.Extended.multiple (2 * edwards25519.d) baseCoordinates 253 groupOrder).z := by decide +kernel
  refine ((represents_base.multiple hsize).eq_iff Edwards.represents_zero).2 ?_
  simp [Edwards.Extended.zero, hmultiple.1, hmultiple.2]

theorem base_ne_zero : base ≠ 0 := fun h => by
  have hx : ((baseX : ℕ) : ZMod fieldPrime) = 0 := congrArg Edwards.Pt.x h
  exact absurd ((ZMod.natCast_eq_zero_iff _ _).1 hx) (by decide)

/-- The base point has prime order. -/
theorem addOrderOf_base : addOrderOf base = groupOrder :=
  have : Fact groupOrder.Prime := ⟨prime_groupOrder⟩
  addOrderOf_eq_prime order_nsmul_base base_ne_zero

theorem mod_nsmul_base (n : ℕ) : (n % groupOrder) • base = n • base := by
  rw [← addOrderOf_base, mod_addOrderOf_nsmul]

theorem nsmul_base_eq_zero_iff {n : ℕ} : n • base = 0 ↔ groupOrder ∣ n := by
  rw [← addOrderOf_base, addOrderOf_dvd_iff_nsmul_eq_zero]

/-- Below the order the multiples of the base point differ. -/
theorem nsmul_base_injective {m n : ℕ} (hm : m < groupOrder) (hn : n < groupOrder) (h : m • base = n • base) : m = n := by
  have hmod := nsmul_eq_nsmul_iff_modEq.1 h
  rw [addOrderOf_base] at hmod
  exact hmod.eq_of_lt_of_lt hm hn

theorem Denotes.pointScalarMulBase (k : Scalar) : Denotes (pointScalarMulBase k) (limbsValue k • base) :=
  denotes_basePoint.pointWindowMul k

/-! ## The equation of a signature -/

theorem Denotes.pointEqual_iff {p q : Point} {P Q : edwards25519.Pt} (hp : Denotes p P) (hq : Denotes q Q) :
    pointEqual p q = true ↔ P = Q := by
  have hpx := hp.canonical.x.standsFor
  have hpy := hp.canonical.y.standsFor
  have hpz := hp.canonical.z.standsFor
  have hqx := hq.canonical.x.standsFor
  have hqy := hq.canonical.y.standsFor
  have hqz := hq.canonical.z.standsFor
  rw [pointEqual, Bool.and_eq_true, (hpx.mul hqz).feEqual_iff (hqx.mul hpz), (hpy.mul hqz).feEqual_iff (hqy.mul hpz)]
  exact (hp.represents.eq_iff hq.represents).symm

theorem Denotes.pointIsIdentity_iff {p : Point} {P : edwards25519.Pt} (hp : Denotes p P) :
    pointIsIdentity p = true ↔ P = 0 := by
  have hx := hp.canonical.x.standsFor
  have hy := hp.canonical.y.standsFor
  have hz := hp.canonical.z.standsFor
  rw [pointIsIdentity, Bool.and_eq_true, hx.feIsZero_iff, hy.feEqual_iff hz, hp.represents.eq_iff Edwards.represents_zero]
  simp [Edwards.Extended.zero, Point.coordinates]

theorem sha512Of_eq (parts : List Bytes) : sha512Of parts = sha512 parts.flatten := by
  have hparts := Sha512.foldl_update parts []
  have hwhole := Sha512.update_fed [] parts.flatten
  rw [Sha512.fed_nil, List.nil_append] at hparts hwhole
  rw [sha512Of, hparts, sha512, hwhole]

/-- The number that a hash denotes, reduced. -/
theorem scalarFromWideHash_value (hash : Digest512) : Reduced (scalarFromWideHash hash) ∧
    limbsValue (scalarFromWideHash hash) = readLe hash.bytes % groupOrder := by
  have hlimbs := limbsOfBytes_value (n := 16) hash.bytes hash.length_eq
  have hreduce := scalarReduce_value (limbsOfBytes hash.bytes)
  rwa [hlimbs.2] at hreduce

/-- The challenge of a signature: the hash of its first half, the public key and the message. -/
def challengeOf (publicKey : Ed25519PublicKey) (message first : Bytes) : ℕ :=
  readLe (sha512 (first ++ (publicKey.bytes ++ message))).bytes % groupOrder

theorem challenge_value (publicKey : Ed25519PublicKey) (message first : Bytes) :
    limbsValue (scalarFromWideHash (sha512Of [first, publicKey.bytes, message])) = challengeOf publicKey message first := by
  rw [(scalarFromWideHash_value _).2, sha512Of_eq, challengeOf]
  simp only [List.flatten_cons, List.flatten_nil, List.append_nil]

theorem length_take_signature (signature : Ed25519Signature) : (signature.bytes.take 32).length = 32 := by
  rw [List.length_take, signature.length_eq]
  rfl

theorem length_drop_signature (signature : Ed25519Signature) : (signature.bytes.drop 32).length = 32 := by
  rw [List.length_drop, signature.length_eq]

/-- Decoding finds a point exactly when the bytes are its encoding. -/
theorem pointFromBytes_iff {bytes : Bytes} {P : edwards25519.Pt} (h : bytes.length = 32) :
    (∃ p, pointFromBytes bytes = some p ∧ Denotes p P) ↔ compressed P = bytes := by
  constructor
  · rintro ⟨p, hp, hP⟩
    obtain ⟨Q, hQ, hcompressed⟩ := pointFromBytes_some h hp
    rw [hP.unique hQ, hcompressed]
  · rintro rfl
    exact pointFromBytes_compressed P

/-- Verification accepts exactly the encodings of two points and of a scalar below the order that solve the equation. -/
theorem ed25519Verify_iff {publicKey : Ed25519PublicKey} {message : Bytes} {signature : Ed25519Signature} :
    ed25519Verify publicKey message signature = true ↔
      ∃ A R, compressed A = publicKey.bytes ∧ compressed R = signature.bytes.take 32 ∧
        readLe (signature.bytes.drop 32) < groupOrder ∧
        readLe (signature.bytes.drop 32) • base = R + challengeOf publicKey message (signature.bytes.take 32) • A := by
  obtain ⟨hlength, hvalue⟩ := limbsOfBytes_value (n := 8) _ (length_drop_signature signature)
  have hcompare := scalarCompare_lt_iff (b := kL) hlength
  rw [hvalue, limbsValue_kL] at hcompare
  unfold ed25519Verify
  constructor
  · intro h
    -- without a point on either side nothing is accepted
    split at h
    next a r ha hr =>
      obtain ⟨A, hA, hAbytes⟩ := pointFromBytes_some publicKey.length_eq ha
      obtain ⟨R, hR, hRbytes⟩ := pointFromBytes_some (length_take_signature signature) hr
      dsimp only at h
      split at h
      next => cases h
      next hbelow =>
        have hequal := ((Denotes.pointScalarMulBase _).pointEqual_iff (hR.add (hA.pointWindowMul _))).1 h
        rw [hvalue, challenge_value] at hequal
        exact ⟨A, R, hAbytes, hRbytes, hcompare.1 (not_not.1 hbelow), hequal⟩
    next => cases h
  · rintro ⟨A, R, hA, hR, hbelow, hequal⟩
    obtain ⟨a, ha, hA⟩ := (pointFromBytes_iff publicKey.length_eq).2 hA
    obtain ⟨r, hr, hR⟩ := (pointFromBytes_iff (length_take_signature signature)).2 hR
    simp only [ha, hr]
    rw [if_neg (not_not.2 (hcompare.2 hbelow))]
    refine ((Denotes.pointScalarMulBase _).pointEqual_iff (hR.add (hA.pointWindowMul _))).2 ?_
    rw [hvalue, challenge_value]
    exact hequal

/-- Strict verification accepts the same signatures under public keys whose point is not of small order. -/
theorem ed25519VerifyStrict_iff {publicKey : Ed25519PublicKey} {message : Bytes} {signature : Ed25519Signature} :
    ed25519VerifyStrict publicKey message signature = true ↔
      (∃ A, compressed A = publicKey.bytes ∧ 8 • A ≠ 0) ∧ ed25519Verify publicKey message signature = true := by
  have height : ∀ {a : Point} {A : edwards25519.Pt}, Denotes a A →
      (pointIsIdentity (pointDouble (pointDouble (pointDouble a))) = true ↔ 8 • A = 0) := fun hA => by
    have h := hA.double.double.double
    rw [← mul_nsmul', ← mul_nsmul'] at h
    exact h.pointIsIdentity_iff
  unfold ed25519VerifyStrict
  constructor
  · intro h
    split at h
    next => cases h
    next a ha =>
      obtain ⟨A, hA, hbytes⟩ := pointFromBytes_some publicKey.length_eq ha
      split at h
      next => cases h
      next hsmall => exact ⟨⟨A, hbytes, fun h0 => hsmall ((height hA).2 h0)⟩, h⟩
  · rintro ⟨⟨A, hbytes, hne⟩, h⟩
    obtain ⟨a, ha, hA⟩ := (pointFromBytes_iff publicKey.length_eq).2 hbytes
    simp only [ha]
    rwa [if_neg fun h0 => hne ((height hA).1 h0)]

/-! ## Clamped scalars -/

/-- A clamped scalar: 254 is its highest bit and it is a multiple of eight. -/
theorem clamped_value {expanded : Bytes} (h : expanded.length = 64) :
    let clamped := mapLast (fun b => (b &&& 63) ||| 64) ((expanded.headD 0 &&& 248) :: (expanded.take 32).drop 1)
    (limbsOfBytes clamped).length = 8 ∧ limbsValue (limbsOfBytes clamped) % 8 = 0 ∧
      2 ^ 254 ≤ limbsValue (limbsOfBytes clamped) ∧ limbsValue (limbsOfBytes clamped) < 2 ^ 255 := by
  intro clamped
  have hlength : ((expanded.headD 0 &&& 248) :: (expanded.take 32).drop 1).length = 32 := by
    rw [List.length_cons, List.length_drop, List.length_take, h]
    rfl
  -- the mask of the first byte clears the three lowest bits of the number
  have hfirst : readLe ((expanded.headD 0 &&& 248) :: (expanded.take 32).drop 1) % 8 = 0 := by
    have hlow : (expanded.headD 0 &&& 248).toNat % 2 ^ 3 = 0 := by
      rw [UInt8.toNat_and, ← Nat.and_two_pow_sub_one_eq_mod, Nat.and_assoc]
      exact Nat.and_zero _
    rw [readLe]
    omega
  have hclamped : clamped =
      mapLast (fun b => (b &&& 63) ||| 64) ((expanded.headD 0 &&& 248) :: (expanded.take 32).drop 1) := rfl
  generalize (expanded.headD 0 &&& 248) :: (expanded.take 32).drop 1 = bytes at hlength hfirst hclamped
  obtain ⟨front, last, rfl, hfront, hvalue, hlt⟩ := concat_of_length hlength
  -- the masks of the last byte clear its bit 255 and set its bit 254
  have hupper : ((last &&& 63) ||| 64).toNat = last.toNat % 2 ^ 6 + 2 ^ 6 := by
    have hlow : (last &&& 63).toNat = last.toNat % 2 ^ 6 := by
      rw [UInt8.toNat_and]
      exact Nat.and_two_pow_sub_one_eq_mod _ 6
    have hbit := Nat.two_pow_add_eq_or_of_lt (Nat.mod_lt last.toNat (show 2 ^ 6 > 0 by decide)) 1
    rw [UInt8.toNat_or, hlow, Nat.or_comm]
    exact hbit.symm.trans (Nat.add_comm _ _)
  rw [mapLast_concat] at hclamped
  obtain ⟨hlimbs, hread⟩ := limbsOfBytes_value (n := 8) clamped (by rw [hclamped]; simp [hfront])
  have hnumber : readLe clamped = readLe front + 2 ^ 248 * (last.toNat % 2 ^ 6 + 2 ^ 6) := by
    rw [hclamped, readLe_append, hfront, readLe, readLe, hupper]
    omega
  have hmod := Nat.mod_lt last.toNat (show 2 ^ 6 > 0 by decide)
  rw [hread, hnumber]
  refine ⟨hlimbs, ?_, by omega, by omega⟩
  omega

theorem expandKey_spec (seed : Ed25519Seed) :
    (expandKey seed).scalar.length = 8 ∧ limbsValue (expandKey seed).scalar % 8 = 0 ∧
      2 ^ 254 ≤ limbsValue (expandKey seed).scalar ∧ limbsValue (expandKey seed).scalar < 2 ^ 255 ∧
      (expandKey seed).publicKey = compressed (limbsValue (expandKey seed).scalar • base) := by
  obtain ⟨hlength, hmod, hge, hlt⟩ := clamped_value (sha512 seed.bytes).length_eq
  exact ⟨hlength, hmod, hge, hlt, (Denotes.pointScalarMulBase _).pointToBytes⟩

/-- The public key of a seed is not of small order. -/
theorem eight_nsmul_ne (seed : Ed25519Seed) : 8 • limbsValue (expandKey seed).scalar • base ≠ 0 := by
  obtain ⟨-, hmod, hge, hlt, -⟩ := expandKey_spec seed
  generalize limbsValue (expandKey seed).scalar = a at hmod hge hlt
  have hsmall : 2 ^ 252 < groupOrder := by decide
  intro h
  rw [← mul_nsmul', nsmul_base_eq_zero_iff, prime_groupOrder.dvd_mul] at h
  rcases h with h | h
  · exact absurd (Nat.le_of_dvd (by decide) h) (by omega)
  · -- the order would divide an eighth of the scalar, which is below it
    rw [← Nat.div_mul_cancel (Nat.dvd_of_mod_eq_zero hmod), prime_groupOrder.dvd_mul] at h
    rcases h with h | h
    · exact absurd (Nat.le_of_dvd (by omega) h) (by omega)
    · exact absurd (Nat.le_of_dvd (by decide) h) (by omega)

/-! ## Signing -/

theorem keyOfBytes_bytes {bytes : Bytes} (h : bytes.length = 32) : (keyOfBytes bytes).bytes = bytes := by
  rw [keyOfBytes, dif_pos h]

theorem signatureOfBytes_bytes {bytes : Bytes} (h : bytes.length = 64) : (signatureOfBytes bytes).bytes = bytes := by
  rw [signatureOfBytes, dif_pos h]

theorem ed25519PublicKey_bytes (seed : Ed25519Seed) :
    (ed25519PublicKey seed).bytes = compressed (limbsValue (expandKey seed).scalar • base) := by
  obtain ⟨-, -, -, -, hkey⟩ := expandKey_spec seed
  have hlength : (expandKey seed).publicKey.length = 32 := by rw [hkey, length_compressed]
  exact (keyOfBytes_bytes hlength).trans hkey

/-- The nonce of a signature. -/
def nonceOf (seed : Ed25519Seed) (message : Bytes) : Scalar :=
  scalarFromWideHash (sha512Of [(expandKey seed).secret, message])

theorem ed25519Sign_eq (seed : Ed25519Seed) (message : Bytes) : ed25519Sign seed message =
    signatureOfBytes (pointToBytes (pointScalarMulBase (nonceOf seed message)) ++
      bytesOfLimbs (scalarAdd (scalarMul (scalarFromWideHash (sha512Of
        [pointToBytes (pointScalarMulBase (nonceOf seed message)), (expandKey seed).publicKey, message]))
        (expandKey seed).scalar) (nonceOf seed message))) := rfl

/-- A signature is the encoding of the nonce's point and the scalar that solves the equation. -/
theorem ed25519Sign_parts (seed : Ed25519Seed) (message : Bytes) :
    (ed25519Sign seed message).bytes.take 32 = compressed (limbsValue (nonceOf seed message) • base) ∧
      readLe ((ed25519Sign seed message).bytes.drop 32) =
        (challengeOf (ed25519PublicKey seed) message (compressed (limbsValue (nonceOf seed message) • base)) *
          limbsValue (expandKey seed).scalar + limbsValue (nonceOf seed message)) % groupOrder := by
  obtain ⟨hscalar, -, -, -, hkey⟩ := expandKey_spec seed
  have hpoint : pointToBytes (pointScalarMulBase (nonceOf seed message)) =
      compressed (limbsValue (nonceOf seed message) • base) := (Denotes.pointScalarMulBase _).pointToBytes
  have hnonce : Reduced (nonceOf seed message) := (scalarFromWideHash_value _).1
  have hlength := length_compressed (limbsValue (nonceOf seed message) • base)
  rw [← challenge_value, ed25519PublicKey_bytes, ← hkey, ← hpoint]
  rw [← hpoint] at hlength
  generalize hchallenge : scalarFromWideHash (sha512Of
    [pointToBytes (pointScalarMulBase (nonceOf seed message)), (expandKey seed).publicKey, message]) = challenge
  have hreduced : Reduced challenge := hchallenge ▸ (scalarFromWideHash_value _).1
  obtain ⟨hproduct, hproductValue⟩ := scalarMul_value hreduced.length hscalar
  obtain ⟨hsum, hsumValue⟩ := scalarAdd_value hproduct hnonce
  have hbytes : (ed25519Sign seed message).bytes = pointToBytes (pointScalarMulBase (nonceOf seed message)) ++
      bytesOfLimbs (scalarAdd (scalarMul challenge (expandKey seed).scalar) (nonceOf seed message)) := by
    rw [ed25519Sign_eq, hchallenge]
    refine signatureOfBytes_bytes ?_
    rw [List.length_append, hlength, length_bytesOfLimbs, hsum.length]
  -- both halves have 32 bytes, so the signature is cut where it was joined
  rw [hbytes, List.take_left' hlength, List.drop_left' hlength, readLe_bytesOfLimbs, hsumValue, hproductValue,
    Nat.mod_add_mod]
  exact ⟨rfl, rfl⟩

/-- Every signature that is made with a seed verifies strictly under the seed's public key. -/
theorem sign_verifies (seed : Ed25519Seed) (message : Bytes) :
    ed25519VerifyStrict (ed25519PublicKey seed) message (ed25519Sign seed message) = true := by
  obtain ⟨hfirst, hsecond⟩ := ed25519Sign_parts seed message
  have hkey := ed25519PublicKey_bytes seed
  have hverifies : ed25519Verify (ed25519PublicKey seed) message (ed25519Sign seed message) = true := by
    refine ed25519Verify_iff.2 ⟨_, _, hkey.symm, hfirst.symm, ?_, ?_⟩
    · rw [hsecond]
      exact Nat.mod_lt _ prime_groupOrder.pos
    · -- the reduction modulo the order is lost on the base point
      rw [hsecond, hfirst, mod_nsmul_base, add_nsmul, mul_nsmul', add_comm]
  exact ed25519VerifyStrict_iff.2 ⟨⟨_, hkey.symm, eight_nsmul_ne seed⟩, hverifies⟩

/-! ## No signature has a second form -/

/-- Two accepted signatures of one message with one first half are equal, and the first half and the public key of an
accepted one are the only strings that decode to their points. -/
theorem signature_unique (publicKey : Ed25519PublicKey) (message : Bytes) :
    (∀ signature other, ed25519Verify publicKey message signature = true → ed25519Verify publicKey message other = true →
      signature.bytes.take 32 = other.bytes.take 32 → signature = other) ∧
    ∀ signature, ed25519Verify publicKey message signature = true →
      ∃ A R, compressed A = publicKey.bytes ∧ compressed R = signature.bytes.take 32 ∧
        ∀ bytes p, bytes.length = 32 → pointFromBytes bytes = some p →
          (Denotes p A → bytes = publicKey.bytes) ∧ (Denotes p R → bytes = signature.bytes.take 32) := by
  refine ⟨fun signature other h h' hfirst => ?_, fun signature h => ?_⟩
  · obtain ⟨A, R, hA, hR, hbelow, hequal⟩ := ed25519Verify_iff.1 h
    obtain ⟨A', R', hA', hR', hbelow', hequal'⟩ := ed25519Verify_iff.1 h'
    obtain rfl := compressed_injective (hA.trans hA'.symm)
    obtain rfl := compressed_injective (hR.trans (hfirst.trans hR'.symm))
    -- the second halves multiply the base point to one point, and both are below its order
    have hsecond : readLe (signature.bytes.drop 32) = readLe (other.bytes.drop 32) :=
      nsmul_base_injective hbelow hbelow' (by rw [hequal, hequal', hfirst])
    have hdrop : signature.bytes.drop 32 = other.bytes.drop 32 := by
      have hwrite := writeLe_readLe (signature.bytes.drop 32)
      have hwrite' := writeLe_readLe (other.bytes.drop 32)
      rw [length_drop_signature] at hwrite hwrite'
      rw [← hwrite, hsecond, hwrite']
    exact Ed25519Signature.ext (by rw [← List.take_append_drop 32 signature.bytes, hfirst, hdrop, List.take_append_drop])
  · obtain ⟨A, R, hA, hR, -⟩ := ed25519Verify_iff.1 h
    refine ⟨A, R, hA, hR, fun bytes p hlength hp => ⟨fun hPA => ?_, fun hPR => ?_⟩⟩
    · rw [← hA]
      exact ((pointFromBytes_iff hlength).1 ⟨p, hp, hPA⟩).symm
    · rw [← hR]
      exact ((pointFromBytes_iff hlength).1 ⟨p, hp, hPR⟩).symm

end Wnc.Ed25519
