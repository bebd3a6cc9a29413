/-
Compressed points. The encoding of a point is its second coordinate with the parity of the first one in the upper bit;
decoding accepts exactly the encodings of points, so no point has a second spelling.
-/
import Wnc.Ed25519.Curve

namespace Wnc.Ed25519

open Lib

/-! ## The last byte -/

theorem mapLast_concat (f : UInt8 → UInt8) (front : Bytes) (last : UInt8) :
    mapLast f (front ++ [last]) = front ++ [f last] := by
  rw [mapLast, List.dropLast_concat, List.getLast?_concat]
  rfl

/-- The 32 bytes of a number of 256 bits, the upper one apart. -/
theorem concat_of_length {bytes : Bytes} (h : bytes.length = 32) :
    ∃ front last, bytes = front ++ [last] ∧ front.length = 31 ∧ readLe bytes = readLe front + 2 ^ 248 * last.toNat ∧
      readLe front < 2 ^ 248 := by
  have hne : bytes ≠ [] := fun h0 => by simp [h0] at h
  have hlength : bytes.dropLast.length = 31 := by rw [List.length_dropLast, h]
  have hfront := readLe_lt bytes.dropLast
  have hconcat := (List.dropLast_append_getLast hne).symm
  rw [hlength] at hfront
  refine ⟨bytes.dropLast, bytes.getLast hne, hconcat, hlength, ?_, hfront⟩
  conv_lhs => rw [hconcat]
  rw [readLe_append, hlength, readLe, readLe]
  omega

/-- Decoding takes the upper bit off as the sign. -/
theorem split_sign {bytes : Bytes} (h : bytes.length = 32) :
    (limbsOfBytes (mapLast (· &&& 0x7F) bytes)).length = 8 ∧
      limbsValue (limbsOfBytes (mapLast (· &&& 0x7F) bytes)) = readLe bytes % 2 ^ 255 ∧
      ((bytes.getLastD 0) >>> 7).toUInt32.toNat = readLe bytes / 2 ^ 255 := by
  obtain ⟨front, last, rfl, hlength, hvalue, hfront⟩ := concat_of_length h
  have hlast := last.toNat_lt
  -- bit 255 of the number is the upper bit of its last byte
  have hlow : (last &&& 0x7F).toNat = last.toNat % 2 ^ 7 := by
    rw [UInt8.toNat_and]
    exact Nat.and_two_pow_sub_one_eq_mod _ 7
  have hhigh : (last >>> 7).toUInt32.toNat = last.toNat / 2 ^ 7 := by
    rw [UInt8.toNat_toUInt32, UInt8.toNat_shiftRight, Nat.shiftRight_eq_div_pow]
    rfl
  rw [mapLast_concat, List.getLastD_concat, hhigh, hvalue]
  obtain ⟨hlimbs, hread⟩ := limbsOfBytes_value (n := 8) (front ++ [last &&& 0x7F]) (by simp [hlength])
  refine ⟨hlimbs, ?_, by omega⟩
  rw [hread, readLe_append, hlength, readLe, readLe, hlow]
  omega

/-- Encoding puts it there. -/
theorem join_sign {y : Fe} {sign : UInt32} (hlength : y.length = 8) (hy : limbsValue y < 2 ^ 255)
    (hsign : sign.toNat ≤ 1) : mapLast (fun last => last ||| (sign <<< 7).toUInt8) (bytesOfLimbs y) =
      writeLe 32 (limbsValue y + 2 ^ 255 * sign.toNat) := by
  have hbytes : (bytesOfLimbs y).length = 32 := by rw [length_bytesOfLimbs, hlength]
  have hread := readLe_bytesOfLimbs y
  generalize bytesOfLimbs y = bytes at hbytes hread
  obtain ⟨front, last, rfl, hfront, hvalue, hlt⟩ := concat_of_length hbytes
  have hshift : (sign <<< 7).toUInt8.toNat = sign.toNat * 2 ^ 7 := by
    rw [UInt32.toNat_toUInt8, UInt32.toNat_shiftLeft]
    show (sign.toNat <<< 7) % 2 ^ 32 % 256 = _
    rw [Nat.shiftLeft_eq]
    omega
  have hlast : (last ||| (sign <<< 7).toUInt8).toNat = last.toNat + 2 ^ 7 * sign.toNat := by
    rw [UInt8.toNat_or, hshift, Nat.or_comm, Nat.mul_comm, ← Nat.two_pow_add_eq_or_of_lt (by omega), Nat.add_comm]
  have hnumber : readLe (front ++ [last ||| (sign <<< 7).toUInt8]) = limbsValue y + 2 ^ 255 * sign.toNat := by
    rw [readLe_append, hfront, readLe, readLe, hlast, ← hread, hvalue]
    ring
  have hwrite := writeLe_readLe (front ++ [last ||| (sign <<< 7).toUInt8])
  rw [List.length_append, hfront, hnumber] at hwrite
  rw [mapLast_concat]
  exact hwrite.symm

/-! ## Square roots -/

theorem onCurve_iff {x y : ZMod fieldPrime} :
    edwards25519.OnCurve x y ↔ (toField kD * y ^ 2 + 1) * x ^ 2 = y ^ 2 - 1 := by
  show y ^ 2 - x ^ 2 = 1 + toField kD * x ^ 2 * y ^ 2 ↔ _
  constructor
  · intro h
    linear_combination -h
  · intro h
    linear_combination -h

/-- The denominator vanishes nowhere, for the coefficient is no square. -/
theorem denominator_ne (y : ZMod fieldPrime) : toField kD * y ^ 2 + 1 ≠ 0 := by
  intro h
  have hy : y = 0 := Edwards.eq_zero_of_sq (E := edwards25519) (v := toField kSqrtM1) (by
    rw [toField_kSqrtM1]
    exact eq_neg_of_add_eq_zero_left h)
  rw [hy, sq, mul_zero, mul_zero, zero_add] at h
  exact one_ne_zero h

/-- Where a root exists the candidate is one of the quotient or of its negative. -/
theorem candidate_root {u v x : ZMod fieldPrime} (hv : v ≠ 0) (hx : v * x ^ 2 = u) :
    v * ((u * v ^ 7) ^ (2 ^ 252 - 3) * (u * v ^ 3)) ^ 2 = u ∨
      v * ((u * v ^ 7) ^ (2 ^ 252 - 3) * (u * v ^ 3)) ^ 2 = -u := by
  rcases eq_or_ne x 0 with rfl | hne
  · left
    rw [← hx]
    ring
  -- the candidate misses the root by a power of a square, which is a sign
  have hq : v ^ 4 * x ≠ 0 := mul_ne_zero (pow_ne_zero 4 hv) hne
  have hproduct : u * v ^ 7 = (v ^ 4 * x) ^ 2 := by
    rw [← hx]
    ring
  have hsign : ((v ^ 4 * x) ^ (2 ^ 254 - 10)) ^ 2 = 1 := by
    rw [← pow_mul]
    exact ZMod.pow_card_sub_one_eq_one hq
  have hmiss : v * ((u * v ^ 7) ^ (2 ^ 252 - 3) * (u * v ^ 3)) ^ 2 = (v ^ 4 * x) ^ (2 ^ 254 - 10) * u := by
    calc v * ((u * v ^ 7) ^ (2 ^ 252 - 3) * (u * v ^ 3)) ^ 2
        = ((u * v ^ 7) ^ (2 ^ 252 - 3)) ^ 2 * (u * v ^ 7) * u := by ring
      _ = (v ^ 4 * x) ^ (2 * ((2 ^ 252 - 3) * 2) + 2) * u := by rw [hproduct, ← pow_mul, ← pow_mul, ← pow_add]
      _ = (v ^ 4 * x) ^ (2 ^ 254 - 10) * u := by norm_num
  rw [hmiss]
  rcases mul_self_eq_one_iff.1 ((sq _).symm.trans hsign) with h | h
  · left
    rw [h, one_mul]
  · right
    rw [h, neg_one_mul]

/-! ## Decoding in three steps -/

/-- The root of the curve equation, up to its sign. -/
def rootOf (y : Fe) : Option Fe :=
  let y2 := feSqr y
  let u := feSub y2 kOne
  let v := feAdd (feMul kD y2) kOne
  let v3 := feMul (feSqr v) v
  let v7 := feMul (feSqr v3) v
  let x := feMul (fePowP58 (feMul u v7)) (feMul u v3)
  let vx2 := feMul v (feSqr x)
  if feEqual vx2 u then some x else if feEqual vx2 (feNeg u) then some (feMul x kSqrtM1) else none

/-- The point with the sign that was asked for. -/
def withSign (y : Fe) (sign : UInt32) (x : Fe) : Option Point :=
  if feIsZero x && sign != 0 then none
  else
    let x := if lowBit x != sign then feNeg x else x
    some ⟨x, y, kOne, feMul x y⟩

theorem pointFromBytes_eq (bytes : Bytes) : pointFromBytes bytes =
    if feBelowP (limbsOfBytes (mapLast (· &&& 0x7F) bytes)) then
      (rootOf (limbsOfBytes (mapLast (· &&& 0x7F) bytes))).bind
        (withSign (limbsOfBytes (mapLast (· &&& 0x7F) bytes)) ((bytes.getLastD 0) >>> 7).toUInt32)
    else none := by
  unfold pointFromBytes
  generalize limbsOfBytes (mapLast (· &&& 0x7F) bytes) = y
  cases hbelow : feBelowP y with
  | false => simp [hbelow]
  | true =>
    simp only [hbelow, Bool.not_true, Bool.false_eq_true, if_false, if_true]
    rw [rootOf]
    split <;> simp_all [withSign]

theorem standsFor_kD : StandsFor kD (toField kD) := canonical_kD.standsFor

theorem standsFor_kSqrtM1 : StandsFor kSqrtM1 (toField kSqrtM1) := canonical_kSqrtM1.standsFor

/-- A root is found where there is one, and what is found lies on the curve. -/
theorem rootOf_spec {y : Fe} {y' : ZMod fieldPrime} (hy : StandsFor y y') :
    (∀ x, rootOf y = some x → ∃ x', StandsFor x x' ∧ edwards25519.OnCurve x' y') ∧
      ∀ x', edwards25519.OnCurve x' y' → rootOf y ≠ none := by
  have hu := hy.sqr.sub standsFor_kOne
  have hv := (standsFor_kD.mul hy.sqr).add standsFor_kOne
  have hv3 := hv.sqr.mul hv
  have hx := (hu.mul (hv3.sqr.mul hv)).p58.mul (hu.mul hv3)
  have hvx2 := hv.mul hx.sqr
  have hne := denominator_ne y'
  simp only [onCurve_iff]
  unfold rootOf
  simp only [hvx2.feEqual_iff hu, hvx2.feEqual_iff hu.neg]
  -- from here on only the two elements of the quotient matter
  generalize toField kD * y' ^ 2 + 1 = v at *
  generalize y' ^ 2 - 1 = u at *
  have hcandidate := fun x' => candidate_root (u := u) (x := x') hne
  rw [show u * ((v ^ 2 * v) ^ 2 * v) = u * v ^ 7 by ring, show v ^ 2 * v = v ^ 3 by ring] at *
  split
  next h =>
    refine ⟨fun x heq => ?_, fun x' _ => Option.some_ne_none _⟩
    obtain rfl := Option.some.inj heq
    exact ⟨_, hx, h⟩
  next h =>
    split
    next hminus =>
      refine ⟨fun x heq => ?_, fun x' _ => Option.some_ne_none _⟩
      obtain rfl := Option.some.inj heq
      refine ⟨_, hx.mul standsFor_kSqrtM1, ?_⟩
      rw [mul_pow, toField_kSqrtM1]
      linear_combination -hminus
    next hminus =>
      refine ⟨fun x heq => absurd heq.symm (Option.some_ne_none x), fun x' hx' => ?_⟩
      exact absurd (hcandidate x' hx') (not_or.2 ⟨h, hminus⟩)

theorem toField_odd : fieldPrime % 2 = 1 := by decide

/-- A coordinate and its negative differ in parity. -/
theorem val_neg_parity {x : ZMod fieldPrime} (hx : x ≠ 0) : (-x).val % 2 = 1 - x.val % 2 := by
  have hodd := toField_odd
  have hlt := ZMod.val_lt x
  rw [ZMod.neg_val, if_neg hx]
  omega

/-- The sign that was asked for is the parity of the result, and only zero has no negative. -/
theorem withSign_spec {x y : Fe} {x' y' : ZMod fieldPrime} {sign : UInt32} (hx : StandsFor x x') (hy : StandsFor y y')
    (hon : edwards25519.OnCurve x' y') (hsign : sign.toNat ≤ 1) :
    (∀ p, withSign y sign x = some p → ∃ P, Denotes p P ∧ P.y = y' ∧ P.x.val % 2 = sign.toNat) ∧
      (withSign y sign x = none → x' = 0 ∧ sign.toNat = 1) := by
  have hlow := toNat_lowBit x
  rw [← hx.val] at hlow
  have hdenotes : ∀ {x : Fe} {x' : ZMod fieldPrime}, StandsFor x x' → (hon : edwards25519.OnCurve x' y') →
      Denotes ⟨x, y, kOne, feMul x y⟩ ⟨x', y', hon⟩ := fun hx hon => by
    refine ⟨⟨hx.canonical, hy.canonical, canonical_kOne, (hx.mul hy).canonical⟩, ?_⟩
    rw [Point.coordinates, hx.value, hy.value, standsFor_kOne.value, (hx.mul hy).value]
    exact ⟨one_ne_zero, (mul_one _).symm, (mul_one _).symm, mul_one _⟩
  have hrefused : (feIsZero x && sign != 0) = true ↔ x' = 0 ∧ sign.toNat = 1 := by
    rw [Bool.and_eq_true, hx.feIsZero_iff, bne_iff_ne, ne_eq, ← UInt32.toNat_inj]
    refine and_congr_right' ⟨fun hne => ?_, fun hone hzero => ?_⟩
    · have hpos := Nat.pos_of_ne_zero hne
      omega
    · rw [hone] at hzero
      exact absurd hzero (by decide)
  have hflip : (lowBit x != sign) = true ↔ x'.val % 2 ≠ sign.toNat := by
    rw [bne_iff_ne, ne_eq, ← UInt32.toNat_inj, hlow]
  unfold withSign
  split
  next h =>
    exact ⟨fun p hp => absurd hp.symm (Option.some_ne_none p), fun _ => hrefused.1 h⟩
  next h =>
    refine ⟨fun p hp => ?_, fun hnone => absurd hnone (Option.some_ne_none _)⟩
    rw [hrefused] at h
    simp only [hflip] at hp
    obtain rfl := Option.some.inj hp
    split
    next hne =>
      -- the other sign exists, for zero has parity zero and was refused with sign one
      have hzero : x' ≠ 0 := fun h0 => by
        rw [h0, ZMod.val_zero] at hne
        exact h ⟨h0, by omega⟩
      have hminus : edwards25519.OnCurve (-x') y' := by rwa [onCurve_iff, neg_sq, ← onCurve_iff]
      refine ⟨_, hdenotes hx.neg hminus, rfl, ?_⟩
      rw [val_neg_parity hzero]
      omega
    next heq =>
      exact ⟨_, hdenotes hx hon, rfl, not_not.1 heq⟩

/-! ## Compressed points -/

/-- The 32 bytes of a point. -/
def compressed (P : edwards25519.Pt) : Bytes := writeLe 32 (P.y.val + 2 ^ 255 * (P.x.val % 2))

theorem length_compressed (P : edwards25519.Pt) : (compressed P).length = 32 := length_writeLe ..

theorem fieldPrime_lt : fieldPrime < 2 ^ 255 := by decide

theorem readLe_compressed (P : edwards25519.Pt) :
    readLe (compressed P) % 2 ^ 255 = P.y.val ∧ readLe (compressed P) / 2 ^ 255 = P.x.val % 2 := by
  have hlt := (ZMod.val_lt P.y).trans fieldPrime_lt
  rw [compressed, readLe_writeLe_of_lt (by omega)]
  omega

/-- Points with one second coordinate have first ones that are equal or opposite. -/
theorem x_eq_or_neg {x x' y : ZMod fieldPrime} (hx : edwards25519.OnCurve x y) (hx' : edwards25519.OnCurve x' y) :
    x = x' ∨ x = -x' :=
  sq_eq_sq_iff_eq_or_eq_neg.1 (mul_left_cancel₀ (denominator_ne y) ((onCurve_iff.1 hx).trans (onCurve_iff.1 hx').symm))

/-- No two points have one encoding. -/
theorem compressed_injective {P Q : edwards25519.Pt} (h : compressed P = compressed Q) : P = Q := by
  obtain ⟨hyP, hxP⟩ := readLe_compressed P
  obtain ⟨hyQ, hxQ⟩ := readLe_compressed Q
  have hy : P.y = Q.y := ZMod.val_injective _ (by rw [← hyP, h, hyQ])
  have hparity : P.x.val % 2 = Q.x.val % 2 := by rw [← hxP, h, hxQ]
  refine Edwards.Pt.ext ?_ hy
  rcases x_eq_or_neg (hy ▸ P.on) Q.on with heq | hneg
  · exact heq
  · rcases eq_or_ne Q.x 0 with hzero | hne
    · rw [hneg, hzero, neg_zero]
    · rw [hneg, val_neg_parity hne] at hparity
      omega

theorem Denotes.pointToBytes {p : Point} {P : edwards25519.Pt} (h : Denotes p P) : pointToBytes p = compressed P := by
  obtain ⟨hz, hx, hy, -⟩ := h.represents
  change toField p.z ≠ 0 at hz
  have hinverse := h.canonical.z.standsFor.invert
  rw [pow_sub_two hz] at hinverse
  have hxs : StandsFor (feMul p.x (feInvert p.z)) P.x := by
    have hmul := h.canonical.x.standsFor.mul hinverse
    rwa [show toField p.x = P.x * toField p.z from hx, mul_assoc, mul_inv_cancel₀ hz, mul_one] at hmul
  have hys : StandsFor (feMul p.y (feInvert p.z)) P.y := by
    have hmul := h.canonical.y.standsFor.mul hinverse
    rwa [show toField p.y = P.y * toField p.z from hy, mul_assoc, mul_inv_cancel₀ hz, mul_one] at hmul
  have hbelow := hys.canonical.below.trans fieldPrime_lt
  have hlow := toNat_lowBit (feMul p.x (feInvert p.z))
  rw [← hxs.val] at hlow
  rw [Ed25519.pointToBytes, compressed, hys.val, ← hlow]
  exact join_sign hys.canonical.length hbelow (by omega)

/-- What is decoded is a point whose encoding was read. -/
theorem pointFromBytes_some {bytes : Bytes} {p : Point} (hlength : bytes.length = 32)
    (h : pointFromBytes bytes = some p) : ∃ P, Denotes p P ∧ compressed P = bytes := by
  obtain ⟨hlimbs, hvalue, hsign⟩ := split_sign hlength
  have hlt := readLe_lt bytes
  rw [hlength] at hlt
  rw [pointFromBytes_eq] at h
  split at h
  next hbelow =>
    obtain ⟨x, hroot, hwith⟩ := Option.bind_eq_some_iff.1 h
    have hy := Canonical.standsFor ⟨hlimbs, (feBelowP_iff hlimbs).1 hbelow⟩
    obtain ⟨x', hx, hon⟩ := (rootOf_spec hy).1 x hroot
    obtain ⟨P, hP, hPy, hPx⟩ := (withSign_spec hx hy hon (by omega)).1 p hwith
    refine ⟨P, hP, ?_⟩
    have hwrite := writeLe_readLe bytes
    rw [hlength] at hwrite
    rw [compressed, hPx, hPy, hy.val, hvalue, hsign, Nat.mod_add_div, hwrite]
  next => cases h

/-- Every encoding is decoded. -/
theorem pointFromBytes_compressed (P : edwards25519.Pt) :
    ∃ p, pointFromBytes (compressed P) = some p ∧ Denotes p P := by
  obtain ⟨hlimbs, hvalue, hsign⟩ := split_sign (length_compressed P)
  obtain ⟨hyP, hxP⟩ := readLe_compressed P
  rw [hyP] at hvalue
  rw [hxP] at hsign
  have hcanonical : Canonical (limbsOfBytes (mapLast (· &&& 0x7F) (compressed P))) := by
    refine ⟨hlimbs, ?_⟩
    rw [hvalue]
    exact ZMod.val_lt _
  have hy : StandsFor (limbsOfBytes (mapLast (· &&& 0x7F) (compressed P))) P.y :=
    ⟨hcanonical, by rw [toField, hvalue, ZMod.natCast_zmod_val]⟩
  obtain ⟨hfound, hexists⟩ := rootOf_spec hy
  obtain ⟨x, hroot⟩ := Option.ne_none_iff_exists'.1 (hexists P.x P.on)
  obtain ⟨x', hx, hon⟩ := hfound x hroot
  have hsmall : ((compressed P).getLastD 0 >>> 7).toUInt32.toNat ≤ 1 := by omega
  obtain ⟨-, hrefused⟩ := withSign_spec hx hy hon hsmall
  have hdecoded : pointFromBytes (compressed P) ≠ none := by
    rw [pointFromBytes_eq, if_pos ((feBelowP_iff hlimbs).2 hcanonical.below), hroot, Option.bind_some]
    intro hnone
    -- a refused sign one would be the parity of zero
    obtain ⟨hzero, hone⟩ := hrefused hnone
    have hPx : P.x = 0 := by
      rcases x_eq_or_neg P.on hon with h | h
      · rw [h, hzero]
      · rw [h, hzero, neg_zero]
    rw [hPx, ZMod.val_zero] at hsign
    omega
  obtain ⟨p, hp⟩ := Option.ne_none_iff_exists'.1 hdecoded
  obtain ⟨Q, hQ, hcompressed⟩ := pointFromBytes_some (length_compressed P) hp
  rw [compressed_injective hcompressed] at hQ
  exact ⟨p, hp, hQ⟩

/-- Of all strings of 32 bytes exactly the encodings of points are decoded, to the point that they encode, whose encoding
gives the bytes back; an encoding is a second coordinate below the prime with the sign of a first one, and zero has sign
zero. -/
theorem decompression_exact {bytes : Bytes} (hlength : bytes.length = 32) :
    ((pointFromBytes bytes).isSome = true ↔ ∃ P, compressed P = bytes) ∧
    (∀ p, pointFromBytes bytes = some p → p.Valid ∧ (∃ P, Denotes p P ∧ compressed P = bytes) ∧ pointToBytes p = bytes) ∧
    ∀ P : edwards25519.Pt, compressed P = bytes →
      readLe bytes % 2 ^ 255 = P.y.val ∧ readLe bytes / 2 ^ 255 = P.x.val % 2 := by
  refine ⟨⟨fun h => ?_, ?_⟩, fun p hp => ?_, ?_⟩
  · obtain ⟨p, hp⟩ := Option.isSome_iff_exists.1 h
    obtain ⟨P, -, hP⟩ := pointFromBytes_some hlength hp
    exact ⟨P, hP⟩
  · rintro ⟨P, rfl⟩
    obtain ⟨p, hp, -⟩ := pointFromBytes_compressed P
    exact Option.isSome_iff_exists.2 ⟨p, hp⟩
  · obtain ⟨P, hP, hcompressed⟩ := pointFromBytes_some hlength hp
    exact ⟨Point.valid_iff.2 ⟨P, hP⟩, ⟨P, hP, hcompressed⟩, hP.pointToBytes.trans hcompressed⟩
  · rintro P rfl
    exact readLe_compressed P

/-- The identity is the point with second coordinate one. -/
theorem decompression_exact_identity : (pointFromBytes (1 :: List.replicate 31 0)).isSome = true := by
  refine (decompression_exact rfl).1.2 ⟨0, ?_⟩
  rw [compressed, Edwards.x_zero, Edwards.y_zero, ZMod.val_zero, ZMod.val_one]
  rfl

end Wnc.Ed25519
