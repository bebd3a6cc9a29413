/-
Ed25519 over edwards25519. Field elements and scalars are eight 32-bit limbs, least significant first,
kept as lists; carries and borrows run through 64-bit accumulators.
-/
import Wnc.Core.Hash512

namespace Wnc

open Lib

@[ext] structure Ed25519PublicKey where
  bytes : Bytes
  length_eq : bytes.length = 32

theorem Ed25519PublicKey.bytes_inj {a b : Ed25519PublicKey} : a.bytes = b.bytes ↔ a = b := Ed25519PublicKey.ext_iff.symm

instance decEqEd25519PublicKey : DecidableEq Ed25519PublicKey := fun _ _ => decidable_of_iff _ Ed25519PublicKey.bytes_inj

@[ext] structure Ed25519Seed where
  bytes : Bytes
  length_eq : bytes.length = 32

theorem Ed25519Seed.bytes_inj {a b : Ed25519Seed} : a.bytes = b.bytes ↔ a = b := Ed25519Seed.ext_iff.symm

instance decEqEd25519Seed : DecidableEq Ed25519Seed := fun _ _ => decidable_of_iff _ Ed25519Seed.bytes_inj

@[ext] structure Ed25519Signature where
  bytes : Bytes
  length_eq : bytes.length = 64

theorem Ed25519Signature.bytes_inj {a b : Ed25519Signature} : a.bytes = b.bytes ↔ a = b := Ed25519Signature.ext_iff.symm

instance decEqEd25519Signature : DecidableEq Ed25519Signature := fun _ _ => decidable_of_iff _ Ed25519Signature.bytes_inj

namespace Ed25519

/-! ## Limbs -/

/-- Limbs of 32 bits, least significant first. -/
abbrev Limbs := List UInt32

/-- The limbs of a difference and the borrow out of the last one. -/
def borrowChain : Limbs → Limbs → UInt64 → Limbs × UInt64
  | a :: as, b :: bs, borrow =>
    let difference := a.toUInt64 - b.toUInt64 - borrow
    let (out, last) := borrowChain as bs ((difference >>> 32) &&& 1)
    (difference.toUInt32 :: out, last)
  | _, _, borrow => ([], borrow)

/-- The limbs of a sum and the carry out of the last one. -/
def carryChain : Limbs → Limbs → UInt64 → Limbs × UInt64
  | a :: as, b :: bs, carry =>
    let sum := a.toUInt64 + b.toUInt64 + carry
    let (out, last) := carryChain as bs (sum >>> 32)
    (sum.toUInt32 :: out, last)
  | _, _, carry => ([], carry)

/-- Adds a multiple of the limbs to the front of an accumulator; the carry goes into the limb behind. -/
def mulRow (x : UInt32) : Limbs → List UInt64 → UInt64 → List UInt64
  | y :: ys, w :: ws, carry =>
    let current := w + x.toUInt64 * y.toUInt64 + carry
    (current &&& 0xFFFFFFFF) :: mulRow x ys ws (current >>> 32)
  | [], _ :: ws, carry => carry :: ws
  | _, [], _ => []

/-- The schoolbook product: one row for every limb, each one limb further on. -/
def mulRows : Limbs → Limbs → List UInt64 → List UInt64
  | [], _, t => t
  | x :: xs, ys, t =>
    match mulRow x ys t 0 with
    | [] => []
    | first :: rest => first :: mulRows xs ys rest

def schoolbook (a b : Limbs) : List UInt64 := mulRows a b (List.replicate 16 0)

/-- The limbs of four-byte groups, least significant byte first. -/
def limbsOfBytes : Bytes → Limbs
  | a :: b :: c :: d :: rest =>
    (a.toUInt32 ||| (b.toUInt32 <<< 8) ||| (c.toUInt32 <<< 16) ||| (d.toUInt32 <<< 24)) :: limbsOfBytes rest
  | _ => []

def bytesOfLimbs (limbs : Limbs) : Bytes :=
  limbs.flatMap fun (w : UInt32) => [w.toUInt8, (w >>> 8).toUInt8, (w >>> 16).toUInt8, (w >>> 24).toUInt8]

/-! ## The field -/

/-- A field element: eight limbs. -/
abbrev Fe := Limbs

def kP : Fe := [0xFFFFFFED, 0xFFFFFFFF, 0xFFFFFFFF, 0xFFFFFFFF, 0xFFFFFFFF, 0xFFFFFFFF, 0xFFFFFFFF, 0x7FFFFFFF]
def kOne : Fe := [1, 0, 0, 0, 0, 0, 0, 0]
def kZero : Fe := [0, 0, 0, 0, 0, 0, 0, 0]
def kD : Fe := [0x135978A3, 0x75EB4DCA, 0x4141D8AB, 0x00700A4D, 0x7779E898, 0x8CC74079, 0x2B6FFE73, 0x52036CEE]
def kD2 : Fe := [0x26B2F159, 0xEBD69B94, 0x8283B156, 0x00E0149A, 0xEEF3D130, 0x198E80F2, 0x56DFFCE7, 0x2406D9DC]
def kSqrtM1 : Fe := [0x4A0EA0B0, 0xC4EE1B27, 0xAD2FE478, 0x2F431806, 0x3DFBD7A7, 0x2B4D0099, 0x4FC1DF0B, 0x2B832480]

/-- Subtracts the modulus from an element that is not below it. -/
def feConditionalSubtractP (a : Fe) : Fe :=
  let (reduced, borrow) := borrowChain a kP 0
  let takeMask : UInt32 := 0 - (1 - borrow.toUInt32)
  let keepMask := ~~~takeMask
  List.zipWith (fun x r => (x &&& keepMask) ||| (r &&& takeMask)) a reduced

def feBelowP (a : Fe) : Bool := (borrowChain a kP 0).2 != 0

def feAdd (a b : Fe) : Fe := feConditionalSubtractP (carryChain a b 0).1

def feSub (a b : Fe) : Fe :=
  let (out, borrow) := borrowChain a b 0
  if borrow ≠ 0 then (carryChain out kP 0).1 else out

def feNeg (a : Fe) : Fe := feSub kZero a

/-- Runs a carry through the limbs of an accumulator. -/
def normalize : List UInt64 → UInt64 → List UInt64 × UInt64
  | [], carry => ([], carry)
  | w :: ws, carry =>
    let sum := w + carry
    let (out, last) := normalize ws (sum >>> 32)
    ((sum &&& 0xFFFFFFFF) :: out, last)

/-- Adds to the first limb of an accumulator. -/
def addFirst (x : UInt64) : List UInt64 → List UInt64
  | [] => []
  | w :: ws => (w + x) :: ws

def feMul (a b : Fe) : Fe :=
  let t := schoolbook a b
  let w := List.zipWith (fun low high => low + 38 * high) (t.take 8) (t.drop 8)
  let (w, carry) := normalize w 0
  let (w, carry) := normalize (addFirst (38 * carry) w) 0
  let w := addFirst (38 * carry) w
  let out := w.map fun x => (x &&& 0xFFFFFFFF).toUInt32
  feConditionalSubtractP (feConditionalSubtractP out)

def feSqr (a : Fe) : Fe := feMul a a

def feSquareTimes (value : Fe) : Nat → Fe
  | 0 => value
  | count + 1 => feSquareTimes (feSqr value) count

def fePowP58 (a : Fe) : Fe :=
  let q2 := feMul (feSquareTimes a 1) a
  let q4 := feMul (feSquareTimes q2 2) q2
  let q8 := feMul (feSquareTimes q4 4) q4
  let q16 := feMul (feSquareTimes q8 8) q8
  let q32 := feMul (feSquareTimes q16 16) q16
  let q18 := feMul (feSquareTimes q16 2) q2
  let q50 := feMul (feSquareTimes q32 18) q18
  let q100 := feMul (feSquareTimes q50 50) q50
  let q200 := feMul (feSquareTimes q100 100) q100
  let q250 := feMul (feSquareTimes q200 50) q50
  feMul (feSquareTimes q250 2) a

def feInvert (a : Fe) : Fe :=
  let z := fePowP58 a
  feMul (feSquareTimes z 3) (feMul (feSqr a) a)

def feIsZero (a : Fe) : Bool := a.foldl (· ||| ·) 0 == 0

def feEqual (a b : Fe) : Bool := (List.zipWith (· ^^^ ·) a b).foldl (· ||| ·) 0 == 0

/-- The lowest bit of an element. -/
def lowBit (a : Fe) : UInt32 := a.headD 0 &&& 1

/-! ## Scalars -/

abbrev Scalar := Limbs

def kL : Scalar := [0x5CF5D3ED, 0x5812631A, 0xA2F79CD6, 0x14DEF9DE, 0, 0, 0, 0x10000000]

/-- Compares from the most significant limb down. -/
def scalarCompare (a b : Scalar) : Ordering :=
  match (List.zip a b).reverse.find? fun p => p.1 != p.2 with
  | none => .eq
  | some (x, y) => if x < y then .lt else .gt

def scalarSub (a b : Scalar) : Scalar := (borrowChain a b 0).1

/-- Shifts a bit in at the bottom. -/
def shiftIn : Limbs → UInt32 → Limbs
  | [], _ => []
  | w :: ws, carry =>
    let shifted := (w.toUInt64 <<< 1) ||| carry.toUInt64
    shifted.toUInt32 :: shiftIn ws (shifted >>> 32).toUInt32

/-- One bit of the long division. -/
def reduceBit (remainder : Scalar) (bit : UInt32) : Scalar :=
  let remainder := shiftIn remainder bit
  if scalarCompare remainder kL ≠ .lt then scalarSub remainder kL else remainder

/-- The bits of a limb, most significant first. -/
def limbBits (w : UInt32) : List UInt32 :=
  (List.range 32).reverse.map fun i => (w >>> UInt32.ofNat i) &&& 1

/-- Binary long division of a wide value by the group order, most significant bit first. -/
def scalarReduce (wide : Limbs) : Scalar := (wide.reverse.flatMap limbBits).foldl reduceBit kZero

def scalarFromWideHash (hash : Digest512) : Scalar := scalarReduce (limbsOfBytes hash.bytes)

def scalarMul (a b : Scalar) : Scalar := scalarReduce ((schoolbook b a).map UInt64.toUInt32)

def scalarAdd (a b : Scalar) : Scalar :=
  let sum := (carryChain a b 0).1
  if scalarCompare sum kL ≠ .lt then scalarSub sum kL else sum

/-! ## The group -/

/-- A point in extended coordinates. -/
structure Point where
  x : Fe
  y : Fe
  z : Fe
  t : Fe
deriving DecidableEq

def pointIdentity : Point := ⟨kZero, kOne, kOne, kZero⟩

def pointAdd (p q : Point) : Point :=
  let a := feMul (feSub p.y p.x) (feSub q.y q.x)
  let b := feMul (feAdd p.y p.x) (feAdd q.y q.x)
  let c := feMul (feMul p.t q.t) kD2
  let d := feMul (feAdd p.z p.z) q.z
  let e := feSub b a
  let f := feSub d c
  let g := feAdd d c
  let h := feAdd b a
  ⟨feMul e f, feMul g h, feMul f g, feMul e h⟩

def pointDouble (p : Point) : Point :=
  let a := feSqr p.x
  let b := feSqr p.y
  let c := feAdd (feSqr p.z) (feSqr p.z)
  let d := feNeg a
  let e := feSub (feSub (feSqr (feAdd p.x p.y)) a) b
  let g := feAdd d b
  let f := feSub g c
  let h := feSub d b
  ⟨feMul e f, feMul g h, feMul f g, feMul e h⟩

def pointIsIdentity (p : Point) : Bool := feIsZero p.x && feEqual p.y p.z

def pointEqual (p q : Point) : Bool :=
  feEqual (feMul p.x q.z) (feMul q.x p.z) && feEqual (feMul p.y q.z) (feMul q.y p.z)

/-- Replaces the last byte. -/
def mapLast (f : UInt8 → UInt8) (bytes : Bytes) : Bytes := bytes.dropLast ++ bytes.getLast?.toList.map f

def pointToBytes (p : Point) : Bytes :=
  let zInverse := feInvert p.z
  let x := feMul p.x zInverse
  let y := feMul p.y zInverse
  mapLast (fun last => last ||| ((lowBit x) <<< 7).toUInt8) (bytesOfLimbs y)

/-- The point of a compressed encoding. -/
def pointFromBytes (bytes : Bytes) : Option Point :=
  let sign := ((bytes.getLastD 0) >>> 7).toUInt32
  let y := limbsOfBytes (mapLast (· &&& 0x7F) bytes)
  if !feBelowP y then none
  else
    let y2 := feSqr y
    let u := feSub y2 kOne
    let v := feAdd (feMul kD y2) kOne
    let v3 := feMul (feSqr v) v
    let v7 := feMul (feSqr v3) v
    let x := feMul (fePowP58 (feMul u v7)) (feMul u v3)
    let vx2 := feMul v (feSqr x)
    match (if feEqual vx2 u then some x else if feEqual vx2 (feNeg u) then some (feMul x kSqrtM1) else none) with
    | none => none
    | some x =>
      if feIsZero x && sign != 0 then none
      else
        let x := if lowBit x != sign then feNeg x else x
        some ⟨x, y, kOne, feMul x y⟩

/-- The first `n` multiples of a point, from the identity on. -/
def smallMultiples (base : Point) : Nat → List Point
  | 0 => []
  | 1 => [pointIdentity]
  | 2 => [pointIdentity, base]
  | n + 1 =>
    let table := smallMultiples base n
    table ++ [if n % 2 = 0 then pointDouble (table.getD (n / 2) pointIdentity)
      else pointAdd (table.getD (n - 1) pointIdentity) base]

def pointSmallMultiples (base : Point) : List Point := smallMultiples base 16

/-- The four-bit digits of bytes, most significant first. -/
def windows (bytes : Bytes) : List Nat := bytes.reverse.flatMap fun b => [b.toNat / 16, b.toNat % 16]

/-- Adds the multiple of one digit. -/
def addWindow (table : List Point) (result : Point) (digit : Nat) : Point :=
  if digit ≠ 0 then pointAdd result (table.getD digit pointIdentity) else result

/-- Left-to-right four-bit window: the result is doubled four times before every digit but the first. -/
def pointWindowMul (scalar : Scalar) (table : List Point) : Point :=
  match windows (bytesOfLimbs scalar) with
  | [] => pointIdentity
  | first :: rest =>
    rest.foldl
      (fun result digit => addWindow table (pointDouble (pointDouble (pointDouble (pointDouble result)))) digit)
      (addWindow table pointIdentity first)

def basePointBytes : Bytes := 0x58 :: List.replicate 31 0x66

def basePoint : Point := (pointFromBytes basePointBytes).getD pointIdentity

def pointScalarMulBase (scalar : Scalar) : Point := pointWindowMul scalar (pointSmallMultiples basePoint)

def pointScalarMul (scalar : Scalar) (base : Point) : Point := pointWindowMul scalar (pointSmallMultiples base)

/-! ## Keys and signatures -/

/-- The hash of a concatenation, every part fed to one hasher. -/
def sha512Of (parts : List Bytes) : Digest512 := (parts.foldl Sha512.update {}).digest

structure ExpandedKey where
  scalar : Scalar
  secret : Bytes
  publicKey : Bytes

def expandKey (seed : Ed25519Seed) : ExpandedKey :=
  let expanded := (sha512 seed.bytes).bytes
  let clamped := mapLast (fun b => (b &&& 63) ||| 64)
    ((expanded.headD 0 &&& 248) :: (expanded.take 32).drop 1)
  let scalar := limbsOfBytes clamped
  { scalar := scalar, secret := expanded.drop 32, publicKey := pointToBytes (pointScalarMulBase scalar) }

/-- A key of 32 bytes; other lengths do not occur. -/
def keyOfBytes (bytes : Bytes) : Ed25519PublicKey :=
  if h : bytes.length = 32 then ⟨bytes, h⟩ else ⟨List.replicate 32 0, Digest.zero.length_eq⟩

/-- A signature of 64 bytes; other lengths do not occur. -/
def signatureOfBytes (bytes : Bytes) : Ed25519Signature :=
  if h : bytes.length = 64 then ⟨bytes, h⟩ else ⟨List.replicate 64 0, rfl⟩

end Ed25519

open Ed25519

def ed25519PublicKey (seed : Ed25519Seed) : Ed25519PublicKey := keyOfBytes (expandKey seed).publicKey

def ed25519Sign (seed : Ed25519Seed) (message : Bytes) : Ed25519Signature :=
  let key := expandKey seed
  let nonce := scalarFromWideHash (sha512Of [key.secret, message])
  let nonceBytes := pointToBytes (pointScalarMulBase nonce)
  let challenge := scalarFromWideHash (sha512Of [nonceBytes, key.publicKey, message])
  let s := scalarAdd (scalarMul challenge key.scalar) nonce
  signatureOfBytes (nonceBytes ++ bytesOfLimbs s)

def ed25519Verify (publicKey : Ed25519PublicKey) (message : Bytes) (signature : Ed25519Signature) : Bool :=
  match pointFromBytes publicKey.bytes, pointFromBytes (signature.bytes.take 32) with
  | some a, some r =>
    let s := limbsOfBytes (signature.bytes.drop 32)
    if scalarCompare s kL ≠ .lt then false
    else
      let challenge := scalarFromWideHash (sha512Of [signature.bytes.take 32, publicKey.bytes, message])
      pointEqual (pointScalarMulBase s) (pointAdd r (pointScalarMul challenge a))
  | _, _ => false

/-- Verification that refuses public keys of small order first. -/
def ed25519VerifyStrict (publicKey : Ed25519PublicKey) (message : Bytes) (signature : Ed25519Signature) : Bool :=
  match pointFromBytes publicKey.bytes with
  | none => false
  | some a =>
    if pointIsIdentity (pointDouble (pointDouble (pointDouble a))) then false
    else ed25519Verify publicKey message signature

end Wnc
