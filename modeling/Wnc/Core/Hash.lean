/-
The digest and integrity primitives: the streaming SHA-256 hasher, the length-prefixed multi-part
hash, HMAC-SHA-256, CRC-32 and the domain-separated digests. Words are natural numbers below
`2 ^ 32`; every operation that can overflow reduces explicitly.
-/
import Wnc.Core.Identity
import Mathlib.Data.Nat.Bitwise

namespace Wnc

open Lib

/-! ## SHA-256 -/

def sha256RoundConstants : List Nat := [
  0x428a2f98, 0x71374491, 0xb5c0fbcf, 0xe9b5dba5, 0x3956c25b, 0x59f111f1, 0x923f82a4,
  0xab1c5ed5, 0xd807aa98, 0x12835b01, 0x243185be, 0x550c7dc3, 0x72be5d74, 0x80deb1fe,
  0x9bdc06a7, 0xc19bf174, 0xe49b69c1, 0xefbe4786, 0x0fc19dc6, 0x240ca1cc, 0x2de92c6f,
  0x4a7484aa, 0x5cb0a9dc, 0x76f988da, 0x983e5152, 0xa831c66d, 0xb00327c8, 0xbf597fc7,
  0xc6e00bf3, 0xd5a79147, 0x06ca6351, 0x14292967, 0x27b70a85, 0x2e1b2138, 0x4d2c6dfc,
  0x53380d13, 0x650a7354, 0x766a0abb, 0x81c2c92e, 0x92722c85, 0xa2bfe8a1, 0xa81a664b,
  0xc24b8b70, 0xc76c51a3, 0xd192e819, 0xd6990624, 0xf40e3585, 0x106aa070, 0x19a4c116,
  0x1e376c08, 0x2748774c, 0x34b0bcb5, 0x391c0cb3, 0x4ed8aa4a, 0x5b9cca4f, 0x682e6ff3,
  0x748f82ee, 0x78a5636f, 0x84c87814, 0x8cc70208, 0x90befffa, 0xa4506ceb, 0xbef9a3f7,
  0xc67178f2]

/-- Addition of 32-bit words. -/
def add32 (x y : Nat) : Nat := (x + y) % 4294967296

def rotateRight (value shift : Nat) : Nat := (value >>> shift) ||| (value <<< (32 - shift) % 4294967296)

def choose (x y z : Nat) : Nat := (x &&& y) ^^^ ((x ^^^ 4294967295) &&& z)

def majority (x y z : Nat) : Nat := (x &&& y) ^^^ (x &&& z) ^^^ (y &&& z)

/-- The eight working words. -/
@[ext] structure Sha256State where
  a : Nat
  b : Nat
  c : Nat
  d : Nat
  e : Nat
  f : Nat
  g : Nat
  h : Nat
deriving DecidableEq

def Sha256State.initial : Sha256State where
  a := 0x6a09e667
  b := 0xbb67ae85
  c := 0x3c6ef372
  d := 0xa54ff53a
  e := 0x510e527f
  f := 0x9b05688c
  g := 0x1f83d9ab
  h := 0x5be0cd19

def Sha256State.words (s : Sha256State) : List Nat := [s.a, s.b, s.c, s.d, s.e, s.f, s.g, s.h]

/-- The big-endian words of a block. -/
def readWords : Bytes → List Nat
  | a :: b :: c :: d :: rest =>
    (a.toNat * 16777216 + b.toNat * 65536 + c.toNat * 256 + d.toNat) :: readWords rest
  | _ => []

/-- `n` words of the message schedule, from the window of the last sixteen. -/
def messageSchedule : Nat → List Nat → List Nat
  | 0, _ => []
  | _ + 1, [] => []
  | n + 1, w16 :: window =>
    let w15 := window.getD 0 0
    let w7 := window.getD 8 0
    let w2 := window.getD 13 0
    let s0 := rotateRight w15 7 ^^^ rotateRight w15 18 ^^^ (w15 >>> 3)
    let s1 := rotateRight w2 17 ^^^ rotateRight w2 19 ^^^ (w2 >>> 10)
    w16 :: messageSchedule n (window ++ [(w16 + s0 + w7 + s1) % 4294967296])

/-- One round of the compression loop, with its constant and its schedule word. -/
def sha256Round (s : Sha256State) (constant word : Nat) : Sha256State :=
  let s1 := rotateRight s.e 6 ^^^ rotateRight s.e 11 ^^^ rotateRight s.e 25
  let ch := choose s.e s.f s.g
  let temp1 := (s.h + s1 + ch + constant + word) % 4294967296
  let s0 := rotateRight s.a 2 ^^^ rotateRight s.a 13 ^^^ rotateRight s.a 22
  let maj := majority s.a s.b s.c
  let temp2 := (s0 + maj) % 4294967296
  { a := add32 temp1 temp2, b := s.a, c := s.b, d := s.c, e := add32 s.d temp1, f := s.e, g := s.f, h := s.g }

def sha256Rounds : Sha256State → List Nat → List Nat → Sha256State
  | s, constant :: constants, word :: words => sha256Rounds (sha256Round s constant word) constants words
  | s, _, _ => s

def Sha256State.compress (s : Sha256State) (block : Bytes) : Sha256State :=
  let r := sha256Rounds s sha256RoundConstants (messageSchedule 64 (readWords block))
  { a := add32 s.a r.a, b := add32 s.b r.b, c := add32 s.c r.c, d := add32 s.d r.d,
    e := add32 s.e r.e, f := add32 s.f r.f, g := add32 s.g r.g, h := add32 s.h r.h }

/-- Compresses the first `n` blocks of the bytes; the bytes after them are returned. -/
def compressBlocks : Nat → Sha256State → Bytes → Sha256State × Bytes
  | 0, s, bytes => (s, bytes)
  | n + 1, s, bytes => compressBlocks n (s.compress (bytes.take 64)) (bytes.drop 64)

/-- The streaming hasher: its words, the bytes buffered for the next block, the byte count (64 bits). -/
structure Sha256 where
  state : Sha256State := .initial
  buffer : Bytes := []
  totalBytes : Nat := 0
  finished : Bool := false

namespace Sha256

def blockBytes : Nat := 64

/-- The part of `update` that tops up a non-empty buffer; the bytes it does not take are returned. -/
def fillBuffer (h : Sha256) (bytes : Bytes) : Sha256 × Bytes :=
  if h.buffer = [] then (h, bytes)
  else
    let want := blockBytes - h.buffer.length
    let buffer := h.buffer ++ bytes.take want
    let rest := bytes.drop want
    if buffer.length = blockBytes then ({ h with state := h.state.compress buffer, buffer := [] }, rest)
    else ({ h with buffer := buffer }, rest)

def update (h : Sha256) (bytes : Bytes) : Sha256 :=
  if h.finished then h
  else
    let h := { h with totalBytes := (h.totalBytes + bytes.length) % 18446744073709551616 }
    let (h, rest) := h.fillBuffer bytes
    let (state, rest) := compressBlocks (rest.length / blockBytes) h.state rest
    if rest = [] then { h with state := state } else { h with state := state, buffer := rest }

def finish (h : Sha256) : Sha256 :=
  if h.finished then h
  else
    let bitLength := h.totalBytes * 8 % 18446744073709551616
    let padLen := if h.buffer.length < 56 then 56 - h.buffer.length else 120 - h.buffer.length
    let h := h.update (128 :: List.replicate (padLen - 1) 0)
    let h := h.update (writeBe 8 bitLength)
    { h with finished := true }

def digest (h : Sha256) : Digest :=
  ⟨h.finish.state.words.flatMap (writeBe 4), by simp [Sha256State.words]⟩

end Sha256

def sha256 (bytes : Bytes) : Digest := (({} : Sha256).update bytes).digest

/-- Feeds the hasher every part behind its length in four big-endian bytes; a part of 4 GiB or more is
replaced by a marker and its digest. -/
def feedParts : Sha256 → List Bytes → Sha256
  | h, [] => h
  | h, part :: parts =>
    if part.length > 0xFFFFFFFF then
      feedParts ((h.update [0xFF, 0xFF, 0xFF, 0xFF]).update (sha256 part).bytes) parts
    else feedParts ((h.update (writeBe 4 part.length)).update part) parts

def sha256Parts (parts : List Bytes) : Digest := (feedParts {} parts).digest

def hmacSha256 (key message : Bytes) : Digest :=
  let shortKey := if key.length > Sha256.blockBytes then (sha256 key).bytes else key
  let paddedKey := shortKey ++ List.replicate (Sha256.blockBytes - shortKey.length) 0
  let inner := paddedKey.map (· ^^^ 0x36)
  let outer := paddedKey.map (· ^^^ 0x5C)
  let innerDigest := ((({} : Sha256).update inner).update message).digest
  ((({} : Sha256).update outer).update innerDigest.bytes).digest

def constantTimeEqual (a b : Bytes) : Bool :=
  a.length == b.length && (List.zipWith (· ^^^ ·) a b).foldl (· ||| ·) 0 == 0

/-! ## CRC-32 -/

/-- One bit of the table's construction. -/
def crc32Shift (value : Nat) : Nat :=
  if value &&& 1 ≠ 0 then 0xEDB88320 ^^^ (value >>> 1) else value >>> 1

/-- The table entry of a byte. -/
def crc32Table (index : Nat) : Nat :=
  crc32Shift (crc32Shift (crc32Shift (crc32Shift (crc32Shift (crc32Shift (crc32Shift (crc32Shift index)))))))

def crc32Continued (state : Nat) (bytes : Bytes) : Nat :=
  bytes.foldl (fun crc byte => crc32Table ((crc ^^^ byte.toNat) &&& 0xFF) ^^^ (crc >>> 8)) state

def crc32 (bytes : Bytes) : Nat := crc32Continued 0xFFFFFFFF bytes ^^^ 0xFFFFFFFF

theorem crc32Shift_lt {value : Nat} (h : value < 2 ^ 32) : crc32Shift value < 2 ^ 32 := by
  have hs : value >>> 1 < 2 ^ 32 := by rw [Nat.shiftRight_eq_div_pow]; omega
  unfold crc32Shift
  split
  · exact Nat.xor_lt_two_pow (by decide) hs
  · exact hs

theorem crc32Table_lt {index : Nat} (h : index < 2 ^ 32) : crc32Table index < 2 ^ 32 := by
  unfold crc32Table
  iterate 8 apply crc32Shift_lt
  exact h

theorem crc32Continued_lt : ∀ (bytes : Bytes) {state : Nat}, state < 2 ^ 32 →
    crc32Continued state bytes < 2 ^ 32
  | [], _, h => h
  | b :: bytes, state, h => by
    have hlow : (state ^^^ b.toNat) &&& 0xFF < 2 ^ 32 :=
      lt_of_le_of_lt Nat.and_le_right (by decide)
    have hhigh : state >>> 8 < 2 ^ 32 := by rw [Nat.shiftRight_eq_div_pow]; omega
    exact crc32Continued_lt bytes (Nat.xor_lt_two_pow (crc32Table_lt hlow) hhigh)

theorem crc32_lt (bytes : Bytes) : crc32 bytes < 256 ^ 4 :=
  Nat.xor_lt_two_pow (crc32Continued_lt bytes (by decide)) (by decide)

/-! ## Domain-separated digests -/

def digestDomain (domain payload : Bytes) : Digest := sha256Parts [utf8 "wnc/v1", domain, payload]

def digestDomainGeneration (domain payload : Bytes) (generation : UInt64) : Digest :=
  sha256Parts [utf8 "wnc/v1", domain, payload, writeBe 8 generation.toNat]

end Wnc
