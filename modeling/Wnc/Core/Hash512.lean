/-
The streaming SHA-512 hasher of the signature scheme. Words are natural numbers below `2 ^ 64`; every
operation that can overflow reduces explicitly.
-/
import Wnc.Core.Hash

namespace Wnc

open Lib

def sha512RoundConstants : List Nat := [
  0x428a2f98d728ae22, 0x7137449123ef65cd, 0xb5c0fbcfec4d3b2f, 0xe9b5dba58189dbbc,
  0x3956c25bf348b538, 0x59f111f1b605d019, 0x923f82a4af194f9b, 0xab1c5ed5da6d8118,
  0xd807aa98a3030242, 0x12835b0145706fbe, 0x243185be4ee4b28c, 0x550c7dc3d5ffb4e2,
  0x72be5d74f27b896f, 0x80deb1fe3b1696b1, 0x9bdc06a725c71235, 0xc19bf174cf692694,
  0xe49b69c19ef14ad2, 0xefbe4786384f25e3, 0x0fc19dc68b8cd5b5, 0x240ca1cc77ac9c65,
  0x2de92c6f592b0275, 0x4a7484aa6ea6e483, 0x5cb0a9dcbd41fbd4, 0x76f988da831153b5,
  0x983e5152ee66dfab, 0xa831c66d2db43210, 0xb00327c898fb213f, 0xbf597fc7beef0ee4,
  0xc6e00bf33da88fc2, 0xd5a79147930aa725, 0x06ca6351e003826f, 0x142929670a0e6e70,
  0x27b70a8546d22ffc, 0x2e1b21385c26c926, 0x4d2c6dfc5ac42aed, 0x53380d139d95b3df,
  0x650a73548baf63de, 0x766a0abb3c77b2a8, 0x81c2c92e47edaee6, 0x92722c851482353b,
  0xa2bfe8a14cf10364, 0xa81a664bbc423001, 0xc24b8b70d0f89791, 0xc76c51a30654be30,
  0xd192e819d6ef5218, 0xd69906245565a910, 0xf40e35855771202a, 0x106aa07032bbd1b8,
  0x19a4c116b8d2d0c8, 0x1e376c085141ab53, 0x2748774cdf8eeb99, 0x34b0bcb5e19b48a8,
  0x391c0cb3c5c95a63, 0x4ed8aa4ae3418acb, 0x5b9cca4f7763e373, 0x682e6ff3d6b2b8a3,
  0x748f82ee5defb2fc, 0x78a5636f43172f60, 0x84c87814a1f0ab72, 0x8cc702081a6439ec,
  0x90befffa23631e28, 0xa4506cebde82bde9, 0xbef9a3f7b2c67915, 0xc67178f2e372532b,
  0xca273eceea26619c, 0xd186b8c721c0c207, 0xeada7dd6cde0eb1e, 0xf57d4f7fee6ed178,
  0x06f067aa72176fba, 0x0a637dc5a2c898a6, 0x113f9804bef90dae, 0x1b710b35131c471b,
  0x28db77f523047d84, 0x32caab7b40c72493, 0x3c9ebe0a15c9bebc, 0x431d67c49c100d4c,
  0x4cc5d4becb3e42b6, 0x597f299cfc657e2a, 0x5fcb6fab3ad6faec, 0x6c44198c4a475817]

def add64 (x y : Nat) : Nat := (x + y) % 18446744073709551616

def rotateRight64 (value shift : Nat) : Nat :=
  (value >>> shift) ||| (value <<< (64 - shift) % 18446744073709551616)

def choose64 (x y z : Nat) : Nat := (x &&& y) ^^^ ((x ^^^ 18446744073709551615) &&& z)

/-- The eight working words. -/
@[ext] structure Sha512State where
  a : Nat
  b : Nat
  c : Nat
  d : Nat
  e : Nat
  f : Nat
  g : Nat
  h : Nat
deriving DecidableEq

def Sha512State.initial : Sha512State where
  a := 0x6a09e667f3bcc908
  b := 0xbb67ae8584caa73b
  c := 0x3c6ef372fe94f82b
  d := 0xa54ff53a5f1d36f1
  e := 0x510e527fade682d1
  f := 0x9b05688c2b3e6c1f
  g := 0x1f83d9abfb41bd6b
  h := 0x5be0cd19137e2179

def Sha512State.words (s : Sha512State) : List Nat := [s.a, s.b, s.c, s.d, s.e, s.f, s.g, s.h]

/-- The big-endian 64-bit words of a block. -/
def readWords64 : Bytes → List Nat
  | a :: b :: c :: d :: e :: f :: g :: h :: rest => readBe [a, b, c, d, e, f, g, h] :: readWords64 rest
  | _ => []

/-- `n` words of the message schedule, from the window of the last sixteen. -/
def messageSchedule64 : Nat → List Nat → List Nat
  | 0, _ => []
  | _ + 1, [] => []
  | n + 1, w16 :: window =>
    let w15 := window.getD 0 0
    let w7 := window.getD 8 0
    let w2 := window.getD 13 0
    let s0 := rotateRight64 w15 1 ^^^ rotateRight64 w15 8 ^^^ (w15 >>> 7)
    let s1 := rotateRight64 w2 19 ^^^ rotateRight64 w2 61 ^^^ (w2 >>> 6)
    w16 :: messageSchedule64 n (window ++ [(w16 + s0 + w7 + s1) % 18446744073709551616])

/-- One round of the compression loop, with its constant and its schedule word. -/
def sha512Round (s : Sha512State) (constant word : Nat) : Sha512State :=
  let s1 := rotateRight64 s.e 14 ^^^ rotateRight64 s.e 18 ^^^ rotateRight64 s.e 41
  let ch := choose64 s.e s.f s.g
  let temp1 := (s.h + s1 + ch + constant + word) % 18446744073709551616
  let s0 := rotateRight64 s.a 28 ^^^ rotateRight64 s.a 34 ^^^ rotateRight64 s.a 39
  let temp2 := add64 s0 (majority s.a s.b s.c)
  { a := add64 temp1 temp2, b := s.a, c := s.b, d := s.c, e := add64 s.d temp1, f := s.e, g := s.f, h := s.g }

def sha512Rounds : Sha512State → List Nat → List Nat → Sha512State
  | s, constant :: constants, word :: words => sha512Rounds (sha512Round s constant word) constants words
  | s, _, _ => s

def Sha512State.compress (s : Sha512State) (block : Bytes) : Sha512State :=
  let r := sha512Rounds s sha512RoundConstants (messageSchedule64 80 (readWords64 block))
  { a := add64 s.a r.a, b := add64 s.b r.b, c := add64 s.c r.c, d := add64 s.d r.d,
    e := add64 s.e r.e, f := add64 s.f r.f, g := add64 s.g r.g, h := add64 s.h r.h }

/-- Compresses the first `n` blocks of the bytes; the bytes after them are returned. -/
def compressBlocks512 : Nat → Sha512State → Bytes → Sha512State × Bytes
  | 0, s, bytes => (s, bytes)
  | n + 1, s, bytes => compressBlocks512 n (s.compress (bytes.take 128)) (bytes.drop 128)

/-- The streaming hasher: its words, the bytes buffered for the next block, the byte count (64 bits). -/
structure Sha512 where
  state : Sha512State := .initial
  buffer : Bytes := []
  totalBytes : Nat := 0
  finished : Bool := false

/-- A SHA-512 digest: exactly 64 bytes. -/
@[ext] structure Digest512 where
  bytes : Bytes
  length_eq : bytes.length = 64
deriving DecidableEq

namespace Sha512

def blockBytes : Nat := 128

/-- The part of `update` that tops up a non-empty buffer; the bytes it does not take are returned. -/
def fillBuffer (h : Sha512) (bytes : Bytes) : Sha512 × Bytes :=
  if h.buffer = [] then (h, bytes)
  else
    let want := blockBytes - h.buffer.length
    let buffer := h.buffer ++ bytes.take want
    let rest := bytes.drop want
    if buffer.length = blockBytes then ({ h with state := h.state.compress buffer, buffer := [] }, rest)
    else ({ h with buffer := buffer }, rest)

def update (h : Sha512) (bytes : Bytes) : Sha512 :=
  if h.finished then h
  else
    let h := { h with totalBytes := (h.totalBytes + bytes.length) % 18446744073709551616 }
    let (h, rest) := h.fillBuffer bytes
    let (state, rest) := compressBlocks512 (rest.length / blockBytes) h.state rest
    if rest = [] then { h with state := state } else { h with state := state, buffer := rest }

def finish (h : Sha512) : Sha512 :=
  if h.finished then h
  else
    let bitLength := h.totalBytes * 8 % 18446744073709551616
    let padLen := if h.buffer.length < 112 then 112 - h.buffer.length else 240 - h.buffer.length
    let h := h.update (128 :: List.replicate (padLen - 1) 0)
    let h := h.update (List.replicate 8 0 ++ writeBe 8 bitLength)
    { h with finished := true }

def digest (h : Sha512) : Digest512 :=
  ⟨h.finish.state.words.flatMap (writeBe 8), by simp [Sha512State.words]⟩

end Sha512

def sha512 (bytes : Bytes) : Digest512 := (({} : Sha512).update bytes).digest

end Wnc
