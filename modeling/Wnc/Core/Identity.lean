/-
Digests, typed identities and incarnations, with their text forms: an identity is 64 lowercase
hexadecimal characters, an incarnation 22 characters of unpadded base64url.
-/
import Wnc.Lib.Bytes
import Wnc.Lib.Traverse
import Mathlib.Order.Fin.Basic

namespace Wnc

open Lib

/-! ## Digests -/

def sha256Bytes : Nat := 32
def sha256HexChars : Nat := 64
def signatureBytes : Nat := 64
def publicKeyBytes : Nat := 32
def incarnationBytes : Nat := 16

/-- A SHA-256 digest: exactly 32 bytes. -/
@[ext] structure Digest where
  bytes : Bytes
  length_eq : bytes.length = 32
deriving DecidableEq

attribute [simp] Digest.length_eq

/-- The digest of 32 zero bytes, the value a default-initialised digest has. -/
def Digest.zero : Digest := ⟨List.replicate 32 0, rfl⟩

/-- The digest stored in a 32 byte field; a shorter or longer field is the zero digest. -/
def Digest.ofBytes (bs : Bytes) : Digest :=
  if h : bs.length = 32 then ⟨bs, h⟩ else Digest.zero

theorem Digest.bytes_ofBytes {bs : Bytes} (h : bs.length = 32) : (Digest.ofBytes bs).bytes = bs := by
  rw [Digest.ofBytes, dif_pos h]

@[simp] theorem Digest.ofBytes_bytes (d : Digest) : Digest.ofBytes d.bytes = d := by
  rw [Digest.ofBytes, dif_pos d.length_eq]

/-! ## Hexadecimal digits -/

/-- The character of a nibble, in lower case. -/
def lowerHexDigit (v : Fin 16) : UInt8 :=
  if v.val < 10 then UInt8.ofNat (48 + v.val) else UInt8.ofNat (87 + v.val)

/-- The value of a hexadecimal digit of either case. -/
def hexDigitValue (c : UInt8) : Option (Fin 16) :=
  if 48 ≤ c ∧ c ≤ 57 then some (Fin.ofNat 16 (c.toNat - 48))
  else if 97 ≤ c ∧ c ≤ 102 then some (Fin.ofNat 16 (c.toNat - 97 + 10))
  else if 65 ≤ c ∧ c ≤ 70 then some (Fin.ofNat 16 (c.toNat - 65 + 10))
  else none

@[simp] theorem hexDigitValue_lowerHexDigit (v : Fin 16) : hexDigitValue (lowerHexDigit v) = some v := by
  revert v; decide

theorem mapM_hexDigitValue (ds : List (Fin 16)) : (ds.map lowerHexDigit).mapM hexDigitValue = some ds := by
  induction ds with
  | nil => rfl
  | cons d ds ih => simp [ih]

/-- The two nibbles of every byte, high nibble first. -/
def nibbles (bs : Bytes) : List (Fin 16) :=
  bs.flatMap fun b => [Fin.ofNat 16 (b.toNat / 16), Fin.ofNat 16 (b.toNat % 16)]

@[simp] theorem length_nibbles (bs : Bytes) : (nibbles bs).length = 2 * bs.length := by
  induction bs with
  | nil => rfl
  | cons b bs ih => simp only [nibbles, List.flatMap_cons, List.length_append, List.length_cons,
      List.length_nil] at ih ⊢; omega

def hexEncode (bs : Bytes) : Bytes := (nibbles bs).map lowerHexDigit

/-- The bytes of a list of nibbles, high nibble first; an odd last nibble is dropped. -/
def joinNibbles : List (Fin 16) → Bytes
  | hi :: lo :: rest => UInt8.ofNat (16 * hi.val + lo.val) :: joinNibbles rest
  | _ => []

theorem joinNibbles_nibbles : ∀ bs : Bytes, joinNibbles (nibbles bs) = bs
  | [] => rfl
  | b :: bs => by
    have hb := b.toNat_lt
    have hn : nibbles (b :: bs) = Fin.ofNat 16 (b.toNat / 16) :: Fin.ofNat 16 (b.toNat % 16) :: nibbles bs := rfl
    have hv : 16 * (Fin.ofNat 16 (b.toNat / 16)).val + (Fin.ofNat 16 (b.toNat % 16)).val = b.toNat := by
      simp only [Fin.val_ofNat]; omega
    rw [hn, joinNibbles, hv, UInt8.ofNat_toNat, joinNibbles_nibbles bs]

theorem length_joinNibbles : ∀ ds : List (Fin 16), (joinNibbles ds).length = ds.length / 2
  | [] => rfl
  | [_] => by simp [joinNibbles]
  | _ :: _ :: rest => by
    rw [joinNibbles, List.length_cons, length_joinNibbles rest, List.length_cons, List.length_cons]; omega

def hexDecodeDigest (text : Bytes) : Option Digest :=
  if text.length ≠ sha256HexChars then none
  else (text.mapM hexDigitValue).map fun ds => Digest.ofBytes (joinNibbles ds)

def Digest.hex (d : Digest) : Bytes := hexEncode d.bytes

@[simp] theorem Digest.length_hex (d : Digest) : d.hex.length = 64 := by
  rw [Digest.hex, hexEncode, List.length_map, length_nibbles, d.length_eq]

@[simp] theorem hexDecodeDigest_hex (d : Digest) : hexDecodeDigest d.hex = some d := by
  rw [hexDecodeDigest, if_neg (by rw [d.length_hex]; decide), Digest.hex, hexEncode, mapM_hexDigitValue,
    Option.map_some, joinNibbles_nibbles, Digest.ofBytes_bytes]

theorem Digest.hex_injective {d e : Digest} (h : d.hex = e.hex) : d = e := by
  have hd := hexDecodeDigest_hex d
  rw [h, hexDecodeDigest_hex] at hd
  exact (Option.some.inj hd).symm

/-! ## Identities -/

/-- What an identity identifies. -/
inductive Tag
  | workload
  | contract
  | requirement
  | scope
  | publisher
  | coordinator
  | tool
  | evidence
  | policy
  | snapshot
  | receipt
deriving DecidableEq

/-- A typed identity: exactly 64 hexadecimal digits, rendered in lower case. -/
@[ext] structure Id (tag : Tag) where
  digits : List (Fin 16)
  length_eq : digits.length = 64
deriving DecidableEq

abbrev WorkloadId := Id .workload
abbrev ContractId := Id .contract
abbrev RequirementId := Id .requirement
abbrev ScopeId := Id .scope
abbrev PublisherId := Id .publisher
abbrev CoordinatorId := Id .coordinator
abbrev ToolId := Id .tool
abbrev EvidenceId := Id .evidence
abbrev PolicyId := Id .policy

namespace Id

variable {tag : Tag}

/-- The absence of an identity: 64 `0` characters. -/
def zero : Id tag := ⟨List.replicate 64 0, rfl⟩

instance : Inhabited (Id tag) := ⟨zero⟩

instance lawfulId : LawfulBEq (Id tag) := inferInstance

/-- The identity that has one digit throughout. -/
def repeating (digit : Nat) : Id tag := ⟨List.replicate 64 (Fin.ofNat 16 digit), List.length_replicate⟩

def isZero (i : Id tag) : Bool := i.digits.all (· == 0)

def view (i : Id tag) : Bytes := i.digits.map lowerHexDigit

def fromDigest (d : Digest) : Id tag :=
  ⟨nibbles d.bytes, by rw [length_nibbles, d.length_eq]⟩

def parse (text : Bytes) : Option (Id tag) :=
  if ht : text.length ≠ sha256HexChars then none
  else
    match hm : text.mapM hexDigitValue with
    | none => none
    | some ds => some ⟨ds, by rw [length_mapM_option hm]; exact not_not.1 ht⟩

@[simp] theorem length_view (i : Id tag) : i.view.length = 64 := by
  rw [view, List.length_map, i.length_eq]

@[simp] theorem parse_view (i : Id tag) : parse i.view = some i := by
  have hd := mapM_hexDigitValue i.digits
  rw [parse, dif_neg (by rw [length_view]; decide)]
  split
  · rename_i hn; rw [view, hd] at hn; cases hn
  · rename_i ds hs
    rw [view, hd] at hs
    cases hs; rfl

theorem isZero_iff (i : Id tag) : i.isZero = true ↔ i = zero := by
  rw [isZero, List.all_eq_true]
  constructor
  · intro h
    refine Id.ext (List.eq_replicate_iff.2 ⟨i.length_eq, fun b hb => ?_⟩)
    simpa using h b hb
  · rintro rfl b hb
    simp [List.eq_of_mem_replicate hb]

theorem view_injective {i j : Id tag} (h : i.view = j.view) : i = j := by
  have hp := parse_view i
  rw [h, parse_view] at hp
  exact (Option.some.inj hp).symm

/-- Identities in the order of their texts, which is that of their digits. -/
instance idLinearOrder : LinearOrder (Id tag) where
  le a b := a.digits ≤ b.digits
  lt a b := a.digits < b.digits
  le_refl _ := le_refl _
  le_trans _ _ _ := le_trans
  le_antisymm _ _ h h' := Id.ext (le_antisymm h h')
  le_total _ _ := le_total _ _
  lt_iff_le_not_ge _ _ := lt_iff_le_not_ge
  toDecidableLE a b := inferInstanceAs (Decidable (a.digits ≤ b.digits))
  toDecidableLT a b := inferInstanceAs (Decidable (a.digits < b.digits))
  toDecidableEq := inferInstance

end Id

/-! ## Generations -/

/-- Generations start at one; zero means that there is none. -/
abbrev Generation := UInt64
abbrev WorkloadGeneration := Generation
abbrev ContractGeneration := Generation
abbrev PolicyGeneration := Generation
abbrev EvidenceGeneration := Generation

/-! ## base64url -/

/-- The character of a six-bit group. -/
def base64UrlChar (v : Nat) : UInt8 :=
  if v < 26 then UInt8.ofNat (65 + v)
  else if v < 52 then UInt8.ofNat (71 + v)
  else if v < 62 then UInt8.ofNat (v - 4)
  else if v = 62 then 45 else 95

def base64UrlValue (c : UInt8) : Option Nat :=
  if 65 ≤ c ∧ c ≤ 90 then some (c.toNat - 65)
  else if 97 ≤ c ∧ c ≤ 122 then some (c.toNat - 97 + 26)
  else if 48 ≤ c ∧ c ≤ 57 then some (c.toNat - 48 + 52)
  else if c = 45 then some 62
  else if c = 95 then some 63
  else none

def base64UrlEncode : Bytes → Bytes
  | a :: b :: c :: rest =>
    let chunk := a.toNat * 65536 + b.toNat * 256 + c.toNat
    base64UrlChar (chunk / 262144 % 64) :: base64UrlChar (chunk / 4096 % 64) ::
      base64UrlChar (chunk / 64 % 64) :: base64UrlChar (chunk % 64) :: base64UrlEncode rest
  | [a, b] =>
    let chunk := a.toNat * 65536 + b.toNat * 256
    [base64UrlChar (chunk / 262144 % 64), base64UrlChar (chunk / 4096 % 64), base64UrlChar (chunk / 64 % 64)]
  | [a] =>
    let chunk := a.toNat * 65536
    [base64UrlChar (chunk / 262144 % 64), base64UrlChar (chunk / 4096 % 64)]
  | [] => []

/-- The decoder's loop: the 32-bit accumulator, the number of bits it holds beyond the bytes taken
out of it, and the bytes produced. -/
def base64UrlDecodeLoop (maxBytes : Nat) : Bytes → Nat → Nat → Bytes → Option (Nat × Nat × Bytes)
  | [], acc, bits, out => some (acc, bits, out)
  | c :: rest, acc, bits, out =>
    match base64UrlValue c with
    | none => none
    | some value =>
      let acc := (acc * 64 + value) % 2 ^ 32
      if bits + 6 ≥ 8 then
        let out := out ++ [UInt8.ofNat (acc / 2 ^ (bits + 6 - 8) % 256)]
        if out.length > maxBytes then none
        else base64UrlDecodeLoop maxBytes rest acc (bits + 6 - 8) out
      else base64UrlDecodeLoop maxBytes rest acc (bits + 6) out

def base64UrlDecode (text : Bytes) (maxBytes : Nat) : Option Bytes :=
  let padding := (text.reverse.takeWhile (· == 61)).length
  let text := text.take (text.length - padding)
  if padding > 2 ∨ text.length % 4 = 1 then none
  -- the bound is a 64-bit size, and so is the sum
  else if text.length / 4 * 3 + 3 > (maxBytes + 3) % 2 ^ 64 then none
  else
    match base64UrlDecodeLoop maxBytes text 0 0 [] with
    | none => none
    | some (acc, bits, out) =>
      if 0 < bits ∧ acc % 2 ^ bits ≠ 0 then none else some out

/-! ## Incarnations -/

/-- A process incarnation: 16 bytes. -/
@[ext] structure Incarnation where
  bytes : Bytes
  length_eq : bytes.length = 16
deriving DecidableEq

namespace Incarnation

def zero : Incarnation := ⟨List.replicate 16 0, rfl⟩

instance : Inhabited Incarnation := ⟨zero⟩

def isZero (i : Incarnation) : Bool := i.bytes.all (· == 0)

def str (i : Incarnation) : Bytes := base64UrlEncode i.bytes

def parse (text : Bytes) : Option Incarnation :=
  match base64UrlDecode text incarnationBytes with
  | none => none
  | some decoded =>
    if h : decoded.length = 16 then
      let out : Incarnation := ⟨decoded, h⟩
      if out.isZero then none else some out
    else none

end Incarnation

end Wnc
