/-
Journal frames: the 92 byte header with its integrity fields, the payload behind it, and the two
functions that write and read one. The chain value of a record is the digest of its header prefix
with the link field zeroed, and its payload; the link field holds the chain value of the record
before it.
-/
import Wnc.Core.Hash
import Wnc.Core.Error

namespace Wnc

open Lib

namespace Ledger

def recordMagic : Nat := 0x314C4E57
def frameHeaderBytes : Nat := 92
def frameVersion : Nat := 1

/-- The bound of a record payload, the same for writing and for reading. -/
def maxRecordBytes : Nat := 512 * 1024

/-- A record type: any 16-bit value, with names for those in use. -/
@[ext] structure RecordType where
  value : UInt16
deriving DecidableEq

namespace RecordType

def unknown : RecordType := ⟨0⟩
def genesis : RecordType := ⟨1⟩
def workloadRegistered : RecordType := ⟨2⟩
def contractPublished : RecordType := ⟨3⟩
def workloadRetired : RecordType := ⟨4⟩
def evidenceAttached : RecordType := ⟨5⟩
def policyInstalled : RecordType := ⟨6⟩
def evaluationRecorded : RecordType := ⟨7⟩
def recoveryMarker : RecordType := ⟨8⟩

end RecordType

structure Record where
  sequence : UInt64
  type : RecordType
  payload : Bytes
  payloadDigest : Digest
  /-- Never assigned by the reader. -/
  previousChain : Digest
  /-- What the reader surfaces here is the link to the record before this one. -/
  chain : Digest
deriving DecidableEq

/-- A frame as built: its bytes, its own chain value and the digest of its payload. -/
structure BuiltFrame where
  bytes : Bytes
  chain : Digest
  payloadDigest : Digest

/-- Header bytes 0..87: every field but the checksum. -/
def headerPrefix (type : RecordType) (sequence : UInt64) (payload : Bytes) (link : Digest) : Bytes :=
  writeLe 4 recordMagic ++ (writeLe 2 frameVersion ++ (writeLe 2 type.value.toNat ++
    (writeLe 8 sequence.toNat ++ (writeLe 8 payload.length ++ ((sha256 payload).bytes ++ link.bytes)))))

/-- A header prefix with its link field zeroed. -/
def zeroLink (header : Bytes) : Bytes := header.take 56 ++ List.replicate 32 0

def chainOf (header payload : Bytes) : Digest := sha256 (header ++ payload)

def buildFrame (type : RecordType) (sequence : UInt64) (payload : Bytes) (previousChain : Digest) : BuiltFrame :=
  let header := headerPrefix type sequence payload previousChain
  { bytes := header ++ writeLe 4 (crc32 header) ++ payload
    chain := chainOf (zeroLink header) payload
    payloadDigest := sha256 payload }

/-- Reads the frame at an offset: the record and the bytes it takes. -/
def parseFrame (bytes : Bytes) (offset : Nat) : Except Failure (Record × Nat) :=
  let header := bytes.drop offset
  if header.length < frameHeaderBytes then fail .ledgerTruncated "frame header is incomplete"
  else if readLe (slice 0 4 header) ≠ recordMagic then
    fail .ledgerCorrupt "frame magic does not match the journal format"
  else if readLe (slice 4 2 header) ≠ frameVersion then
    .error ⟨.ledgerIncompatible, utf8 "frame format version " ++ toDecimal (readLe (slice 4 2 header)) ++
      utf8 " is not supported"⟩
  else
    let payloadLength := readLe (slice 16 8 header)
    if payloadLength > maxRecordBytes then
      .error ⟨.ledgerOversized, utf8 "frame declares " ++ toDecimal payloadLength ++ utf8 " payload bytes"⟩
    else if readLe (slice 88 4 header) ≠ crc32 (slice 0 88 header) then
      fail .ledgerCorrupt "frame header integrity check failed"
    else
      let total := frameHeaderBytes + payloadLength
      if header.length < total then fail .ledgerTruncated "frame payload is incomplete"
      else
        let payload := slice frameHeaderBytes payloadLength header
        let payloadDigest := Digest.ofBytes (slice 24 32 header)
        if sha256 payload ≠ payloadDigest then
          fail .ledgerCorrupt "frame payload digest does not match its bytes"
        else
          .ok ({ sequence := UInt64.ofNat (readLe (slice 8 8 header))
                 type := ⟨UInt16.ofNat (readLe (slice 6 2 header))⟩
                 payload := payload
                 payloadDigest := payloadDigest
                 previousChain := Digest.zero
                 chain := Digest.ofBytes (slice 56 32 header) }, total)

/-- What the reader demands of the bytes at an offset, and what it returns: every check and every field. -/
theorem parseFrame_eq_ok_iff {bytes : Bytes} {offset n : Nat} {r : Record} :
    parseFrame bytes offset = .ok (r, n) ↔
      frameHeaderBytes + readLe (slice 16 8 (bytes.drop offset)) ≤ (bytes.drop offset).length ∧
      readLe (slice 0 4 (bytes.drop offset)) = recordMagic ∧
      readLe (slice 4 2 (bytes.drop offset)) = frameVersion ∧
      readLe (slice 16 8 (bytes.drop offset)) ≤ maxRecordBytes ∧
      readLe (slice 88 4 (bytes.drop offset)) = crc32 (slice 0 88 (bytes.drop offset)) ∧
      sha256 r.payload = r.payloadDigest ∧
      r = { sequence := UInt64.ofNat (readLe (slice 8 8 (bytes.drop offset)))
            type := ⟨UInt16.ofNat (readLe (slice 6 2 (bytes.drop offset)))⟩
            payload := slice frameHeaderBytes (readLe (slice 16 8 (bytes.drop offset))) (bytes.drop offset)
            payloadDigest := Digest.ofBytes (slice 24 32 (bytes.drop offset))
            previousChain := Digest.zero
            chain := Digest.ofBytes (slice 56 32 (bytes.drop offset)) } ∧
      n = frameHeaderBytes + readLe (slice 16 8 (bytes.drop offset)) := by
  unfold parseFrame fail
  generalize bytes.drop offset = header
  constructor
  · intro h
    simp only at h
    split_ifs at h with h1 h2 h3 h4 h5 h6 h7
    cases h
    exact ⟨not_lt.1 h6, not_not.1 h2, not_not.1 h3, not_lt.1 h4, not_not.1 h5, not_not.1 h7, rfl, rfl⟩
  · rintro ⟨h6, h2, h3, h4, h5, h7, rfl, rfl⟩
    simp only at h7 ⊢
    rw [if_neg (not_lt.2 (le_trans (Nat.le_add_right _ _) h6)), if_neg (not_not.2 h2), if_neg (not_not.2 h3),
      if_neg (not_lt.2 h4), if_neg (not_not.2 h5), if_neg (not_lt.2 h6), if_neg (not_not.2 h7)]

/-! ## What is written is read back -/

section RoundTrip

variable (type : RecordType) (sequence : UInt64) (payload : Bytes) (link : Digest)

@[simp] theorem length_headerPrefix : (headerPrefix type sequence payload link).length = 88 := by
  simp [headerPrefix]

@[simp] theorem length_buildFrame :
    (buildFrame type sequence payload link).bytes.length = frameHeaderBytes + payload.length := by
  simp [buildFrame, frameHeaderBytes]; omega

/-- The chain value does not depend on the link. -/
theorem zeroLink_headerPrefix :
    zeroLink (headerPrefix type sequence payload link) = headerPrefix type sequence payload Digest.zero := by
  have h : ∀ d : Digest, (headerPrefix type sequence payload d).take 56 =
      writeLe 4 recordMagic ++ (writeLe 2 frameVersion ++ (writeLe 2 type.value.toNat ++
        (writeLe 8 sequence.toNat ++ (writeLe 8 payload.length ++ (sha256 payload).bytes)))) := by
    intro d
    rw [headerPrefix, show (writeLe 4 recordMagic ++ (writeLe 2 frameVersion ++ (writeLe 2 type.value.toNat ++
        (writeLe 8 sequence.toNat ++ (writeLe 8 payload.length ++ ((sha256 payload).bytes ++ d.bytes)))))) =
        (writeLe 4 recordMagic ++ (writeLe 2 frameVersion ++ (writeLe 2 type.value.toNat ++
        (writeLe 8 sequence.toNat ++ (writeLe 8 payload.length ++ (sha256 payload).bytes))))) ++ d.bytes by
          simp only [List.append_assoc]]
    exact List.take_left' (by simp)
  rw [zeroLink, h, headerPrefix]
  simp only [List.append_assoc, Digest.zero]

/-- The chain value a record with these fields has. -/
def chainValue : Digest := chainOf (headerPrefix type sequence payload Digest.zero) payload

theorem buildFrame_chain : (buildFrame type sequence payload link).chain = chainValue type sequence payload := by
  rw [buildFrame, zeroLink_headerPrefix, chainValue]

/-- The record a reader makes of the frame. -/
def recordOf : Record where
  sequence := sequence
  type := type
  payload := payload
  payloadDigest := sha256 payload
  previousChain := Digest.zero
  chain := link

/-- Every field of a header, read at its offset. -/
theorem read_headerPrefix (rest : Bytes) :
    slice 0 4 (headerPrefix type sequence payload link ++ rest) = writeLe 4 recordMagic ∧
    slice 4 2 (headerPrefix type sequence payload link ++ rest) = writeLe 2 frameVersion ∧
    slice 6 2 (headerPrefix type sequence payload link ++ rest) = writeLe 2 type.value.toNat ∧
    slice 8 8 (headerPrefix type sequence payload link ++ rest) = writeLe 8 sequence.toNat ∧
    slice 16 8 (headerPrefix type sequence payload link ++ rest) = writeLe 8 payload.length ∧
    slice 24 32 (headerPrefix type sequence payload link ++ rest) = (sha256 payload).bytes ∧
    slice 56 32 (headerPrefix type sequence payload link ++ rest) = link.bytes := by
  refine ⟨?_, ?_, ?_, ?_, ?_, ?_, ?_⟩ <;>
    simp (disch := simp) only [headerPrefix, List.append_assoc, slice_append_right, slice_left, length_writeLe,
      Digest.length_eq, Nat.reduceSub, Nat.sub_self]

/-- A frame with a payload within the bound is read back at any offset, whatever follows it. -/
theorem parseFrame_buildFrame (hp : payload.length ≤ maxRecordBytes) (pre rest : Bytes) :
    parseFrame (pre ++ ((buildFrame type sequence payload link).bytes ++ rest)) pre.length =
      .ok (recordOf type sequence payload link, frameHeaderBytes + payload.length) := by
  have hdrop : (pre ++ ((buildFrame type sequence payload link).bytes ++ rest)).drop pre.length =
      headerPrefix type sequence payload link ++ (writeLe 4 (crc32 (headerPrefix type sequence payload link)) ++
        (payload ++ rest)) := by
    rw [List.drop_left, buildFrame]
    simp only [List.append_assoc]
  obtain ⟨h0, h4, h6, h8, h16, h24, h56⟩ := read_headerPrefix type sequence payload link
    (writeLe 4 (crc32 (headerPrefix type sequence payload link)) ++ (payload ++ rest))
  have hsequence : readLe (writeLe 8 sequence.toNat) = sequence.toNat :=
    readLe_writeLe_of_lt (lt_of_lt_of_le sequence.toNat_lt (by decide))
  have htype : readLe (writeLe 2 type.value.toNat) = type.value.toNat :=
    readLe_writeLe_of_lt (lt_of_lt_of_le type.value.toNat_lt (by decide))
  have hlength : readLe (writeLe 8 payload.length) = payload.length :=
    readLe_writeLe_of_lt (lt_of_le_of_lt hp (by decide))
  have hcrc : readLe (writeLe 4 (crc32 (headerPrefix type sequence payload link))) =
      crc32 (headerPrefix type sequence payload link) := readLe_writeLe_of_lt (crc32_lt _)
  have h88 : slice 88 4 (headerPrefix type sequence payload link ++
      (writeLe 4 (crc32 (headerPrefix type sequence payload link)) ++ (payload ++ rest))) =
      writeLe 4 (crc32 (headerPrefix type sequence payload link)) := by
    simp (disch := simp) only [slice_append_right, slice_left, length_headerPrefix, Nat.sub_self]
  have h92 : slice frameHeaderBytes payload.length (headerPrefix type sequence payload link ++
      (writeLe 4 (crc32 (headerPrefix type sequence payload link)) ++ (payload ++ rest))) = payload := by
    simp (disch := simp [frameHeaderBytes]) only [slice_append_right, slice_left, length_headerPrefix,
      length_writeLe, frameHeaderBytes, Nat.reduceSub]
  rw [parseFrame_eq_ok_iff, hdrop, h0, h4, h6, h8, h16, h24, h56, h88, hsequence, htype, hlength, hcrc, h92,
    slice_left _ (length_headerPrefix ..), Digest.ofBytes_bytes, Digest.ofBytes_bytes, UInt64.ofNat_toNat,
    UInt16.ofNat_toNat]
  refine ⟨?_, rfl, rfl, hp, rfl, rfl, rfl, rfl⟩
  simp only [List.length_append, length_headerPrefix, length_writeLe, frameHeaderBytes]
  omega

/-- A frame of which only a part is left at the end of the bytes is a frame that ends early, wherever it was cut. -/
theorem parseFrame_part (hp : payload.length ≤ maxRecordBytes) {m : Nat} (hm : m < frameHeaderBytes + payload.length)
    (pre : Bytes) : ∃ message,
      parseFrame (pre ++ (buildFrame type sequence payload link).bytes.take m) pre.length =
        .error ⟨.ledgerTruncated, message⟩ := by
  generalize hframe : (buildFrame type sequence payload link).bytes = frame
  have hlen : frame.length = frameHeaderBytes + payload.length := by rw [← hframe, length_buildFrame]
  have htake : (frame.take m).length = m := by rw [List.length_take]; omega
  unfold parseFrame
  simp only [List.drop_left, htake]
  by_cases hshort : m < frameHeaderBytes
  · exact ⟨utf8 "frame header is incomplete", if_pos hshort⟩
  · -- the header is whole, and the payload it declares is not
    have hsplit : frame.take m = headerPrefix type sequence payload link ++
        (writeLe 4 (crc32 (headerPrefix type sequence payload link)) ++ payload.take (m - frameHeaderBytes)) := by
      rw [← hframe, buildFrame]
      simp only
      rw [List.take_append, List.take_of_length_le (by simp [frameHeaderBytes] at hshort ⊢; omega), List.append_assoc]
      congr 3
      simp [frameHeaderBytes]
    obtain ⟨h0, h4, _, _, h16, _, _⟩ := read_headerPrefix type sequence payload link
      (writeLe 4 (crc32 (headerPrefix type sequence payload link)) ++ payload.take (m - frameHeaderBytes))
    have h88 : slice 88 4 (headerPrefix type sequence payload link ++
        (writeLe 4 (crc32 (headerPrefix type sequence payload link)) ++ payload.take (m - frameHeaderBytes))) =
        writeLe 4 (crc32 (headerPrefix type sequence payload link)) := by
      simp (disch := simp) only [slice_append_right, slice_left, length_headerPrefix, Nat.sub_self]
    have hlength : readLe (writeLe 8 payload.length) = payload.length :=
      readLe_writeLe_of_lt (lt_of_le_of_lt hp (by decide))
    rw [hsplit, h0, h4, h16, h88, slice_left _ (length_headerPrefix ..), hlength,
      readLe_writeLe_of_lt (crc32_lt _)]
    refine ⟨utf8 "frame payload is incomplete", ?_⟩
    rw [if_neg hshort, if_neg (by decide), if_neg (by decide), if_neg (by omega), if_neg (not_not.2 rfl), if_pos hm]
    rfl

/-- A frame is read at any offset and whatever follows it: every field it was built from, and exactly its bytes. Every
strict prefix of a frame at the end of the bytes is one that ends early, and is never taken for a corrupt one. -/
theorem frame_roundTrip (hp : payload.length ≤ maxRecordBytes) (pre : Bytes) :
    (∀ rest, ∃ r, parseFrame (pre ++ ((buildFrame type sequence payload link).bytes ++ rest)) pre.length =
        .ok (r, (buildFrame type sequence payload link).bytes.length) ∧
      r.type = type ∧ r.sequence = sequence ∧ r.payload = payload ∧ r.chain = link) ∧
    ∀ part, part <+: (buildFrame type sequence payload link).bytes →
      part ≠ (buildFrame type sequence payload link).bytes →
      ∃ message, parseFrame (pre ++ part) pre.length = .error ⟨.ledgerTruncated, message⟩ := by
  constructor
  · intro rest
    refine ⟨recordOf type sequence payload link, ?_, rfl, rfl, rfl, rfl⟩
    rw [length_buildFrame]
    exact parseFrame_buildFrame type sequence payload link hp pre rest
  · intro part hpart hne
    have htake := List.prefix_iff_eq_take.1 hpart
    have hlt : part.length < frameHeaderBytes + payload.length := by
      rw [← length_buildFrame type sequence payload link]
      exact lt_of_le_of_ne hpart.length_le fun h => hne (hpart.eq_of_length h)
    rw [htake]
    exact parseFrame_part type sequence payload link hp hlt pre

theorem frame_roundTrip_genesis :
    let frame := (buildFrame .genesis 1 (utf8 "{}") .zero).bytes
    (∃ r, parseFrame (utf8 "WNL1" ++ (frame ++ utf8 "WNL1")) 4 = .ok (r, frame.length) ∧ r.type = .genesis ∧
      r.sequence = 1 ∧ r.payload = utf8 "{}" ∧ r.chain = .zero) ∧
    ∃ message, parseFrame (utf8 "WNL1" ++ frame.take 93) 4 = .error ⟨.ledgerTruncated, message⟩ := by
  obtain ⟨hwhole, hpart⟩ := frame_roundTrip .genesis 1 (utf8 "{}") .zero (by decide) (utf8 "WNL1")
  -- the cut leaves one byte of the payload
  refine ⟨hwhole (utf8 "WNL1"), hpart _ (List.take_prefix 93 _) fun h => ?_⟩
  have hlength := congrArg List.length h
  rw [List.length_take, length_buildFrame] at hlength
  exact absurd hlength (by decide)

end RoundTrip

end Ledger

end Wnc
