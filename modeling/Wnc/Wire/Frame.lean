/-
Wire frames: the 28 byte header with its checksum, the body behind it, and the two functions that write
a frame and read one from a buffer.
-/
import Wnc.Core.Hash
import Wnc.Core.Error

namespace Wnc

open Lib

namespace Wire

def wireMagic : Nat := 0x574E4331
def wireVersion : Nat := 1
def headerBytes : Nat := 28

/-- The bound of a frame, its header with it. -/
def maxFrameBytes : Nat := 1024 * 1024

/-- A message type: any 16-bit value, with names for those in use. -/
@[ext] structure MessageType where
  value : UInt16
deriving DecidableEq

namespace MessageType

def unknown : MessageType := ⟨0⟩
def hello : MessageType := ⟨1⟩
def helloReply : MessageType := ⟨2⟩
def registerWorkload : MessageType := ⟨3⟩
def publishContract : MessageType := ⟨4⟩
def attachEvidence : MessageType := ⟨5⟩
def evaluate : MessageType := ⟨6⟩
def status : MessageType := ⟨7⟩
def describeContract : MessageType := ⟨8⟩
def installPolicy : MessageType := ⟨9⟩
def retireWorkload : MessageType := ⟨10⟩
def listWorkloads : MessageType := ⟨11⟩
def retireReplyGeneric : MessageType := ⟨12⟩
def error : MessageType := ⟨255⟩

end MessageType

structure Header where
  version : UInt16 := 0
  type : MessageType := .unknown
  flags : UInt32 := 0
  bodyLength : UInt32 := 0
  requestId : UInt64 := 0
deriving DecidableEq

structure Frame where
  header : Header
  body : Bytes
deriving DecidableEq

/-- Header bytes 0..23: every field but the checksum. -/
def headerPrefix (type : MessageType) (requestId : UInt64) (bodyLength : Nat) : Bytes :=
  writeLe 4 wireMagic ++ (writeLe 2 wireVersion ++ (writeLe 2 type.value.toNat ++
    (writeLe 4 0 ++ (writeLe 4 bodyLength ++ writeLe 8 requestId.toNat))))

/-- Appends one complete frame. -/
def encodeFrame (type : MessageType) (requestId : UInt64) (body out : Bytes) : Except Failure Bytes :=
  if body.length > maxFrameBytes - headerBytes then
    .error ⟨.bodyTooLarge, utf8 "frame body of " ++ toDecimal body.length ++ utf8 " bytes exceeds the bound"⟩
  else
    let header := headerPrefix type requestId body.length
    .ok (out ++ (header ++ writeLe 4 (crc32 header)) ++ body)

/-- The fields of a header, each at its offset. -/
def headerOf (header : Bytes) : Header where
  version := UInt16.ofNat (readLe (slice 4 2 header))
  type := ⟨UInt16.ofNat (readLe (slice 6 2 header))⟩
  flags := UInt32.ofNat (readLe (slice 8 4 header))
  bodyLength := UInt32.ofNat (readLe (slice 12 4 header))
  requestId := UInt64.ofNat (readLe (slice 16 8 header))

/-- Reads one frame from a buffer: the frame and the bytes it takes. -/
def decodeFrame (bytes : Bytes) : Except Failure (Frame × Nat) :=
  if bytes.length < headerBytes then fail .truncatedFrame "frame header is incomplete"
  else if readLe (slice 0 4 bytes) ≠ wireMagic then fail .badMagic "frame magic does not match this protocol"
  else if readLe (slice 4 2 bytes) ≠ wireVersion then
    .error ⟨.badVersion, utf8 "frame version " ++ toDecimal (readLe (slice 4 2 bytes)) ++ utf8 " is not supported"⟩
  else if readLe (slice 24 4 bytes) ≠ crc32 (slice 0 24 bytes) then
    fail .frameCrcMismatch "frame header integrity check failed"
  else
    let bodyLength := readLe (slice 12 4 bytes)
    if bodyLength > maxFrameBytes - headerBytes then
      .error ⟨.frameTooLarge, utf8 "frame declares " ++ toDecimal bodyLength ++ utf8 " body bytes"⟩
    else
      let total := headerBytes + bodyLength
      if bytes.length < total then fail .truncatedFrame "frame body is incomplete"
      else .ok (⟨headerOf bytes, slice headerBytes bodyLength bytes⟩, total)

/-! ## What the reader demands -/

/-- A header that passes its checks: magic, version, checksum and the bound of the body it declares. -/
structure HeaderAccepted (header : Bytes) : Prop where
  magic : readLe (slice 0 4 header) = wireMagic
  version : readLe (slice 4 2 header) = wireVersion
  crc : readLe (slice 24 4 header) = crc32 (slice 0 24 header)
  bound : readLe (slice 12 4 header) ≤ maxFrameBytes - headerBytes

theorem decodeFrame_eq_ok_iff {bytes : Bytes} {frame : Frame} {n : Nat} :
    decodeFrame bytes = .ok (frame, n) ↔ HeaderAccepted bytes ∧ n = headerBytes + readLe (slice 12 4 bytes) ∧
      n ≤ bytes.length ∧ frame = ⟨headerOf bytes, slice headerBytes (readLe (slice 12 4 bytes)) bytes⟩ := by
  unfold decodeFrame fail
  constructor
  · intro h
    simp only at h
    split_ifs at h with h1 h2 h3 h4 h5 h6
    cases h
    exact ⟨⟨not_not.1 h2, not_not.1 h3, not_not.1 h4, not_lt.1 h5⟩, rfl, not_lt.1 h6, rfl⟩
  · rintro ⟨⟨h2, h3, h4, h5⟩, rfl, h6, rfl⟩
    simp only
    rw [if_neg (not_lt.2 (le_trans (Nat.le_add_right _ _) h6)), if_neg (not_not.2 h2), if_neg (not_not.2 h3),
      if_neg (not_not.2 h4), if_neg (not_lt.2 h5), if_neg (not_lt.2 h6)]

/-- Enough bytes for the reader to come to a verdict: a header, and behind one that passes its checks the body. -/
structure Enough (bytes : Bytes) : Prop where
  header : headerBytes ≤ bytes.length
  body : HeaderAccepted bytes → headerBytes + readLe (slice 12 4 bytes) ≤ bytes.length

/-- Truncation is what the reader reports where bytes are missing, and only there. -/
theorem decodeFrame_truncated_iff {bytes : Bytes} :
    (∃ e, decodeFrame bytes = .error e ∧ e.code = .truncatedFrame) ↔ ¬ Enough bytes := by
  constructor
  · rintro ⟨e, h, he⟩ henough
    unfold decodeFrame fail at h
    simp only at h
    split_ifs at h with h1 h2 h3 h4 h5 h6
    · exact absurd henough.header (not_le.2 h1)
    all_goals cases h
    · cases he
    · cases he
    · cases he
    · cases he
    · exact absurd (henough.body ⟨not_not.1 h2, not_not.1 h3, not_not.1 h4, not_lt.1 h5⟩) (not_le.2 h6)
  · intro henough
    unfold decodeFrame fail
    by_cases h1 : bytes.length < headerBytes
    · exact ⟨_, if_pos h1, rfl⟩
    · have hshort : HeaderAccepted bytes ∧ bytes.length < headerBytes + readLe (slice 12 4 bytes) := by
        by_contra h
        exact henough ⟨not_lt.1 h1, fun ha => not_lt.1 fun hs => h ⟨ha, hs⟩⟩
      obtain ⟨⟨h2, h3, h4, h5⟩, h6⟩ := hshort
      refine ⟨⟨.truncatedFrame, utf8 "frame body is incomplete"⟩, ?_, rfl⟩
      simp only
      rw [if_neg h1, if_neg (not_not.2 h2), if_neg (not_not.2 h3), if_neg (not_not.2 h4), if_neg (not_lt.2 h5),
        if_pos h6]

/-! ## Headers at the front of longer bytes -/

/-- A header is read the same whatever follows its bytes. -/
theorem slice_header {o k : Nat} (header : Bytes) (rest : Bytes) (hlen : headerBytes ≤ header.length)
    (h : o + k ≤ headerBytes) : slice o k (header ++ rest) = slice o k header :=
  slice_append_left rest (le_trans h hlen)

theorem headerOf_append {header : Bytes} (rest : Bytes) (hlen : headerBytes ≤ header.length) :
    headerOf (header ++ rest) = headerOf header := by
  simp (disch := first | exact hlen | decide) only [headerOf, slice_header]

theorem headerAccepted_append {header : Bytes} (rest : Bytes) (hlen : headerBytes ≤ header.length) :
    HeaderAccepted (header ++ rest) ↔ HeaderAccepted header := by
  have h : ∀ o k, o + k ≤ headerBytes → slice o k (header ++ rest) = slice o k header := fun o k =>
    slice_header header rest hlen
  constructor
  · rintro ⟨h2, h3, h4, h5⟩
    rw [h _ _ (by decide)] at h2 h3 h5
    rw [h _ _ (by decide), h _ _ (by decide)] at h4
    exact ⟨h2, h3, h4, h5⟩
  · rintro ⟨h2, h3, h4, h5⟩
    refine ⟨?_, ?_, ?_, ?_⟩
    · rwa [h _ _ (by decide)]
    · rwa [h _ _ (by decide)]
    · rwa [h _ _ (by decide), h _ _ (by decide)]
    · rwa [h _ _ (by decide)]

/-- A strict prefix of what the reader takes is refused as truncated. -/
theorem decodeFrame_prefix {bytes : Bytes} {frame : Frame} {n k : Nat} (h : decodeFrame bytes = .ok (frame, n))
    (hk : k < n) : ∃ e, decodeFrame (bytes.take k) = .error e ∧ e.code = .truncatedFrame := by
  obtain ⟨haccepted, hn, hlen, -⟩ := decodeFrame_eq_ok_iff.1 h
  refine decodeFrame_truncated_iff.2 fun henough => ?_
  have hheader := henough.header
  have hshort : (bytes.take k).length = k := by rw [List.length_take]; omega
  have hsame : slice 12 4 bytes = slice 12 4 (bytes.take k) := by
    conv_lhs => rw [← List.take_append_drop k bytes]
    exact slice_header _ _ hheader (by decide)
  have hbody := henough.body ((headerAccepted_append (bytes.drop k) hheader).1 (by rwa [List.take_append_drop]))
  rw [← hsame, hshort] at hbody
  omega

/-! ## What is written is read back -/

section RoundTrip

variable (type : MessageType) (requestId : UInt64) (body : Bytes)

@[simp] theorem length_headerPrefix (n : Nat) : (headerPrefix type requestId n).length = 24 := by
  simp [headerPrefix]

/-- The frame as written, for a body within the bound. -/
def builtFrame : Bytes :=
  headerPrefix type requestId body.length ++ writeLe 4 (crc32 (headerPrefix type requestId body.length)) ++ body

theorem length_builtFrame : (builtFrame type requestId body).length = headerBytes + body.length := by
  simp [builtFrame, headerBytes]
  omega

theorem encodeFrame_eq (hbody : body.length ≤ maxFrameBytes - headerBytes) (out : Bytes) :
    encodeFrame type requestId body out = .ok (out ++ builtFrame type requestId body) := by
  rw [encodeFrame, if_neg (not_lt.2 hbody), builtFrame]
  simp only [List.append_assoc]

/-- The frame a reader makes of it. -/
def frameOf : Frame where
  header := { version := 1, type := type, bodyLength := UInt32.ofNat body.length, requestId := requestId }
  body := body

/-- Every field of a header, read at its offset. -/
theorem read_headerPrefix (n : Nat) (rest : Bytes) :
    slice 0 4 (headerPrefix type requestId n ++ rest) = writeLe 4 wireMagic ∧
    slice 4 2 (headerPrefix type requestId n ++ rest) = writeLe 2 wireVersion ∧
    slice 6 2 (headerPrefix type requestId n ++ rest) = writeLe 2 type.value.toNat ∧
    slice 8 4 (headerPrefix type requestId n ++ rest) = writeLe 4 0 ∧
    slice 12 4 (headerPrefix type requestId n ++ rest) = writeLe 4 n ∧
    slice 16 8 (headerPrefix type requestId n ++ rest) = writeLe 8 requestId.toNat := by
  refine ⟨?_, ?_, ?_, ?_, ?_, ?_⟩ <;>
    simp (disch := simp) only [headerPrefix, List.append_assoc, slice_append_right, slice_left, length_writeLe,
      Nat.reduceSub, Nat.sub_self]

theorem decodeFrame_builtFrame (hbody : body.length ≤ maxFrameBytes - headerBytes) (rest : Bytes) :
    decodeFrame (builtFrame type requestId body ++ rest) =
      .ok (frameOf type requestId body, headerBytes + body.length) := by
  have hsplit : builtFrame type requestId body ++ rest = headerPrefix type requestId body.length ++
      (writeLe 4 (crc32 (headerPrefix type requestId body.length)) ++ (body ++ rest)) := by
    rw [builtFrame]
    simp only [List.append_assoc]
  obtain ⟨h0, h4, h6, h8, h12, h16⟩ := read_headerPrefix type requestId body.length
    (writeLe 4 (crc32 (headerPrefix type requestId body.length)) ++ (body ++ rest))
  have hrequest : readLe (writeLe 8 requestId.toNat) = requestId.toNat :=
    readLe_writeLe_of_lt (lt_of_lt_of_le requestId.toNat_lt (by decide))
  have htype : readLe (writeLe 2 type.value.toNat) = type.value.toNat :=
    readLe_writeLe_of_lt (lt_of_lt_of_le type.value.toNat_lt (by decide))
  have hlength : readLe (writeLe 4 body.length) = body.length :=
    readLe_writeLe_of_lt (lt_of_le_of_lt hbody (by decide))
  have hcrc : readLe (writeLe 4 (crc32 (headerPrefix type requestId body.length))) =
      crc32 (headerPrefix type requestId body.length) := readLe_writeLe_of_lt (crc32_lt _)
  have h24 : slice 24 4 (headerPrefix type requestId body.length ++
      (writeLe 4 (crc32 (headerPrefix type requestId body.length)) ++ (body ++ rest))) =
      writeLe 4 (crc32 (headerPrefix type requestId body.length)) := by
    simp (disch := simp) only [slice_append_right, slice_left, length_headerPrefix, Nat.sub_self]
  have h28 : slice headerBytes body.length (headerPrefix type requestId body.length ++
      (writeLe 4 (crc32 (headerPrefix type requestId body.length)) ++ (body ++ rest))) = body := by
    simp (disch := simp [headerBytes]) only [slice_append_right, slice_left, length_headerPrefix,
      length_writeLe, headerBytes, Nat.reduceSub]
  rw [decodeFrame_eq_ok_iff, hsplit, h12, hlength, h28]
  refine ⟨⟨?_, ?_, ?_, ?_⟩, rfl, ?_, ?_⟩
  · rw [h0]; rfl
  · rw [h4]; rfl
  · rw [h24, hcrc, slice_left _ (length_headerPrefix ..)]
  · rw [h12, hlength]; exact hbody
  · simp only [List.length_append, length_headerPrefix, length_writeLe, headerBytes]
    omega
  · rw [headerOf, h4, h6, h8, h12, h16, hrequest, htype, hlength, UInt64.ofNat_toNat, UInt16.ofNat_toNat]
    rfl

end RoundTrip

end Wire

end Wnc
