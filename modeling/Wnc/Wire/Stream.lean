/-
Frames read from a socket. The bytes of a connection arrive in pieces and end in a way of their own; the
streaming reader depends on the bytes alone, and agrees with the buffered one.
-/
import Wnc.Wire.Frame

namespace Wnc

open Lib

namespace Wire

/-! ## Sockets -/

/-- How the bytes of a connection end: the peer has closed it, or a receive fails. -/
inductive Ending
  | closed
  | failed
deriving DecidableEq

/-- What a receive reports once the bytes are read. -/
def Ending.failure : Ending → Failure
  | .closed => ⟨.sessionClosed, utf8 "peer closed the connection"⟩
  | .failed => ⟨.ioFailed, utf8 "receive failed"⟩

/-- A connection to read from: the pieces in which its bytes arrive, none of them empty, and what ends them. -/
structure Socket where
  arrivals : List Bytes
  ending : Ending
  solid : ∀ piece ∈ arrivals, piece ≠ []

namespace Socket

/-- The bytes that are still to be read. -/
def bytes (s : Socket) : Bytes := s.arrivals.flatten

end Socket

/-- One receive of at most `size + 1` bytes: what has arrived, up to that size, or how the connection ends. -/
def recv (s : Socket) (size : Nat) : Except Failure (Bytes × Socket) :=
  match s with
  | ⟨[], ending, _⟩ => .error ending.failure
  | ⟨piece :: rest, ending, solid⟩ =>
    if h : size + 1 < piece.length then
      .ok (piece.take (size + 1), ⟨piece.drop (size + 1) :: rest, ending, by
        refine List.forall_mem_cons.2 ⟨?_, fun p hp => solid p (List.mem_cons_of_mem _ hp)⟩
        exact List.ne_nil_of_length_pos (by rw [List.length_drop]; omega)⟩)
    else .ok (piece, ⟨rest, ending, fun p hp => solid p (List.mem_cons_of_mem _ hp)⟩)

/-- A receive hands out some of the bytes to come, no more than it was asked for, and leaves the rest. -/
theorem recv_ok {s t : Socket} {size : Nat} {got : Bytes} (h : recv s size = .ok (got, t)) :
    got ≠ [] ∧ got.length ≤ size + 1 ∧ s.bytes = got ++ t.bytes ∧ t.ending = s.ending := by
  obtain ⟨arrivals, ending, solid⟩ := s
  cases arrivals with
  | nil => cases h
  | cons piece rest =>
    have hpiece := solid piece List.mem_cons_self
    simp only [recv] at h
    split at h
    · rename_i hlong
      cases h
      refine ⟨fun h0 => ?_, List.length_take_le _ _, ?_, rfl⟩
      · have := congrArg List.length h0
        rw [List.length_take, List.length_nil] at this
        omega
      · simp only [Socket.bytes, List.flatten_cons, ← List.append_assoc, List.take_append_drop]
    · rename_i hshort
      cases h
      exact ⟨hpiece, not_lt.1 hshort, rfl, rfl⟩

theorem recv_error {s : Socket} {size : Nat} {e : Failure} (h : recv s size = .error e) :
    s.bytes = [] ∧ e = s.ending.failure := by
  obtain ⟨arrivals, ending, solid⟩ := s
  cases arrivals with
  | nil => cases h; exact ⟨rfl, rfl⟩
  | cons piece rest =>
    simp only [recv] at h
    split at h <;> cases h

/-- Receives until a number of bytes is there. -/
def readExact (s : Socket) : Nat → Except Failure (Bytes × Socket)
  | 0 => .ok ([], s)
  | size + 1 =>
    match _h : recv s size with
    | .error e => .error e
    | .ok (got, t) => do
      let (more, t) ← readExact t (size + 1 - got.length)
      pure (got ++ more, t)
  termination_by size => size
  decreasing_by
    have := List.length_pos_of_ne_nil (recv_ok _h).1
    omega

/-- What a read of a number of bytes gives: those bytes where they come, in whatever pieces, else what ends them. -/
theorem readExact_spec (s : Socket) (size : Nat) :
    if size ≤ s.bytes.length then
      ∃ t, readExact s size = .ok (s.bytes.take size, t) ∧ t.bytes = s.bytes.drop size ∧ t.ending = s.ending
    else readExact s size = .error s.ending.failure := by
  induction size using Nat.strongRecOn generalizing s with
  | ind size ih =>
    cases size with
    | zero => rw [if_pos (Nat.zero_le _)]; exact ⟨s, by rw [readExact, List.take_zero], rfl, rfl⟩
    | succ size =>
      rw [readExact]
      cases hr : recv s size with
      | error e =>
        obtain ⟨hnil, rfl⟩ := recv_error hr
        rw [if_neg (by rw [hnil]; exact Nat.not_succ_le_zero size)]
      | ok x =>
        obtain ⟨got, t⟩ := x
        obtain ⟨hne, hle, hbytes, hending⟩ := recv_ok hr
        have hpos := List.length_pos_of_ne_nil hne
        have hrest := ih (size + 1 - got.length) (by omega) t
        have hlen : s.bytes.length = got.length + t.bytes.length := by rw [hbytes, List.length_append]
        by_cases henough : size + 1 ≤ s.bytes.length
        · rw [if_pos (by omega)] at hrest
          obtain ⟨u, hu, hub, hue⟩ := hrest
          rw [if_pos henough]
          refine ⟨u, ?_, ?_, hue.trans hending⟩
          · simp only [hu, bind, Except.bind, pure, Except.pure]
            rw [hbytes, List.take_append, List.take_of_length_le hle]
          · rw [hub, hbytes, List.drop_append, List.drop_eq_nil_of_le hle, List.nil_append]
        · rw [if_neg (by omega)] at hrest
          rw [if_neg henough]
          simp only [hrest, bind, Except.bind, hending]

/-- Reads one whole frame: the header, and the body once the header has passed its checks. -/
def readFrame (s : Socket) : Except Failure (Frame × Socket) := do
  let (header, s) ← readExact s headerBytes
  if readLe (slice 0 4 header) ≠ wireMagic then fail .badMagic "frame magic does not match this protocol"
  else if readLe (slice 4 2 header) ≠ wireVersion then fail .badVersion "frame version is not supported"
  else if readLe (slice 24 4 header) ≠ crc32 (slice 0 24 header) then
    fail .frameCrcMismatch "frame header integrity check failed"
  else
    let bodyLength := readLe (slice 12 4 header)
    if bodyLength > maxFrameBytes - headerBytes then
      .error ⟨.frameTooLarge, utf8 "frame declares " ++ toDecimal bodyLength ++ utf8 " body bytes"⟩
    else
      let (body, s) ← readExact s bodyLength
      pure (⟨headerOf header, body⟩, s)

/-! ## The two readers agree -/

/-- What the two readers make of the same bytes. -/
inductive ReadersAgree (s : Socket) : Prop
  /-- Both take the same frame, and the streaming reader leaves what the other did not consume. -/
  | accept {frame : Frame} {n : Nat} {t : Socket} (decoded : decodeFrame s.bytes = .ok (frame, n))
      (read : readFrame s = .ok (frame, t)) (left : t.bytes = s.bytes.drop n) (ending : t.ending = s.ending)
  /-- With enough bytes there, both refuse with the same code. -/
  | refuse (enough : Enough s.bytes) {e e' : Failure} (decoded : decodeFrame s.bytes = .error e)
      (read : readFrame s = .error e') (code : e'.code = e.code)
  /-- Else one reports a truncated frame, and the other how the bytes ended. -/
  | short (short : ¬ Enough s.bytes) {e : Failure} (decoded : decodeFrame s.bytes = .error e)
      (code : e.code = .truncatedFrame) (read : readFrame s = .error s.ending.failure)

/-- Without a header there is nothing to check. -/
theorem readFrame_short {s : Socket} (h : s.bytes.length < headerBytes) : readFrame s = .error s.ending.failure := by
  have hread := readExact_spec s headerBytes
  rw [if_neg (not_le.2 h)] at hread
  rw [readFrame, hread]
  rfl

/-- With a header there, the reader checks it as it stands at the front of the bytes. -/
theorem readFrame_header {s : Socket} (hlen : headerBytes ≤ s.bytes.length) :
    ∃ t, t.bytes = s.bytes.drop headerBytes ∧ t.ending = s.ending ∧ readFrame s =
      if readLe (slice 0 4 s.bytes) ≠ wireMagic then fail .badMagic "frame magic does not match this protocol"
      else if readLe (slice 4 2 s.bytes) ≠ wireVersion then fail .badVersion "frame version is not supported"
      else if readLe (slice 24 4 s.bytes) ≠ crc32 (slice 0 24 s.bytes) then
        fail .frameCrcMismatch "frame header integrity check failed"
      else if readLe (slice 12 4 s.bytes) > maxFrameBytes - headerBytes then
        .error ⟨.frameTooLarge, utf8 "frame declares " ++ toDecimal (readLe (slice 12 4 s.bytes)) ++
          utf8 " body bytes"⟩
      else (readExact t (readLe (slice 12 4 s.bytes))).map fun (body, t) => (⟨headerOf s.bytes, body⟩, t) := by
  have hread := readExact_spec s headerBytes
  rw [if_pos hlen] at hread
  obtain ⟨t, ht, htb, hte⟩ := hread
  refine ⟨t, htb, hte, ?_⟩
  have htake : headerBytes ≤ (s.bytes.take headerBytes).length := by rw [List.length_take]; omega
  have hslice : ∀ o k, o + k ≤ headerBytes → slice o k (s.bytes.take headerBytes) = slice o k s.bytes := by
    intro o k hok
    conv_rhs => rw [← List.take_append_drop headerBytes s.bytes]
    exact (slice_header _ _ htake hok).symm
  have hheader : headerOf (s.bytes.take headerBytes) = headerOf s.bytes := by
    conv_rhs => rw [← List.take_append_drop headerBytes s.bytes]
    exact (headerOf_append _ htake).symm
  rw [readFrame, ht]
  simp only [bind, Except.bind, hheader, hslice 0 4 (by decide), hslice 4 2 (by decide), hslice 24 4 (by decide),
    hslice 0 24 (by decide), hslice 12 4 (by decide)]
  refine if_congr Iff.rfl rfl (if_congr Iff.rfl rfl (if_congr Iff.rfl rfl (if_congr Iff.rfl rfl ?_)))
  cases readExact t (readLe (slice 12 4 s.bytes)) <;> rfl

/-- Behind a header that passes its checks the reader takes the body, or reports how the bytes end. -/
theorem readFrame_accepted {s : Socket} (hlen : headerBytes ≤ s.bytes.length) (h : HeaderAccepted s.bytes) :
    if headerBytes + readLe (slice 12 4 s.bytes) ≤ s.bytes.length then
      ∃ t, readFrame s = .ok (⟨headerOf s.bytes, slice headerBytes (readLe (slice 12 4 s.bytes)) s.bytes⟩, t) ∧
        t.bytes = s.bytes.drop (headerBytes + readLe (slice 12 4 s.bytes)) ∧ t.ending = s.ending
    else readFrame s = .error s.ending.failure := by
  obtain ⟨t, htb, hte, hread⟩ := readFrame_header hlen
  rw [if_neg (not_not.2 h.magic), if_neg (not_not.2 h.version), if_neg (not_not.2 h.crc), if_neg (not_lt.2 h.bound)]
    at hread
  have hbody := readExact_spec t (readLe (slice 12 4 s.bytes))
  have htlen : t.bytes.length = s.bytes.length - headerBytes := by rw [htb, List.length_drop]
  by_cases henough : headerBytes + readLe (slice 12 4 s.bytes) ≤ s.bytes.length
  · rw [if_pos (by omega)] at hbody
    obtain ⟨u, hu, hub, hue⟩ := hbody
    rw [if_pos henough]
    refine ⟨u, ?_, ?_, hue.trans hte⟩
    · rw [hread, hu, htb]
      rfl
    · rw [hub, htb, List.drop_drop]
  · rw [if_neg (by omega)] at hbody
    rw [if_neg henough, hread, hbody, hte]
    rfl

/-- A header that fails a check is refused by both readers, with the code of that check. -/
theorem readFrame_refused {s : Socket} (hlen : headerBytes ≤ s.bytes.length) (h : ¬ HeaderAccepted s.bytes) :
    ∃ e e', decodeFrame s.bytes = .error e ∧ readFrame s = .error e' ∧ e'.code = e.code := by
  obtain ⟨t, -, -, hread⟩ := readFrame_header hlen
  unfold decodeFrame
  rw [if_neg (not_lt.2 hlen)]
  rw [hread]
  by_cases h1 : readLe (slice 0 4 s.bytes) = wireMagic
  · rw [if_neg (not_not.2 h1), if_neg (not_not.2 h1)]
    by_cases h2 : readLe (slice 4 2 s.bytes) = wireVersion
    · rw [if_neg (not_not.2 h2), if_neg (not_not.2 h2)]
      by_cases h3 : readLe (slice 24 4 s.bytes) = crc32 (slice 0 24 s.bytes)
      · rw [if_neg (not_not.2 h3), if_neg (not_not.2 h3)]
        have h4 : readLe (slice 12 4 s.bytes) > maxFrameBytes - headerBytes := by
          by_contra hbound
          exact h ⟨h1, h2, h3, not_lt.1 hbound⟩
        rw [if_pos h4, if_pos h4]
        exact ⟨_, _, rfl, rfl, rfl⟩
      · rw [if_pos h3, if_pos h3]
        exact ⟨_, _, rfl, rfl, rfl⟩
    · rw [if_pos h2, if_pos h2]
      exact ⟨_, _, rfl, rfl, rfl⟩
  · rw [if_pos h1, if_pos h1]
    exact ⟨_, _, rfl, rfl, rfl⟩

theorem readersAgree (s : Socket) : ReadersAgree s := by
  by_cases henough : Enough s.bytes
  · by_cases h : HeaderAccepted s.bytes
    · have hread := readFrame_accepted henough.header h
      rw [if_pos (henough.body h)] at hread
      obtain ⟨t, ht, htb, hte⟩ := hread
      exact .accept (decodeFrame_eq_ok_iff.2 ⟨h, rfl, henough.body h, rfl⟩) ht htb hte
    · obtain ⟨e, e', he, he', hcode⟩ := readFrame_refused henough.header h
      exact .refuse henough he he' hcode
  · obtain ⟨e, he, hcode⟩ := decodeFrame_truncated_iff.2 henough
    refine .short henough he hcode ?_
    by_cases hlen : headerBytes ≤ s.bytes.length
    · have haccepted : HeaderAccepted s.bytes := by
        by_contra h
        exact henough ⟨hlen, fun ha => absurd ha h⟩
      have hread := readFrame_accepted hlen haccepted
      rwa [if_neg fun hle => henough ⟨hlen, fun _ => hle⟩] at hread
    · exact readFrame_short (not_le.1 hlen)

/-- Frames are read back as they were written, their strict prefixes are refused, and the readers agree. -/
theorem frames_roundTrip_agree :
    (∀ (type : MessageType) (requestId : UInt64) (body : Bytes), body.length ≤ maxFrameBytes - headerBytes →
      ∃ frame, (∀ out, encodeFrame type requestId body out = .ok (out ++ frame)) ∧
        ∀ rest, decodeFrame (frame ++ rest) = .ok (frameOf type requestId body, frame.length)) ∧
    (∀ bytes frame n, decodeFrame bytes = .ok (frame, n) →
      ∀ k < n, ∃ e, decodeFrame (bytes.take k) = .error e ∧ e.code = .truncatedFrame) ∧
    ∀ s : Socket, ReadersAgree s := by
  refine ⟨fun type requestId body hbody => ?_, fun _ _ _ h k hk => decodeFrame_prefix h hk, readersAgree⟩
  refine ⟨builtFrame type requestId body, encodeFrame_eq type requestId body hbody, fun rest => ?_⟩
  rw [decodeFrame_builtFrame type requestId body hbody, length_builtFrame]

end Wire

end Wnc
