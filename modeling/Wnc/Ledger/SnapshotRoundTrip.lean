/-
What becomes of a snapshot once it is written: the reader finds every field where the writer put it, and
takes the file back exactly while the payload is within the bound of a document, which the writer does not
check.
-/
import Wnc.Ledger.Snapshot
import Wnc.Ledger.Handle

namespace Wnc

open Lib

namespace Ledger

namespace Snapshot

variable (s : Snapshot)

@[simp] theorem length_content : s.content.length = 92 := by
  simp [content]

@[simp] theorem length_encode : s.encode.length = snapshotHeaderBytes + s.payload.length := by
  simp [encode, snapshotHeaderBytes]
  omega

/-- Every field of a header, read at its offset. -/
theorem read_content (rest : Bytes) :
    slice 0 4 (s.content ++ rest) = writeLe 4 snapshotMagicWord ∧
    slice 4 2 (s.content ++ rest) = writeLe 2 snapshotVersion ∧
    slice 8 8 (s.content ++ rest) = writeLe 8 s.epoch.toNat ∧
    slice 16 8 (s.content ++ rest) = writeLe 8 s.sequence.toNat ∧
    slice 24 32 (s.content ++ rest) = (sha256 s.payload).bytes := by
  refine ⟨?_, ?_, ?_, ?_, ?_⟩ <;>
    simp (disch := simp) only [content, List.append_assoc, slice_append_right, slice_left, length_writeLe,
      Nat.reduceSub, Nat.sub_self]

/-- A snapshot is read back from its bytes, whatever the length of its payload. -/
theorem parseSnapshot_encode : parseSnapshot s.encode = .ok s := by
  have hsplit : s.encode =
      s.content ++ (writeLe 4 (crc32 s.content) ++ (List.replicate 32 0 ++ s.payload)) := by
    rw [encode]
    simp only [List.append_assoc]
  obtain ⟨h0, h4, h8, h16, h24⟩ := s.read_content (writeLe 4 (crc32 s.content) ++ (List.replicate 32 0 ++ s.payload))
  rw [← hsplit] at h0 h4 h8 h16 h24
  have hepoch : readLe (writeLe 8 s.epoch.toNat) = s.epoch.toNat :=
    readLe_writeLe_of_lt (lt_of_lt_of_le s.epoch.toNat_lt (by decide))
  have hsequence : readLe (writeLe 8 s.sequence.toNat) = s.sequence.toNat :=
    readLe_writeLe_of_lt (lt_of_lt_of_le s.sequence.toNat_lt (by decide))
  have hcrc : crc32 (slice 0 92 s.encode) = readLe (slice 92 4 s.encode) := by
    rw [hsplit, slice_left _ s.length_content, slice_append_right _ (by rw [s.length_content]), s.length_content,
      Nat.sub_self, slice_left _ (length_writeLe _ _), readLe_writeLe_of_lt (crc32_lt _)]
  have hpayload : s.encode.drop snapshotHeaderBytes = s.payload := by
    have hheader : (s.content ++ writeLe 4 (crc32 s.content) ++ List.replicate 32 0).length = snapshotHeaderBytes := by
      simp [snapshotHeaderBytes]
    rw [encode, ← hheader, List.drop_left]
  unfold parseSnapshot
  rw [if_neg (by rw [s.length_encode]; omega), h0, if_neg (by rw [ne_eq, not_not]; rfl), h4,
    if_neg (by rw [ne_eq, not_not]; rfl), if_neg (not_not.2 hcrc), hpayload, h24, Digest.ofBytes_bytes, h8, h16,
    hepoch, hsequence]
  simp

end Snapshot

/-- What is read where a snapshot has been written: the snapshot, or nothing once its payload is too long. -/
theorem readSnapshot_encode {dir : Directory} {s : Snapshot} (h : dir.snapshot = some s.encode) :
    readSnapshot dir =
      if s.payload.length ≤ maxDocumentBytes then .ok (some s)
      else .error ⟨.ledgerOversized, dir.filePath (utf8 "snapshot.bin") ++ utf8 " exceeds the byte bound"⟩ := by
  unfold readSnapshot State.readFile
  rw [h]
  simp only [s.length_encode]
  by_cases hlen : s.payload.length ≤ maxDocumentBytes
  · rw [if_pos hlen, if_neg (by omega)]
    simp only [s.parseSnapshot_encode]
    rfl
  · rw [if_neg hlen, if_pos (by omega)]
    rfl

theorem writeSnapshot_ok {failure : Option Failure} {s : Snapshot} {l : Handle} {dir dir' : Directory}
    (h : writeSnapshot failure s l dir = (.ok (), dir')) :
    s.sequence ≤ l.head.lastSequence ∧ dir' = { dir with snapshot := some s.encode } := by
  unfold writeSnapshot State.writeFileAtomic at h
  split at h
  · cases h
  · rename_i hahead
    refine ⟨UInt64.not_lt.1 hahead, ?_⟩
    cases failure with
    | some f => cases h
    | none => cases h; rfl

/-- A snapshot that was written is read back exactly when its payload is within the bound of a document. -/
theorem snapshot_roundTrip_iff {failure : Option Failure} {s : Snapshot} {l : Handle} {dir written later : Directory}
    (hwrite : writeSnapshot failure s l dir = (.ok (), written)) (hsame : later.snapshot = written.snapshot) :
    readSnapshot later = .ok (some s) ↔ s.payload.length ≤ maxDocumentBytes := by
  obtain ⟨-, rfl⟩ := writeSnapshot_ok hwrite
  rw [readSnapshot_encode hsame]
  split
  · rename_i hlen
    exact iff_of_true rfl hlen
  · rename_i hlen
    exact iff_of_false (fun h => by cases h) hlen

/-- The handle of a directory opened for the first time. -/
theorem openLedger_fresh (path : Bytes) : ∃ (l : Handle) (report : RecoveryReport) (opened : Directory),
    openLedger .succeeds .zero .zero .zero (.fresh path) = (.ok (l, report), opened) := by
  obtain ⟨l, report, hopen, -⟩ := openLedger_holds (.fresh path) (Nat.zero_le _) (.inl ⟨rfl, rfl⟩) .zero
  exact ⟨l, report, _, hopen⟩

theorem snapshot_roundTrip_iff_braces : ∃ l dir written,
    writeSnapshot none ⟨0, 1, utf8 "{}"⟩ l dir = (.ok (), written) ∧
      (readSnapshot written = .ok (some ⟨0, 1, utf8 "{}"⟩) ↔ (utf8 "{}").length ≤ maxDocumentBytes) := by
  obtain ⟨l, -, opened, -⟩ := openLedger_fresh (utf8 "/w")
  have hwrite : writeSnapshot none ⟨0, 1, utf8 "{}"⟩ l opened =
      (.ok (), { opened with snapshot := some (Snapshot.encode ⟨0, 1, utf8 "{}"⟩) }) := rfl
  exact ⟨l, opened, _, hwrite, snapshot_roundTrip_iff hwrite rfl⟩

/-- A snapshot that the writer takes from an open ledger and the reader refuses: its payload is a byte too long. -/
theorem snapshot_unread : ¬∀ (io : OpenIo) (coordinator : CoordinatorId) (trustDigest : Digest) (incarnation : Incarnation)
    (dir opened written : Directory) (l : Handle) (report : RecoveryReport) (failure : Option Failure) (s : Snapshot),
    openLedger io coordinator trustDigest incarnation dir = (.ok (l, report), opened) →
    writeSnapshot failure s l opened = (.ok (), written) → readSnapshot written = .ok (some s) := by
  intro h
  obtain ⟨l, report, opened, hopen⟩ := openLedger_fresh (utf8 "/w")
  have hread := h _ _ _ _ _ _ _ _ _ none ⟨0, 1, List.replicate (maxDocumentBytes + 1) 0⟩ hopen rfl
  rw [readSnapshot_encode rfl, if_neg (by simp)] at hread
  cases hread

end Ledger

end Wnc
