/-
Snapshots: the derived index a ledger may keep beside its journal, as written and as read back.
-/
import Wnc.Core.Json
import Wnc.Ledger.Journal

namespace Wnc

open Lib

namespace Ledger

def snapshotMagicWord : Nat := 0x31534E57
def snapshotVersion : Nat := 1
def snapshotHeaderBytes : Nat := 128

structure Snapshot where
  sequence : UInt64
  epoch : UInt64
  payload : Bytes
deriving DecidableEq

namespace Snapshot

/-- The 92 bytes of the header that its checksum covers. -/
def content (s : Snapshot) : Bytes :=
  writeLe 4 snapshotMagicWord ++ (writeLe 2 snapshotVersion ++ (writeLe 2 0 ++ (writeLe 8 s.epoch.toNat ++
    (writeLe 8 s.sequence.toNat ++ ((sha256 s.payload).bytes ++ List.replicate 36 0)))))

def encode (s : Snapshot) : Bytes :=
  s.content ++ writeLe 4 (crc32 s.content) ++ List.replicate 32 0 ++ s.payload

end Snapshot

/-- Writes a snapshot, which must not be ahead of the journal. -/
def writeSnapshot (failure : Option Failure) (snapshot : Snapshot) (l : Handle) (dir : Directory) :
    Except Failure Unit × Directory :=
  if snapshot.sequence > l.head.lastSequence then
    (.error ⟨.recoveryRequired, utf8 "snapshot sequence " ++ toDecimal snapshot.sequence.toNat ++
      utf8 " is ahead of the durable sequence " ++ toDecimal l.head.lastSequence.toNat⟩, dir)
  else
    match State.writeFileAtomic failure snapshot.encode with
    | .error f => (.error f, dir)
    | .ok bytes => (.ok (), { dir with snapshot := some bytes })

/-- The snapshot a file holds. -/
def parseSnapshot (bytes : Bytes) : Except Failure Snapshot :=
  if bytes.length < snapshotHeaderBytes then fail .snapshotInvalid "snapshot is shorter than its header"
  else if readLe (slice 0 4 bytes) ≠ snapshotMagicWord then fail .snapshotInvalid "snapshot magic does not match"
  else if readLe (slice 4 2 bytes) ≠ snapshotVersion then
    fail .ledgerIncompatible "snapshot version is not supported"
  else if crc32 (slice 0 92 bytes) ≠ readLe (slice 92 4 bytes) then
    fail .snapshotInvalid "snapshot header integrity check failed"
  else
    let payload := bytes.drop snapshotHeaderBytes
    if sha256 payload ≠ Digest.ofBytes (slice 24 32 bytes) then
      fail .snapshotInvalid "snapshot payload digest does not match its bytes"
    else
      .ok
        { sequence := UInt64.ofNat (readLe (slice 16 8 bytes))
          epoch := UInt64.ofNat (readLe (slice 8 8 bytes))
          payload := payload }

/-- The snapshot of a directory, if it has one. -/
def readSnapshot (dir : Directory) : Except Failure (Option Snapshot) :=
  match State.readFile (dir.filePath (utf8 "snapshot.bin")) dir.snapshot (maxDocumentBytes + snapshotHeaderBytes) with
  | .error f => if f.code = .stateUnavailable then .ok none else .error f
  | .ok bytes => (parseSnapshot bytes).map some

/-! ## The sequences of the records read -/

/-- The records of a scan carry the sequences 1, 2, and so on, and the next one is expected. -/
structure Scan.Numbered (s : Scan) : Prop where
  expected : s.expectedSequence = UInt64.ofNat (s.records.length + 1)
  sequence : ∀ i r, s.records[i]? = some r → r.sequence = UInt64.ofNat (i + 1)

theorem Scan.Numbered.accept {s : Scan} (h : s.Numbered) (bytes : Bytes) (offset : Nat) (record : Record)
    (consumed : Nat) : (s.accept bytes offset record consumed).Numbered := by
  unfold Scan.accept
  split
  · exact ⟨h.expected, h.sequence⟩
  · rename_i hseq
    rw [ne_eq, not_not] at hseq
    simp only
    split
    · exact ⟨h.expected, h.sequence⟩
    · refine ⟨?_, fun i r hr => ?_⟩
      · simp only [List.length_append, List.length_singleton]
        rw [hseq, h.expected, UInt64.ofNat_add (s.records.length + 1) 1]
        rfl
      · simp only at hr
        rw [List.getElem?_append] at hr
        split at hr
        · exact h.sequence i r hr
        · rename_i hi
          rw [List.getElem?_singleton] at hr
          split at hr
          · cases hr
            have hi' : i = s.records.length := by omega
            rw [hseq, h.expected, hi']
          · cases hr

theorem scanSegments_numbered (segments : List (Bytes × Bytes)) (s : Scan) (h : s.Numbered) :
    (scanSegments segments s).Numbered :=
  scanSegments_invariant (fun _ _ _ _ h => ⟨h.expected, h.sequence⟩)
    (fun _ bytes offset record consumed _ h => h.accept bytes offset record consumed) segments s h

/-- The records read from a journal carry the sequences 1, 2, and so on. -/
theorem readAll_sequence {dir : Directory} {records : List Record} {report : RecoveryReport}
    (h : readAll dir = .ok (records, report)) (i : Nat) (r : Record) (hr : records[i]? = some r) :
    r.sequence = UInt64.ofNat (i + 1) := by
  have hn := scanSegments_numbered dir.journal.entries {} ⟨rfl, fun i r h => by simp at h⟩
  unfold readAll at h
  simp only at h
  split at h
  · cases h
  · cases h
    unfold readFrames at hr
    simp only at hr
    split at hr <;> exact hn.sequence i r hr

/-- Fewer than 2^64 records are read in ascending order of their sequences. -/
theorem readAll_ascending {dir : Directory} {records : List Record} {report : RecoveryReport}
    (h : readAll dir = .ok (records, report)) (hlen : records.length < 2 ^ 64) :
    records.Pairwise fun a b => a.sequence < b.sequence := by
  rw [List.pairwise_iff_getElem]
  intro i j hi hj hij
  rw [readAll_sequence h i _ (List.getElem?_eq_getElem hi), readAll_sequence h j _ (List.getElem?_eq_getElem hj)]
  rw [UInt64.lt_iff_toNat_lt, UInt64.toNat_ofNat', UInt64.toNat_ofNat', Nat.mod_eq_of_lt (by omega),
    Nat.mod_eq_of_lt (by omega)]
  omega

/-- Records in ascending order are those up to a sequence followed by those behind it. -/
theorem split_at_sequence {records : List Record} (h : records.Pairwise fun a b => a.sequence < b.sequence)
    (sequence : UInt64) :
    records = records.filter (fun r => r.sequence ≤ sequence) ++ records.filter fun r => r.sequence > sequence := by
  induction records with
  | nil => rfl
  | cons r rs ih =>
    obtain ⟨hr, hrs⟩ := List.pairwise_cons.1 h
    by_cases hle : r.sequence ≤ sequence
    · have hnot : ¬r.sequence > sequence := UInt64.not_lt.2 hle
      simp only [List.filter_cons, hle, hnot, decide_true, decide_false, if_true, Bool.false_eq_true, if_false,
        List.cons_append]
      rw [← ih hrs]
    · have hgt : r.sequence > sequence := UInt64.not_le.1 hle
      -- what follows a record behind the sequence is behind it too
      have hnone : rs.filter (fun q => q.sequence ≤ sequence) = [] := by
        rw [List.filter_eq_nil_iff]
        intro q hq hqle
        exact UInt64.not_lt.2 (of_decide_eq_true hqle) (UInt64.lt_trans hgt (hr q hq))
      have hrest := ih hrs
      rw [hnone, List.nil_append] at hrest
      simp only [List.filter_cons, hle, hgt, decide_true, decide_false, if_true, Bool.false_eq_true, if_false, hnone,
        List.nil_append]
      rw [← hrest]

end Ledger

end Wnc
