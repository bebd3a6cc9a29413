/-
How a handle stands to its directory: opening a journal written by appends succeeds and finds its
layout, and a handle that stands at the end of such a journal keeps standing there over an append.
-/
import Wnc.Ledger.Journal
import Wnc.Ledger.Opening

namespace Wnc

open Lib

namespace Ledger

/-! ## Segment names -/

theorem segmentName_lt_succ : ∀ i < 512, segmentName i < segmentName (i + 1) := by decide +kernel

/-- The names of the segments a ledger can reach are ordered as their indices. -/
theorem segmentName_lt {i j : Nat} (h : i < j) (hj : j ≤ 257) : segmentName i < segmentName j := by
  induction j with
  | zero => omega
  | succ j ih =>
    have hs := segmentName_lt_succ j (by omega)
    rcases Nat.lt_or_ge i j with hij | hij
    · exact (ih hij (by omega)).trans hs
    · obtain rfl : i = j := by omega
      exact hs

/-- The segments of a history are named below the one that is next. -/
theorem lt_of_mem_segmentsOf {c : Cursor} {ps : List (List Entry)} {e : Bytes × Bytes} (he : e ∈ segmentsOf 0 c ps)
    (hlen : ps.length ≤ 257) : e.1 < segmentName ps.length := by
  obtain ⟨j, _, hj, hname⟩ := mem_segmentsOf he
  rw [hname]
  exact segmentName_lt (by omega) hlen

theorem stoul_segmentName : ∀ i < 257, stoul (slice 8 5 (segmentName i)) = some (i + 1) := by decide +kernel

theorem length_segmentName : ∀ i < 257, (segmentName i).length = 17 := by decide +kernel

/-! ## The boot record -/

@[simp] theorem HeadRecord.length_content (h : HeadRecord) : h.content.length = 192 := by
  simp [HeadRecord.content, Incarnation.length_eq]

theorem readHead_encode (h : HeadRecord) :
    readHead h.encode h.coordinator h.trustDigest = .ok (h.epoch, h.bootCount) := by
  have hcontent : ∀ o k, o + k ≤ 192 → slice o k h.encode = slice o k h.content := fun o k ho =>
    slice_append_left _ (by rw [h.length_content]; exact ho)
  have hlength : h.encode.length = headBytes := by simp [HeadRecord.encode, headBytes]
  have hmagic : slice 0 4 h.encode = writeLe 4 headMagicWord := by
    rw [hcontent 0 4 (by decide), HeadRecord.content, slice_left _ (length_writeLe _ _)]
  have hversion : slice 4 2 h.encode = writeLe 2 headVersion := by
    rw [hcontent 4 2 (by decide), HeadRecord.content]
    simp (disch := simp) only [slice_append_right, slice_left, length_writeLe, Nat.sub_self]
  have hchecksum : slice 192 4 h.encode = writeLe 4 (crc32 h.content) := by
    rw [HeadRecord.encode, slice_append_right _ (by rw [h.length_content]), h.length_content, Nat.sub_self]
    rw [slice, List.drop_zero, List.take_of_length_le (by rw [length_writeLe])]
  have hcovered : slice 0 192 h.encode = h.content := slice_left _ h.length_content
  have hcoordinator : slice 8 64 h.encode = h.coordinator.view := by
    rw [hcontent 8 64 (by decide), HeadRecord.content]
    simp (disch := simp) only [slice_append_right, slice_left, length_writeLe, Nat.reduceSub, Nat.sub_self]
  have htrust : slice 72 32 h.encode = h.trustDigest.bytes := by
    rw [hcontent 72 32 (by decide), HeadRecord.content]
    simp (disch := simp) only [slice_append_right, slice_left, length_writeLe, Id.length_view, Nat.reduceSub,
      Nat.sub_self]
  have hepoch : slice 104 8 h.encode = writeLe 8 h.epoch.toNat := by
    rw [hcontent 104 8 (by decide), HeadRecord.content]
    simp (disch := simp) only [slice_append_right, slice_left, length_writeLe, Id.length_view, Digest.length_eq,
      Nat.reduceSub, Nat.sub_self]
  have hboot : slice 136 8 h.encode = writeLe 8 h.bootCount.toNat := by
    rw [hcontent 136 8 (by decide), HeadRecord.content]
    simp (disch := simp [Incarnation.length_eq]) only [slice_append_right, slice_left, length_writeLe,
      Id.length_view, Digest.length_eq, Incarnation.length_eq, Nat.reduceSub, Nat.sub_self]
  have hread : ∀ v : UInt64, UInt64.ofNat (readLe (writeLe 8 v.toNat)) = v := fun v => by
    rw [readLe_writeLe_of_lt (lt_of_lt_of_le v.toNat_lt (by decide)), UInt64.ofNat_toNat]
  unfold readHead
  rw [hlength, hmagic, hversion, hchecksum, hcovered, hcoordinator, htrust, hepoch, hboot, Digest.ofBytes_bytes,
    readLe_writeLe_of_lt (crc32_lt _), hread, hread, Id.parse_view]
  rw [if_neg (by decide), if_neg (by decide), if_neg (not_not.2 rfl)]
  simp

/-- A directory whose boot record, if there is one, was written under these identities; without one
there is no journal. -/
def HeadOk (coordinator : CoordinatorId) (trustDigest : Digest) (dir : Directory) : Prop :=
  (dir.head = none ∧ dir.journal.entries = []) ∨
    ∃ h : HeadRecord, dir.head = some h.encode ∧ h.coordinator = coordinator ∧ h.trustDigest = trustDigest

/-- The boot record on disk is read back under its own identities. -/
theorem loadHead_encode {h : HeadRecord} {dir : Directory} (hh : dir.head = some h.encode) :
    loadHead h.coordinator h.trustDigest dir = .ok (some (h.epoch, h.bootCount)) := by
  have hlength : ¬ h.encode.length > headBytes := by simp [HeadRecord.encode, headBytes]
  unfold loadHead
  rw [hh, State.readFile]
  simp only [if_neg hlength, readHead_encode]
  rfl

theorem HeadOk.loadHead {coordinator : CoordinatorId} {trustDigest : Digest} {dir : Directory}
    (h : HeadOk coordinator trustDigest dir) : ∃ previous, loadHead coordinator trustDigest dir = .ok previous := by
  rcases h with ⟨hn, hj⟩ | ⟨head, hs, rfl, rfl⟩
  · unfold Ledger.loadHead
    rw [hn, hj]
    exact ⟨none, rfl⟩
  · exact ⟨_, loadHead_encode hs⟩

/-! ## Opening a journal written by appends -/

/-- Segments named in a row are all counted, and the last of them is the one to append to. -/
theorem discoverSegments_named (entries : List (Bytes × Bytes)) : ∀ (i : Nat) (l : Layout),
    entries.map Prod.fst = (List.range' i entries.length).map segmentName → l.segment ≤ i →
    i + entries.length ≤ 257 →
    discoverSegments entries l = .ok
      { segmentCount := l.segmentCount + entries.length
        retainedBytes := l.retainedBytes + (entries.map fun e => e.2.length).sum
        segment := if entries = [] then l.segment else i + entries.length - 1 } := by
  induction entries with
  | nil => intro i l _ _ _; rfl
  | cons e rest ih =>
    obtain ⟨name, bytes⟩ := e
    intro i l hnames hl hi
    rw [List.length_cons] at hi hnames
    rw [List.range'_succ, List.map_cons, List.map_cons, List.cons.injEq] at hnames
    obtain ⟨rfl, hrest⟩ := hnames
    rw [discoverSegments, if_neg (by rw [length_segmentName i (by omega)]; decide), stoul_segmentName i (by omega)]
    simp only
    rw [if_pos (by omega), ih (i + 1) _ hrest (by simp) (by omega)]
    simp only [List.map_cons, List.sum_cons, List.length_cons, Nat.add_sub_cancel, reduceCtorEq, if_false]
    congr 2
    · omega
    · omega
    · split
      · rename_i h; simp [h]
      · omega

theorem map_fst_segmentsOf (parts : List (List Entry)) : ∀ (i : Nat) (c : Cursor),
    (segmentsOf i c parts).map Prod.fst = (List.range' i parts.length).map segmentName := by
  induction parts with
  | nil => intro i c; rfl
  | cons part parts ih =>
    intro i c
    rw [segmentsOf, List.map_cons, ih, List.length_cons, List.range'_succ, List.map_cons]

theorem discoverSegments_segmentsOf (parts : List (List Entry)) (i : Nat) (c : Cursor) (l : Layout)
    (hl : l.segment ≤ i) (hi : i + parts.length ≤ 257) :
    discoverSegments (segmentsOf i c parts) l =
      .ok { segmentCount := l.segmentCount + parts.length
            retainedBytes := l.retainedBytes + ((segmentsOf i c parts).map fun e => e.2.length).sum
            segment := if parts = [] then l.segment else i + parts.length - 1 } := by
  have hnil : segmentsOf i c parts = [] ↔ parts = [] := by
    rw [← List.length_eq_zero_iff, length_segmentsOf, List.length_eq_zero_iff]
  rw [discoverSegments_named _ i l (by rw [map_fst_segmentsOf, length_segmentsOf]) hl (by rwa [length_segmentsOf]),
    length_segmentsOf]
  simp only [hnil]

/-- What an open of a journal written by appends gives behind the boot record, once no file operation fails: the layout of
the files and the position behind the last record. The chain value is the link of the last record. -/
theorem openFrom_holds {dir : Directory} {parts : List (List Entry)} (hd : Holds dir parts) (hp : parts.length ≤ 257)
    {io : OpenIo} (hreplace : io.headReplacement = none) (coordinator : CoordinatorId) (trustDigest : Digest)
    (previous : Option (UInt64 × UInt64)) (incarnation : Incarnation) :
    ∃ (h : Handle) (report : RecoveryReport),
      openFrom io coordinator trustDigest incarnation previous dir =
        (.ok (h, report), { dir with head := some h.head.encode }) ∧
      h.head.coordinator = coordinator ∧ h.head.trustDigest = trustDigest ∧
      h.head.lastSequence + 1 = (Cursor.start.after parts.flatten).sequence ∧
      h.chain = ((recordsOf .start parts.flatten).getLast?.map Record.chain).getD .zero ∧
      h.segment = parts.length - 1 ∧ h.segmentCount = parts.length ∧
      h.segmentBytes = ((dir.journal.find? (segmentName h.segment)).map List.length).getD 0 ∧
      h.isOpen = true ∧ report.validRecords = parts.flatten.length := by
  have hscan := hd.readFrames
  have hdiscover : discoverSegments dir.journal.entries {} = .ok
      { segmentCount := parts.length
        retainedBytes := ((segmentsOf 0 .start parts).map fun e => e.2.length).sum
        segment := parts.length - 1 } := by
    rw [hd.entries, discoverSegments_segmentsOf parts 0 .start {} le_rfl (by omega)]
    simp only [Nat.zero_add]
    congr 2
    split
    · rename_i h; rw [h]; rfl
    · rfl
  have hvalid : (Ledger.readFrames dir).report.validRecords = parts.flatten.length := by
    rw [readFrames_validRecords hscan.sound, hscan.records, length_recordsOf]
  unfold openFrom
  simp only [hreplace, hd.readAll, hscan.complete, hdiscover, writeHead, State.writeFileAtomic, if_false, Nat.lt_irrefl,
    gt_iff_lt]
  exact ⟨_, _, rfl, rfl, rfl, hscan.last, rfl, rfl, rfl, rfl, rfl, hvalid⟩

/-- The same for a directory whose boot record, if there is one, was written under these identities. -/
theorem openLedger_holds {dir : Directory} {parts : List (List Entry)} (hd : Holds dir parts)
    (hp : parts.length ≤ 257) {coordinator : CoordinatorId} {trustDigest : Digest}
    (hh : HeadOk coordinator trustDigest dir) (incarnation : Incarnation) :
    ∃ (h : Handle) (report : RecoveryReport),
      openLedger .succeeds coordinator trustDigest incarnation dir =
        (.ok (h, report), { dir with head := some h.head.encode }) ∧
      h.head.coordinator = coordinator ∧ h.head.trustDigest = trustDigest ∧
      h.head.lastSequence + 1 = (Cursor.start.after parts.flatten).sequence ∧
      h.chain = ((recordsOf .start parts.flatten).getLast?.map Record.chain).getD .zero ∧
      h.segment = parts.length - 1 ∧ h.segmentCount = parts.length ∧
      h.segmentBytes = ((dir.journal.find? (segmentName h.segment)).map List.length).getD 0 ∧
      h.isOpen = true ∧ report.validRecords = parts.flatten.length :=
  have ⟨previous, hload⟩ := hh.loadHead
  have hopen : openLedger .succeeds _ _ _ _ = _ := openLedger_loaded_eq rfl rfl hload
  hopen ▸ openFrom_holds hd hp rfl coordinator trustDigest previous incarnation

/-! ## A handle at the end of its journal -/

/-- The handle stands at the end of the history: its counters, its chain value and the size of the
segment it appends to, which is the last one or the one to be created next. -/
structure Stands (l : Handle) (dir : Directory) (parts : List (List Entry)) : Prop where
  opened : l.isOpen = true
  next : l.head.lastSequence + 1 = (Cursor.start.after parts.flatten).sequence
  chain : l.chain = (Cursor.start.after parts.flatten).link
  place : l.segment + 1 = parts.length ∨ l.segment = parts.length
  bytes : l.segmentBytes = ((dir.journal.find? (segmentName l.segment)).map List.length).getD 0
  low : l.segment ≤ 256
  count : l.segment ≤ l.segmentCount

/-- The segment a handle appends to: the segments before it hold the parts `ps`, and it holds `p`, which is
empty while the file does not exist. -/
structure AppendsTo (l : Handle) (dir : Directory) (parts ps : List (List Entry)) (p : List Entry) : Prop where
  index : l.segment = ps.length
  history : parts.flatten = ps.flatten ++ p
  content : (dir.journal.find? (segmentName l.segment)).getD [] = encodeEntries (Cursor.start.after ps.flatten) p
  before : ∀ e ∈ segmentsOf 0 .start ps, e ∈ dir.journal.entries
  set : ∀ b, (dir.journal.set (segmentName l.segment) b).entries =
    segmentsOf 0 .start ps ++ [(segmentName l.segment, b)]

theorem Stands.appendsTo {l : Handle} {dir : Directory} {parts : List (List Entry)} (hl : Stands l dir parts)
    (hd : Holds dir parts) : ∃ ps p, AppendsTo l dir parts ps p := by
  have hbelow : ∀ ps : List (List Entry), l.segment = ps.length →
      ∀ e ∈ segmentsOf 0 .start ps, e.1 < segmentName l.segment := by
    intro ps hps e he
    rw [hps]
    exact lt_of_mem_segmentsOf he (by have := hl.low; omega)
  rcases hl.place with hlast | hnew
  · -- the last segment exists and is extended
    obtain ⟨ps, p, rfl⟩ : ∃ ps p, parts = ps ++ [p] :=
      ⟨_, _, (List.dropLast_append_getLast (List.ne_nil_of_length_pos (by omega))).symm⟩
    rw [List.length_append, List.length_singleton] at hlast
    have hseg : l.segment = ps.length := by omega
    have hentries : dir.journal.entries = segmentsOf 0 .start ps ++
        [(segmentName l.segment, encodeEntries (Cursor.start.after ps.flatten) p)] := by
      rw [hd.entries, segmentsOf_append, hseg, Nat.zero_add]; rfl
    refine ⟨ps, p, hseg, by simp, ?_, fun e he => by rw [hentries]; exact List.mem_append_left _ he, fun b => ?_⟩
    · rw [SortedMap.find?_eq, hentries, Assoc.find_append_last (hbelow ps hseg)]; rfl
    · rw [SortedMap.entries_set, hentries]
      exact Assoc.set_append_cons (hbelow ps hseg) []
  · -- the segment does not exist yet
    refine ⟨parts, [], hnew, by simp, ?_, fun e he => by rw [hd.entries]; exact he, fun b => ?_⟩
    · have hnone : dir.journal.find? (segmentName l.segment) = none := by
        rw [SortedMap.find?_eq, hd.entries, Assoc.find_eq_none_iff]
        exact fun e he => (hbelow parts hnew e he).ne
      rw [hnone]; rfl
    · rw [SortedMap.entries_set, hd.entries]
      exact Assoc.set_append_of_lt (hbelow parts hnew)

/-- Extending the segment appended to by the frames of further entries extends the history by them. -/
theorem AppendsTo.holds {l : Handle} {dir : Directory} {parts ps : List (List Entry)} {p qs : List Entry}
    (ht : AppendsTo l dir parts ps p) (hd : Holds dir parts) (hqs : Bounded qs) {content : Bytes}
    (hcontent : content = encodeEntries (Cursor.start.after ps.flatten) (p ++ qs))
    (hsize : content.length ≤ maxSegmentBytes) :
    Holds { dir with journal := dir.journal.set (segmentName l.segment) content } (ps ++ [p ++ qs]) where
  entries := by
    simp only
    rw [ht.set, segmentsOf_append, ht.index, Nat.zero_add, hcontent]; rfl
  bounded := by
    have hflat : (ps ++ [p ++ qs]).flatten = parts.flatten ++ qs := by simp [ht.history]
    rw [hflat]
    exact List.forall_mem_append.2 ⟨hd.bounded, hqs⟩
  sizes := by
    intro e he
    simp only at he
    rw [ht.set] at he
    rcases List.mem_append.1 he with he | he
    · exact hd.sizes e (ht.before e he)
    · rw [List.mem_singleton.1 he]; exact hsize

theorem AppendsTo.length_content {l : Handle} {dir : Directory} {parts ps : List (List Entry)} {p : List Entry}
    (ht : AppendsTo l dir parts ps p) (hl : Stands l dir parts) :
    (encodeEntries (Cursor.start.after ps.flatten) p).length = l.segmentBytes := by
  rw [← ht.content, hl.bytes]
  cases dir.journal.find? (segmentName l.segment) <;> rfl

theorem Holds.absent {dir : Directory} {parts : List (List Entry)} (hd : Holds dir parts)
    {i : Nat} (hi : i = parts.length) (hlow : i ≤ 257) : dir.journal.find? (segmentName i) = none := by
  rw [SortedMap.find?_eq, hd.entries, Assoc.find_eq_none_iff]
  intro e he
  obtain ⟨j, _, hj, hname⟩ := mem_segmentsOf he
  rw [hname]
  exact (segmentName_lt (by omega) hlow).ne

/-- The bounds an append checks, and that a rotation leaves the handle standing. -/
theorem Stands.prepareAppend {l l' : Handle} {dir : Directory} {parts : List (List Entry)} {payload : Bytes}
    {r : Except Failure Unit} (hl : Stands l dir parts) (hd : Holds dir parts)
    (h : Ledger.prepareAppend l payload = (r, l')) :
    Stands l' dir parts ∧ (r = .ok () → payload.length ≤ maxRecordBytes ∧
      l'.segmentBytes + (frameHeaderBytes + payload.length) ≤ maxSegmentBytes ∧
      l'.retainedBytes + (frameHeaderBytes + payload.length) ≤ maxJournalBytes) := by
  unfold Ledger.prepareAppend at h
  simp only [hl.opened, Bool.not_true, Bool.false_eq_true, if_false, fail] at h
  split at h
  · cases h; exact ⟨hl, fun h => by cases h⟩
  · rename_i hpayload
    split at h
    · cases h; exact ⟨hl, fun h => by cases h⟩
    · rename_i hframe
      split at h
      · cases h; exact ⟨hl, fun h => by cases h⟩
      · rename_i l₁ hl₁
        have hstands : Stands l₁ dir parts ∧ l₁.segmentBytes + (frameHeaderBytes + payload.length) ≤ maxSegmentBytes := by
          split at hl₁
          · rename_i hfull
            unfold rotateSegment at hl₁
            split at hl₁
            · cases hl₁
            · rename_i hcount
              cases hl₁
              -- only a segment that exists can be full
              have hlast : l.segment + 1 = parts.length := by
                rcases hl.place with h | h
                · exact h
                · have hb := hl.bytes
                  rw [hd.absent h (by have := hl.low; omega)] at hb
                  simp only [Option.map_none, Option.getD_none] at hb
                  omega
              have hlow : l.segment + 1 ≤ 256 := by
                have := hl.count
                simp only [maxLedgerSegments] at hcount
                omega
              refine ⟨⟨hl.opened, hl.next, hl.chain, .inr hlast, ?_, hlow, Nat.succ_le_succ hl.count⟩, ?_⟩
              swap
              · simp only; omega
              simp only
              rw [hd.absent hlast (by omega)]
              rfl
          · cases hl₁
            exact ⟨hl, by omega⟩
        split at h
        · cases h; exact ⟨hstands.1, fun h => by cases h⟩
        · rename_i hretained
          cases h
          exact ⟨hstands.1, fun _ => ⟨by omega, hstands.2, by omega⟩⟩

/-- What an append does once the bounds are passed and every file operation succeeds. -/
theorem append_succeeds_eq {l l' : Handle} {payload : Bytes} (h : Ledger.prepareAppend l payload = (.ok (), l'))
    (type : RecordType) (dir : Directory) :
    Ledger.append .succeeds type payload l dir =
      (.ok (l'.head.lastSequence + 1),
        { l' with
          head := { l'.head with lastSequence := l'.head.lastSequence + 1 }
          chain := (buildFrame type (l'.head.lastSequence + 1) payload l'.chain).chain
          segmentBytes := l'.segmentBytes + (frameHeaderBytes + payload.length)
          retainedBytes := l'.retainedBytes + (frameHeaderBytes + payload.length) },
        { dir with
          journal := dir.journal.set (segmentName l'.segment) ((dir.journal.find? (segmentName l'.segment)).getD [] ++
            (buildFrame type (l'.head.lastSequence + 1) payload l'.chain).bytes) }) := by
  rw [Ledger.append, h]
  simp only [State.appendFileFlushed_succeeds, length_buildFrame]

/-- A successful append extends the history by its entry, and the handle stands behind it. -/
theorem Stands.append {l l' : Handle} {dir dir' : Directory} {parts : List (List Entry)} {e : Entry}
    {sequence : UInt64} (hl : Stands l dir parts) (hd : Holds dir parts)
    (h : Ledger.append .succeeds e.type e.payload l dir = (.ok sequence, l', dir')) :
    ∃ parts', parts'.flatten = parts.flatten ++ [e] ∧ parts'.length ≤ 257 ∧ Holds dir' parts' ∧
      Stands l' dir' parts' ∧ dir'.head = dir.head ∧
      sequence = (Cursor.start.after parts.flatten).sequence := by
  cases hprep : Ledger.prepareAppend l e.payload with
  | mk r l₁ =>
  cases r with
  | error f => rw [Ledger.append, hprep] at h; cases h
  | ok u =>
    obtain ⟨hl₁, hbounds⟩ := hl.prepareAppend hd hprep
    obtain ⟨hpayload, hfits, _⟩ := hbounds rfl
    obtain ⟨ps, p, ht⟩ := hl₁.appendsTo hd
    rw [append_succeeds_eq hprep, ht.content] at h
    cases h
    have hframe : encodeEntries (Cursor.start.after ps.flatten) p ++
        (buildFrame e.type (l₁.head.lastSequence + 1) e.payload l₁.chain).bytes =
        encodeEntries (Cursor.start.after ps.flatten) (p ++ [e]) := by
      rw [encodeEntries_append, ← Cursor.after_append, ← ht.history, hl₁.next, hl₁.chain]
      simp [encodeEntries]
    have hbytes : (encodeEntries (Cursor.start.after ps.flatten) p ++
        (buildFrame e.type (l₁.head.lastSequence + 1) e.payload l₁.chain).bytes).length =
        l₁.segmentBytes + (frameHeaderBytes + e.payload.length) := by
      rw [List.length_append, ht.length_content hl₁, length_buildFrame]
    have hflat : (ps ++ [p ++ [e]]).flatten = parts.flatten ++ [e] := by simp [ht.history]
    have hafter : Cursor.start.after (ps ++ [p ++ [e]]).flatten = (Cursor.start.after parts.flatten).next e := by
      rw [hflat, Cursor.after_snoc]
    refine ⟨ps ++ [p ++ [e]], hflat, ?_, ht.holds hd (List.forall_mem_singleton.2 hpayload) hframe ?_,
      ⟨hl₁.opened, ?_, ?_, .inl ?_, ?_, hl₁.low, hl₁.count⟩, rfl, hl₁.next⟩
    · rw [List.length_append, List.length_singleton, ← ht.index]
      have := hl₁.low; omega
    · rw [hbytes]; exact hfits
    · rw [hafter, Cursor.next, hl₁.next]
    · rw [hafter, Cursor.next, buildFrame_chain, hl₁.next]
    · rw [List.length_append, List.length_singleton, ht.index]
    · simp only [SortedMap.find?_set_self, Option.map_some, Option.getD_some]
      exact hbytes.symm

end Ledger

end Wnc
