/-
The books of a ledger over any number of opens and successful appends: how many segment files there are,
what they hold, and which of them is appended to. An open counts what it finds; an append counts what it
writes, and a rotation the file it is about to create. The file that the first append of a fresh directory
creates is counted by neither.
-/
import Wnc.Ledger.Handle
import Wnc.Ledger.Repair
import Wnc.Lib.Run

namespace Wnc

open Lib

namespace Ledger

/-! ## Segment files in a row -/

/-- A journal whose files are the first `k` segments, each a row of whole frames within its bound and not empty. -/
structure Laid (journal : SortedMap Bytes Bytes) (k : Nat) : Prop where
  names : journal.entries.map Prod.fst = (List.range k).map segmentName
  whole : ∀ e ∈ journal.entries, Reached e.2 e.2.length
  sizes : ∀ e ∈ journal.entries, e.2.length ≤ maxSegmentBytes
  nonempty : ∀ e ∈ journal.entries, e.2 ≠ []
  few : k ≤ maxLedgerSegments + 1

namespace Laid

variable {journal : SortedMap Bytes Bytes} {k : Nat}

theorem length (h : Laid journal k) : journal.entries.length = k := by
  have := congrArg List.length h.names
  simpa using this

theorem lt_of_mem (h : Laid journal k) {e : Bytes × Bytes} (he : e ∈ journal.entries) : e.1 < segmentName k := by
  have hname : e.1 ∈ (List.range k).map segmentName := h.names ▸ List.mem_map_of_mem he
  obtain ⟨i, hi, hname⟩ := List.mem_map.1 hname
  rw [← hname]
  exact segmentName_lt (List.mem_range.1 hi) h.few

/-- The next segment does not exist yet. -/
theorem absent (h : Laid journal k) : journal.find? (segmentName k) = none := by
  rw [SortedMap.find?_eq, Assoc.find_eq_none_iff]
  exact fun e he => (h.lt_of_mem he).ne

theorem entries_create (h : Laid journal k) (b : Bytes) :
    (journal.set (segmentName k) b).entries = journal.entries ++ [(segmentName k, b)] := by
  rw [SortedMap.entries_set]
  exact Assoc.set_append_of_lt fun e he => h.lt_of_mem he

/-- The last segment, and those before it. -/
theorem last (h : Laid journal (k + 1)) : ∃ before c, journal.entries = before ++ [(segmentName k, c)] ∧
    journal.find? (segmentName k) = some c ∧ before.map Prod.fst = (List.range k).map segmentName ∧
    ∀ b, (journal.set (segmentName k) b).entries = before ++ [(segmentName k, b)] := by
  have hne : journal.entries ≠ [] := List.ne_nil_of_length_pos (by rw [h.length]; exact Nat.succ_pos k)
  obtain ⟨before, ⟨name, c⟩, hentries⟩ : ∃ before e, journal.entries = before ++ [e] :=
    ⟨_, _, (List.dropLast_append_getLast hne).symm⟩
  have hnames := h.names
  rw [hentries, List.map_append, List.range_succ, List.map_append] at hnames
  obtain ⟨hbefore, hlast⟩ := List.append_inj' hnames rfl
  obtain rfl : name = segmentName k := by simpa using hlast
  have hbelow : ∀ e ∈ before, e.1 < segmentName k := by
    intro e he
    have hname : e.1 ∈ (List.range k).map segmentName := hbefore ▸ List.mem_map_of_mem he
    obtain ⟨i, hi, hname⟩ := List.mem_map.1 hname
    rw [← hname]
    exact segmentName_lt (List.mem_range.1 hi) (Nat.le_of_succ_le h.few)
  refine ⟨before, c, hentries, ?_, hbefore, fun b => ?_⟩
  · rw [SortedMap.find?_eq, hentries]
    exact Assoc.find_append_last hbelow
  · rw [SortedMap.entries_set, hentries]
    exact Assoc.set_append_cons hbelow []

/-- A new segment behind those there are. -/
theorem create (h : Laid journal k) {b : Bytes} (hk : k ≤ maxLedgerSegments) (hb : Reached b b.length)
    (hsize : b.length ≤ maxSegmentBytes) (hne : b ≠ []) : Laid (journal.set (segmentName k) b) (k + 1) where
  names := by
    rw [h.entries_create, List.map_append, h.names, List.range_succ, List.map_append]
    rfl
  whole := by
    rw [h.entries_create]
    exact List.forall_mem_append.2 ⟨h.whole, List.forall_mem_singleton.2 hb⟩
  sizes := by
    rw [h.entries_create]
    exact List.forall_mem_append.2 ⟨h.sizes, List.forall_mem_singleton.2 hsize⟩
  nonempty := by
    rw [h.entries_create]
    exact List.forall_mem_append.2 ⟨h.nonempty, List.forall_mem_singleton.2 hne⟩
  few := Nat.succ_le_succ hk

/-- The last segment with other bytes. -/
theorem extend (h : Laid journal (k + 1)) {b : Bytes} (hb : Reached b b.length) (hsize : b.length ≤ maxSegmentBytes)
    (hne : b ≠ []) : Laid (journal.set (segmentName k) b) (k + 1) := by
  obtain ⟨before, c, hentries, -, hnames, hset⟩ := h.last
  have hbefore : ∀ e ∈ before, e ∈ journal.entries := fun e he => hentries ▸ List.mem_append_left _ he
  refine ⟨?_, ?_, ?_, ?_, h.few⟩
  · rw [hset, List.map_append, hnames, List.range_succ, List.map_append]
    rfl
  · rw [hset]
    exact List.forall_mem_append.2 ⟨fun e he => h.whole e (hbefore e he), List.forall_mem_singleton.2 hb⟩
  · rw [hset]
    exact List.forall_mem_append.2 ⟨fun e he => h.sizes e (hbefore e he), List.forall_mem_singleton.2 hsize⟩
  · rw [hset]
    exact List.forall_mem_append.2 ⟨fun e he => h.nonempty e (hbefore e he), List.forall_mem_singleton.2 hne⟩

end Laid

/-! ## Whole frames behind whole frames -/

/-- A frame is parsed the same whatever follows it. -/
theorem parseFrame_append {bytes : Bytes} {offset consumed : Nat} {record : Record}
    (h : parseFrame bytes offset = .ok (record, consumed)) (rest : Bytes) :
    parseFrame (bytes ++ rest) offset = .ok (record, consumed) := by
  have hend := (parseFrame_length h).2
  rw [parseFrame_eq_ok_iff] at h ⊢
  obtain ⟨hfits, hmagic, hversion, hbound, hcrc, hdigest, hrecord, hconsumed⟩ := h
  have hheader : 92 ≤ frameHeaderBytes + readLe (slice 16 8 (bytes.drop offset)) := Nat.le_add_right _ _
  rw [List.drop_append_of_le_length (by omega)]
  rw [slice_append_left _ (by omega), slice_append_left _ (by omega), slice_append_left _ (by omega),
    slice_append_left _ (by omega), slice_append_left _ (by omega), slice_append_left _ (by omega),
    slice_append_left _ (by omega), slice_append_left _ (by omega), slice_append_left _ (by omega),
    slice_append_left _ (by omega)]
  refine ⟨?_, hmagic, hversion, hbound, hcrc, hdigest, hrecord, hconsumed⟩
  rw [List.length_append]
  omega

theorem Reached.append {bytes : Bytes} {offset : Nat} (h : Reached bytes offset) (rest : Bytes) :
    Reached (bytes ++ rest) offset := by
  obtain ⟨k, hk⟩ := h
  refine ⟨k, ?_⟩
  induction k generalizing offset with
  | zero => exact hk
  | succ k ih =>
    obtain ⟨before, record, consumed, hbefore, hp, rfl⟩ := frameOffset_pred hk
    exact frameOffset_succ (ih hbefore) (parseFrame_append hp rest)

/-- A row of whole frames with one more frame behind it. -/
theorem reached_snoc {bytes : Bytes} (h : Reached bytes bytes.length) (type : RecordType) (sequence : UInt64)
    {payload : Bytes} (link : Digest) (hp : payload.length ≤ maxRecordBytes) :
    Reached (bytes ++ (buildFrame type sequence payload link).bytes)
      (bytes ++ (buildFrame type sequence payload link).bytes).length := by
  have hparse := parseFrame_buildFrame type sequence payload link hp bytes []
  rw [List.append_nil] at hparse
  have hnext := FrameAt.next ⟨h.append _, hparse⟩
  rwa [List.length_append, length_buildFrame]

/-- An open leaves segments of whole frames as they are, whether it succeeds or not. -/
theorem openLedger_whole (io : OpenIo) (coordinator : CoordinatorId) (trustDigest : Digest) (incarnation : Incarnation)
    {dir : Directory} (h : ∀ e ∈ dir.journal.entries, Reached e.2 e.2.length) :
    (openLedger io coordinator trustDigest incarnation dir).2.journal = dir.journal := by
  by_cases hreaches : ReachesRepair io coordinator trustDigest dir
  · rcases openLedger_repaired incarnation hreaches with ⟨hsame, -⟩ | ⟨before, name, bytes, behind, offset, hentries, -,
      hreached, hinside, hearly, -⟩
    · exact hsame
    · have hmem : (name, bytes) ∈ dir.journal.entries := by rw [hentries]; simp
      exact absurd ⟨offset, hreached, hinside, hearly⟩ (not_tornSegment (h _ hmem))
  · exact openLedger_unrepaired incarnation hreaches

/-! ## What an open counts -/

theorem Laid.discover {journal : SortedMap Bytes Bytes} {k : Nat} (h : Laid journal k) :
    discoverSegments journal.entries {} = .ok
      { segmentCount := k
        retainedBytes := (journal.entries.map fun e => e.2.length).sum
        segment := k - 1 } := by
  have hlen := h.length
  rw [discoverSegments_named journal.entries 0 {} (by rw [h.names, hlen, List.range_eq_range']) le_rfl
    (by rw [hlen, Nat.zero_add]; exact h.few), hlen]
  simp only [Nat.zero_add]
  congr 2
  split
  · rename_i hnil
    rw [hnil] at hlen
    rw [← hlen]
    rfl
  · rfl

/-- What a handle starts with: the layout of the files as the open leaves them. -/
theorem openLedger_ok {io : OpenIo} {coordinator : CoordinatorId} {trustDigest : Digest} {incarnation : Incarnation}
    {dir dir' : Directory} {l : Handle} {report : RecoveryReport}
    (h : openLedger io coordinator trustDigest incarnation dir = (.ok (l, report), dir')) :
    ∃ layout, discoverSegments dir'.journal.entries {} = .ok layout ∧ l.segment = layout.segment ∧
      l.segmentBytes = ((dir'.journal.find? (segmentName layout.segment)).map List.length).getD 0 ∧
      l.segmentCount = layout.segmentCount ∧ l.retainedBytes = layout.retainedBytes ∧ l.isOpen = true := by
  obtain ⟨previous, -, hfrom⟩ := openLedger_openFrom h
  obtain ⟨_, _, repaired, layout, -, -, hdiscover, -, rfl, rfl⟩ := openFrom_ok hfrom
  exact ⟨layout, hdiscover, rfl, rfl, rfl, rfl, rfl⟩

/-! ## What an append counts -/

/-- The bounds that an append has passed, and whether it rotates. -/
theorem prepareAppend_ok {l l' : Handle} {payload : Bytes} (h : prepareAppend l payload = (.ok (), l')) :
    payload.length ≤ maxRecordBytes ∧ frameHeaderBytes + payload.length ≤ maxSegmentBytes ∧
      ((l.segmentBytes + (frameHeaderBytes + payload.length) ≤ maxSegmentBytes ∧ l' = l) ∨
        (maxSegmentBytes < l.segmentBytes + (frameHeaderBytes + payload.length) ∧ l.segmentCount < maxLedgerSegments ∧
          l' = { l with segment := l.segment + 1, segmentBytes := 0, segmentCount := l.segmentCount + 1 })) := by
  unfold prepareAppend at h
  simp only at h
  split at h
  · cases h
  · split at h
    · cases h
    · rename_i hpayload
      split at h
      · cases h
      · rename_i hframe
        refine ⟨not_lt.1 hpayload, not_lt.1 hframe, ?_⟩
        by_cases hfull : l.segmentBytes + (frameHeaderBytes + payload.length) > maxSegmentBytes
        · rw [if_pos hfull] at h
          unfold rotateSegment at h
          by_cases hcount : l.segmentCount ≥ maxLedgerSegments
          · rw [if_pos hcount] at h
            cases h
          · rw [if_neg hcount] at h
            simp only at h
            split at h
            · cases h
            · cases h
              exact .inr ⟨hfull, not_le.1 hcount, rfl⟩
        · rw [if_neg hfull] at h
          simp only at h
          split at h
          · cases h
          · cases h
            exact .inl ⟨not_lt.1 hfull, rfl⟩

/-- A frame written to the segment that a handle appends to, and the counters behind it. -/
structure Wrote (h h' : Handle) (dir dir' : Directory) (frame : Bytes) : Prop where
  journal : dir'.journal = dir.journal.set (segmentName h.segment)
    ((dir.journal.find? (segmentName h.segment)).getD [] ++ frame)
  segment : h'.segment = h.segment
  segmentBytes : h'.segmentBytes = h.segmentBytes + frame.length
  segmentCount : h'.segmentCount = h.segmentCount
  retainedBytes : h'.retainedBytes = h.retainedBytes + frame.length

theorem append_wrote {h h' : Handle} {dir dir' : Directory} {type : RecordType} {payload : Bytes} {sequence : UInt64}
    (happend : Ledger.append .succeeds type payload h dir = (.ok sequence, h', dir')) :
    ∃ h₁, prepareAppend h payload = (.ok (), h₁) ∧
      Wrote h₁ h' dir dir' (buildFrame type (h₁.head.lastSequence + 1) payload h₁.chain).bytes := by
  cases hprep : prepareAppend h payload with
  | mk r h₁ =>
  cases r with
  | error f => rw [Ledger.append, hprep] at happend; cases happend
  | ok u =>
    rw [append_succeeds_eq hprep] at happend
    cases happend
    exact ⟨h₁, rfl, rfl, rfl, by rw [length_buildFrame], rfl, by rw [length_buildFrame]⟩

/-- What a handle's counters say of a journal of `k` segments, of which the open found some number: a handle that found
none misses the first in its count. -/
structure Tallied (h : Handle) (journal : SortedMap Bytes Bytes) (k found : Nat) : Prop where
  segment : h.segment = k - 1
  segmentBytes : h.segmentBytes = ((journal.find? (segmentName h.segment)).map List.length).getD 0
  retainedBytes : h.retainedBytes = journal.total List.length
  segmentCount : h.segmentCount = if found = 0 then k - 1 else k
  found : found ≤ k

section Wrote

variable {h h' : Handle} {dir dir' : Directory} {frame : Bytes} {k found : Nat}

/-- The handle and the files behind a frame that begins a segment of its own. -/
theorem Wrote.create (hw : Wrote h h' dir dir' frame) (hl : Laid dir.journal k) (hk : k ≤ maxLedgerSegments)
    (hsegment : h.segment = k) (hbytes : h.segmentBytes = 0) (hretained : h.retainedBytes = dir.journal.total List.length)
    (hcount : h.segmentCount = if found = 0 then k else k + 1) (hfound : found ≤ k)
    (hframe : Reached frame frame.length) (hsize : frame.length ≤ maxSegmentBytes) (hne : frame ≠ []) :
    Laid dir'.journal (k + 1) ∧ Tallied h' dir'.journal (k + 1) found := by
  have hjournal := hw.journal
  rw [hsegment, hl.absent, Option.getD_none, List.nil_append] at hjournal
  rw [hjournal]
  refine ⟨hl.create hk hframe hsize hne, ?_, ?_, ?_, ?_, Nat.le_succ_of_le hfound⟩
  · rw [hw.segment, hsegment, Nat.add_sub_cancel]
  · rw [hw.segment, hsegment, hw.segmentBytes, hbytes, SortedMap.find?_set_self, Option.map_some, Option.getD_some,
      Nat.zero_add]
  · have htotal := SortedMap.total_set List.length dir.journal (segmentName k) frame
    rw [hl.absent, Option.map_none, Option.getD_none, Nat.add_zero] at htotal
    rw [hw.retainedBytes, hretained, htotal]
  · rw [hw.segmentCount, hcount, Nat.add_sub_cancel]

/-- The handle and the files behind a frame that extends the last segment. -/
theorem Wrote.extend (hw : Wrote h h' dir dir' frame) (hl : Laid dir.journal (k + 1))
    (ht : Tallied h dir.journal (k + 1) found)
    (hframe : ∀ c, Reached c c.length → Reached (c ++ frame) (c ++ frame).length)
    (hsize : h.segmentBytes + frame.length ≤ maxSegmentBytes) (hne : frame ≠ []) :
    Laid dir'.journal (k + 1) ∧ Tallied h' dir'.journal (k + 1) found := by
  have hsegment : h.segment = k := ht.segment
  obtain ⟨before, c, hentries, hfind, -, -⟩ := hl.last
  have hc : (segmentName k, c) ∈ dir.journal.entries := by rw [hentries]; simp
  have hbytes := ht.segmentBytes
  rw [hsegment, hfind, Option.map_some, Option.getD_some] at hbytes
  have hjournal := hw.journal
  rw [hsegment, hfind, Option.getD_some] at hjournal
  rw [hjournal]
  refine ⟨hl.extend (hframe c (hl.whole _ hc)) ?_ (List.append_ne_nil_of_right_ne_nil _ hne), ?_, ?_, ?_, hw.segmentCount.trans ht.segmentCount, ht.found⟩
  · rw [List.length_append, ← hbytes]
    exact hsize
  · rw [hw.segment, hsegment, Nat.add_sub_cancel]
  · rw [hw.segment, hsegment, hw.segmentBytes, hbytes, SortedMap.find?_set_self, Option.map_some, Option.getD_some,
      List.length_append]
  · have htotal := SortedMap.total_set List.length dir.journal (segmentName k) (c ++ frame)
    rw [hfind, Option.map_some, Option.getD_some, List.length_append] at htotal
    rw [hw.retainedBytes, ht.retainedBytes]
    omega

/-- A successful append begins a segment exactly when its frame does not fit the one appended to, or is the first. -/
theorem Tallied.append (ht : Tallied h dir.journal k found) (hl : Laid dir.journal k) {type : RecordType}
    {payload : Bytes} {sequence : UInt64}
    (happend : Ledger.append .succeeds type payload h dir = (.ok sequence, h', dir')) :
    ∃ k', k' = (if maxSegmentBytes < h.segmentBytes + (frameHeaderBytes + payload.length) then k + 1 else max k 1) ∧
      (maxSegmentBytes < h.segmentBytes + (frameHeaderBytes + payload.length) → h.segmentCount < maxLedgerSegments) ∧
      Laid dir'.journal k' ∧ Tallied h' dir'.journal k' found := by
  obtain ⟨h₁, hprep, hw⟩ := append_wrote happend
  obtain ⟨hp, hsize, hcases⟩ := prepareAppend_ok hprep
  generalize hframe : (buildFrame type (h₁.head.lastSequence + 1) payload h₁.chain).bytes = frame at hw
  have hlength : frame.length = frameHeaderBytes + payload.length := by rw [← hframe, length_buildFrame]
  have hwhole : ∀ c, Reached c c.length → Reached (c ++ frame) (c ++ frame).length := fun c hc => by
    rw [← hframe]
    exact reached_snoc hc type _ _ hp
  have hfirst : Reached frame frame.length := by simpa using hwhole [] (reached_start [])
  have hne : frame ≠ [] := List.ne_nil_of_length_pos (by rw [hlength, frameHeaderBytes]; omega)
  rw [← hlength] at hsize hcases ⊢
  rcases hcases with ⟨hfits, rfl⟩ | ⟨hfull, hcount, rfl⟩
  · refine ⟨max k 1, (if_neg (not_lt.2 hfits)).symm, fun hfull => absurd hfits (not_le.2 hfull), ?_⟩
    cases k with
    | zero =>
      have hfound := Nat.le_zero.1 ht.found
      have hbytes := ht.segmentBytes
      rw [ht.segment, hl.absent] at hbytes
      exact hw.create hl (Nat.zero_le _) ht.segment hbytes ht.retainedBytes (by rw [ht.segmentCount, hfound]; rfl)
        ht.found hfirst hsize hne
    | succ k =>
      rw [Nat.max_eq_left (Nat.succ_le_succ (Nat.zero_le k))]
      exact hw.extend hl ht hwhole hfits hne
  · refine ⟨k + 1, (if_pos hfull).symm, fun _ => hcount, ?_⟩
    have hsegmentCount := ht.segmentCount
    -- only a segment that exists can be full
    cases k with
    | zero =>
      have hbytes := ht.segmentBytes
      rw [ht.segment, hl.absent] at hbytes
      rw [hbytes, Option.map_none, Option.getD_none, Nat.zero_add] at hfull
      omega
    | succ k =>
      refine hw.create hl ?_ (by rw [ht.segment]; rfl) rfl ht.retainedBytes ?_ ht.found hfirst hsize hne
      · split at hsegmentCount <;> omega
      · rw [hsegmentCount]
        split <;> simp

end Wrote

/-! ## Any number of opens and appends -/

/-- A directory in use: its files, the open handle with the number of segment files its open found, and the number of
appends made so far. -/
structure Usage where
  dir : Directory
  handle : Option Handle
  found : Nat
  appends : Nat

/-- What is done with the directory. -/
inductive Use
  | open (io : OpenIo) (coordinator : CoordinatorId) (trustDigest : Digest) (incarnation : Incarnation)
  | append (type : RecordType) (payload : Bytes)

/-- The counters of a handle match the files: their number, their bytes, and those of the one appended to. -/
structure Matches (h : Handle) (dir : Directory) : Prop where
  segmentCount : h.segmentCount = dir.journal.entries.length
  retainedBytes : h.retainedBytes = dir.journalBytes
  segmentBytes : ∃ bytes, dir.journal.find? (segmentName h.segment) = some bytes ∧ h.segmentBytes = bytes.length

/-- The accounting of a handle is exact, and the files are within their bounds. -/
structure Exact (h : Handle) (dir : Directory) : Prop extends Matches h dir where
  segments : dir.journal.entries.length ≤ maxLedgerSegments
  sizes : ∀ e ∈ dir.journal.entries, e.2.length ≤ maxSegmentBytes

/-- Of a journal that has segments, the counters match the files unless the open found none. -/
theorem Tallied.matches_iff {h : Handle} {dir : Directory} {k found : Nat} (ht : Tallied h dir.journal k found)
    (hl : Laid dir.journal k) (hk : k ≠ 0) : Matches h dir ↔ found ≠ 0 := by
  constructor
  · rintro hm hfound
    have hcount := hm.segmentCount
    rw [hl.length, ht.segmentCount, if_pos hfound] at hcount
    omega
  · intro hfound
    obtain ⟨k, rfl⟩ := Nat.exists_eq_succ_of_ne_zero hk
    obtain ⟨before, c, -, hfind, -, -⟩ := hl.last
    have hbytes := ht.segmentBytes
    have hsegment : h.segment = k := ht.segment
    rw [hsegment, hfind] at hbytes
    refine ⟨?_, ht.retainedBytes, c, by rw [hsegment]; exact hfind, hbytes⟩
    rw [hl.length, ht.segmentCount, if_neg hfound]

namespace Usage

/-- A directory nothing was written to yet. -/
def start (path : Bytes) : Usage := ⟨.fresh path, none, 0, 0⟩

/-- One open, which may fail, or one successful append; `none` where an append does not succeed. -/
def step (u : Usage) : Use → Option Usage
  | .open io coordinator trustDigest incarnation =>
    match openLedger io coordinator trustDigest incarnation u.dir with
    | (.error _, dir) => some { u with dir := dir, handle := none }
    | (.ok (h, _), dir) => some { u with dir := dir, handle := some h, found := u.dir.journal.entries.length }
  | .append type payload =>
    match u.handle with
    | none => none
    | some h =>
      match Ledger.append .succeeds type payload h u.dir with
      | (.error _, _, _) => none
      | (.ok _, h, dir) => some { u with dir := dir, handle := some h, appends := u.appends + 1 }

def Step (u : Usage) (a : Use) (v : Usage) : Prop := u.step a = some v

/-- Any step at all. -/
def AnyUse (_ : Usage) (_ : Use) : Prop := True

instance (u : Usage) (a : Use) : Decidable (u.AnyUse a) := inferInstanceAs (Decidable True)

/-- An append through a handle that found no segment does not begin a segment beyond the bound. -/
def WithinSegments (u : Usage) : Use → Prop
  | .append _ payload => ∀ h, u.handle = some h → u.found = 0 → u.dir.journal.entries.length = maxLedgerSegments →
      h.segmentBytes + (frameHeaderBytes + payload.length) ≤ maxSegmentBytes
  | .open .. => True

/-- The invariant of the books: the segments stand in a row, and the handle's counters say how. -/
structure Inv (u : Usage) (k : Nat) : Prop where
  laid : Laid u.dir.journal k
  tallied : ∀ h, u.handle = some h → Tallied h u.dir.journal k u.found
  used : u.appends ≠ 0 → k ≠ 0

variable {u v : Usage} {k : Nat}

theorem inv_start (path : Bytes) : (start path).Inv 0 where
  laid := ⟨rfl, fun _ h => (nomatch h), fun _ h => (nomatch h), fun _ h => (nomatch h), Nat.zero_le _⟩
  tallied := fun _ h => by cases h
  used := fun h => absurd rfl h

/-- An open leaves the segments as they are, and a handle it gives counts them. -/
theorem Inv.open (hi : u.Inv k) {io : OpenIo} {coordinator : CoordinatorId} {trustDigest : Digest}
    {incarnation : Incarnation} (hs : u.Step (.open io coordinator trustDigest incarnation) v) : v.Inv k := by
  have hjournal := openLedger_whole io coordinator trustDigest incarnation hi.laid.whole
  unfold Step step at hs
  simp only at hs
  split at hs
  · rename_i f dir hopen
    rw [hopen] at hjournal
    cases hs
    exact ⟨by rw [show dir.journal = u.dir.journal from hjournal]; exact hi.laid, (fun _ h => by cases h), hi.used⟩
  · rename_i h report dir hopen
    rw [hopen] at hjournal
    have hsame : dir.journal = u.dir.journal := hjournal
    cases hs
    refine ⟨by rw [hsame]; exact hi.laid, fun h' hh => ?_, hi.used⟩
    cases hh
    obtain ⟨layout, hlayout, hsegment, hbytes, hcount, hretained, -⟩ := openLedger_ok hopen
    rw [hsame, hi.laid.discover] at hlayout
    cases hlayout
    refine ⟨hsegment, by rw [hbytes, hsegment], by rw [hretained, hsame]; rfl, ?_, hi.laid.length.le⟩
    have hlen := hi.laid.length
    rw [hcount]
    simp only [hlen]
    split
    · rename_i hnone
      rw [hnone]
    · rfl

/-- One step: the segments stay or become one more, and go beyond their bound only where the guard is not met. -/
theorem Inv.step (hi : u.Inv k) {a : Use} (hs : u.Step a v) : ∃ k', v.Inv k' ∧ k ≤ k' ∧
    (u.WithinSegments a → k ≤ maxLedgerSegments → k' ≤ maxLedgerSegments) ∧
    (¬u.WithinSegments a → maxLedgerSegments < k') := by
  cases a with
  | «open» io coordinator trustDigest incarnation =>
    exact ⟨k, hi.open hs, le_rfl, fun _ hk => hk, fun hg => absurd trivial hg⟩
  | append type payload =>
    unfold Step Usage.step at hs
    cases hh : u.handle with
    | none => rw [hh] at hs; cases hs
    | some h =>
      simp only [hh] at hs
      split at hs
      · cases hs
      · rename_i sequence h' dir' happend
        cases hs
        have ht := hi.tallied h hh
        obtain ⟨k', hk', hcount, hl', ht'⟩ := ht.append hi.laid happend
        have hsegmentCount := ht.segmentCount
        have hle : k ≤ k' := by rw [hk']; split <;> omega
        have hpos : k' ≠ 0 := by rw [hk']; split <;> omega
        refine ⟨k', ⟨hl', fun h'' hh' => by cases hh'; exact ht', fun _ => hpos⟩, hle, fun hg hk => ?_, fun hg => ?_⟩
        · rw [hk']
          split
          · rename_i hfull
            have hbelow := hcount hfull
            by_cases hfound : u.found = 0
            · have hne : k ≠ maxLedgerSegments := fun he =>
                absurd (hg h hh hfound (by rw [hi.laid.length]; exact he)) (not_le.2 hfull)
              omega
            · rw [if_neg hfound] at hsegmentCount
              omega
          · have : 1 ≤ maxLedgerSegments := by decide
            omega
        · simp only [WithinSegments, not_forall, not_le] at hg
          obtain ⟨h'', hh', hfound, hfiles, hfull⟩ := hg
          rw [hh] at hh'
          cases hh'
          rw [hi.laid.length] at hfiles
          rw [hk', if_pos hfull, hfiles]
          exact Nat.lt_succ_self _

/-- A run: the segments grow in number, and their number is within its bound at the end exactly when every step met the
guard. -/
theorem Inv.run {us : List Use} (hrun : Run Step AnyUse u us v) (hi : u.Inv k) : ∃ k', v.Inv k' ∧ k ≤ k' ∧
    (k ≤ maxLedgerSegments → (k' ≤ maxLedgerSegments ↔ Run Step WithinSegments u us v)) := by
  induction hrun generalizing k with
  | nil u => exact ⟨k, hi, le_rfl, fun hk => iff_of_true hk (.nil u)⟩
  | @cons u w v a us _ hs rest ih =>
    obtain ⟨k₁, hi₁, hle₁, hkeeps, hbreaks⟩ := hi.step hs
    obtain ⟨k', hi', hle', hiff⟩ := ih hi₁
    refine ⟨k', hi', le_trans hle₁ hle', fun hk => ⟨fun hk' => ?_, fun hguarded => ?_⟩⟩
    · have hg : u.WithinSegments a := by
        by_contra hg
        exact absurd (lt_of_lt_of_le (hbreaks hg) hle') (not_lt.2 hk')
      exact .cons hg hs ((hiff (le_trans hle' hk')).1 hk')
    · cases hguarded with
      | cons hg hs' rest' =>
        rename_i w'
        obtain rfl : w = w' := Option.some.inj (hs.symm.trans hs')
        exact (hiff (hkeeps hg hk)).2 rest'

/-- In every state that opens and successful appends lead to, one append made, the accounting of the handle is exact
exactly when its open found a segment and no append of the run began a segment beyond the bound. -/
theorem accounting_exact_iff {path : Bytes} {us : List Use} {t : Usage} {h : Handle}
    (hrun : Run Step AnyUse (start path) us t) (hh : t.handle = some h) (happends : t.appends ≠ 0) :
    Exact h t.dir ↔ t.found ≠ 0 ∧ Run Step WithinSegments (start path) us t := by
  obtain ⟨k, hi, -, hiff⟩ := (inv_start path).run hrun
  rw [← hiff (Nat.zero_le _)]
  have ht := hi.tallied h hh
  have hk := hi.used happends
  have hlen := hi.laid.length
  constructor
  · intro he
    exact ⟨(ht.matches_iff hi.laid hk).1 he.toMatches, hlen ▸ he.segments⟩
  · rintro ⟨hfound, hbound⟩
    exact ⟨(ht.matches_iff hi.laid hk).2 hfound, by rw [hlen]; exact hbound, hi.laid.sizes⟩

/-- One append to a fresh directory, which is then opened again. -/
def countedUses : List Use :=
  [.open .succeeds .zero .zero .zero, .append .genesis (utf8 "{}"), .open .succeeds .zero .zero .zero]

set_option maxRecDepth 100000 in
theorem accounting_exact_iff_counted : ∃ t h, t.appends = 1 ∧ t.found = 1 ∧
    (Exact h t.dir ↔ t.found ≠ 0 ∧ Run Step WithinSegments (start (utf8 "/w")) countedUses t) := by
  have hspec : (exec Usage.step AnyUse (start (utf8 "/w")) countedUses).map
      (fun t => (t.handle.isSome, t.appends, t.found)) = some (true, 1, 1) := by decide +kernel
  obtain ⟨t, ht, hvalues⟩ := Option.map_eq_some_iff.1 hspec
  simp only [Prod.mk.injEq] at hvalues
  obtain ⟨hhandle, happends, hfound⟩ := hvalues
  obtain ⟨h, hh⟩ := Option.isSome_iff_exists.1 hhandle
  exact ⟨t, h, happends, hfound, accounting_exact_iff (run_of_exec _ _ ht) hh (by rw [happends]; decide)⟩

set_option maxRecDepth 100000 in
/-- After the first append to a fresh directory there is one segment file, and the ledger counts none. -/
theorem accounting_misses : ¬∀ (path : Bytes) (us : List Use) (t : Usage) (h : Handle),
    Run Step AnyUse (start path) us t → t.handle = some h → t.appends ≠ 0 → Exact h t.dir := by
  intro hall
  have hspec : (exec Usage.step AnyUse (start (utf8 "/w")) (countedUses.take 2)).map
      (fun t => (t.handle.map Handle.segmentCount, t.appends, t.dir.journal.entries.length)) = some (some 0, 1, 1) := by
    decide +kernel
  obtain ⟨t, ht, hvalues⟩ := Option.map_eq_some_iff.1 hspec
  simp only [Prod.mk.injEq] at hvalues
  obtain ⟨hhandle, happends, hfiles⟩ := hvalues
  obtain ⟨h, hh, hcount⟩ := Option.map_eq_some_iff.1 hhandle
  have he := hall _ _ t h (run_of_exec _ _ ht) hh (by rw [happends]; decide)
  have := he.segmentCount
  rw [hcount, hfiles] at this
  cases this

end Usage

end Ledger

end Wnc
