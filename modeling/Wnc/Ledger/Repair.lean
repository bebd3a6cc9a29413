/-
The repair of a torn tail over any journal whatever. The frames of a segment are those the reader accepts one after
another from its start. An open cuts the segment that ends early behind its frames, and deletes every segment behind
that one: it removes nothing but frames that end early exactly when the deleted segments held nothing else.
-/
import Wnc.Ledger.Journal
import Wnc.Ledger.Opening

namespace Wnc

open Lib

namespace Ledger

/-! ## The frames of a segment -/

/-- Where the frame behind the first `k` frames of a segment starts, the segment being parsed from its start. -/
def frameOffset (bytes : Bytes) : Nat → Option Nat
  | 0 => some 0
  | k + 1 =>
    match frameOffset bytes k with
    | none => none
    | some offset =>
      match parseFrame bytes offset with
      | .error _ => none
      | .ok (_, consumed) => some (offset + consumed)

/-- Parsing a segment from its start gets to this offset. -/
def Reached (bytes : Bytes) (offset : Nat) : Prop := ∃ k, frameOffset bytes k = some offset

/-- A frame that the reader accepts when the segment is parsed from its start. -/
def FrameAt (bytes : Bytes) (offset : Nat) (record : Record) (consumed : Nat) : Prop :=
  Reached bytes offset ∧ parseFrame bytes offset = .ok (record, consumed)

/-- What stands at an offset is a frame that ends early. -/
def EndsEarly (bytes : Bytes) (offset : Nat) : Prop :=
  ∃ message, parseFrame bytes offset = .error ⟨.ledgerTruncated, message⟩

/-- A segment that ends with a part of a frame. -/
def TornSegment (bytes : Bytes) : Prop := ∃ offset, Reached bytes offset ∧ offset < bytes.length ∧ EndsEarly bytes offset

/-- A segment that holds at most a part of one frame. -/
def FramelessSegment (bytes : Bytes) : Prop := bytes = [] ∨ EndsEarly bytes 0

/-- A step that leaves every frame of the journal where it is, and removes from a segment at most a frame that ends
early behind them. A deleted file has no bytes left. -/
structure Keeps (dir dir' : Directory) : Prop where
  frames : ∀ name bytes, dir.journal.find? name = some bytes → ∀ offset record consumed,
    FrameAt bytes offset record consumed →
      ∃ bytes', dir'.journal.find? name = some bytes' ∧ FrameAt bytes' offset record consumed
  removed : ∀ name bytes, dir.journal.find? name = some bytes → ∀ left,
    (dir'.journal.find? name).getD [] = left →
      left = bytes ∨ ∃ offset, Reached bytes offset ∧ EndsEarly bytes offset ∧ left = bytes.take offset

theorem reached_start (bytes : Bytes) : Reached bytes 0 := ⟨0, rfl⟩

theorem frameOffset_succ {bytes : Bytes} {k offset consumed : Nat} {record : Record}
    (hk : frameOffset bytes k = some offset) (hp : parseFrame bytes offset = .ok (record, consumed)) :
    frameOffset bytes (k + 1) = some (offset + consumed) := by
  simp only [frameOffset, hk, hp]

theorem FrameAt.next {bytes : Bytes} {offset consumed : Nat} {record : Record}
    (h : FrameAt bytes offset record consumed) : Reached bytes (offset + consumed) := by
  obtain ⟨⟨k, hk⟩, hp⟩ := h
  exact ⟨k + 1, frameOffset_succ hk hp⟩

theorem frameOffset_pred {bytes : Bytes} {k offset : Nat} (h : frameOffset bytes (k + 1) = some offset) :
    ∃ before record consumed, frameOffset bytes k = some before ∧
      parseFrame bytes before = .ok (record, consumed) ∧ offset = before + consumed := by
  rw [frameOffset] at h
  split at h
  · cases h
  · rename_i before hk
    split at h
    · cases h
    · rename_i record consumed hp
      cases h
      exact ⟨before, record, consumed, hk, hp, rfl⟩

theorem frameOffset_mono {bytes : Bytes} {i : Nat} {a : Nat} (ha : frameOffset bytes i = some a) :
    ∀ {d b : Nat}, frameOffset bytes (i + d) = some b → a ≤ b := by
  intro d
  induction d with
  | zero =>
    intro b hb
    rw [Nat.add_zero, ha] at hb
    cases hb
    exact le_rfl
  | succ d ih =>
    intro b hb
    obtain ⟨before, _, consumed, hbefore, _, rfl⟩ := frameOffset_pred hb
    exact le_trans (ih hbefore) (Nat.le_add_right _ _)

/-- Two frames of a segment do not overlap: parsing gets to no offset inside a frame. -/
theorem FrameAt.disjoint {bytes : Bytes} {offset consumed other : Nat} {record : Record}
    (h : FrameAt bytes offset record consumed) (ho : Reached bytes other) : other ≤ offset ∨ offset + consumed ≤ other := by
  obtain ⟨⟨i, hi⟩, hp⟩ := h
  obtain ⟨j, hj⟩ := ho
  rcases Nat.lt_or_ge i j with hlt | hge
  · obtain ⟨d, rfl⟩ := Nat.exists_eq_add_of_le hlt
    exact .inr (frameOffset_mono (frameOffset_succ hi hp) hj)
  · obtain ⟨d, rfl⟩ := Nat.exists_eq_add_of_le hge
    exact .inl (frameOffset_mono hj hi)

theorem parseFrame_length {bytes : Bytes} {offset consumed : Nat} {record : Record}
    (h : parseFrame bytes offset = .ok (record, consumed)) : 0 < consumed ∧ offset + consumed ≤ bytes.length := by
  rw [parseFrame_eq_ok_iff, List.length_drop] at h
  obtain ⟨hfits, _, _, _, _, _, _, rfl⟩ := h
  have : 0 < frameHeaderBytes := by decide
  omega

theorem Reached.le_length {bytes : Bytes} {offset : Nat} (h : Reached bytes offset) : offset ≤ bytes.length := by
  obtain ⟨k, hk⟩ := h
  cases k with
  | zero => cases hk; exact Nat.zero_le _
  | succ k =>
    obtain ⟨_, _, _, _, hp, rfl⟩ := frameOffset_pred hk
    exact (parseFrame_length hp).2

/-- Parsing goes on to no offset behind one at which it fails. -/
theorem Reached.le_of_error {bytes : Bytes} {offset other : Nat} {f : Failure} (h : Reached bytes offset)
    (he : parseFrame bytes offset = .error f) (ho : Reached bytes other) : other ≤ offset := by
  obtain ⟨i, hi⟩ := h
  obtain ⟨j, hj⟩ := ho
  rcases Nat.lt_or_ge i j with hlt | hge
  · obtain ⟨d, rfl⟩ := Nat.exists_eq_add_of_le hlt
    have hnone : ∀ d, frameOffset bytes (i + 1 + d) = none := by
      intro d
      induction d with
      | zero => simp only [frameOffset, hi, he]
      | succ d ih => rw [← Nat.add_assoc, frameOffset, ih]
    rw [hnone] at hj
    cases hj
  · obtain ⟨d, rfl⟩ := Nat.exists_eq_add_of_le hge
    exact frameOffset_mono hj hi

/-! ## Cutting a segment -/

theorem slice_take {o k n : Nat} (bs : Bytes) (h : o + k ≤ n) : slice o k (bs.take n) = slice o k bs := by
  rw [slice, slice, List.drop_take, List.take_take, min_eq_left (by omega)]

/-- A frame in front of a cut is read as before. -/
theorem parseFrame_take {bytes : Bytes} {offset consumed n : Nat} {record : Record}
    (h : parseFrame bytes offset = .ok (record, consumed)) (hn : offset + consumed ≤ n) :
    parseFrame (bytes.take n) offset = .ok (record, consumed) := by
  rw [parseFrame_eq_ok_iff] at h ⊢
  rw [List.drop_take]
  obtain ⟨hfits, hmagic, hversion, hbound, hcrc, hdigest, hrecord, hconsumed⟩ := h
  have hheader : 92 ≤ frameHeaderBytes + readLe (slice 16 8 (bytes.drop offset)) := Nat.le_add_right _ _
  have hlength : slice 16 8 ((bytes.drop offset).take (n - offset)) = slice 16 8 (bytes.drop offset) :=
    slice_take _ (by omega)
  rw [hlength, slice_take _ (by omega), slice_take _ (by omega), slice_take _ (by omega), slice_take _ (by omega),
    slice_take _ (by omega), slice_take _ (by omega), slice_take _ (by omega), slice_take _ (by omega),
    slice_take _ (by omega)]
  refine ⟨?_, hmagic, hversion, hbound, hcrc, hdigest, hrecord, hconsumed⟩
  rw [List.length_take]
  omega

theorem frameOffset_take {bytes : Bytes} {n : Nat} : ∀ {k offset : Nat}, frameOffset bytes k = some offset →
    offset ≤ n → frameOffset (bytes.take n) k = some offset := by
  intro k
  induction k with
  | zero =>
    intro offset h _
    exact h
  | succ k ih =>
    intro offset h hn
    obtain ⟨before, record, consumed, hk, hp, rfl⟩ := frameOffset_pred h
    exact frameOffset_succ (ih hk (by omega)) (parseFrame_take hp hn)

/-- A cut where parsing stops keeps every frame. -/
theorem FrameAt.take {bytes : Bytes} {offset consumed n : Nat} {record : Record} {f : Failure}
    (h : FrameAt bytes offset record consumed) (hn : Reached bytes n) (he : parseFrame bytes n = .error f) :
    FrameAt (bytes.take n) offset record consumed := by
  obtain ⟨k, hk⟩ := h.1
  have hlast : offset + consumed ≤ n := hn.le_of_error he h.next
  exact ⟨⟨k, frameOffset_take hk (by omega)⟩, parseFrame_take h.2 hlast⟩

/-- Where every file keeps its bytes up to a frame that ends early, every frame is kept. -/
theorem keeps_of_removed {dir dir' : Directory}
    (h : ∀ name bytes, dir.journal.find? name = some bytes → ∀ left,
      (dir'.journal.find? name).getD [] = left →
        left = bytes ∨ ∃ offset, Reached bytes offset ∧ EndsEarly bytes offset ∧ left = bytes.take offset) :
    Keeps dir dir' := by
  refine ⟨?_, h⟩
  intro name bytes hfind offset record consumed hframe
  have hleft : FrameAt ((dir'.journal.find? name).getD []) offset record consumed := by
    rcases h name bytes hfind _ rfl with heq | ⟨n, hn, ⟨message, he⟩, heq⟩
    · rw [heq]; exact hframe
    · rw [heq]; exact hframe.take hn he
  cases hfind' : dir'.journal.find? name with
  | none =>
    -- no frame fits into no bytes
    rw [hfind'] at hleft
    have := parseFrame_length hleft.2
    simp only [Option.getD_none, List.length_nil] at this
    omega
  | some bytes' =>
    rw [hfind'] at hleft
    exact ⟨bytes', rfl, hleft⟩

/-! ## What a scan finds -/

theorem readAll_report {dir : Directory} {records : List Record} {report : RecoveryReport}
    (h : readAll dir = .ok (records, report)) :
    (scanSegments dir.journal.entries {}).failure = none ∧
      report = { (scanSegments dir.journal.entries {}).report with
        validRecords := (scanSegments dir.journal.entries {}).records.length } := by
  obtain ⟨hsound, _⟩ := readAll_eq_ok h
  unfold readAll readFrames at h
  simp only [hsound, Option.isSome_none, Bool.false_eq_true, if_false] at h
  cases h
  exact ⟨hsound, rfl⟩

namespace Scan

/-- A scan that met no torn segment. -/
structure Whole (s : Scan) : Prop where
  untorn : s.torn = false
  complete : s.report.truncatedBytes = 0
  behind : s.report.excessSegments = 0

/-- A scan that stopped in a segment at a frame that ends early. -/
structure StoppedIn (s : Scan) (bytes : Bytes) : Prop where
  torn : s.torn = true
  reached : Reached bytes s.report.validBytes
  inside : s.report.validBytes < bytes.length
  early : EndsEarly bytes s.report.validBytes
  truncated : s.report.truncatedBytes = bytes.length - s.report.validBytes

theorem accept_frame (s : Scan) (bytes : Bytes) (offset : Nat) (record : Record) (consumed : Nat) :
    (s.accept bytes offset record consumed).torn = s.torn ∧
      (s.accept bytes offset record consumed).report.truncatedBytes = s.report.truncatedBytes ∧
      (s.accept bytes offset record consumed).report.excessSegments = s.report.excessSegments := by
  unfold Scan.accept
  simp only
  split_ifs <;> exact ⟨rfl, rfl, rfl⟩

end Scan

/-- The scan of a segment either gets to its end or stops at a frame that ends early. -/
theorem scanSegment_end_or_stop {bytes : Bytes} : ∀ {fuel offset : Nat} {s : Scan}, s.Whole → Reached bytes offset →
    bytes.length ≤ offset + fuel → (scanSegment fuel bytes offset s).failure = none →
      (scanSegment fuel bytes offset s).report.excessSegments = 0 ∧
      (((scanSegment fuel bytes offset s).Whole ∧ Reached bytes bytes.length) ∨
        (scanSegment fuel bytes offset s).StoppedIn bytes) := by
  intro fuel
  induction fuel with
  | zero =>
    intro offset s hs hr hfuel _
    have hoffset : offset = bytes.length := le_antisymm hr.le_length hfuel
    exact ⟨hs.behind, .inl ⟨hs, hoffset ▸ hr⟩⟩
  | succ fuel ih =>
    intro offset s hs hr hfuel hsound
    rw [scanSegment] at hsound ⊢
    by_cases hend : bytes.length ≤ offset
    · have hoffset : offset = bytes.length := le_antisymm hr.le_length hend
      rw [if_pos hend]
      exact ⟨hs.behind, .inl ⟨hs, hoffset ▸ hr⟩⟩
    · rw [if_neg hend] at hsound ⊢
      cases hp : parseFrame bytes offset with
      | error f =>
        rw [hp] at hsound
        simp only [Scan.stop] at hsound ⊢
        by_cases hcode : f.code = .ledgerTruncated
        · rw [if_neg (not_not.2 hcode)]
          obtain ⟨code, message⟩ := f
          cases hcode
          exact ⟨hs.behind, .inr ⟨rfl, hr, not_le.1 hend, ⟨message, hp⟩, rfl⟩⟩
        · rw [if_pos hcode] at hsound
          cases hsound
      | ok frame =>
        obtain ⟨record, consumed⟩ := frame
        rw [hp] at hsound
        simp only at hsound ⊢
        obtain ⟨htorn, htruncated, hexcess⟩ := s.accept_frame bytes offset record consumed
        by_cases hfailed : (s.accept bytes offset record consumed).failure.isSome
        · rw [if_pos hfailed] at hsound
          rw [hsound] at hfailed
          cases hfailed
        · rw [if_neg hfailed] at hsound ⊢
          have hpos := (parseFrame_length hp).1
          exact ih ⟨htorn.trans hs.untorn, htruncated.trans hs.complete, hexcess.trans hs.behind⟩
            (FrameAt.next ⟨hr, hp⟩) (by omega) hsound

theorem scanSegments_torn (segments : List (Bytes × Bytes)) : ∀ {s : Scan}, s.torn = true →
    scanSegments segments s =
      { s with report := { s.report with excessSegments := s.report.excessSegments + segments.length } } := by
  induction segments with
  | nil => intro s _; rfl
  | cons e segments ih =>
    intro s hs
    rw [scanSegments, if_pos hs, ih (by exact hs)]
    simp only [List.length_cons, Nat.add_assoc, Nat.add_comm 1]

theorem not_tornSegment {bytes : Bytes} (h : Reached bytes bytes.length) : ¬ TornSegment bytes := by
  rintro ⟨offset, hr, hinside, message, he⟩
  exact absurd (hr.le_of_error he h) (not_le.2 hinside)

/-- The scan of a journal either reads every segment to its end, or stops in the first one that is torn. -/
theorem scanSegments_end_or_stop (segments : List (Bytes × Bytes)) : ∀ {s : Scan}, s.Whole →
    (scanSegments segments s).failure = none →
      ((scanSegments segments s).Whole ∧ ∀ e ∈ segments, ¬ TornSegment e.2) ∨
      ∃ before name bytes behind, segments = before ++ (name, bytes) :: behind ∧
        (∀ e ∈ before, ¬ TornSegment e.2) ∧ (scanSegments segments s).StoppedIn bytes ∧
        (scanSegments segments s).report.excessSegments = behind.length := by
  induction segments with
  | nil =>
    intro s hs _
    exact .inl ⟨hs, by simp⟩
  | cons e segments ih =>
    obtain ⟨name, bytes⟩ := e
    intro s hs hsound
    rw [scanSegments, if_neg (by rw [hs.untorn]; decide)] at hsound ⊢
    by_cases hlong : bytes.length > maxSegmentBytes + 1
    · rw [if_pos hlong] at hsound
      cases hsound
    · rw [if_neg hlong] at hsound ⊢
      simp only at hsound ⊢
      by_cases hfailed : (scanSegment bytes.length bytes 0 s).failure.isSome
      · rw [if_pos hfailed] at hsound
        rw [hsound] at hfailed
        cases hfailed
      · rw [if_neg hfailed] at hsound ⊢
        obtain ⟨hexcess, ⟨hwhole, hend⟩ | hstop⟩ := scanSegment_end_or_stop hs (reached_start bytes)
          (Nat.le_add_left _ _) (Option.not_isSome_iff_eq_none.1 hfailed)
        · rcases ih hwhole hsound with ⟨hall, hnone⟩ | ⟨before, name', bytes', behind, rfl, hbefore, hrest⟩
          · refine .inl ⟨hall, ?_⟩
            rintro e (_ | ⟨_, he⟩)
            · exact not_tornSegment hend
            · exact hnone e he
          · refine .inr ⟨(name, bytes) :: before, name', bytes', behind, rfl, ?_, hrest⟩
            rintro e (_ | ⟨_, he⟩)
            · exact not_tornSegment hend
            · exact hbefore e he
        · refine .inr ⟨[], name, bytes, segments, rfl, by simp, ?_, ?_⟩
          · rw [scanSegments_torn _ hstop.torn]
            exact ⟨hstop.torn, hstop.reached, hstop.inside, hstop.early, hstop.truncated⟩
          · rw [scanSegments_torn _ hstop.torn]
            simp only [hexcess, Nat.zero_add]

/-! ## The repair -/

/-- The repair cuts the segment the scan stopped in, and deletes those behind it. -/
theorem repairTornTail_find? {io : OpenIo} {scan : RecoveryReport} {dir : Directory} {before behind : List (Bytes × Bytes)}
    {name bytes : Bytes} (hentries : dir.journal.entries = before ++ (name, bytes) :: behind)
    (hbehind : scan.excessSegments = behind.length) (hio : io.truncation = none) (name' : Bytes) :
    (repairTornTail io scan dir).2.journal.find? name' =
      if name' ∈ behind.map Prod.fst then none
      else if name = name' then some (bytes.take scan.validBytes) else dir.journal.find? name' := by
  have hkept : (before ++ (name, bytes) :: behind).length - behind.length = before.length + 1 := by
    simp only [List.length_append, List.length_cons]; omega
  have hmany : (before ++ (name, bytes) :: behind).length > behind.length := by
    simp only [List.length_append, List.length_cons]; omega
  have hlast : (before ++ (name, bytes) :: behind)[before.length]? = some (name, bytes) := by
    rw [List.getElem?_append_right le_rfl, Nat.sub_self]; rfl
  have hdrop : (before ++ (name, bytes) :: behind).drop (before.length + 1) = behind := by
    rw [List.drop_append]; simp
  unfold repairTornTail
  simp only [hentries, hbehind, hio, if_pos hmany, hkept, Nat.add_sub_cancel, hlast, hdrop]
  rw [SortedMap.find?_filter, SortedMap.find?_set]
  have hall : (behind.all fun e => e.1 != name') = true ↔ name' ∉ behind.map Prod.fst := by
    rw [List.all_eq_true, List.mem_map]
    constructor
    · rintro h ⟨e, he, rfl⟩
      simpa using h e he
    · intro h e he
      rw [bne_iff_ne]
      rintro rfl
      exact h ⟨e, he, rfl⟩
  by_cases hmem : name' ∈ behind.map Prod.fst
  · rw [if_pos hmem, if_neg (fun h => hall.1 h hmem)]
  · rw [if_neg hmem, if_pos (hall.2 hmem)]
    by_cases hname : name = name'
    · rw [if_pos hname, if_pos hname]
    · rw [if_neg hname, if_neg hname]

/-- An open gets as far as the repair of the tail it finds torn, and the system lets it truncate. -/
def ReachesRepair (io : OpenIo) (coordinator : CoordinatorId) (trustDigest : Digest) (dir : Directory) : Prop :=
  io.ensuresDirectory = true ∧ io.pathsWithin = true ∧ (∃ previous, loadHead coordinator trustDigest dir = .ok previous) ∧
    (∃ records scan, readAll dir = .ok (records, scan)) ∧ io.truncation = none

section Open

variable {io : OpenIo} {coordinator : CoordinatorId} {trustDigest : Digest} {incarnation : Incarnation} {dir : Directory}

/-- Behind the boot record, an open changes the journal only by the repair. -/
theorem openFrom_journal {previous : Option (UInt64 × UInt64)} {records : List Record} {scan : RecoveryReport}
    (hread : readAll dir = .ok (records, scan)) :
    (openFrom io coordinator trustDigest incarnation previous dir).2.journal =
      if scan.truncatedBytes > 0 then (repairTornTail io scan dir).2.journal else dir.journal := by
  unfold openFrom
  simp only [hread]
  have hchoose : (if scan.truncatedBytes > 0 then (repairTornTail io scan dir).2.journal else dir.journal) =
      (if scan.truncatedBytes > 0 then repairTornTail io scan dir else (.ok (), dir)).2.journal := by
    split <;> rfl
  rw [hchoose]
  generalize (if scan.truncatedBytes > 0 then repairTornTail io scan dir else (.ok (), dir)) = repaired
  obtain ⟨_ | _, dir'⟩ := repaired
  · rfl
  · simp only
    split
    · rfl
    · unfold writeHead
      split
      · rename_i hwrite
        split at hwrite <;> cases hwrite
        rfl
      · rename_i hwrite
        split at hwrite <;> cases hwrite
        rfl

/-- An open that does not get as far as the repair leaves the journal as it is. -/
theorem openLedger_unrepaired (incarnation : Incarnation) (h : ¬ ReachesRepair io coordinator trustDigest dir) :
    (openLedger io coordinator trustDigest incarnation dir).2.journal = dir.journal := by
  rcases openLedger_cases io coordinator trustDigest incarnation dir with
    ⟨f, hf⟩ | ⟨previous, hensures, hwithin, hload, heq⟩
  · rw [hf]
  · rw [heq]
    cases hread : readAll dir with
    | error f => rw [openFrom, hread]
    | ok all =>
      obtain ⟨records, scan⟩ := all
      rw [openFrom_journal hread]
      cases htruncation : io.truncation with
      | none => exact absurd ⟨hensures, hwithin, ⟨previous, hload⟩, ⟨records, scan, hread⟩, htruncation⟩ h
      | some f =>
        split
        · unfold repairTornTail
          simp only [htruncation]
          split
          · rfl
          · rename_i hnone _
            cases hnone
          · rfl
        · rfl

/-- What an open that gets as far as the repair does to the journal: nothing where no segment is torn; otherwise the
first torn segment is cut behind its frames, and every segment behind it is deleted. -/
theorem openLedger_repaired (incarnation : Incarnation) (h : ReachesRepair io coordinator trustDigest dir) :
    ((openLedger io coordinator trustDigest incarnation dir).2.journal = dir.journal ∧
      ∀ e ∈ dir.journal.entries, ¬ TornSegment e.2) ∨
    ∃ before name bytes behind offset, dir.journal.entries = before ++ (name, bytes) :: behind ∧
      (∀ e ∈ before, ¬ TornSegment e.2) ∧ Reached bytes offset ∧ offset < bytes.length ∧ EndsEarly bytes offset ∧
      ∀ name', (openLedger io coordinator trustDigest incarnation dir).2.journal.find? name' =
        if name' ∈ behind.map Prod.fst then none
        else if name = name' then some (bytes.take offset) else dir.journal.find? name' := by
  obtain ⟨hensures, hwithin, ⟨previous, hload⟩, ⟨records, scan, hread⟩, hio⟩ := h
  rw [openLedger_loaded_eq hensures hwithin hload, openFrom_journal hread]
  obtain ⟨hsound, rfl⟩ := readAll_report hread
  rcases scanSegments_end_or_stop dir.journal.entries (s := {}) ⟨rfl, rfl, rfl⟩ hsound with
    ⟨hwhole, hnone⟩ | ⟨before, name, bytes, behind, hentries, hbefore, hstop, hbehind⟩
  · refine .inl ⟨if_neg ?_, hnone⟩
    simp only [hwhole.complete, gt_iff_lt, Nat.lt_irrefl, not_false_eq_true]
  · refine .inr ⟨before, name, bytes, behind, _, hentries, hbefore, hstop.reached, hstop.inside, hstop.early,
      fun name' => ?_⟩
    have hinside := hstop.inside
    rw [if_pos (by simp only [hstop.truncated]; omega)]
    exact repairTornTail_find? hentries hbehind hio name'

end Open

/-! ## When an open keeps every frame -/

theorem behind_subset {before before' behind behind' : List (Bytes × Bytes)} {e e' : Bytes × Bytes}
    (h : before ++ e :: behind = before' ++ e' :: behind') (hbefore : ∀ x ∈ before, ¬ TornSegment x.2)
    (he' : TornSegment e'.2) : behind' ⊆ behind := by
  rcases List.append_eq_append_iff.1 h with ⟨c, rfl, hc⟩ | ⟨c, rfl, hc⟩
  · cases c with
    | nil => cases hc; exact fun _ h => h
    | cons y c =>
      cases hc
      exact fun x hx => List.mem_append_right _ (List.mem_cons_of_mem _ hx)
  · cases c with
    | nil => cases hc; exact fun _ h => h
    | cons y c =>
      cases hc
      exact absurd he' (hbefore _ (List.mem_append_right _ List.mem_cons_self))

/-- A kept file that is deleted held at most a part of one frame. -/
theorem Keeps.frameless {dir dir' : Directory} (h : Keeps dir dir') {name bytes : Bytes}
    (hfind : dir.journal.find? name = some bytes) (hdeleted : dir'.journal.find? name = none) :
    FramelessSegment bytes := by
  rcases h.removed name bytes hfind [] (by rw [hdeleted]; rfl) with heq | ⟨offset, hr, he, heq⟩
  · exact .inl heq.symm
  · rcases List.take_eq_nil_iff.1 heq.symm with rfl | hnil
    · exact .inr he
    · exact .inl hnil

/-- An open keeps every frame of the journal, and removes nothing but frames that end early, exactly when it does not
get as far as its repair or every segment behind a torn one holds at most a part of one frame. -/
theorem openLedger_keeps_iff (io : OpenIo) (coordinator : CoordinatorId) (trustDigest : Digest) (incarnation : Incarnation)
    (dir : Directory) :
    Keeps dir (openLedger io coordinator trustDigest incarnation dir).2 ↔
      (ReachesRepair io coordinator trustDigest dir → ∀ before name bytes behind,
        dir.journal.entries = before ++ (name, bytes) :: behind → TornSegment bytes →
          ∀ e ∈ behind, FramelessSegment e.2) := by
  by_cases hreach : ReachesRepair io coordinator trustDigest dir
  · rcases openLedger_repaired incarnation hreach with
      ⟨hsame, hnone⟩ | ⟨before, name, bytes, behind, offset, hentries, hbefore, hreached, hinside, hearly, hfind⟩
    · constructor
      · intro _ _ before name bytes behind hentries htorn
        exact absurd htorn (hnone (name, bytes) (by rw [hentries]; simp))
      · intro _
        refine keeps_of_removed fun name bytes hname left hleft => .inl ?_
        rw [hsame, hname] at hleft
        exact hleft.symm
    · have hmem : ∀ e ∈ before ++ (name, bytes) :: behind, dir.journal.find? e.1 = some e.2 := by
        intro e he
        rw [SortedMap.find?_eq, dir.journal.sorted.find_eq_some_iff, hentries]
        exact he
      constructor
      · intro hkeeps _ before' name' bytes' behind' hentries' htorn e he
        have hbehind : e ∈ behind := behind_subset (hentries.symm.trans hentries') hbefore htorn he
        refine hkeeps.frameless (hmem e (by simp [hbehind])) ?_
        rw [hfind, if_pos (List.mem_map_of_mem hbehind)]
      · intro hcond
        have hframeless := hcond hreach before name bytes behind hentries ⟨offset, hreached, hinside, hearly⟩
        refine keeps_of_removed fun name' bytes' hname left hleft => ?_
        rw [hfind] at hleft
        by_cases hdeleted : name' ∈ behind.map Prod.fst
        · obtain ⟨e, he, rfl⟩ := List.mem_map.1 hdeleted
          rw [if_pos hdeleted, Option.getD_none] at hleft
          have hbytes : e.2 = bytes' := Option.some.inj ((hmem e (by simp [he])).symm.trans hname)
          rw [← hbytes]
          rcases hframeless e he with hnil | hearly'
          · exact .inl (hleft.symm.trans hnil.symm)
          · exact .inr ⟨0, reached_start _, hearly', hleft.symm⟩
        · rw [if_neg hdeleted] at hleft
          by_cases hcut : name = name'
          · subst hcut
            rw [if_pos rfl, Option.getD_some] at hleft
            have hbytes : bytes = bytes' := Option.some.inj ((hmem (name, bytes) (by simp)).symm.trans hname)
            subst hbytes
            exact .inr ⟨offset, hreached, hearly, hleft.symm⟩
          · rw [if_neg hcut, hname, Option.getD_some] at hleft
            exact .inl hleft.symm
  · have hsame := openLedger_unrepaired incarnation hreach
    constructor
    · intro _ h
      exact absurd h hreach
    · intro _
      refine keeps_of_removed fun name bytes hname left hleft => .inl ?_
      rw [hsame, hname] at hleft
      exact hleft.symm

/-- A state directory whose first segment holds one byte of a frame, and whose second one a whole frame. -/
def shortMiddle : Directory where
  path := []
  head := some (HeadRecord.encode ⟨headVersion, .zero, .zero, 1, .zero, 1, 1⟩)
  snapshot := none
  journal := (SortedMap.empty.set (segmentName 0) [0x57]).set (segmentName 1)
    (buildFrame .genesis 1 (utf8 "{}") .zero).bytes

set_option maxRecDepth 100000 in
theorem shortMiddle_opened : (openLedger .succeeds .zero .zero .zero shortMiddle).1.isOk = true ∧
    (openLedger .succeeds .zero .zero .zero shortMiddle).2.journal.find? (segmentName 1) = none := by decide +kernel

/-- An open that repairs a torn segment loses the whole frame in the segment behind it. -/
theorem openLedger_loses_frame : ¬ ∀ (io : OpenIo) (coordinator : CoordinatorId) (trustDigest : Digest)
    (incarnation : Incarnation) (dir : Directory), Keeps dir (openLedger io coordinator trustDigest incarnation dir).2 := by
  intro h
  have hframe : FrameAt (buildFrame .genesis 1 (utf8 "{}") .zero).bytes 0 (recordOf .genesis 1 (utf8 "{}") .zero)
      (frameHeaderBytes + (utf8 "{}").length) := by
    have hparse := parseFrame_buildFrame .genesis 1 (utf8 "{}") .zero (by decide) [] []
    rw [List.append_nil] at hparse
    exact ⟨reached_start _, hparse⟩
  obtain ⟨bytes', hfind, _⟩ := (h .succeeds .zero .zero .zero shortMiddle).frames (segmentName 1) _
    (SortedMap.find?_set_self ..) _ _ _ hframe
  rw [shortMiddle_opened.2] at hfind
  cases hfind

end Ledger

end Wnc
