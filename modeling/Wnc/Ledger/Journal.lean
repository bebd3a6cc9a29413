/-
What a journal written by appends looks like, and that a scan reads it back: the frames that a list
of entries occupies from a position of the chain, their distribution over segment files, and the
scan of a segment and of all segments as the walk along that chain.
-/
import Wnc.Ledger.Store

namespace Wnc

open Lib

namespace Ledger

/-! ## Chains of entries -/

/-- What an append is asked to record. -/
structure Entry where
  type : RecordType
  payload : Bytes
deriving DecidableEq

/-- A position in the chain: the sequence the next record gets and the chain value it links to. -/
@[ext] structure Cursor where
  sequence : UInt64
  link : Digest

namespace Cursor

/-- The position before the first record. -/
def start : Cursor := ⟨1, .zero⟩

/-- The position behind a record of the entry. -/
def next (c : Cursor) (e : Entry) : Cursor := ⟨c.sequence + 1, chainValue e.type c.sequence e.payload⟩

def after (c : Cursor) (es : List Entry) : Cursor := es.foldl next c

@[simp] theorem after_nil (c : Cursor) : c.after [] = c := rfl

theorem after_cons (c : Cursor) (e : Entry) (es : List Entry) : c.after (e :: es) = (c.next e).after es := rfl

theorem after_append (c : Cursor) (xs ys : List Entry) : c.after (xs ++ ys) = (c.after xs).after ys :=
  List.foldl_append

theorem after_snoc (c : Cursor) (xs : List Entry) (e : Entry) : c.after (xs ++ [e]) = (c.after xs).next e := by
  rw [after_append]; rfl

theorem after_sequence (c : Cursor) (es : List Entry) :
    (c.after es).sequence = c.sequence + UInt64.ofNat es.length := by
  induction es generalizing c with
  | nil => simp
  | cons e es ih =>
    rw [after_cons, ih, next, List.length_cons, UInt64.ofNat_add]
    simp only [UInt64.add_assoc]
    congr 1
    rw [UInt64.add_comm]; rfl

end Cursor

/-- The bytes the entries occupy from a position of the chain. -/
def encodeEntries : Cursor → List Entry → Bytes
  | _, [] => []
  | c, e :: es => (buildFrame e.type c.sequence e.payload c.link).bytes ++ encodeEntries (c.next e) es

/-- The records of the entries from a position of the chain. -/
def recordsOf : Cursor → List Entry → List Record
  | _, [] => []
  | c, e :: es => recordOf e.type c.sequence e.payload c.link :: recordsOf (c.next e) es

theorem encodeEntries_append (c : Cursor) (xs ys : List Entry) :
    encodeEntries c (xs ++ ys) = encodeEntries c xs ++ encodeEntries (c.after xs) ys := by
  induction xs generalizing c with
  | nil => rfl
  | cons x xs ih => rw [List.cons_append, encodeEntries, ih, encodeEntries, List.append_assoc, Cursor.after_cons]

theorem recordsOf_append (c : Cursor) (xs ys : List Entry) :
    recordsOf c (xs ++ ys) = recordsOf c xs ++ recordsOf (c.after xs) ys := by
  induction xs generalizing c with
  | nil => rfl
  | cons x xs ih => rw [List.cons_append, recordsOf, ih, recordsOf, List.cons_append, Cursor.after_cons]

@[simp] theorem length_recordsOf (c : Cursor) (es : List Entry) : (recordsOf c es).length = es.length := by
  induction es generalizing c with
  | nil => rfl
  | cons e es ih => rw [recordsOf, List.length_cons, List.length_cons, ih]

/-- Every entry takes at least a header. -/
theorem length_encodeEntries (c : Cursor) (es : List Entry) :
    frameHeaderBytes * es.length ≤ (encodeEntries c es).length := by
  induction es generalizing c with
  | nil => exact Nat.zero_le _
  | cons e es ih =>
    have := ih (c.next e)
    rw [encodeEntries, List.length_append, length_buildFrame, List.length_cons]
    rw [Nat.mul_add]
    omega

/-- What a reader shows of a record: sequence, type and payload. -/
def Record.view (r : Record) : UInt64 × RecordType × Bytes := (r.sequence, r.type, r.payload)

/-- The entries numbered from a sequence on. -/
def numbered : UInt64 → List Entry → List (UInt64 × RecordType × Bytes)
  | _, [] => []
  | n, e :: es => (n, e.type, e.payload) :: numbered (n + 1) es

@[simp] theorem length_numbered (n : UInt64) (es : List Entry) : (numbered n es).length = es.length := by
  induction es generalizing n with
  | nil => rfl
  | cons e es ih => rw [numbered, List.length_cons, List.length_cons, ih]

/-- The last entry of a numbered list. -/
theorem numbered_snoc (n : UInt64) (es : List Entry) (e : Entry) :
    ∃ m, numbered n (es ++ [e]) = numbered n es ++ [(m, e.type, e.payload)] := by
  induction es generalizing n with
  | nil => exact ⟨n, rfl⟩
  | cons e' es ih =>
    obtain ⟨m, hm⟩ := ih (n + 1)
    exact ⟨m, by rw [List.cons_append, numbered, hm, numbered, List.cons_append]⟩

theorem map_view_recordsOf (c : Cursor) (es : List Entry) :
    (recordsOf c es).map Record.view = numbered c.sequence es := by
  induction es generalizing c with
  | nil => rfl
  | cons e es ih => rw [recordsOf, List.map_cons, ih]; rfl

/-- Payloads within the bound the reader accepts. -/
def Bounded (es : List Entry) : Prop := ∀ e ∈ es, e.payload.length ≤ maxRecordBytes

/-! ## Scanning one segment -/

/-- A scan that has read records and stands, intact, at a position of the chain. -/
structure Scan.At (s : Scan) (c : Cursor) (records : List Record) : Prop where
  expected : s.expectedSequence = c.sequence
  chain : s.previousChain = c.link
  records : s.records = records
  last : s.report.lastValidSequence + 1 = c.sequence
  untorn : s.torn = false
  sound : s.failure = none
  complete : s.report.truncatedBytes = 0
  regular : s.report.recovered = false

theorem Scan.at_start : ({} : Scan).At .start [] := ⟨rfl, rfl, rfl, rfl, rfl, rfl, rfl, rfl⟩

/-- One frame in its place moves the scan one position on. -/
theorem Scan.At.accept {s : Scan} {c : Cursor} {records : List Record} (h : s.At c records) (e : Entry)
    (pre rest : Bytes) (consumed : Nat) :
    (s.accept (pre ++ ((buildFrame e.type c.sequence e.payload c.link).bytes ++ rest)) pre.length
      (recordOf e.type c.sequence e.payload c.link) consumed).At (c.next e)
      (records ++ [recordOf e.type c.sequence e.payload c.link]) := by
  have hprefix : slice pre.length 88 (pre ++ ((buildFrame e.type c.sequence e.payload c.link).bytes ++ rest)) =
      headerPrefix e.type c.sequence e.payload c.link := by
    rw [slice_append_right _ le_rfl, Nat.sub_self, buildFrame]
    simp only [List.append_assoc]
    exact slice_left _ (length_headerPrefix ..)
  have hseq : ¬ (recordOf e.type c.sequence e.payload c.link).sequence ≠ s.expectedSequence := by
    rw [h.expected]; exact not_not.2 rfl
  have hlink : ¬ (recordOf e.type c.sequence e.payload c.link).chain ≠ s.previousChain := by
    rw [h.chain]; exact not_not.2 rfl
  unfold Scan.accept
  simp only
  rw [if_neg hseq, if_neg hlink, hprefix, zeroLink_headerPrefix]
  exact ⟨rfl, rfl, by simp only [h.records], rfl, h.untorn, h.sound, h.complete, h.regular⟩

/-- The scan over the frames of entries, whatever stands before and behind them. -/
theorem scanSegment_entries (es : List Entry) (hes : Bounded es) :
    ∀ {s : Scan} {c : Cursor} {records : List Record}, s.At c records → ∀ (pre rest : Bytes) (fuel : Nat),
      ∃ s' : Scan, s'.At (c.after es) (records ++ recordsOf c es) ∧
        scanSegment (fuel + es.length) (pre ++ (encodeEntries c es ++ rest)) pre.length s =
          scanSegment fuel (pre ++ (encodeEntries c es ++ rest)) (pre.length + (encodeEntries c es).length) s' := by
  induction es with
  | nil =>
    intro s c records h pre rest fuel
    exact ⟨s, by simpa [recordsOf] using h, by simp [encodeEntries]⟩
  | cons e es ih =>
    intro s c records h pre rest fuel
    obtain ⟨he, hes'⟩ := List.forall_mem_cons.1 hes
    generalize hframe : (buildFrame e.type c.sequence e.payload c.link).bytes = frame
    have hlen : frame.length = frameHeaderBytes + e.payload.length := by rw [← hframe, length_buildFrame]
    have hparse := parseFrame_buildFrame e.type c.sequence e.payload c.link he pre
      (encodeEntries (c.next e) es ++ rest)
    have hstep := h.accept e pre (encodeEntries (c.next e) es ++ rest) (frameHeaderBytes + e.payload.length)
    rw [hframe] at hparse hstep
    obtain ⟨s', hs', heq⟩ := ih hes' hstep (pre ++ frame) rest fuel
    refine ⟨s', ?_, ?_⟩
    · rw [Cursor.after_cons, recordsOf]
      simpa only [List.append_assoc, List.singleton_append] using hs'
    · have hbytes : pre ++ (encodeEntries c (e :: es) ++ rest) =
          pre ++ (frame ++ (encodeEntries (c.next e) es ++ rest)) := by
        rw [encodeEntries, hframe]; simp only [List.append_assoc]
      have hinside : ¬ (pre ++ (frame ++ (encodeEntries (c.next e) es ++ rest))).length ≤ pre.length := by
        simp only [List.length_append, hlen, frameHeaderBytes]; omega
      rw [hbytes, List.length_cons, ← Nat.add_assoc, scanSegment, if_neg hinside, hparse]
      simp only
      rw [if_neg (by rw [hstep.sound]; decide)]
      simp only [List.append_assoc, List.length_append, hlen] at heq
      rw [heq, encodeEntries, hframe]
      simp only [List.length_append, hlen, Nat.add_assoc]

theorem scanSegment_end (fuel : Nat) {bytes : Bytes} {offset : Nat} (h : bytes.length ≤ offset) (s : Scan) :
    scanSegment fuel bytes offset s = s := by
  cases fuel with
  | zero => rfl
  | succ fuel => rw [scanSegment, if_pos h]

/-- The invariant rule of scans: what every frame that parses keeps when it is taken, and what the notes of a scan
about its end do not touch, holds of every scan. -/
theorem scanSegment_invariant {P : Scan → Prop}
    (hreport : ∀ s report torn failure, P s → P { s with report := report, torn := torn, failure := failure })
    (haccept : ∀ s bytes offset record consumed, parseFrame bytes offset = .ok (record, consumed) → P s →
      P (s.accept bytes offset record consumed)) (fuel : Nat) (bytes : Bytes) :
    ∀ (offset : Nat) (s : Scan), P s → P (scanSegment fuel bytes offset s) := by
  induction fuel with
  | zero => intro offset s h; exact h
  | succ fuel ih =>
    intro offset s h
    rw [scanSegment]
    split
    · exact h
    · split
      · unfold Scan.stop
        split
        · exact hreport s s.report s.torn _ h
        · exact hreport s _ true s.failure h
      · rename_i record consumed hparse
        have ha := haccept s bytes offset record consumed hparse h
        simp only
        split
        · exact ha
        · exact ih _ _ ha

theorem scanSegments_invariant {P : Scan → Prop}
    (hreport : ∀ s report torn failure, P s → P { s with report := report, torn := torn, failure := failure })
    (haccept : ∀ s bytes offset record consumed, parseFrame bytes offset = .ok (record, consumed) → P s →
      P (s.accept bytes offset record consumed)) (segments : List (Bytes × Bytes)) :
    ∀ s : Scan, P s → P (scanSegments segments s) := by
  induction segments with
  | nil => intro s h; exact h
  | cons segment rest ih =>
    intro s h
    rw [scanSegments]
    split
    · exact ih _ (hreport s _ s.torn s.failure h)
    · split
      · exact hreport s s.report s.torn _ h
      · have hs := scanSegment_invariant hreport haccept segment.2.length segment.2 0 s h
        simp only
        split
        · exact hs
        · exact ih _ hs

/-- A segment that holds exactly the frames of entries is read to its end. -/
theorem scanSegment_encodeEntries {es : List Entry} (hes : Bounded es) {s : Scan} {c : Cursor}
    {records : List Record} (h : s.At c records) :
    (scanSegment (encodeEntries c es).length (encodeEntries c es) 0 s).At (c.after es)
      (records ++ recordsOf c es) := by
  have hlen := length_encodeEntries c es
  obtain ⟨fuel, hfuel⟩ : ∃ fuel, (encodeEntries c es).length = fuel + es.length :=
    ⟨_, (Nat.sub_add_cancel (le_trans (Nat.le_mul_of_pos_left _ (by decide)) hlen)).symm⟩
  obtain ⟨s', hs', heq⟩ := scanSegment_entries es hes h [] [] fuel
  simp only [List.nil_append, List.append_nil, List.length_nil, Nat.zero_add] at heq
  rw [hfuel, heq, scanSegment_end _ le_rfl]
  exact hs'

/-! ## Scanning all segments -/

/-- The segment files of consecutive parts of a history, numbered from an index on. -/
def segmentsOf : Nat → Cursor → List (List Entry) → List (Bytes × Bytes)
  | _, _, [] => []
  | i, c, part :: parts => (segmentName i, encodeEntries c part) :: segmentsOf (i + 1) (c.after part) parts

theorem segmentsOf_append (i : Nat) (c : Cursor) (ps qs : List (List Entry)) :
    segmentsOf i c (ps ++ qs) = segmentsOf i c ps ++ segmentsOf (i + ps.length) (c.after ps.flatten) qs := by
  induction ps generalizing i c with
  | nil => rfl
  | cons p ps ih =>
    rw [List.cons_append, segmentsOf, ih, segmentsOf, List.cons_append, List.length_cons, List.flatten_cons,
      Cursor.after_append, Nat.add_assoc, Nat.add_comm 1]

@[simp] theorem length_segmentsOf (i : Nat) (c : Cursor) (ps : List (List Entry)) :
    (segmentsOf i c ps).length = ps.length := by
  induction ps generalizing i c with
  | nil => rfl
  | cons p ps ih => rw [segmentsOf, List.length_cons, List.length_cons, ih]

theorem mem_segmentsOf {i : Nat} {c : Cursor} {ps : List (List Entry)} {e : Bytes × Bytes}
    (h : e ∈ segmentsOf i c ps) : ∃ j, i ≤ j ∧ j < i + ps.length ∧ e.1 = segmentName j := by
  induction ps generalizing i c with
  | nil => cases h
  | cons p ps ih =>
    rw [List.length_cons]
    rcases List.mem_cons.1 h with rfl | h
    · exact ⟨i, le_rfl, by omega, rfl⟩
    · obtain ⟨j, h1, h2, h3⟩ := ih h
      exact ⟨j, by omega, by omega, h3⟩

/-- Only segments behind a torn tail are counted as excess. -/
theorem scanSegment_excess (fuel : Nat) (bytes : Bytes) : ∀ (offset : Nat) (s : Scan),
    (scanSegment fuel bytes offset s).report.excessSegments = s.report.excessSegments := by
  induction fuel with
  | zero => intro offset s; rfl
  | succ fuel ih =>
    intro offset s
    have haccept : ∀ record consumed, (s.accept bytes offset record consumed).report.excessSegments =
        s.report.excessSegments := by
      intro record consumed
      unfold Scan.accept
      simp only
      split
      · rfl
      · split <;> rfl
    rw [scanSegment]
    split
    · rfl
    · split
      · unfold Scan.stop
        split <;> rfl
      · simp only
        split
        · exact haccept _ _
        · rw [ih, haccept]

/-- The scan of segments that hold exactly the parts of a history reaches those behind them. -/
theorem scanSegments_append (parts : List (List Entry)) :
    ∀ (i : Nat) {s : Scan} {c : Cursor} {records : List Record}, Bounded parts.flatten →
      (∀ e ∈ segmentsOf i c parts, e.2.length ≤ maxSegmentBytes) → s.At c records → ∀ rest,
      ∃ s' : Scan, s'.At (c.after parts.flatten) (records ++ recordsOf c parts.flatten) ∧
        scanSegments (segmentsOf i c parts ++ rest) s = scanSegments rest s' ∧
        s'.report.excessSegments = s.report.excessSegments := by
  induction parts with
  | nil =>
    intro i s c records _ _ h rest
    exact ⟨s, by simpa [recordsOf] using h, rfl, rfl⟩
  | cons part parts ih =>
    intro i s c records hb hsize h rest
    rw [List.flatten_cons] at hb ⊢
    obtain ⟨hpart, hparts⟩ := List.forall_mem_append.1 hb
    rw [segmentsOf] at hsize ⊢
    obtain ⟨hfirst, hrest⟩ := List.forall_mem_cons.1 hsize
    have hs := scanSegment_encodeEntries hpart h
    rw [List.cons_append, scanSegments, if_neg (by rw [h.untorn]; decide),
      if_neg (not_lt.2 (le_trans hfirst (Nat.le_succ _)))]
    simp only
    rw [if_neg (by rw [hs.sound]; decide), Cursor.after_append, recordsOf_append, ← List.append_assoc]
    obtain ⟨s', hs', heq, hexcess⟩ := ih (i + 1) hparts hrest hs rest
    exact ⟨s', hs', heq, by rw [hexcess, scanSegment_excess]⟩

/-- A directory whose journal is exactly the segments of the parts of a history, each within the
bounds the reader checks. -/
structure Holds (dir : Directory) (parts : List (List Entry)) : Prop where
  entries : dir.journal.entries = segmentsOf 0 .start parts
  bounded : Bounded parts.flatten
  sizes : ∀ e ∈ dir.journal.entries, e.2.length ≤ maxSegmentBytes

theorem Holds.fresh (path : Bytes) : Holds (.fresh path) [] :=
  ⟨rfl, by simp [Bounded], by simp [Directory.fresh, SortedMap.empty]⟩

/-- A journal written by appends is read back: its scan is intact and ends behind the history. -/
theorem Holds.readFrames {dir : Directory} {parts : List (List Entry)} (h : Holds dir parts) :
    (Ledger.readFrames dir).At (Cursor.start.after parts.flatten) (recordsOf .start parts.flatten) := by
  have hs : (scanSegments dir.journal.entries {}).At (Cursor.start.after parts.flatten)
      (recordsOf .start parts.flatten) := by
    have hsizes := h.sizes
    rw [h.entries] at hsizes ⊢
    obtain ⟨s', hs', heq, _⟩ := scanSegments_append parts 0 h.bounded hsizes Scan.at_start []
    rw [List.append_nil] at heq
    rw [heq, scanSegments]
    exact hs'
  unfold Ledger.readFrames
  simp only
  rw [if_neg (by rw [hs.sound]; decide)]
  exact ⟨hs.expected, hs.chain, hs.records, hs.last, hs.untorn, hs.sound, hs.complete, hs.regular⟩

/-- The journal reads back as the history. -/
def ReadsBack (dir : Directory) (history : List Entry) : Prop :=
  ∃ records report, readAll dir = .ok (records, report) ∧ records.map Record.view = numbered 1 history

/-- A scan that succeeds counts the records it read. -/
theorem readFrames_validRecords {dir : Directory} (h : (Ledger.readFrames dir).failure = none) :
    (Ledger.readFrames dir).report.validRecords = (Ledger.readFrames dir).records.length := by
  unfold Ledger.readFrames at h ⊢
  simp only at h ⊢
  split
  · rename_i hfailed
    rw [if_pos hfailed] at h
    rw [h] at hfailed
    cases hfailed
  · rfl

/-- A read that succeeds returns the records of an intact scan of the segments. -/
theorem readAll_eq_ok {dir : Directory} {records : List Record} {report : RecoveryReport}
    (h : readAll dir = .ok (records, report)) :
    (scanSegments dir.journal.entries {}).failure = none ∧
      (scanSegments dir.journal.entries {}).records = records := by
  unfold readAll Ledger.readFrames at h
  simp only at h
  cases hf : (scanSegments dir.journal.entries {}).failure with
  | none =>
    simp only [hf, Option.isSome_none, Bool.false_eq_true, if_false] at h
    cases h
    exact ⟨rfl, rfl⟩
  | some f =>
    simp only [hf, Option.isSome_some, if_true] at h
    cases h

theorem Holds.readAll {dir : Directory} {parts : List (List Entry)} (h : Holds dir parts) :
    Ledger.readAll dir = .ok (recordsOf .start parts.flatten, (Ledger.readFrames dir).report) := by
  have hs := h.readFrames
  unfold Ledger.readAll
  simp only
  rw [hs.sound, hs.records]

theorem Holds.readsBack {dir : Directory} {parts : List (List Entry)} (h : Holds dir parts) :
    ReadsBack dir parts.flatten :=
  ⟨_, _, h.readAll, map_view_recordsOf .start parts.flatten⟩

end Ledger

end Wnc
