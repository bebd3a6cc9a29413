/-
Truncation of a journal to one of its records. The cut itself is right: the journal then holds the records
up to that one. Of the handle's state only the sequence and the count of segments follow the cut; the chain
value is set to the link of the last record kept, and the bytes and the segment appended to stay those of the
journal before.
-/
import Wnc.Ledger.Handle

namespace Wnc

open Lib

namespace Ledger

/-- What the operating system does with the steps of a truncation: the failure of the cut and of the replacement of
the boot record. -/
structure TruncateIo where
  truncation : Option Failure := none
  headReplacement : Option Failure := none

def TruncateIo.succeeds : TruncateIo := {}

/-- Parses the frames of a segment from an offset up to the record of a number: that record and where it ends, or the
number of records read. Every frame takes at least its header, so the segment's length is fuel enough. -/
def findRecord (sequence : UInt64) : Nat → Bytes → Nat → Nat → Sum (Record × Nat) Nat
  | 0, _, _, running => .inr running
  | fuel + 1, bytes, offset, running =>
    if bytes.length ≤ offset then .inr running
    else
      match parseFrame bytes offset with
      | .error _ => .inr running
      | .ok (record, consumed) =>
        if running + 1 = sequence.toNat then .inl (record, offset + consumed)
        else findRecord sequence fuel bytes (offset + consumed) (running + 1)

/-- Cuts a segment behind a record found in it, keeping its first bytes, and removes the segments that follow. -/
def cutSegment (io : TruncateIo) (sequence : UInt64) (l : Handle) (dir : Directory) (name kept : Bytes) (record : Record)
    (later : List (Bytes × Bytes)) : Except Failure Unit × Handle × Directory :=
  match io.truncation with
  | some f => (.error f, l, dir)
  | none =>
    let l := { l with
      head := { l.head with lastSequence := sequence }
      -- the link of the record, as the reader surfaces it
      chain := record.chain
      segmentCount := l.segmentCount - later.length }
    let journal := (dir.journal.set name kept).filter fun name' _ => later.all fun e => e.1 != name'
    let (result, dir) := writeHead io.headReplacement l.head { dir with journal := journal }
    (result, l, dir)

/-- Cuts the journal in the segment that holds the record of a number. -/
def truncateSegments (io : TruncateIo) (sequence : UInt64) (l : Handle) (dir : Directory) :
    List (Bytes × Bytes) → Nat → Except Failure Unit × Handle × Directory
  | [], _ => (.error ⟨.indexGapDetected, utf8 "journal does not contain sequence " ++ toDecimal sequence.toNat⟩, l, dir)
  | (name, bytes) :: later, running =>
    match State.readFile (dir.filePath name) (some bytes) (maxSegmentBytes + 1) with
    | .error f => (.error f, l, dir)
    | .ok bytes =>
      match findRecord sequence bytes.length bytes 0 running with
      | .inr running => truncateSegments io sequence l dir later running
      | .inl (record, offset) => cutSegment io sequence l dir name (bytes.take offset) record later

/-- Cuts the journal behind the record of a sequence. -/
def truncateTo (io : TruncateIo) (sequence : UInt64) (l : Handle) (dir : Directory) :
    Except Failure Unit × Handle × Directory :=
  match readAll dir with
  | .error f => (.error f, l, dir)
  | .ok _ => truncateSegments io sequence l dir dir.journal.entries 0

/-! ## Where the cut is made -/

/-- The search over the frames of entries none of which is the one looked for. -/
theorem findRecord_entries (sequence : UInt64) (es : List Entry) (hes : Bounded es) :
    ∀ {c : Cursor} (pre rest : Bytes) (fuel running : Nat), running + es.length < sequence.toNat →
      findRecord sequence (fuel + es.length) (pre ++ (encodeEntries c es ++ rest)) pre.length running =
        findRecord sequence fuel (pre ++ (encodeEntries c es ++ rest)) (pre.length + (encodeEntries c es).length)
          (running + es.length) := by
  induction es with
  | nil => intro c pre rest fuel running _; simp [encodeEntries]
  | cons e es ih =>
    intro c pre rest fuel running hbelow
    rw [List.length_cons] at hbelow
    obtain ⟨he, hes'⟩ := List.forall_mem_cons.1 hes
    generalize hframe : (buildFrame e.type c.sequence e.payload c.link).bytes = frame
    have hlen : frame.length = frameHeaderBytes + e.payload.length := by rw [← hframe, length_buildFrame]
    have hparse := parseFrame_buildFrame e.type c.sequence e.payload c.link he pre
      (encodeEntries (c.next e) es ++ rest)
    rw [hframe] at hparse
    have hbytes : pre ++ (encodeEntries c (e :: es) ++ rest) =
        pre ++ (frame ++ (encodeEntries (c.next e) es ++ rest)) := by
      rw [encodeEntries, hframe]; simp only [List.append_assoc]
    have hinside : ¬ (pre ++ (frame ++ (encodeEntries (c.next e) es ++ rest))).length ≤ pre.length := by
      simp only [List.length_append, hlen, frameHeaderBytes]; omega
    have hrest := ih hes' (c := c.next e) (pre ++ frame) rest fuel (running + 1) (by omega)
    simp only [List.append_assoc, List.length_append, hlen] at hrest
    rw [hbytes, List.length_cons, ← Nat.add_assoc, findRecord, if_neg hinside, hparse]
    simp only
    rw [if_neg (by omega), hrest, encodeEntries, hframe]
    simp only [List.length_append, hlen, Nat.add_assoc, Nat.add_comm 1]

/-- The search finds the record behind those of a number of entries. -/
theorem findRecord_found {sequence : UInt64} {p : List Entry} {e : Entry} (hp : Bounded (p ++ [e])) {c : Cursor}
    (rest : Bytes) {running : Nat} (hsequence : running + (p.length + 1) = sequence.toNat) :
    findRecord sequence (encodeEntries c (p ++ [e]) ++ rest).length (encodeEntries c (p ++ [e]) ++ rest) 0 running =
      .inl (recordOf e.type (c.after p).sequence e.payload (c.after p).link, (encodeEntries c (p ++ [e])).length) := by
  obtain ⟨hbefore, he⟩ := List.forall_mem_append.1 hp
  have hlength := length_encodeEntries c (p ++ [e])
  rw [List.length_append, List.length_singleton] at hlength
  obtain ⟨fuel, hfuel⟩ : ∃ fuel, (encodeEntries c (p ++ [e]) ++ rest).length = fuel + 1 + p.length := by
    refine ⟨(encodeEntries c (p ++ [e]) ++ rest).length - 1 - p.length, ?_⟩
    rw [List.length_append]
    simp only [frameHeaderBytes] at hlength
    omega
  have hsplit : encodeEntries c (p ++ [e]) ++ rest = encodeEntries c p ++
      ((buildFrame e.type (c.after p).sequence e.payload (c.after p).link).bytes ++ rest) := by
    rw [encodeEntries_append, encodeEntries, encodeEntries, List.append_nil, List.append_assoc]
  have hsearch := findRecord_entries sequence p hbefore (c := c) []
    ((buildFrame e.type (c.after p).sequence e.payload (c.after p).link).bytes ++ rest) (fuel + 1) running (by omega)
  simp only [List.nil_append, List.length_nil, Nat.zero_add] at hsearch
  have hparse := parseFrame_buildFrame e.type (c.after p).sequence e.payload (c.after p).link
    (he e List.mem_cons_self) (encodeEntries c p) rest
  rw [hfuel, hsplit, hsearch, findRecord, if_neg, hparse]
  · simp only
    rw [if_pos (by omega), encodeEntries_append, encodeEntries, encodeEntries, List.append_nil, List.length_append,
      length_buildFrame]
  · rw [List.length_append, List.length_append, length_buildFrame]
    simp only [frameHeaderBytes]
    omega

/-- The search passes over a segment that ends before the record. -/
theorem findRecord_passed {sequence : UInt64} {p : List Entry} (hp : Bounded p) {c : Cursor} {running : Nat}
    (hbelow : running + p.length < sequence.toNat) :
    findRecord sequence (encodeEntries c p).length (encodeEntries c p) 0 running = .inr (running + p.length) := by
  have hlength := length_encodeEntries c p
  obtain ⟨fuel, hfuel⟩ : ∃ fuel, (encodeEntries c p).length = fuel + p.length :=
    ⟨_, (Nat.sub_add_cancel (le_trans (Nat.le_mul_of_pos_left _ (by decide)) hlength)).symm⟩
  have hsearch := findRecord_entries sequence p hp (c := c) [] [] fuel running hbelow
  simp only [List.nil_append, List.append_nil, List.length_nil, Nat.zero_add] at hsearch
  rw [hfuel, hsearch]
  cases fuel with
  | zero => rfl
  | succ fuel => rw [findRecord, if_pos le_rfl]

/-- Where a history is cut behind the entry `e`, and what stands before and behind it. -/
structure CutAt (parts ps : List (List Entry)) (p : List Entry) (e : Entry) (q : List Entry) (rest : List (List Entry))
    (count : Nat) : Prop where
  parts : parts = ps ++ (p ++ e :: q) :: rest
  count : ps.flatten.length + (p.length + 1) = count

/-- Over the segments of a history, the cut is made behind the record of the sequence. -/
theorem truncateSegments_segmentsOf (io : TruncateIo) {sequence : UInt64} (l : Handle) (dir : Directory) :
    ∀ (parts : List (List Entry)) (i : Nat) (c : Cursor) (running : Nat), Bounded parts.flatten →
      (∀ e ∈ segmentsOf i c parts, e.2.length ≤ maxSegmentBytes) → running < sequence.toNat →
      sequence.toNat ≤ running + parts.flatten.length →
      ∃ ps p e q rest, CutAt parts ps p e q rest (sequence.toNat - running) ∧
        truncateSegments io sequence l dir (segmentsOf i c parts) running =
          cutSegment io sequence l dir (segmentName (i + ps.length)) (encodeEntries (c.after ps.flatten) (p ++ [e]))
            (recordOf e.type (c.after (ps.flatten ++ p)).sequence e.payload (c.after (ps.flatten ++ p)).link)
            (segmentsOf (i + ps.length + 1) (c.after (ps.flatten ++ (p ++ e :: q))) rest) := by
  intro parts
  induction parts with
  | nil =>
    intro i c running _ _ hlow hhigh
    simp only [List.flatten_nil, List.length_nil, Nat.add_zero] at hhigh
    omega
  | cons part parts ih =>
    intro i c running hb hsize hlow hhigh
    rw [List.flatten_cons] at hb hhigh
    obtain ⟨hpart, hparts⟩ := List.forall_mem_append.1 hb
    rw [segmentsOf] at hsize ⊢
    obtain ⟨hfirst, hrest⟩ := List.forall_mem_cons.1 hsize
    rw [List.length_append] at hhigh
    have hread : State.readFile (dir.filePath (segmentName i)) (some (encodeEntries c part)) (maxSegmentBytes + 1) =
        .ok (encodeEntries c part) := by
      rw [State.readFile]
      exact if_neg (not_lt.2 (le_trans hfirst (Nat.le_succ _)))
    rw [truncateSegments, hread]
    simp only
    by_cases hhere : sequence.toNat ≤ running + part.length
    · -- the record is in this segment
      obtain ⟨p, e, q, rfl, hp⟩ : ∃ p e q, part = p ++ e :: q ∧ running + (p.length + 1) = sequence.toNat := by
        have hlt : sequence.toNat - running - 1 < part.length := by omega
        refine ⟨part.take (sequence.toNat - running - 1), part.get ⟨_, hlt⟩, part.drop (sequence.toNat - running - 1 + 1),
          ?_, ?_⟩
        · rw [List.get_eq_getElem, List.getElem_cons_drop, List.take_append_drop]
        · rw [List.length_take]
          omega
      have hentries : p ++ e :: q = (p ++ [e]) ++ q := by simp
      have hfound := findRecord_found (List.forall_mem_append.1 (hentries ▸ hpart)).1 (c := c)
        (encodeEntries (c.after (p ++ [e])) q) hp
      rw [← encodeEntries_append, ← hentries] at hfound
      refine ⟨[], p, e, q, parts, ⟨rfl, ?_⟩, ?_⟩
      · simp only [List.flatten_nil, List.length_nil]
        omega
      · rw [hfound]
        simp only
        rw [hentries, encodeEntries_append c (p ++ [e]) q, List.take_left]
        simp only [List.flatten_nil, Cursor.after_nil, List.nil_append, List.length_nil, Nat.add_zero]
    · rw [findRecord_passed hpart (not_le.1 hhere)]
      simp only
      obtain ⟨ps, p, e, q, rest, hcut, heq⟩ := ih (i + 1) (c.after part) (running + part.length) hparts hrest
        (not_le.1 hhere) (by omega)
      refine ⟨part :: ps, p, e, q, rest, ⟨by rw [hcut.parts, List.cons_append], ?_⟩, ?_⟩
      · rw [List.flatten_cons, List.length_append]
        have := hcut.count
        omega
      · rw [heq]
        simp only [List.flatten_cons, List.length_cons, List.append_assoc, Cursor.after_append, Nat.add_assoc,
          Nat.add_comm 1]

/-! ## What the cut leaves -/

/-- The segments that the cut keeps. -/
theorem entries_cut {journal : SortedMap Bytes Bytes} {parts ps : List (List Entry)} {p : List Entry} {e : Entry}
    {q : List Entry} {rest : List (List Entry)} {count : Nat} (hcut : CutAt parts ps p e q rest count)
    (hentries : journal.entries = segmentsOf 0 .start parts) (hlen : parts.length ≤ 257) :
    ((journal.set (segmentName ps.length) (encodeEntries (Cursor.start.after ps.flatten) (p ++ [e]))).filter
      fun name' _ => (segmentsOf (ps.length + 1) (Cursor.start.after (ps.flatten ++ (p ++ e :: q))) rest).all
        fun e => e.1 != name').entries = segmentsOf 0 .start (ps ++ [p ++ [e]]) := by
  have hcount := congrArg List.length hcut.parts
  rw [List.length_append, List.length_cons] at hcount
  have hbelow : ∀ x ∈ segmentsOf 0 .start ps, x.1 < segmentName ps.length := fun x hx =>
    lt_of_mem_segmentsOf hx (by omega)
  have habove : ∀ (c : Cursor), ∀ x ∈ segmentsOf (ps.length + 1) c rest, segmentName ps.length < x.1 := by
    intro c x hx
    obtain ⟨j, hj, hj', hname⟩ := mem_segmentsOf hx
    rw [hname]
    exact segmentName_lt (by omega) (by omega)
  show ((journal.set _ _).entries.filter _) = _
  rw [SortedMap.entries_set, hentries, hcut.parts, segmentsOf_append, segmentsOf, Nat.zero_add,
    Assoc.set_append_cons hbelow, List.filter_append, List.filter_cons, segmentsOf_append, Nat.zero_add, segmentsOf,
    segmentsOf, Cursor.after_append]
  have hname : ((segmentsOf (ps.length + 1) ((Cursor.start.after ps.flatten).after (p ++ e :: q)) rest).all
      fun x => x.1 != segmentName ps.length) = true :=
    List.all_eq_true.2 fun x hx => bne_iff_ne.2 (habove _ x hx).ne'
  rw [if_pos hname, List.filter_eq_self.2, List.filter_eq_nil_iff.2]
  · intro x hx hall
    exact bne_iff_ne.1 (List.all_eq_true.1 hall x hx) rfl
  · intro x hx
    exact List.all_eq_true.2 fun y hy => bne_iff_ne.2 ((hbelow x hx).trans (habove _ y hy)).ne'

/-- The handle and the journal behind a truncation. -/
structure Truncated (l l' : Handle) (dir' : Directory) (sequence : UInt64) (ps : List (List Entry)) (p : List Entry)
    (e : Entry) (rest : List (List Entry)) : Prop where
  holds : Holds dir' (ps ++ [p ++ [e]])
  sequence : l'.head.lastSequence = sequence
  chain : l'.chain = (Cursor.start.after (ps.flatten ++ p)).link
  segment : l'.segment = l.segment
  segmentBytes : l'.segmentBytes = l.segmentBytes
  segmentCount : l'.segmentCount = l.segmentCount - rest.length
  retainedBytes : l'.retainedBytes = l.retainedBytes
  isOpen : l'.isOpen = l.isOpen

theorem truncateTo_ok {io : TruncateIo} {sequence : UInt64} {l l' : Handle} {dir dir' : Directory}
    {parts : List (List Entry)} (hd : Holds dir parts) (hlen : parts.length ≤ 257) (hlow : 1 ≤ sequence.toNat)
    (hhigh : sequence.toNat ≤ parts.flatten.length) (h : truncateTo io sequence l dir = (.ok (), l', dir')) :
    ∃ ps p e q rest, CutAt parts ps p e q rest sequence.toNat ∧ Truncated l l' dir' sequence ps p e rest := by
  rw [truncateTo, hd.readAll] at h
  simp only [hd.entries] at h
  obtain ⟨ps, p, e, q, rest, hcut, heq⟩ := truncateSegments_segmentsOf io l dir parts 0 .start 0 hd.bounded
    (hd.entries ▸ hd.sizes) hlow (by omega)
  refine ⟨ps, p, e, q, rest, hcut, ?_⟩
  rw [heq] at h
  unfold cutSegment writeHead State.writeFileAtomic at h
  cases hio : io.truncation with
  | some f => rw [hio] at h; cases h
  | none =>
    cases hreplace : io.headReplacement with
    | some f => rw [hio, hreplace] at h; cases h
    | none =>
      rw [hio, hreplace] at h
      simp only [Nat.zero_add] at h
      have hentries := entries_cut hcut hd.entries hlen
      cases h
      have hflat : parts.flatten = (ps ++ [p ++ [e]]).flatten ++ (q ++ rest.flatten) := by
        rw [hcut.parts]; simp
      refine ⟨⟨hentries, ?_, ?_⟩, rfl, rfl, rfl, rfl, by simp only [length_segmentsOf], rfl, rfl⟩
      · have hb := hd.bounded
        rw [hflat] at hb
        exact (List.forall_mem_append.1 hb).1
      · intro x hx
        simp only [hentries] at hx
        have hsizes := hd.sizes
        rw [hd.entries, hcut.parts, segmentsOf_append, segmentsOf] at hsizes
        rw [segmentsOf_append] at hx
        rcases List.mem_append.1 hx with hx | hx
        · exact hsizes x (List.mem_append_left _ hx)
        · obtain rfl := List.mem_singleton.1 hx
          have hpart := hsizes _ (List.mem_append_right _ List.mem_cons_self)
          have hentries : p ++ e :: q = (p ++ [e]) ++ q := by simp
          rw [hentries, encodeEntries_append _ (p ++ [e]) q, List.length_append] at hpart
          exact le_trans (Nat.le_add_right _ _) hpart

end Ledger

end Wnc
