/-
The appends that follow a truncation. They go on from the state the truncation left the handle in: the first
frame links to the link of the last record kept, and is counted to a segment and to bytes that may be gone.
-/
import Wnc.Ledger.Accounting
import Wnc.Ledger.FailedAppend
import Wnc.Ledger.Tampering
import Wnc.Ledger.Truncate

namespace Wnc

open Lib

namespace Ledger

/-! ## Segments as rows of frames -/

theorem encodeSealed_append (xs ys : List Sealed) : encodeSealed (xs ++ ys) = encodeSealed xs ++ encodeSealed ys :=
  List.flatMap_append

theorem encodeSealed_singleton (f : Sealed) : encodeSealed [f] = f.bytes := by
  rw [encodeSealed_cons]
  exact List.append_nil _

theorem sealedSegments_append (i : Nat) (ps qs : List (List Sealed)) :
    sealedSegments i (ps ++ qs) = sealedSegments i ps ++ sealedSegments (i + ps.length) qs := by
  induction ps generalizing i with
  | nil => rfl
  | cons p ps ih =>
    rw [List.cons_append, sealedSegments, ih, sealedSegments, List.cons_append, List.length_cons, Nat.add_assoc,
      Nat.add_comm 1]

@[simp] theorem length_sealedSegments (i : Nat) (ps : List (List Sealed)) : (sealedSegments i ps).length = ps.length := by
  induction ps generalizing i with
  | nil => rfl
  | cons p ps ih => rw [sealedSegments, List.length_cons, List.length_cons, ih]

/-- What parsing a segment passes over is a row of frames within their bound. -/
theorem Reached.sealed {bytes : Bytes} {offset : Nat} (h : Reached bytes offset) :
    ∃ fs, bytes.take offset = encodeSealed fs ∧ Bounded (fs.map Sealed.entry) := by
  obtain ⟨k, hk⟩ := h
  induction k generalizing offset with
  | zero =>
    cases hk
    exact ⟨[], rfl, fun _ h => (nomatch h)⟩
  | succ k ih =>
    obtain ⟨before, record, consumed, hbefore, hp, rfl⟩ := frameOffset_pred hk
    obtain ⟨fs, hfs, hbounded⟩ := ih hbefore
    refine ⟨fs ++ [⟨⟨record.type, record.payload⟩, record.sequence, record.chain⟩], ?_, ?_⟩
    · rw [encodeSealed_append, ← hfs, List.take_add, encodeSealed_singleton, Sealed.bytes, ← bytes_of_parseFrame hp]
      rfl
    · rw [List.map_append]
      refine List.forall_mem_append.2 ⟨hbounded, List.forall_mem_singleton.2 ?_⟩
      rw [parseFrame_eq_ok_iff] at hp
      obtain ⟨hlen, -, -, hbound, -, -, hr, -⟩ := hp
      simp only [hr, length_slice hlen]
      exact hbound

theorem sealed_of_whole (entries : List (Bytes × Bytes)) : ∀ i,
    entries.map Prod.fst = (List.range' i entries.length).map segmentName →
    (∀ e ∈ entries, Reached e.2 e.2.length) →
    ∃ parts, entries = sealedSegments i parts ∧ Bounded (parts.flatten.map Sealed.entry) := by
  induction entries with
  | nil => intro i _ _; exact ⟨[], rfl, fun _ h => (nomatch h)⟩
  | cons x entries ih =>
    intro i hnames hwhole
    obtain ⟨name, bytes⟩ := x
    rw [List.length_cons, List.range'_succ, List.map_cons, List.map_cons] at hnames
    obtain ⟨hname, hnames⟩ := List.cons.inj hnames
    obtain ⟨hx, hrest⟩ := List.forall_mem_cons.1 hwhole
    obtain ⟨fs, hfs, hbounded⟩ := hx.sealed
    obtain ⟨parts, rfl, hparts⟩ := ih (i + 1) hnames hrest
    rw [List.take_length] at hfs
    simp only at hname hfs
    refine ⟨fs :: parts, by rw [sealedSegments, hname, hfs], ?_⟩
    rw [List.flatten_cons, List.map_append]
    exact List.forall_mem_append.2 ⟨hbounded, hparts⟩

theorem Laid.sealed {journal : SortedMap Bytes Bytes} {k : Nat} (h : Laid journal k) :
    ∃ parts, journal.entries = sealedSegments 0 parts ∧ Bounded (parts.flatten.map Sealed.entry) :=
  sealed_of_whole journal.entries 0 (by rw [h.names, h.length, List.range_eq_range']) h.whole

theorem addressable_of_bounded {fs : List Sealed} (h : Bounded (fs.map Sealed.entry)) : Addressable fs := fun _ hf =>
  lt_of_le_of_lt (h _ (List.mem_map_of_mem hf)) (by decide)

/-- Frames are read exactly when a scan from the start accepts them. -/
theorem readAll_sealed_iff {dir : Directory} {parts : List (List Sealed)}
    (hentries : dir.journal.entries = sealedSegments 0 parts) (hbounded : Bounded (parts.flatten.map Sealed.entry))
    (hsizes : ∀ e ∈ dir.journal.entries, e.2.length ≤ maxSegmentBytes) {records : List Record} :
    (∃ report, readAll dir = .ok (records, report)) ↔
      Accepted .start parts.flatten ∧ records = recordsOf .start (parts.flatten.map Sealed.entry) := by
  have hfit : SizesFit dir.journal.entries := fun e he => le_trans (hsizes e he) (Nat.le_succ _)
  by_cases haccepted : Accepted .start parts.flatten
  · obtain ⟨report, hread, -⟩ := readAll_sealed hentries haccepted hfit
    rw [hread]
    constructor
    · rintro ⟨report', hsame⟩
      cases hsame
      exact ⟨haccepted, rfl⟩
    · rintro ⟨-, rfl⟩
      exact ⟨report, rfl⟩
  · obtain ⟨f, hread⟩ := readAll_refuses hentries (addressable_of_bounded hbounded) fun h => haccepted h.1
    rw [hread]
    exact iff_of_false (fun ⟨_, h⟩ => nomatch h) fun h => haccepted h.1

/-- A journal of whole frames that is read holds the parts of a history, none of them empty. -/
theorem Laid.holds {dir : Directory} {k : Nat} (h : Laid dir.journal k) {records : List Record} {report : RecoveryReport}
    (hread : readAll dir = .ok (records, report)) :
    ∃ fparts parts, dir.journal.entries = sealedSegments 0 fparts ∧ Accepted .start fparts.flatten ∧
      fparts.flatten.map Sealed.entry = parts.flatten ∧ Holds dir parts ∧ parts.length = k ∧ [] ∉ parts ∧
      records = recordsOf .start parts.flatten := by
  obtain ⟨fparts, hentries, hbounded⟩ := h.sealed
  obtain ⟨haccepted, hrecords⟩ := (readAll_sealed_iff hentries hbounded h.sizes).1 ⟨report, hread⟩
  have hsegments := hentries.trans (sealedSegments_eq haccepted)
  rw [List.map_flatten] at hbounded hrecords
  refine ⟨fparts, fparts.map (List.map Sealed.entry), hentries, haccepted, List.map_flatten,
    ⟨hsegments, hbounded, h.sizes⟩, ?_, ?_, hrecords⟩
  · have hlen := h.length
    rwa [hsegments, length_segmentsOf] at hlen
  · intro hmem
    obtain ⟨p, hp, hnil⟩ := List.mem_map.1 hmem
    obtain rfl : p = [] := List.map_eq_nil_iff.1 hnil
    obtain ⟨before, behind, rfl⟩ := List.append_of_mem hp
    rw [sealedSegments_append, sealedSegments] at hentries
    exact h.nonempty (segmentName (0 + before.length), encodeSealed []) (by rw [hentries]; simp) rfl

/-! ## Appends behind a truncation -/

section Append

variable {h h' : Handle} {dir dir' : Directory} {k found : Nat} {parts : List (List Sealed)}

theorem append_next {type : RecordType} {payload : Bytes} {sequence : UInt64}
    (happend : Ledger.append .succeeds type payload h dir = (.ok sequence, h', dir')) :
    h'.head.lastSequence = h.head.lastSequence + 1 ∧
      h'.chain = chainValue type (h.head.lastSequence + 1) payload := by
  cases hprep : prepareAppend h payload with
  | mk r h₁ =>
  cases r with
  | error f => rw [Ledger.append, hprep] at happend; cases happend
  | ok u =>
    rw [append_succeeds_eq hprep] at happend
    obtain ⟨-, -, ⟨-, rfl⟩ | ⟨-, -, rfl⟩⟩ := prepareAppend_ok hprep
    all_goals
      cases happend
      exact ⟨rfl, buildFrame_chain ..⟩

/-- An append puts its frame behind all others: in the last segment, or in one of its own. -/
theorem Tallied.append_sealed (ht : Tallied h dir.journal k found) (hl : Laid dir.journal k) (hk : k ≠ 0)
    (hentries : dir.journal.entries = sealedSegments 0 parts) {e : Entry} {sequence : UInt64}
    (happend : Ledger.append .succeeds e.type e.payload h dir = (.ok sequence, h', dir')) :
    ∃ parts', dir'.journal.entries = sealedSegments 0 parts' ∧
      parts'.flatten = parts.flatten ++ [⟨e, h.head.lastSequence + 1, h.chain⟩] := by
  obtain ⟨h₁, hprep, hw⟩ := append_wrote happend
  obtain ⟨k, rfl⟩ := Nat.exists_eq_succ_of_ne_zero hk
  have hjournal := hw.journal
  have hlen : parts.length = k + 1 := by
    have := hl.length
    rwa [hentries, length_sealedSegments] at this
  obtain ⟨-, -, ⟨-, rfl⟩ | ⟨-, -, rfl⟩⟩ := prepareAppend_ok hprep
  · have hsegment : h₁.segment = k := ht.segment
    obtain ⟨before, c, hlast, hfind, -, hset⟩ := hl.last
    obtain ⟨ps, p, rfl⟩ : ∃ ps p, parts = ps ++ [p] :=
      ⟨_, _, (List.dropLast_append_getLast (List.ne_nil_of_length_pos (by omega))).symm⟩
    rw [List.length_append, List.length_singleton] at hlen
    obtain rfl : ps.length = k := Nat.succ.inj hlen
    rw [hentries, sealedSegments_append, sealedSegments, sealedSegments, Nat.zero_add] at hlast
    obtain ⟨rfl, hc⟩ := List.append_inj' hlast rfl
    obtain rfl : encodeSealed p = c := by simpa using hc
    rw [hsegment, hfind, Option.getD_some] at hjournal
    refine ⟨ps ++ [p ++ [⟨e, h₁.head.lastSequence + 1, h₁.chain⟩]], ?_, by simp⟩
    rw [hjournal, hset, sealedSegments_append, sealedSegments, sealedSegments, Nat.zero_add, encodeSealed_append,
      encodeSealed_singleton]
    rfl
  · have hsegment : h.segment + 1 = k + 1 := congrArg (· + 1) ht.segment
    simp only [hsegment] at hjournal
    rw [hl.absent, Option.getD_none, List.nil_append] at hjournal
    refine ⟨parts ++ [[⟨e, h.head.lastSequence + 1, h.chain⟩]], ?_, by simp⟩
    rw [hjournal, hl.entries_create, hentries, sealedSegments_append, sealedSegments, sealedSegments, Nat.zero_add, hlen,
      encodeSealed_singleton]
    rfl

/-- A run of appends: the handle's counters stay what they are, and the frames stand behind all others. -/
theorem Tallied.appendAll_sealed {es : List Entry} : ∀ {h : Handle} {dir : Directory} {k : Nat} {parts : List (List Sealed)},
    Tallied h dir.journal k found → Laid dir.journal k → k ≠ 0 → dir.journal.entries = sealedSegments 0 parts →
    appendAll es h dir = some (h', dir') →
    ∃ k' parts', k' ≠ 0 ∧ Laid dir'.journal k' ∧ Tallied h' dir'.journal k' found ∧
      dir'.journal.entries = sealedSegments 0 parts' ∧
      parts'.flatten = parts.flatten ++ sealed ⟨h.head.lastSequence + 1, h.chain⟩ es ∧ Bounded es := by
  induction es with
  | nil =>
    intro h dir k parts ht hl hk hentries happend
    cases happend
    exact ⟨k, parts, hk, hl, ht, hentries, (List.append_nil _).symm, fun _ h => (nomatch h)⟩
  | cons e es ih =>
    intro h dir k parts ht hl hk hentries happend
    rw [appendAll] at happend
    split at happend
    · cases happend
    · rename_i sequence h₁ dir₁ hfirst
      obtain ⟨k₁, hk₁, -, hl₁, ht₁⟩ := ht.append hl hfirst
      obtain ⟨parts₁, hentries₁, hflat₁⟩ := ht.append_sealed hl hk hentries hfirst
      obtain ⟨hsequence, hchain⟩ := append_next hfirst
      obtain ⟨k', parts', hk', hl', ht', hentries', hflat', hbounded⟩ := ih ht₁ hl₁
        (by rw [hk₁]; split <;> omega) hentries₁ happend
      obtain ⟨_, hprep, -⟩ := append_wrote hfirst
      refine ⟨k', parts', hk', hl', ht', hentries', ?_, List.forall_mem_cons.2 ⟨(prepareAppend_ok hprep).1, hbounded⟩⟩
      rw [hflat', hflat₁, hsequence, hchain, List.append_assoc, sealed]
      rfl

theorem Wrote.total {frame : Bytes} (hw : Wrote h h' dir dir' frame) :
    dir'.journal.total List.length = dir.journal.total List.length + frame.length := by
  have htotal := SortedMap.total_set List.length dir.journal (segmentName h.segment)
    ((dir.journal.find? (segmentName h.segment)).getD [] ++ frame)
  rw [← hw.journal, List.length_append] at htotal
  cases hfind : dir.journal.find? (segmentName h.segment) with
  | none =>
    rw [hfind] at htotal
    simpa using htotal
  | some c =>
    rw [hfind, Option.map_some, Option.getD_some, Option.getD_some] at htotal
    omega

/-- Appends count the bytes they write, whatever the count was before. -/
theorem appendAll_retained {es : List Entry} : ∀ {h : Handle} {dir : Directory}, appendAll es h dir = some (h', dir') →
    h'.retainedBytes + dir.journal.total List.length = h.retainedBytes + dir'.journal.total List.length := by
  induction es with
  | nil => intro h dir happend; cases happend; rfl
  | cons e es ih =>
    intro h dir happend
    rw [appendAll] at happend
    split at happend
    · cases happend
    · rename_i sequence h₁ dir₁ hfirst
      obtain ⟨h₀, hprep, hw⟩ := append_wrote hfirst
      have hrest := ih happend
      have htotal := hw.total
      have hretained := hw.retainedBytes
      have hkept : h₀.retainedBytes = h.retainedBytes := by
        obtain ⟨-, -, ⟨-, rfl⟩ | ⟨-, -, rfl⟩⟩ := prepareAppend_ok hprep <;> rfl
      omega

end Append

/-- What is to hold behind a truncation that kept some records and the appends of entries: a read returns the records
kept and then the new ones, and the counters match the files. -/
structure Usable (kept : List Record) (es : List Entry) (h : Handle) (dir : Directory) : Prop where
  read : ∃ records report, readAll dir = .ok (records, report) ∧
    records.map Record.view = kept.map Record.view ++ numbered (UInt64.ofNat kept.length + 1) es
  counters : Matches h dir

/-- Entries sealed from one position are accepted at another only where there are none. -/
theorem accepted_sealed_iff {c c' : Cursor} {es : List Entry} (hes : Bounded es) :
    Accepted c (sealed c' es) ↔ es = [] ∨ c' = c := by
  cases es with
  | nil => exact iff_of_true trivial (.inl rfl)
  | cons e es =>
    constructor
    · rintro ⟨⟨-, hsequence, hlink⟩, -⟩
      exact .inr (Cursor.ext hsequence hlink)
    · rintro (h | rfl)
      · cases h
      · exact accepted_sealed hes

theorem map_entry_length_segmentsOf (parts : List (List Entry)) : ∀ (i : Nat) (c : Cursor),
    ((segmentsOf i c parts).map fun e => e.2.length).sum = (encodeEntries c parts.flatten).length := by
  induction parts with
  | nil => intro i c; rfl
  | cons p parts ih =>
    intro i c
    rw [segmentsOf, List.map_cons, List.sum_cons, ih, List.flatten_cons, encodeEntries_append, List.length_append]

theorem Holds.total {dir : Directory} {parts : List (List Entry)} (hd : Holds dir parts) :
    dir.journal.total List.length = (encodeEntries .start parts.flatten).length := by
  rw [SortedMap.total, hd.entries, map_entry_length_segmentsOf]

/-- A truncation that drops records drops bytes, which stay counted. -/
theorem Truncated.not_matches {l l' l'' : Handle} {dir dir' dir'' : Directory} {sequence : UInt64}
    {parts ps rest : List (List Entry)} {p q : List Entry} {e : Entry} {es : List Entry} {count : Nat}
    (htr : Truncated l l' dir' sequence ps p e rest) (hcut : CutAt parts ps p e q rest count) (hd : Holds dir parts)
    (hdropped : count ≠ parts.flatten.length) (hretained : l.retainedBytes = dir.journal.total List.length)
    (happend : appendAll es l' dir' = some (l'', dir'')) : ¬Matches l'' dir'' := by
  intro hm
  have hcounted := hm.retainedBytes
  have hwritten := appendAll_retained happend
  have hflat : parts.flatten = (ps ++ [p ++ [e]]).flatten ++ (q ++ rest.flatten) := by
    rw [hcut.parts]
    simp
  have htotal := hd.total
  have htotal' := htr.holds.total
  have hbytes := length_encodeEntries (Cursor.start.after (ps ++ [p ++ [e]]).flatten) (q ++ rest.flatten)
  have hpos : (q ++ rest.flatten).length ≠ 0 := by
    intro hnone
    refine hdropped ?_
    rw [hflat, List.length_append, hnone, ← hcut.count]
    simp
  rw [hflat, encodeEntries_append, List.length_append] at htotal
  rw [show dir''.journalBytes = dir''.journal.total List.length from rfl] at hcounted
  rw [htr.retainedBytes] at hwritten
  simp only [frameHeaderBytes] at hbytes
  omega

/-- The position that a truncation to the last record leaves the handle at is the end of the history only where the link
of that record is its chain value. -/
theorem cursor_eq_iff {parts ps : List (List Entry)} {p : List Entry} {e : Entry} {s : UInt64}
    (hall : s.toNat = parts.flatten.length) (hparts : parts = ps ++ [p ++ [e]]) :
    (⟨s + 1, (Cursor.start.after (ps.flatten ++ p)).link⟩ : Cursor) = Cursor.start.after parts.flatten ↔
      ∃ r, (recordsOf .start parts.flatten).getLast? = some r ∧ r.chain = r.value := by
  have hflat : parts.flatten = (ps.flatten ++ p) ++ [e] := by rw [hparts]; simp
  have hsequence : s + 1 = (Cursor.start.after parts.flatten).sequence := by
    rw [Cursor.after_sequence, ← hall, UInt64.ofNat_toNat, UInt64.add_comm]
    rfl
  have hlast : (recordsOf .start parts.flatten).getLast? = some (recordOf e.type
      (Cursor.start.after (ps.flatten ++ p)).sequence e.payload (Cursor.start.after (ps.flatten ++ p)).link) := by
    rw [hflat, recordsOf_append, recordsOf, recordsOf, List.getLast?_concat]
  rw [hlast]
  constructor
  · intro h
    refine ⟨_, rfl, ?_⟩
    have hlink := congrArg Cursor.link h
    rw [hflat, Cursor.after_snoc] at hlink
    exact hlink
  · rintro ⟨r, hr, hlink⟩
    cases hr
    refine Cursor.ext hsequence ?_
    rw [hflat, Cursor.after_snoc]
    exact hlink

namespace Usage

/-- In every state that opens and successful appends lead to, a truncation of a journal that is read, followed by
appends, leaves a usable ledger exactly when it kept all records, the open of its handle found a segment, and nothing
was appended behind it, unless the link of the last record is its chain value. -/
theorem truncation_usable_iff {path : Bytes} {us : List Use} {u : Usage} {l l' l'' : Handle} {records : List Record}
    {report : RecoveryReport} {io : TruncateIo} {s : UInt64} {dir' dir'' : Directory} {es : List Entry}
    (hrun : Run Step AnyUse (start path) us u) (hh : u.handle = some l) (hread : readAll u.dir = .ok (records, report))
    (hlow : 1 ≤ s.toNat) (hhigh : s.toNat ≤ records.length) (htruncate : truncateTo io s l u.dir = (.ok (), l', dir'))
    (happend : appendAll es l' dir' = some (l'', dir'')) :
    Usable (records.take s.toNat) es l'' dir'' ↔ s.toNat = records.length ∧ u.found ≠ 0 ∧
      (es = [] ∨ ∃ r, records.getLast? = some r ∧ r.chain = r.value) := by
  obtain ⟨k, hi, -, -⟩ := (inv_start path).run hrun
  have hl := hi.laid
  have ht := hi.tallied l hh
  obtain ⟨fparts, parts, hentries, haccepted, hflat, hd, hlen, hnonempty, rfl⟩ := hl.holds hread
  rw [length_recordsOf] at hhigh ⊢
  obtain ⟨ps, p, e, q, rest, hcut, htr⟩ := truncateTo_ok hd (by rw [hlen]; exact hl.few) hlow hhigh htruncate
  by_cases hall : s.toNat = parts.flatten.length
  · -- nothing is cut
    obtain ⟨rfl, rfl⟩ : q = [] ∧ rest = [] := by
      have hcount := hcut.count
      rw [hall, hcut.parts] at hcount
      simp only [List.flatten_append, List.flatten_cons, List.length_append, List.length_cons] at hcount
      refine ⟨List.length_eq_zero_iff.1 (by omega), ?_⟩
      cases rest with
      | nil => rfl
      | cons part rest =>
        refine absurd ?_ hnonempty
        rw [List.flatten_cons, List.length_append] at hcount
        obtain rfl : part = [] := List.length_eq_zero_iff.1 (by omega)
        rw [hcut.parts]
        simp
    have hparts := hcut.parts
    have hjournal : dir'.journal = u.dir.journal := SortedMap.ext (by rw [htr.holds.entries, hd.entries, hparts])
    have ht' : Tallied l' dir'.journal k u.found := by
      rw [hjournal]
      exact ⟨htr.segment.trans ht.segment, by rw [htr.segmentBytes, htr.segment, ht.segmentBytes],
        htr.retainedBytes.trans ht.retainedBytes, htr.segmentCount.trans ht.segmentCount, ht.found⟩
    have hk : k ≠ 0 := by
      rw [← hlen, hparts]
      simp
    obtain ⟨k', fparts', hk', hl', ht'', hentries', hflat', hes⟩ := ht'.appendAll_sealed (by rw [hjournal]; exact hl) hk
      (by rw [hjournal]; exact hentries) happend
    have hentry : fparts'.flatten.map Sealed.entry = parts.flatten ++ es := by
      rw [hflat', List.map_append, hflat, map_entry_sealed]
    have hbounded : Bounded (fparts'.flatten.map Sealed.entry) := by
      rw [hentry]
      exact List.forall_mem_append.2 ⟨hd.bounded, hes⟩
    have hgoes : Accepted .start fparts'.flatten ↔ es = [] ∨
        ∃ r, (recordsOf .start parts.flatten).getLast? = some r ∧ r.chain = r.value := by
      rw [hflat', accepted_append, and_iff_right haccepted, accepted_sealed_iff hes, hflat, htr.sequence, htr.chain,
        cursor_eq_iff hall hcut.parts]
    constructor
    · rintro ⟨⟨records, report', hread', -⟩, hm⟩
      obtain ⟨haccepted', -⟩ := (readAll_sealed_iff hentries' hbounded hl'.sizes).1 ⟨report', hread'⟩
      exact ⟨hall, (ht''.matches_iff hl' hk').1 hm, hgoes.1 haccepted'⟩
    · rintro ⟨-, hfound, hnext⟩
      obtain ⟨report', hread'⟩ := (readAll_sealed_iff hentries' hbounded hl'.sizes).2 ⟨hgoes.2 hnext, rfl⟩
      refine ⟨⟨_, report', hread', ?_⟩, (ht''.matches_iff hl' hk').2 hfound⟩
      rw [hentry, recordsOf_append, List.map_append, map_view_recordsOf _ es, Cursor.after_sequence,
        List.take_of_length_le (by rw [length_recordsOf]; exact hall.ge), length_recordsOf, UInt64.add_comm]
      rfl
  · -- bytes are cut, and stay counted
    exact iff_of_false (fun hu => htr.not_matches hcut hd (fun he => hall he) ht.retainedBytes happend hu.counters)
      fun hc => hall hc.1

/-- A truncation of a directory in use to a record, and appends behind it: the directory, the handle, and how many
records there were. -/
def truncateAppend (s : UInt64) (es : List Entry) (u : Usage) : Option (Nat × Handle × Directory) :=
  match u.handle, readAll u.dir with
  | some l, .ok (records, _) =>
    match truncateTo .succeeds s l u.dir with
    | (.ok (), l, dir) => (appendAll es l dir).map fun result => (records.length, result)
    | (.error _, _, _) => none
  | _, _ => none

theorem truncateAppend_eq_some {s : UInt64} {es : List Entry} {u : Usage} {n : Nat} {l'' : Handle} {dir'' : Directory}
    (h : truncateAppend s es u = some (n, l'', dir'')) : ∃ l l' dir' records report, u.handle = some l ∧
      readAll u.dir = .ok (records, report) ∧ records.length = n ∧
      truncateTo .succeeds s l u.dir = (.ok (), l', dir') ∧ appendAll es l' dir' = some (l'', dir'') := by
  unfold truncateAppend at h
  split at h
  · rename_i l records report hh hread
    split at h
    · rename_i l' dir' htruncate
      obtain ⟨result, happend, heq⟩ := Option.map_eq_some_iff.1 h
      cases heq
      exact ⟨l, l', dir', records, report, hh, hread, rfl, htruncate, happend⟩
    · cases h
  · cases h

set_option maxRecDepth 100000 in
theorem truncation_usable_iff_counted : ∃ (u : Usage) (records : List Record) (l'' : Handle) (dir'' : Directory),
    u.found = 1 ∧ records.length = 1 ∧ (Usable (records.take (1 : UInt64).toNat) [] l'' dir'' ↔
      (1 : UInt64).toNat = records.length ∧ u.found ≠ 0 ∧
        (([] : List Entry) = [] ∨ ∃ r, records.getLast? = some r ∧ r.chain = r.value)) := by
  have hspec : (exec Usage.step AnyUse (start (utf8 "/w")) countedUses).map (fun u => (u.found,
      (truncateAppend 1 [] u).map Prod.fst)) = some (1, some 1) := by decide +kernel
  obtain ⟨u, hu, hvalues⟩ := Option.map_eq_some_iff.1 hspec
  simp only [Prod.mk.injEq] at hvalues
  obtain ⟨hfound, hresult⟩ := hvalues
  obtain ⟨⟨n, l'', dir''⟩, hresult, hn⟩ := Option.map_eq_some_iff.1 hresult
  obtain ⟨l, l', dir', records, report, hh, hread, hrecords, htruncate, happend⟩ := truncateAppend_eq_some hresult
  have hone : records.length = 1 := hrecords.trans hn
  exact ⟨u, records, l'', dir'', hfound, hone, truncation_usable_iff (run_of_exec _ _ hu) hh hread (by decide)
    (by rw [hone]; decide) htruncate happend⟩

set_option maxRecDepth 100000 in
/-- After two appends, a truncation to the first record and one more append no read succeeds. -/
theorem truncation_misleads : ¬∀ (path : Bytes) (us : List Use) (u : Usage) (l l' l'' : Handle) (records : List Record)
    (report : RecoveryReport) (io : TruncateIo) (s : UInt64) (dir' dir'' : Directory) (es : List Entry),
    Run Step AnyUse (start path) us u → u.handle = some l → readAll u.dir = .ok (records, report) → 1 ≤ s.toNat →
    s.toNat ≤ records.length → truncateTo io s l u.dir = (.ok (), l', dir') → appendAll es l' dir' = some (l'', dir'') →
    Usable (records.take s.toNat) es l'' dir'' := by
  intro hall
  have hspec : (exec Usage.step AnyUse (start (utf8 "/w")) (countedUses.take 2 ++ (countedUses.drop 1).take 1)).map
      (fun u => (truncateAppend 1 [⟨.genesis, utf8 "{}"⟩] u).map fun r => (r.1, (readAll r.2.2).toBool)) =
      some (some (2, false)) := by decide +kernel
  obtain ⟨u, hu, hresult⟩ := Option.map_eq_some_iff.1 hspec
  obtain ⟨⟨n, l'', dir''⟩, hresult, hvalues⟩ := Option.map_eq_some_iff.1 hresult
  simp only [Prod.mk.injEq] at hvalues
  obtain ⟨hn, hrefused⟩ := hvalues
  obtain ⟨l, l', dir', records, report, hh, hread, hrecords, htruncate, happend⟩ := truncateAppend_eq_some hresult
  have husable := hall _ _ u l l' l'' records report .succeeds 1 dir' dir'' _ (run_of_exec _ _ hu) hh hread (by decide)
    (by rw [hrecords, hn]; decide) htruncate happend
  obtain ⟨records', report', hread', -⟩ := husable.read
  rw [hread'] at hrefused
  cases hrefused

end Usage

end Ledger

end Wnc
