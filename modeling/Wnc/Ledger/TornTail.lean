/-
A journal whose last segment was cut short. The frames that lie wholly before the cut are kept, the bytes of the
frame that the cut falls into are reported and removed, and the journal left behind is one that appends could have
written.
-/
import Wnc.Ledger.Session

namespace Wnc

open Lib

namespace Ledger

/-- The entries whose frames lie wholly within the first `n` bytes. -/
def wholeFrames : Nat → List Entry → List Entry
  | _, [] => []
  | n, e :: es =>
    if frameHeaderBytes + e.payload.length ≤ n then e :: wholeFrames (n - (frameHeaderBytes + e.payload.length)) es
    else []

theorem wholeFrames_isInit (n : Nat) (es : List Entry) : wholeFrames n es <+: es := by
  induction es generalizing n with
  | nil => exact List.prefix_refl _
  | cons e es ih =>
    rw [wholeFrames]
    split
    · exact (List.prefix_cons_inj e).2 (ih _)
    · exact List.nil_prefix

/-- What is left of a frame that the cut falls into. -/
def Torn (es : List Entry) (junk : Bytes) : Prop :=
  ∃ e ∈ es, ∃ sequence link m, 0 < m ∧ m < frameHeaderBytes + e.payload.length ∧
    junk = (buildFrame e.type sequence e.payload link).bytes.take m

/-- A cut leaves the whole frames before it, and possibly a part of one frame. -/
theorem take_encodeEntries (n : Nat) (c : Cursor) (es : List Entry) :
    ∃ junk, (encodeEntries c es).take n = encodeEntries c (wholeFrames n es) ++ junk ∧ (junk = [] ∨ Torn es junk) := by
  induction es generalizing n c with
  | nil => exact ⟨[], by simp [encodeEntries, wholeFrames], .inl rfl⟩
  | cons e es ih =>
    have hlen := length_buildFrame e.type c.sequence e.payload c.link
    rw [wholeFrames]
    split
    · rename_i hfits
      obtain ⟨junk, htake, hjunk⟩ := ih (n - (frameHeaderBytes + e.payload.length)) (c.next e)
      refine ⟨junk, ?_, ?_⟩
      · rw [encodeEntries, encodeEntries, List.append_assoc, ← htake, List.take_append, hlen,
          List.take_of_length_le (by omega)]
      · rcases hjunk with h | ⟨e', he', h⟩
        · exact .inl h
        · exact .inr ⟨e', List.mem_cons_of_mem _ he', h⟩
    · rename_i hshort
      refine ⟨(buildFrame e.type c.sequence e.payload c.link).bytes.take n, ?_, ?_⟩
      · rw [encodeEntries, encodeEntries, List.nil_append, List.take_append_of_le_length (by omega)]
      · rcases Nat.eq_zero_or_pos n with rfl | hpos
        · exact .inl (List.take_zero)
        · exact .inr ⟨e, List.mem_cons_self, c.sequence, c.link, n, hpos, by omega, rfl⟩

/-- A part of a frame at the end of a segment is a frame that ends early. -/
theorem parseFrame_torn {es : List Entry} (hes : Bounded es) {junk : Bytes} (h : Torn es junk) (pre : Bytes) :
    ∃ message, parseFrame (pre ++ junk) pre.length = .error ⟨.ledgerTruncated, message⟩ := by
  obtain ⟨e, he, sequence, link, m, _, hm, rfl⟩ := h
  exact parseFrame_part e.type sequence e.payload link (hes e he) hm pre

/-! ## The scan of a torn journal -/

/-- A scan that read records up to a position of the chain and met a torn tail in the last segment. -/
structure Scan.TornAt (s : Scan) (c : Cursor) (records : List Record) (valid torn : Nat) : Prop where
  records : s.records = records
  last : s.report.lastValidSequence + 1 = c.sequence
  sound : s.failure = none
  valid : s.report.validBytes = valid
  torn : s.report.truncatedBytes = torn
  excess : s.report.excessSegments = 0

/-- A directory whose last segment ends with a part of a frame. -/
structure EndsTorn (dir : Directory) (ps : List (List Entry)) (p : List Entry) (junk : Bytes) : Prop where
  entries : dir.journal.entries = segmentsOf 0 .start ps ++
    [(segmentName ps.length, encodeEntries (Cursor.start.after ps.flatten) p ++ junk)]
  bounded : Bounded (ps.flatten ++ p)
  sizes : ∀ e ∈ dir.journal.entries, e.2.length ≤ maxSegmentBytes
  torn : ∃ es, Bounded es ∧ Torn es junk

theorem Torn.length_pos {es : List Entry} {junk : Bytes} (h : Torn es junk) : 0 < junk.length := by
  obtain ⟨e, _, sequence, link, m, hpos, hm, rfl⟩ := h
  rw [List.length_take, length_buildFrame]
  omega

theorem EndsTorn.readFrames {dir : Directory} {ps : List (List Entry)} {p : List Entry} {junk : Bytes}
    (h : EndsTorn dir ps p junk) :
    (Ledger.readFrames dir).TornAt (Cursor.start.after (ps.flatten ++ p)) (recordsOf .start (ps.flatten ++ p))
      (encodeEntries (Cursor.start.after ps.flatten) p).length junk.length := by
  obtain ⟨hps, hp⟩ := List.forall_mem_append.1 h.bounded
  obtain ⟨es, hes, htorn⟩ := h.torn
  have hsizes := h.sizes
  rw [h.entries] at hsizes
  obtain ⟨hbefore, hlast⟩ := List.forall_mem_append.1 hsizes
  obtain ⟨s₁, hs₁, hscan, hexcess⟩ := scanSegments_append ps 0 hps hbefore Scan.at_start
    [(segmentName ps.length, encodeEntries (Cursor.start.after ps.flatten) p ++ junk)]
  -- the last segment is read up to the part of a frame
  have hlen := length_encodeEntries (Cursor.start.after ps.flatten) p
  obtain ⟨fuel, hfuel⟩ : ∃ fuel, (encodeEntries (Cursor.start.after ps.flatten) p ++ junk).length =
      fuel + 1 + p.length := by
    have := Nat.le_mul_of_pos_left p.length (show 0 < frameHeaderBytes by decide)
    have := htorn.length_pos
    rw [List.length_append]
    exact ⟨_, (show _ = (encodeEntries (Cursor.start.after ps.flatten) p).length + junk.length - 1 - p.length + 1 +
      p.length by omega)⟩
  obtain ⟨s₂, hs₂, heq⟩ := scanSegment_entries p hp hs₁ [] junk (fuel + 1)
  obtain ⟨message, hparse⟩ := parseFrame_torn hes htorn (encodeEntries (Cursor.start.after ps.flatten) p)
  simp only [List.nil_append, List.length_nil, Nat.zero_add] at heq
  rw [scanSegment, if_neg (by rw [List.length_append]; have := htorn.length_pos; omega), hparse] at heq
  have hexcess₂ : s₂.report.excessSegments = 0 := by
    have := congrArg (fun s : Scan => s.report.excessSegments) heq
    simp only [scanSegment_excess, Scan.stop] at this
    rw [hexcess] at this
    exact this.symm
  have hs : scanSegments dir.journal.entries {} =
      s₂.stop (encodeEntries (Cursor.start.after ps.flatten) p ++ junk)
        (encodeEntries (Cursor.start.after ps.flatten) p).length ⟨.ledgerTruncated, message⟩ := by
    rw [h.entries, hscan, scanSegments, if_neg (by rw [hs₁.untorn]; decide),
      if_neg (not_lt.2 (le_trans (hlast _ List.mem_cons_self) (Nat.le_succ _))), hfuel]
    simp only
    rw [heq]
    simp only [Scan.stop, hs₂.sound, scanSegments]
    rfl
  have hafter : (Cursor.start.after ps.flatten).after p = Cursor.start.after (ps.flatten ++ p) :=
    (Cursor.after_append ..).symm
  have hstop : s₂.stop (encodeEntries (Cursor.start.after ps.flatten) p ++ junk)
      (encodeEntries (Cursor.start.after ps.flatten) p).length ⟨.ledgerTruncated, message⟩ =
      { s₂ with
        torn := true
        report := { s₂.report with
          recovered := true
          truncatedBytes := junk.length
          validBytes := (encodeEntries (Cursor.start.after ps.flatten) p).length
          detail := codeToken .ledgerTruncated ++ utf8 ": " ++ message } } := by
    unfold Scan.stop
    rw [if_neg (not_not.2 rfl), List.length_append, Nat.add_sub_cancel_left]
  unfold Ledger.readFrames
  rw [hs, hstop]
  simp only
  rw [if_neg (by rw [hs₂.sound]; decide)]
  refine ⟨?_, ?_, hs₂.sound, rfl, rfl, hexcess₂⟩
  · rw [recordsOf_append]
    exact hs₂.records
  · rw [← hafter]
    exact hs₂.last

/-! ## Opening a torn journal -/

theorem HeadOk.present {coordinator : CoordinatorId} {trustDigest : Digest} {dir : Directory}
    (h : HeadOk coordinator trustDigest dir) (hj : dir.journal.entries ≠ []) : ∃ head : HeadRecord,
      dir.head = some head.encode ∧
        Ledger.loadHead coordinator trustDigest dir = .ok (some (head.epoch, head.bootCount)) := by
  rcases h with ⟨_, hnone⟩ | ⟨head, hhead, rfl, rfl⟩
  · exact absurd hnone hj
  · exact ⟨head, hhead, loadHead_encode hhead⟩

/-- The repair cuts the last segment to its whole frames. -/
theorem EndsTorn.repair {dir : Directory} {ps : List (List Entry)} {p : List Entry} {junk : Bytes}
    (h : EndsTorn dir ps p junk) (hlen : ps.length ≤ 256) : ∃ dir',
      repairTornTail .succeeds (Ledger.readFrames dir).report dir = (.ok (), dir') ∧ dir'.head = dir.head ∧
        Holds dir' (ps ++ [p]) := by
  have hscan := h.readFrames
  have hcount : dir.journal.entries.length = ps.length + 1 := by rw [h.entries]; simp
  have hlast : dir.journal.entries[ps.length]? =
      some (segmentName ps.length, encodeEntries (Cursor.start.after ps.flatten) p ++ junk) := by
    rw [h.entries, List.getElem?_append_right (by simp), length_segmentsOf, Nat.sub_self]
    rfl
  have hbelow : ∀ e ∈ segmentsOf 0 .start ps, e.1 < segmentName ps.length :=
    fun e he => lt_of_mem_segmentsOf he (by omega)
  have hset : (dir.journal.set (segmentName ps.length) (encodeEntries (Cursor.start.after ps.flatten) p)).entries =
      segmentsOf 0 .start (ps ++ [p]) := by
    rw [SortedMap.entries_set, h.entries, Assoc.set_append_cons hbelow [], segmentsOf_append, Nat.zero_add]
    rfl
  refine ⟨{ dir with
    journal := dir.journal.set (segmentName ps.length) (encodeEntries (Cursor.start.after ps.flatten) p) }, ?_, rfl,
    ⟨hset, by simpa using h.bounded, ?_⟩⟩
  · unfold repairTornTail
    simp only [hscan.excess, hscan.valid, hcount, Nat.sub_zero, OpenIo.succeeds, Nat.add_sub_cancel,
      if_pos (show ps.length + 1 > 0 by omega), hlast, List.take_left]
    congr 2
    -- no segment stands behind the last one
    rw [SortedMap.ext_iff]
    simp only [SortedMap.filter]
    rw [List.drop_of_length_le (le_of_eq hcount), List.filter_eq_self]
    exact fun _ _ => rfl
  · intro e he
    have hsizes := h.sizes
    rw [h.entries] at hsizes
    obtain ⟨hbefore, hlastSize⟩ := List.forall_mem_append.1 hsizes
    simp only at he
    rw [hset, segmentsOf_append, Nat.zero_add] at he
    rcases List.mem_append.1 he with he | he
    · exact hbefore e he
    · have hsize := hlastSize _ List.mem_cons_self
      rw [List.mem_singleton.1 he]
      simp only [List.length_append] at hsize ⊢
      omega

/-- An open reports what its scan found, and a first boot as recovered. -/
theorem openLedger_report {io : OpenIo} {coordinator : CoordinatorId} {trustDigest : Digest} {incarnation : Incarnation}
    {dir dir' : Directory} {l : Handle} {report : RecoveryReport}
    (h : openLedger io coordinator trustDigest incarnation dir = (.ok (l, report), dir')) :
    ∃ records scan previous, readAll dir = .ok (records, scan) ∧ loadHead coordinator trustDigest dir = .ok previous ∧
      report = { scan with recovered := scan.recovered || previous.isNone } := by
  obtain ⟨previous, hload, hfrom⟩ := openLedger_openFrom h
  obtain ⟨records, scan, _, _, hread, -, -, hreport, -, -⟩ := openFrom_ok hfrom
  exact ⟨records, scan, previous, hread, hload, hreport⟩

section Open

variable {coordinator : CoordinatorId} {trustDigest : Digest} {dir : Directory} {ps : List (List Entry)} {p : List Entry}
  {junk : Bytes}

/-- A journal that ends with whole frames is opened without a torn tail, and left as it is. -/
theorem Holds.open_intact {parts : List (List Entry)} (hd : Holds dir parts) (hp : parts.length ≤ 257)
    (hh : HeadOk coordinator trustDigest dir) (hj : dir.journal.entries ≠ []) (incarnation : Incarnation) :
    ∃ l report dir', openLedger .succeeds coordinator trustDigest incarnation dir = (.ok (l, report), dir') ∧
      report.truncatedBytes = 0 ∧ report.recovered = false ∧ report.validRecords = parts.flatten.length ∧
      Holds dir' parts ∧ HeadOk coordinator trustDigest dir' ∧ dir'.journal = dir.journal := by
  obtain ⟨l, report, hopen, hc, ht, _, _, _, _, _, _, hvalid⟩ := openLedger_holds hd hp hh incarnation
  obtain ⟨records, scan, previous, hread, hload, hreport⟩ := openLedger_report hopen
  obtain ⟨_, _, hpresent⟩ := hh.present hj
  have hscan := hd.readFrames
  rw [hd.readAll] at hread
  cases hread
  rw [hpresent] at hload
  cases hload
  refine ⟨l, report, _, hopen, ?_, ?_, hvalid, ⟨hd.entries, hd.bounded, hd.sizes⟩, .inr ⟨l.head, rfl, hc, ht⟩, rfl⟩
  · rw [hreport]; exact hscan.complete
  · rw [hreport]
    simp only [hscan.regular, Option.isNone_some, Bool.or_self]

/-- A journal that ends with a part of a frame is opened without it. -/
theorem EndsTorn.open (h : EndsTorn dir ps p junk) (hlen : ps.length ≤ 256)
    (hh : HeadOk coordinator trustDigest dir) (incarnation : Incarnation) :
    ∃ l report dir', openLedger .succeeds coordinator trustDigest incarnation dir = (.ok (l, report), dir') ∧
      report.truncatedBytes = junk.length ∧ report.validRecords = (ps.flatten ++ p).length ∧
      Holds dir' (ps ++ [p]) ∧ HeadOk coordinator trustDigest dir' := by
  have hscan := h.readFrames
  obtain ⟨es, hes, htorn⟩ := h.torn
  have hj : dir.journal.entries ≠ [] := by rw [h.entries]; simp
  obtain ⟨head, _, hload⟩ := hh.present hj
  obtain ⟨dir₁, hrepair, hhead, hholds⟩ := h.repair hlen
  have hread : readAll dir = .ok (recordsOf .start (ps.flatten ++ p), (Ledger.readFrames dir).report) := by
    unfold readAll
    simp only [hscan.sound, hscan.records]
  have hvalid : (Ledger.readFrames dir).report.validRecords = (ps.flatten ++ p).length := by
    rw [readFrames_validRecords hscan.sound, hscan.records, length_recordsOf]
  have hdiscover := discoverSegments_segmentsOf (ps ++ [p]) 0 .start {} le_rfl (by simp; omega)
  rw [← hholds.entries] at hdiscover
  have htruncated : 0 < (Ledger.readFrames dir).report.truncatedBytes := by
    rw [hscan.torn]; exact htorn.length_pos
  rw [openLedger_loaded_eq rfl rfl hload]
  unfold openFrom
  simp only [OpenIo.succeeds] at hrepair
  simp only [hread, hrepair, hdiscover, OpenIo.succeeds, writeHead, State.writeFileAtomic, gt_iff_lt, htruncated, if_true,
    Option.getD_some]
  exact ⟨_, _, _, rfl, hscan.torn, hvalid, ⟨hholds.entries, hholds.bounded, hholds.sizes⟩, .inr ⟨_, rfl, rfl, rfl⟩⟩

end Open

/-! ## Cutting the last segment -/

/-- The directory with its last segment cut to `n` bytes. -/
def cutLast (n : Nat) (dir : Directory) : Directory :=
  match dir.journal.entries.getLast? with
  | none => dir
  | some (name, bytes) => { dir with journal := dir.journal.set name (bytes.take n) }

/-- What recovery makes of a directory, from an entry list that should be kept and the bytes that should go: the next
open keeps exactly these and reports exactly those, and the one after it finds nothing to repair. -/
structure RecoversTo (coordinator : CoordinatorId) (trustDigest : Digest) (dir : Directory) (kept : List Entry)
    (lost : Nat) : Prop where
  opens : ∀ incarnation, ∃ l report dir₁,
    openLedger .succeeds coordinator trustDigest incarnation dir = (.ok (l, report), dir₁) ∧
      report.truncatedBytes = lost ∧ report.validRecords = kept.length ∧ ReadsBack dir₁ kept ∧
      ∀ incarnation', ∃ l' report' dir₂,
        openLedger .succeeds coordinator trustDigest incarnation' dir₁ = (.ok (l', report'), dir₂) ∧
          report'.truncatedBytes = 0 ∧ report'.recovered = false ∧ ReadsBack dir₂ kept

theorem Holds.cutLast {coordinator : CoordinatorId} {trustDigest : Digest} {dir : Directory} {ps : List (List Entry)}
    {p : List Entry} (hd : Holds dir (ps ++ [p])) (hlen : ps.length ≤ 256) (hh : HeadOk coordinator trustDigest dir)
    (n : Nat) : RecoversTo coordinator trustDigest (cutLast n dir) (ps.flatten ++ wholeFrames n p)
      (((encodeEntries (Cursor.start.after ps.flatten) p).take n).length -
        (encodeEntries (Cursor.start.after ps.flatten) (wholeFrames n p)).length) := by
  have hentries : dir.journal.entries = segmentsOf 0 .start ps ++
      [(segmentName ps.length, encodeEntries (Cursor.start.after ps.flatten) p)] := by
    rw [hd.entries, segmentsOf_append, Nat.zero_add]; rfl
  have hbelow : ∀ e ∈ segmentsOf 0 .start ps, e.1 < segmentName ps.length :=
    fun e he => lt_of_mem_segmentsOf he (by omega)
  obtain ⟨journal, hcut, hset⟩ : ∃ journal, Ledger.cutLast n dir = { dir with journal := journal } ∧
      journal.entries = segmentsOf 0 .start ps ++
        [(segmentName ps.length, (encodeEntries (Cursor.start.after ps.flatten) p).take n)] := by
    refine ⟨dir.journal.set (segmentName ps.length) ((encodeEntries (Cursor.start.after ps.flatten) p).take n), ?_, ?_⟩
    · unfold Ledger.cutLast
      rw [hentries, List.getLast?_append, List.getLast?_singleton, Option.some_or]
    · rw [SortedMap.entries_set, hentries, Assoc.set_append_cons hbelow []]
  have hsizes : ∀ e ∈ journal.entries, e.2.length ≤ maxSegmentBytes := by
    intro e he
    have hall := hd.sizes
    rw [hentries] at hall
    obtain ⟨hbefore, hlast⟩ := List.forall_mem_append.1 hall
    rw [hset] at he
    rcases List.mem_append.1 he with he | he
    · exact hbefore e he
    · rw [List.mem_singleton.1 he]
      exact le_trans (List.length_take_le' _ _) (hlast _ List.mem_cons_self)
  have hbounded : Bounded (ps.flatten ++ wholeFrames n p) := by
    intro e he
    refine hd.bounded e ?_
    simp only [List.flatten_append, List.flatten_cons, List.flatten_nil, List.append_nil]
    rcases List.mem_append.1 he with he | he
    · exact List.mem_append_left _ he
    · exact List.mem_append_right _ ((wholeFrames_isInit n p).subset he)
  have hflat : (ps ++ [wholeFrames n p]).flatten = ps.flatten ++ wholeFrames n p := by simp
  have hne : (segmentsOf 0 .start (ps ++ [wholeFrames n p])) ≠ [] := by rw [segmentsOf_append]; simp [segmentsOf]
  -- once the journal ends with whole frames, an open changes nothing in it
  have hagain : ∀ dir₁, Holds dir₁ (ps ++ [wholeFrames n p]) → HeadOk coordinator trustDigest dir₁ →
      ReadsBack dir₁ (ps.flatten ++ wholeFrames n p) ∧ ∀ incarnation', ∃ l' report' dir₂,
        openLedger .succeeds coordinator trustDigest incarnation' dir₁ = (.ok (l', report'), dir₂) ∧
          report'.truncatedBytes = 0 ∧ report'.recovered = false ∧
            ReadsBack dir₂ (ps.flatten ++ wholeFrames n p) := by
    intro dir₁ hholds hhead
    refine ⟨hflat ▸ hholds.readsBack, fun incarnation' => ?_⟩
    obtain ⟨l', report', dir₂, hopen, htruncated, hrecovered, _, hholds₂, _, _⟩ :=
      hholds.open_intact (by simp; omega) hhead (by rw [hholds.entries]; exact hne) incarnation'
    exact ⟨l', report', dir₂, hopen, htruncated, hrecovered, hflat ▸ hholds₂.readsBack⟩
  obtain ⟨junk, htake, hjunk⟩ := take_encodeEntries n (Cursor.start.after ps.flatten) p
  have hhead : HeadOk coordinator trustDigest { dir with journal := journal } := by
    obtain ⟨head, hpresent, _⟩ := hh.present (by rw [hentries]; simp)
    rcases hh with ⟨hnone, _⟩ | hsome
    · rw [hnone] at hpresent; cases hpresent
    · exact .inr hsome
  refine ⟨fun incarnation => ?_⟩
  rw [hcut]
  rcases hjunk with rfl | htorn
  · -- the cut falls between two frames
    rw [List.append_nil] at htake
    have hholds : Holds { dir with journal := journal } (ps ++ [wholeFrames n p]) := by
      refine ⟨?_, by rw [hflat]; exact hbounded, hsizes⟩
      simp only
      rw [hset, htake, segmentsOf_append, Nat.zero_add]; rfl
    obtain ⟨l, report, dir₁, hopen, htruncated, _, hvalid, hholds₁, hhead₁, _⟩ :=
      hholds.open_intact (by simp; omega) hhead (by rw [hholds.entries]; exact hne) incarnation
    obtain ⟨hback, hnext⟩ := hagain dir₁ hholds₁ hhead₁
    exact ⟨l, report, dir₁, hopen, by rw [htruncated, htake, Nat.sub_self], by rw [hvalid, hflat], hback, hnext⟩
  · have hends : EndsTorn { dir with journal := journal } ps (wholeFrames n p) junk := by
      refine ⟨?_, hbounded, hsizes, p, ?_, htorn⟩
      · simp only
        rw [hset, htake]
      · exact fun e he => hd.bounded e (by simp [he])
    obtain ⟨l, report, dir₁, hopen, htruncated, hvalid, hholds₁, hhead₁⟩ := hends.open hlen hhead incarnation
    obtain ⟨hback, hnext⟩ := hagain dir₁ hholds₁ hhead₁
    refine ⟨l, report, dir₁, hopen, ?_, hvalid, hback, hnext⟩
    rw [htruncated, htake, List.length_append, Nat.add_sub_cancel_left]

/-- After any run whose appends go through a boot that found no record, and a cut of the last segment at any byte,
recovery keeps the records of the segments before it and those whose frames lie wholly before the cut. -/
theorem cutLast_recovers {coordinator : CoordinatorId} {trustDigest : Digest} {path : Bytes} {ops : List Operation}
    {s : Session} (hrun : Run (Session.Step coordinator trustDigest) Session.FirstBoot (Session.start path) ops s)
    (hsegments : s.dir.journal.entries ≠ []) (n : Nat) :
    ∃ before last, s.acked = before ++ last ∧
      s.dir.journal.entries.getLast?.map Prod.snd = some (encodeEntries (Cursor.start.after before) last) ∧
      RecoversTo coordinator trustDigest (cutLast n s.dir) (before ++ wholeFrames n last)
        (((encodeEntries (Cursor.start.after before) last).take n).length -
          (encodeEntries (Cursor.start.after before) (wholeFrames n last)).length) := by
  obtain ⟨parts, hi⟩ := Session.inv_of_firstBoot hrun
  have hparts : parts ≠ [] := by
    rintro rfl
    exact hsegments hi.holds.entries
  obtain ⟨ps, p, rfl⟩ : ∃ ps p, parts = ps ++ [p] := ⟨_, _, (List.dropLast_append_getLast hparts).symm⟩
  refine ⟨ps.flatten, p, by rw [← hi.acked]; simp, ?_, hi.holds.cutLast ?_ hi.head n⟩
  · rw [hi.holds.entries, segmentsOf_append, List.getLast?_append, Nat.zero_add]
    rfl
  · have := hi.count
    simp only [List.length_append, List.length_singleton] at this
    omega

set_option maxRecDepth 100000 in
/-- One record, cut a byte before its end. -/
theorem cutLast_recovers_one : ∃ s : Session,
    Run (Session.Step .zero .zero) Session.FirstBoot (Session.start []) (Session.reopened.take 2) s ∧
      ∃ before last, s.acked = before ++ last ∧
        s.dir.journal.entries.getLast?.map Prod.snd = some (encodeEntries (Cursor.start.after before) last) ∧
        RecoversTo .zero .zero (cutLast 93 s.dir) (before ++ wholeFrames 93 last)
          (((encodeEntries (Cursor.start.after before) last).take 93).length -
            (encodeEntries (Cursor.start.after before) (wholeFrames 93 last)).length) := by
  have hexec : (exec (Session.step .zero .zero) Session.FirstBoot (Session.start []) (Session.reopened.take 2)).map
      (fun s => s.dir.journal.entries.isEmpty) = some false := by decide +kernel
  obtain ⟨s, hs, hsegments⟩ := Option.map_eq_some_iff.1 hexec
  refine ⟨s, run_of_exec _ _ hs, cutLast_recovers (run_of_exec _ _ hs) ?_ 93⟩
  intro hempty
  rw [hempty] at hsegments
  cases hsegments

end Ledger

end Wnc
