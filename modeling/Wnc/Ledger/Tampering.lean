/-
Journals whose frames were edited: one payload replaced, one frame removed or two exchanged, each frame sound in
itself. Sequences and links refuse every such journal, except where the edit is at the last record, which nothing
follows.
-/
import Wnc.Ledger.Chain
import Wnc.Ledger.TornTail

namespace Wnc

open Lib

namespace Ledger

/-! ## Frames on their own -/

/-- A frame as it stands in a journal: the entry it records, its sequence and its link. -/
structure Sealed where
  entry : Entry
  sequence : UInt64
  link : Digest
deriving DecidableEq

namespace Sealed

def bytes (f : Sealed) : Bytes := (buildFrame f.entry.type f.sequence f.entry.payload f.link).bytes

/-- The bytes that its chain value is the digest of. -/
def input (f : Sealed) : Bytes := chainInput f.entry.type f.sequence f.entry.payload

/-- The frame with another payload, and the length, the digest and the checksum that go with it. -/
def withPayload (f : Sealed) (payload : Bytes) : Sealed := { f with entry := { f.entry with payload := payload } }

end Sealed

/-- The frames of entries from a position of the chain. -/
def sealed : Cursor → List Entry → List Sealed
  | _, [] => []
  | c, e :: es => ⟨e, c.sequence, c.link⟩ :: sealed (c.next e) es

def encodeSealed (fs : List Sealed) : Bytes := fs.flatMap Sealed.bytes

theorem encodeSealed_cons (f : Sealed) (fs : List Sealed) : encodeSealed (f :: fs) = f.bytes ++ encodeSealed fs :=
  List.flatMap_cons

@[simp] theorem map_entry_sealed (c : Cursor) (es : List Entry) : (sealed c es).map Sealed.entry = es := by
  induction es generalizing c with
  | nil => rfl
  | cons e es ih => rw [sealed, List.map_cons, ih]

/-- Frames that a scan at a position of the chain takes: within the bound, in sequence and linked. -/
def Accepted : Cursor → List Sealed → Prop
  | _, [] => True
  | c, f :: fs => (f.entry.payload.length ≤ maxRecordBytes ∧ f.sequence = c.sequence ∧ f.link = c.link) ∧
      Accepted (c.next f.entry) fs

theorem accepted_append {c : Cursor} {xs ys : List Sealed} :
    Accepted c (xs ++ ys) ↔ Accepted c xs ∧ Accepted (c.after (xs.map Sealed.entry)) ys := by
  induction xs generalizing c with
  | nil => simp [Accepted]
  | cons x xs ih =>
    rw [List.cons_append, Accepted, ih, Accepted, List.map_cons, Cursor.after_cons]
    exact and_assoc.symm

theorem accepted_sealed {c : Cursor} {es : List Entry} (h : Bounded es) : Accepted c (sealed c es) := by
  induction es generalizing c with
  | nil => trivial
  | cons e es ih =>
    obtain ⟨he, hes⟩ := List.forall_mem_cons.1 h
    exact ⟨⟨he, rfl, rfl⟩, ih hes⟩

/-- Accepted frames are those of their entries. -/
theorem Accepted.encode {c : Cursor} {fs : List Sealed} (h : Accepted c fs) :
    Bounded (fs.map Sealed.entry) ∧ encodeSealed fs = encodeEntries c (fs.map Sealed.entry) := by
  induction fs generalizing c with
  | nil => exact ⟨fun _ h => (nomatch h), rfl⟩
  | cons f fs ih =>
    obtain ⟨⟨hlen, hsequence, hlink⟩, hrest⟩ := h
    obtain ⟨hbounded, hencode⟩ := ih hrest
    refine ⟨List.forall_mem_cons.2 ⟨hlen, hbounded⟩, ?_⟩
    rw [encodeSealed_cons, hencode, List.map_cons, encodeEntries, Sealed.bytes, hsequence, hlink]

/-! ## Scanning frames -/

/-- Payloads that a machine can hold. -/
def Addressable (fs : List Sealed) : Prop := ∀ f ∈ fs, f.entry.payload.length < 2 ^ 64

theorem parseFrame_oversized {f : Sealed} (hlong : maxRecordBytes < f.entry.payload.length)
    (hlen : f.entry.payload.length < 2 ^ 64) (pre rest : Bytes) :
    ∃ message, parseFrame (pre ++ (f.bytes ++ rest)) pre.length = .error ⟨.ledgerOversized, message⟩ := by
  obtain ⟨⟨type, payload⟩, sequence, link⟩ := f
  simp only at hlong hlen
  obtain ⟨h0, h4, _, _, h16, _, _⟩ := read_headerPrefix type sequence payload link
    (writeLe 4 (crc32 (headerPrefix type sequence payload link)) ++ (payload ++ rest))
  have hlength : readLe (writeLe 8 payload.length) = payload.length := readLe_writeLe_of_lt hlen
  have hheader : (headerPrefix type sequence payload link ++
      (writeLe 4 (crc32 (headerPrefix type sequence payload link)) ++ (payload ++ rest))).length ≥ frameHeaderBytes := by
    simp only [List.length_append, length_headerPrefix, length_writeLe, frameHeaderBytes]
    omega
  unfold parseFrame
  simp only [List.drop_left, Sealed.bytes, buildFrame, List.append_assoc, h0, h4, h16, hlength]
  refine ⟨utf8 "frame declares " ++ (toDecimal payload.length ++ utf8 " payload bytes"), ?_⟩
  rw [if_neg (not_lt.2 hheader), if_neg (by decide), if_neg (by decide), if_pos hlong]

/-- A scan refuses frames that it does not accept. -/
theorem scanSegment_refuses {fs : List Sealed} : ∀ {s : Scan} {c : Cursor} {records : List Record},
    Addressable fs → s.At c records → ¬Accepted c fs → ∀ (pre : Bytes) (fuel : Nat), fs.length ≤ fuel →
      (scanSegment fuel (pre ++ encodeSealed fs) pre.length s).failure.isSome = true := by
  induction fs with
  | nil => intro s c records _ _ h; exact absurd trivial h
  | cons f fs ih =>
    intro s c records hfs h hrefused pre fuel hfuel
    obtain ⟨hf, hfs'⟩ := List.forall_mem_cons.1 hfs
    obtain ⟨fuel, rfl⟩ : ∃ k, fuel = k + 1 := ⟨fuel - 1, by rw [List.length_cons] at hfuel; omega⟩
    have hinside : ¬ (pre ++ encodeSealed (f :: fs)).length ≤ pre.length := by
      rw [encodeSealed_cons, Sealed.bytes]
      simp only [List.length_append, length_buildFrame, frameHeaderBytes]
      omega
    rw [scanSegment, if_neg hinside, encodeSealed_cons]
    by_cases hlong : maxRecordBytes < f.entry.payload.length
    · obtain ⟨message, hparse⟩ := parseFrame_oversized hlong hf pre (encodeSealed fs)
      rw [hparse]
      simp only [Scan.stop]
      rw [if_pos (by decide)]
      rfl
    · have hparse := parseFrame_buildFrame f.entry.type f.sequence f.entry.payload f.link (not_lt.1 hlong) pre
        (encodeSealed fs)
      rw [← Sealed.bytes] at hparse
      rw [hparse]
      simp only
      by_cases hplace : f.sequence = c.sequence ∧ f.link = c.link
      · -- the frame is taken, and one behind it is not accepted
        have hstep := h.accept f.entry pre (encodeSealed fs) (frameHeaderBytes + f.entry.payload.length)
        rw [← hplace.1, ← hplace.2, ← Sealed.bytes] at hstep
        rw [if_neg (by rw [hstep.sound]; decide)]
        have hlen : pre.length + (frameHeaderBytes + f.entry.payload.length) = (pre ++ f.bytes).length := by
          rw [List.length_append, Sealed.bytes, length_buildFrame]
        have hrest := ih hfs' hstep (fun hrest => hrefused ⟨⟨not_lt.1 hlong, hplace⟩, hrest⟩) (pre ++ f.bytes) fuel
          (Nat.le_of_succ_le_succ hfuel)
        rw [List.append_assoc] at hrest
        rw [hlen]
        exact hrest
      · have hfail : (s.accept (pre ++ (f.bytes ++ encodeSealed fs)) pre.length
            (recordOf f.entry.type f.sequence f.entry.payload f.link)
            (frameHeaderBytes + f.entry.payload.length)).failure.isSome = true := by
          unfold Scan.accept
          split
          · rfl
          · rename_i hsequence
            rw [ne_eq, not_not, h.expected] at hsequence
            simp only
            rw [if_pos (by rw [h.chain]; exact fun hlink => hplace ⟨hsequence, hlink⟩)]
            rfl
        rw [if_pos hfail]
        exact hfail

theorem length_le_encodeSealed (fs : List Sealed) : fs.length ≤ (encodeSealed fs).length := by
  induction fs with
  | nil => exact Nat.le_refl _
  | cons f fs ih =>
    rw [encodeSealed_cons, Sealed.bytes, List.length_append, length_buildFrame, List.length_cons, frameHeaderBytes]
    omega

/-- The segment files that hold parts of a list of frames, numbered from an index on. -/
def sealedSegments : Nat → List (List Sealed) → List (Bytes × Bytes)
  | _, [] => []
  | i, p :: ps => (segmentName i, encodeSealed p) :: sealedSegments (i + 1) ps

/-- Accepted frames are the segments of their entries. -/
theorem sealedSegments_eq {parts : List (List Sealed)} {i : Nat} {c : Cursor} (h : Accepted c parts.flatten) :
    sealedSegments i parts = segmentsOf i c (parts.map (List.map Sealed.entry)) := by
  induction parts generalizing i c with
  | nil => rfl
  | cons p ps ih =>
    rw [List.flatten_cons, accepted_append] at h
    rw [sealedSegments, h.1.encode.2, ih h.2, List.map_cons, segmentsOf]

/-- Segments within the size that the reader takes. -/
def SizesFit (segments : List (Bytes × Bytes)) : Prop := ∀ e ∈ segments, e.2.length ≤ maxSegmentBytes + 1

theorem scanSegments_sealed {parts : List (List Sealed)} : ∀ {i : Nat} {s : Scan} {c : Cursor} {records : List Record},
    s.At c records → Accepted c parts.flatten → SizesFit (sealedSegments i parts) →
    (scanSegments (sealedSegments i parts) s).At (c.after (parts.flatten.map Sealed.entry))
      (records ++ recordsOf c (parts.flatten.map Sealed.entry)) := by
  induction parts with
  | nil => intro i s c records h _ _; simpa [sealedSegments, scanSegments, recordsOf] using h
  | cons p ps ih =>
    intro i s c records h haccepted hsizes
    rw [List.flatten_cons, accepted_append] at haccepted
    obtain ⟨hp, hps⟩ := haccepted
    obtain ⟨hsize, hrest⟩ := List.forall_mem_cons.1 hsizes
    obtain ⟨hbounded, hencode⟩ := hp.encode
    rw [sealedSegments, scanSegments, if_neg (by rw [h.untorn]; decide), if_neg (not_lt.2 hsize), hencode]
    have hs := scanSegment_encodeEntries hbounded h
    simp only
    rw [if_neg (by rw [hs.sound]; decide), List.flatten_cons, List.map_append, Cursor.after_append, recordsOf_append,
      ← List.append_assoc]
    exact ih hs hps hrest

theorem scanSegments_refuses {parts : List (List Sealed)} : ∀ {i : Nat} {s : Scan} {c : Cursor} {records : List Record},
    Addressable parts.flatten → s.At c records →
    ¬(Accepted c parts.flatten ∧ SizesFit (sealedSegments i parts)) →
    (scanSegments (sealedSegments i parts) s).failure.isSome = true := by
  induction parts with
  | nil => intro i s c records _ _ h; exact absurd ⟨trivial, fun _ h => nomatch h⟩ h
  | cons p ps ih =>
    intro i s c records hall h hrefused
    rw [List.flatten_cons] at hall
    obtain ⟨hall, hall'⟩ := List.forall_mem_append.1 hall
    rw [sealedSegments, scanSegments, if_neg (by rw [h.untorn]; decide)]
    by_cases hsize : (encodeSealed p).length ≤ maxSegmentBytes + 1
    · rw [if_neg (not_lt.2 hsize)]
      simp only
      by_cases hp : Accepted c p
      · obtain ⟨hbounded, hencode⟩ := hp.encode
        have hs := scanSegment_encodeEntries hbounded h
        rw [hencode, if_neg (by rw [hs.sound]; decide)]
        refine ih hall' hs fun hrest => hrefused ⟨?_, List.forall_mem_cons.2 ⟨hsize, hrest.2⟩⟩
        rw [List.flatten_cons, accepted_append]
        exact ⟨hp, hrest.1⟩
      · have hfail := scanSegment_refuses hall h hp [] _ (length_le_encodeSealed p)
        simp only [List.nil_append, List.length_nil] at hfail
        rw [if_pos hfail]
        exact hfail
    · rw [if_pos (not_le.1 hsize)]
      rfl

/-! ## Opening a journal of frames -/

section Open

variable {coordinator : CoordinatorId} {trustDigest : Digest} {dir : Directory} {parts : List (List Sealed)}

theorem readAll_sealed (hentries : dir.journal.entries = sealedSegments 0 parts)
    (haccepted : Accepted .start parts.flatten) (hsizes : SizesFit dir.journal.entries) :
    ∃ report, readAll dir = .ok (recordsOf .start (parts.flatten.map Sealed.entry), report) ∧
      report.truncatedBytes = 0 := by
  rw [hentries] at hsizes
  have hs := scanSegments_sealed Scan.at_start haccepted hsizes
  rw [← hentries] at hs
  refine ⟨(Ledger.readFrames dir).report, ?_, ?_⟩
  · unfold readAll Ledger.readFrames
    simp only
    rw [if_neg (by rw [hs.sound]; decide), hs.sound, hs.records]
    rfl
  · unfold Ledger.readFrames
    simp only
    rw [if_neg (by rw [hs.sound]; decide)]
    exact hs.complete

theorem readAll_refuses (hentries : dir.journal.entries = sealedSegments 0 parts) (hall : Addressable parts.flatten)
    (hrefused : ¬(Accepted .start parts.flatten ∧ SizesFit dir.journal.entries)) :
    ∃ f, readAll dir = .error f := by
  rw [hentries] at hrefused
  have hs := scanSegments_refuses hall Scan.at_start hrefused
  rw [← hentries] at hs
  obtain ⟨f, hf⟩ := Option.isSome_iff_exists.1 hs
  refine ⟨f, ?_⟩
  unfold readAll Ledger.readFrames
  simp only
  rw [if_pos hs, hf]

/-- A journal of frames is opened exactly when it is accepted and its segments are within their bound. -/
theorem openLedger_refuses_iff (hentries : dir.journal.entries = sealedSegments 0 parts)
    (hall : Addressable parts.flatten) (hcount : parts.length ≤ 257) (hh : HeadOk coordinator trustDigest dir)
    (incarnation : Incarnation) :
    (∃ f dir', openLedger .succeeds coordinator trustDigest incarnation dir = (.error f, dir')) ↔
      ¬(Accepted .start parts.flatten ∧ SizesFit dir.journal.entries) := by
  obtain ⟨previous, hload⟩ := hh.loadHead
  constructor
  · rintro ⟨f, dir', hopen⟩ ⟨haccepted, hsizes⟩
    obtain ⟨report, hread, hcomplete⟩ := readAll_sealed hentries haccepted hsizes
    have hdiscover := discoverSegments_segmentsOf (parts.map (List.map Sealed.entry)) 0 .start {} le_rfl
      (by rw [List.length_map]; omega)
    rw [← sealedSegments_eq haccepted, ← hentries] at hdiscover
    rw [openLedger_loaded_eq rfl rfl hload] at hopen
    unfold openFrom at hopen
    simp only [hread, hcomplete, hdiscover, OpenIo.succeeds, writeHead, State.writeFileAtomic, if_false, Nat.lt_irrefl,
      gt_iff_lt] at hopen
    cases hopen
  · intro hrefused
    obtain ⟨f, hread⟩ := readAll_refuses hentries hall hrefused
    refine ⟨f, dir, ?_⟩
    rw [openLedger_loaded_eq rfl rfl hload, openFrom, hread]

end Open

/-! ## Edits -/

/-- An edit of the frames of a journal: the payload of one replaced, one removed, or two exchanged. -/
inductive Edit
  | replace (before : List Sealed) (f : Sealed) (after : List Sealed) (payload : Bytes)
  | remove (before : List Sealed) (f : Sealed) (after : List Sealed)
  | exchange (before : List Sealed) (f : Sealed) (between : List Sealed) (g : Sealed) (after : List Sealed)

namespace Edit

/-- The frames that are edited. -/
def source : Edit → List Sealed
  | replace before f after _ => before ++ f :: after
  | remove before f after => before ++ f :: after
  | exchange before f between g after => before ++ f :: (between ++ g :: after)

/-- The frames that the edit leaves. -/
def result : Edit → List Sealed
  | replace before f after payload => before ++ f.withPayload payload :: after
  | remove before _ after => before ++ after
  | exchange before f between g after => before ++ g :: (between ++ f :: after)

/-- The new payload is another one, which a machine can hold; the frames exchanged are different. -/
def Proper : Edit → Prop
  | replace _ f _ payload => payload ≠ f.entry.payload ∧ payload.length < 2 ^ 64
  | remove _ _ _ => True
  | exchange _ f _ g _ => f ≠ g

/-- The edit is followed by a record that was there, exchanges two, or puts in a payload beyond the bound. -/
def Caught : Edit → Prop
  | replace _ _ after payload => after ≠ [] ∨ maxRecordBytes < payload.length
  | remove _ _ after => after ≠ []
  | exchange _ _ _ _ _ => True

end Edit

theorem sequence_add_ne (n : UInt64) {k : Nat} (hpos : 0 < k) (hk : k < 2 ^ 64) : n + UInt64.ofNat k ≠ n := by
  intro h
  have hn := congrArg UInt64.toNat h
  rw [UInt64.toNat_add, UInt64.toNat_ofNat_of_lt' hk] at hn
  have := n.toNat_lt
  omega

section Edits

variable {c : Cursor} {before after : List Sealed} {f : Sealed}

/-- A replaced payload is found by the link of the record behind it. -/
theorem accepted_replace_iff {payload : Bytes} (h : Accepted c (before ++ f :: after))
    (hpayload : payload ≠ f.entry.payload)
    (hfree : CollisionFree ((before ++ f :: after ++ (before ++ f.withPayload payload :: after)).map Sealed.input)) :
    Accepted c (before ++ f.withPayload payload :: after) ↔ ¬(after ≠ [] ∨ maxRecordBytes < payload.length) := by
  rw [accepted_append, Accepted] at h ⊢
  obtain ⟨hbefore, ⟨_, hsequence, hlink⟩, hafter⟩ := h
  constructor
  · rintro ⟨_, ⟨hlen, _, _⟩, hafter'⟩ (hne | hlong)
    · cases after with
      | nil => exact hne rfl
      | cons g rest =>
        have hdigest : sha256 (f.withPayload payload).input = sha256 f.input := by
          have hg := hafter.1.2.2
          have hg' := hafter'.1.2.2
          rw [hg] at hg'
          simp only [Cursor.next, chainValue_eq, ← hsequence] at hg'
          exact hg'.symm
        have hinput := hfree _ (List.mem_map_of_mem (by simp)) _ (List.mem_map_of_mem (by simp)) hdigest
        exact hpayload (chainInput_inj hinput).2.2
    · exact absurd hlen (not_le.2 hlong)
  · intro hcaught
    simp only [not_or, ne_eq, not_not, not_lt] at hcaught
    obtain ⟨rfl, hlen⟩ := hcaught
    exact ⟨hbefore, ⟨hlen, hsequence, hlink⟩, trivial⟩

/-- A removed record is found by the sequence of the one behind it. -/
theorem accepted_remove_iff (h : Accepted c (before ++ f :: after)) :
    Accepted c (before ++ after) ↔ ¬after ≠ [] := by
  rw [accepted_append, Accepted] at h
  obtain ⟨hbefore, ⟨_, _, _⟩, hafter⟩ := h
  rw [accepted_append]
  constructor
  · rintro ⟨_, hafter'⟩ hne
    cases after with
    | nil => exact hne rfl
    | cons g rest =>
      have hsame := hafter.1.2.1.symm.trans hafter'.1.2.1
      exact sequence_add_ne _ (k := 1) (by decide) (by decide) hsame
  · intro hnil
    rw [not_not.1 hnil]
    exact ⟨hbefore, trivial⟩

/-- Exchanged records are found by their sequences. -/
theorem not_accepted_exchange {between : List Sealed} {g : Sealed} (hlen : between.length + 1 < 2 ^ 64)
    (h : Accepted c (before ++ f :: (between ++ g :: after))) :
    ¬Accepted c (before ++ g :: (between ++ f :: after)) := by
  rw [accepted_append, Accepted, accepted_append, Accepted] at h
  obtain ⟨_, _, _, ⟨_, hsequence, _⟩, _⟩ := h
  rw [accepted_append, Accepted]
  rintro ⟨_, ⟨_, hsequence', _⟩, _⟩
  have hsame := hsequence.symm.trans hsequence'
  rw [Cursor.after_sequence, List.length_map] at hsame
  refine sequence_add_ne (c.after (before.map Sealed.entry)).sequence (Nat.succ_pos between.length) hlen ?_
  rw [Nat.succ_eq_add_one, Nat.add_comm, UInt64.ofNat_add, ← UInt64.add_assoc]
  exact hsame

end Edits

/-- Of the edits of an accepted journal a scan finds exactly those that are caught. -/
theorem Edit.accepted_iff {edit : Edit} (hproper : edit.Proper) (hsource : Accepted .start edit.source)
    (hlen : edit.source.length < 2 ^ 64)
    (hfree : CollisionFree ((edit.source ++ edit.result).map Sealed.input)) :
    Accepted .start edit.result ↔ ¬edit.Caught := by
  cases edit with
  | replace before f after payload => exact accepted_replace_iff hsource hproper.1 hfree
  | remove before f after => exact accepted_remove_iff hsource
  | exchange before f between g after =>
    refine ⟨fun h => ?_, fun h => absurd trivial h⟩
    refine absurd h (not_accepted_exchange ?_ hsource)
    simp only [Edit.source, List.length_append, List.length_cons] at hlen
    omega

theorem Accepted.bounded {c : Cursor} {fs : List Sealed} (h : Accepted c fs) :
    ∀ f ∈ fs, f.entry.payload.length ≤ maxRecordBytes :=
  fun _ hf => h.encode.1 _ (List.mem_map_of_mem hf)

theorem Edit.addressable {edit : Edit} (hproper : edit.Proper) (hsource : Accepted .start edit.source) :
    Addressable edit.result := by
  have hall : ∀ f ∈ edit.source, f.entry.payload.length < 2 ^ 64 := fun f hf =>
    lt_of_le_of_lt (hsource.bounded f hf) (by decide)
  intro x hx
  cases edit with
  | replace before f after payload =>
    rcases List.mem_append.1 hx with hx | hx
    · exact hall x (List.mem_append_left _ hx)
    · rcases List.mem_cons.1 hx with rfl | hx
      · exact hproper.2
      · exact hall x (List.mem_append_right _ (List.mem_cons_of_mem _ hx))
  | remove before f after =>
    refine hall x ?_
    simp only [Edit.result, Edit.source, List.mem_append, List.mem_cons] at hx ⊢
    tauto
  | exchange before f between g after =>
    refine hall x ?_
    simp only [Edit.result, Edit.source, List.mem_append, List.mem_cons] at hx ⊢
    tauto

/-! ## Journals of successful appends -/

theorem Holds.length_lt {dir : Directory} {parts : List (List Entry)} (hd : Holds dir parts)
    (hcount : parts.length ≤ 257) : parts.flatten.length < 2 ^ 64 := by
  have hsizes := hd.sizes
  rw [hd.entries] at hsizes
  have hall : ∀ (ps : List (List Entry)) (i : Nat) (c : Cursor),
      (∀ e ∈ segmentsOf i c ps, e.2.length ≤ maxSegmentBytes) →
      frameHeaderBytes * ps.flatten.length ≤ maxSegmentBytes * ps.length := by
    intro ps
    induction ps with
    | nil => intro i c _; exact Nat.le_refl _
    | cons p ps ih =>
      intro i c h
      obtain ⟨hp, hps⟩ := List.forall_mem_cons.1 h
      have := ih _ _ hps
      have := length_encodeEntries c p
      rw [List.flatten_cons, List.length_append, List.length_cons, Nat.mul_add, Nat.mul_add]
      simp only at hp
      omega
  have := hall parts 0 .start hsizes
  simp only [frameHeaderBytes, maxSegmentBytes] at this
  omega

/-- After any run whose appends go through a boot that found no record, the next open refuses an edited journal
exactly when the edit is not at the last record, exchanges two records, or exceeds a bound; it does so for every
distribution of the frames over the segments. -/
theorem tampering_refused_iff {coordinator : CoordinatorId} {trustDigest : Digest} {path : Bytes}
    {ops : List Operation} {s : Session}
    (hrun : Run (Session.Step coordinator trustDigest) Session.FirstBoot (Session.start path) ops s) {edit : Edit}
    (hproper : edit.Proper) (hsource : edit.source = sealed .start s.acked)
    (hfree : CollisionFree ((edit.source ++ edit.result).map Sealed.input)) {parts : List (List Sealed)}
    {journal : SortedMap Bytes Bytes} (hjournal : journal.entries = sealedSegments 0 parts)
    (hparts : parts.flatten = edit.result) (hcount : parts.length = s.dir.journal.entries.length)
    (incarnation : Incarnation) :
    (∃ f dir', openLedger .succeeds coordinator trustDigest incarnation { s.dir with journal := journal } =
      (.error f, dir')) ↔ edit.Caught ∨ ∃ e ∈ journal.entries, maxSegmentBytes + 1 < e.2.length := by
  obtain ⟨held, hi⟩ := Session.inv_of_firstBoot hrun
  have hbounded : Bounded s.acked := by rw [← hi.acked]; exact hi.holds.bounded
  have haccepted : Accepted .start edit.source := by rw [hsource]; exact accepted_sealed hbounded
  have hlen : edit.source.length < 2 ^ 64 := by
    rw [← List.length_map Sealed.entry, hsource, map_entry_sealed, ← hi.acked]
    exact hi.holds.length_lt hi.count
  have hheld : parts.length = held.length := by rw [hcount, hi.holds.entries, length_segmentsOf]
  have hhead : HeadOk coordinator trustDigest { s.dir with journal := journal } := by
    rcases hi.head with ⟨hnone, hempty⟩ | hsome
    · rw [hempty, List.length_nil, List.length_eq_zero_iff] at hcount
      exact .inl ⟨hnone, by rw [hjournal, hcount]; rfl⟩
    · exact .inr hsome
  have hall : Addressable parts.flatten := by rw [hparts]; exact Edit.addressable hproper haccepted
  have hiff := @openLedger_refuses_iff _ _ { s.dir with journal := journal } parts hjournal hall
    (by rw [hheld]; exact hi.count) hhead incarnation
  rw [hiff, hparts, Edit.accepted_iff hproper haccepted hlen hfree, not_and_or, not_not]
  refine or_congr_right ?_
  unfold SizesFit
  simp only [not_forall, not_le, exists_prop]

/-! ## A journal that loses its last record -/

/-- What a run of one append leaves, of which the first record is the last. -/
theorem oneRecord_spec : ∃ s : Session,
    Run (Session.Step .zero .zero) Session.FirstBoot (Session.start []) (Session.reopened.take 2) s ∧
      s.acked = [⟨.genesis, utf8 "{}"⟩] ∧ s.dir.journal.entries.length = 1 := by
  have hexec : (exec (Session.step .zero .zero) Session.FirstBoot (Session.start []) (Session.reopened.take 2)).map
      (fun s => (s.acked, s.dir.journal.entries.length)) = some ([⟨.genesis, utf8 "{}"⟩], 1) := by decide +kernel
  obtain ⟨s, hs, hval⟩ := Option.map_eq_some_iff.1 hexec
  exact ⟨s, run_of_exec _ _ hs, (Prod.mk.inj hval).1, (Prod.mk.inj hval).2⟩

/-- The removal of the only record. -/
def onlyRecordRemoved : Edit := .remove [] ⟨⟨.genesis, utf8 "{}"⟩, 1, .zero⟩ []

/-- An empty segment. -/
def emptySegment : SortedMap Bytes Bytes := SortedMap.empty.set (segmentName 0) []

theorem tampering_refused_iff_removed : ∃ s : Session,
    (∃ f dir', openLedger .succeeds .zero .zero .zero { s.dir with journal := emptySegment } = (.error f, dir')) ↔
      onlyRecordRemoved.Caught ∨ ∃ e ∈ emptySegment.entries, maxSegmentBytes + 1 < e.2.length := by
  obtain ⟨s, hrun, hacked, hcount⟩ := oneRecord_spec
  have hsource : onlyRecordRemoved.source = sealed .start s.acked := by rw [hacked]; rfl
  have hparts : [[]].flatten = onlyRecordRemoved.result := rfl
  have hproper : onlyRecordRemoved.Proper := trivial
  exact ⟨s, tampering_refused_iff hrun hproper hsource (collisionFree_singleton _) rfl hparts hcount.symm .zero⟩

/-- A journal whose last record is removed is opened. -/
theorem tampering_undetected : ¬ ∀ (coordinator : CoordinatorId) (trustDigest : Digest) (path : Bytes)
    (ops : List Operation) (s : Session) (edit : Edit) (parts : List (List Sealed)) (journal : SortedMap Bytes Bytes)
    (incarnation : Incarnation),
    Run (Session.Step coordinator trustDigest) Session.FirstBoot (Session.start path) ops s → edit.Proper →
    edit.source = sealed .start s.acked → CollisionFree ((edit.source ++ edit.result).map Sealed.input) →
    journal.entries = sealedSegments 0 parts → parts.flatten = edit.result →
    parts.length = s.dir.journal.entries.length →
    ∃ f dir', openLedger .succeeds coordinator trustDigest incarnation { s.dir with journal := journal } =
      (.error f, dir') := by
  intro h
  obtain ⟨s, hrun, hacked, hcount⟩ := oneRecord_spec
  have hrefused := h _ _ _ _ s onlyRecordRemoved [[]] emptySegment .zero hrun trivial (by rw [hacked]; rfl)
    (collisionFree_singleton _) rfl rfl hcount.symm
  obtain ⟨held, hi⟩ := Session.inv_of_firstBoot hrun
  have hhead : HeadOk .zero .zero { s.dir with journal := emptySegment } := by
    rcases hi.head with ⟨_, hempty⟩ | hsome
    · rw [hempty] at hcount; cases hcount
    · exact .inr hsome
  refine (@openLedger_refuses_iff _ _ { s.dir with journal := emptySegment } [[]] rfl
    (fun _ h => nomatch h) (by decide) hhead .zero).1 hrefused ⟨trivial, ?_⟩
  intro e he
  rw [List.mem_singleton.1 he]
  exact Nat.zero_le _

end Ledger

end Wnc
