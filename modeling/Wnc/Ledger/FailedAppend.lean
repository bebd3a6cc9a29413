/-
Appends that fail. Where no byte of the frame reaches the journal, because a bound refused it, the file
could not be opened or its first write failed, the history stays as it was and the handle stands at its
end. Any byte that was written stays behind: the whole frame is read as a record that was never
acknowledged, and a part of one stands in front of the next frame the handle appends.
-/
import Wnc.Ledger.Session

namespace Wnc

open Lib

namespace Ledger

/-- Appends entries one after another through a handle, each successfully. -/
def appendAll : List Entry → Handle → Directory → Option (Handle × Directory)
  | [], l, dir => some (l, dir)
  | e :: es, l, dir =>
    match append .succeeds e.type e.payload l dir with
    | (.error _, _, _) => none
    | (.ok _, l, dir) => appendAll es l dir

/-- The readable history is the one given: for a read, for an open and a read after it, and for a read
after further successful appends through the handle. -/
structure KeepsHistory (coordinator : CoordinatorId) (trustDigest : Digest) (history : List Entry) (l : Handle)
    (dir : Directory) : Prop where
  read : ReadsBack dir history
  reopen : ∀ incarnation, ∃ h report dir', openLedger .succeeds coordinator trustDigest incarnation dir =
    (.ok (h, report), dir') ∧ ReadsBack dir' history
  further : ∀ es l' dir', appendAll es l dir = some (l', dir') → ReadsBack dir' (history ++ es)

/-- How many bytes of the frame an append leaves in the journal: none when a bound refuses it, otherwise
as many as the system takes. -/
def writtenBytes (io : State.AppendIo) (payload : Bytes) (l : Handle) : Nat :=
  match prepareAppend l payload with
  | (.error _, _) => 0
  | (.ok _, _) =>
    if io.opens then min (io.accepts.getD (frameHeaderBytes + payload.length)) (frameHeaderBytes + payload.length)
    else 0

/-! ## The journal behind a failed append -/

/-- A run of successful appends extends the history by its entries. -/
theorem Stands.appendAll {es : List Entry} : ∀ {l l' : Handle} {dir dir' : Directory} {parts : List (List Entry)},
    Stands l dir parts → Holds dir parts → Ledger.appendAll es l dir = some (l', dir') →
    ∃ parts', parts'.flatten = parts.flatten ++ es ∧ Holds dir' parts' := by
  induction es with
  | nil =>
    intro l l' dir dir' parts hl hd h
    cases h
    exact ⟨parts, by simp, hd⟩
  | cons e es ih =>
    intro l l' dir dir' parts hl hd h
    rw [Ledger.appendAll] at h
    split at h
    · cases h
    · rename_i sequence l₁ dir₁ happend
      obtain ⟨parts₁, hflat, _, hd₁, hl₁, _, _⟩ := hl.append hd happend
      obtain ⟨parts', hflat', hd'⟩ := ih hl₁ hd₁ h
      exact ⟨parts', by rw [hflat', hflat, List.append_assoc]; rfl, hd'⟩

/-- How an append fails: a bound refuses it, the file cannot be opened, or only a part of the frame is
written, or all of it is but the flush fails. In the last case the bytes written stay in the segment. -/
theorem append_error_cases {io : State.AppendIo} {type : RecordType} {payload : Bytes} {l l' : Handle}
    {dir dir' : Directory} {f : Failure} (h : append io type payload l dir = (.error f, l', dir')) :
    (writtenBytes io payload l = 0 ∧ dir' = dir ∧ (prepareAppend l payload).2 = l') ∨
      (prepareAppend l payload = (.ok (), l') ∧ io.opens = true ∧
        dir' = { dir with
          journal := dir.journal.set (segmentName l'.segment) ((dir.journal.find? (segmentName l'.segment)).getD [] ++
            (buildFrame type (l'.head.lastSequence + 1) payload l'.chain).bytes.take (writtenBytes io payload l)) }) := by
  unfold append at h
  unfold writtenBytes
  cases hprep : prepareAppend l payload with
  | mk r l₁ =>
  rw [hprep] at h
  cases r with
  | error f =>
    cases h
    exact .inl ⟨rfl, rfl, rfl⟩
  | ok u =>
    simp only at h
    have hcontent := State.appendFileFlushed_content io (dir.filePath (segmentName l₁.segment))
      (dir.journal.find? (segmentName l₁.segment)) (buildFrame type (l₁.head.lastSequence + 1) payload l₁.chain).bytes
    generalize State.appendFileFlushed io (dir.filePath (segmentName l₁.segment))
      (dir.journal.find? (segmentName l₁.segment))
      (buildFrame type (l₁.head.lastSequence + 1) payload l₁.chain).bytes = written at h hcontent
    obtain ⟨content, _ | failure⟩ := written
    · cases h
    · simp only at h hcontent
      rw [length_buildFrame] at hcontent
      by_cases hopens : io.opens = true
      · rw [if_pos hopens] at hcontent
        subst hcontent
        cases h
        have htake : ∀ (frame : Bytes) (k : Nat), frame.take (min k frame.length) = frame.take k := by
          intro frame k
          rw [← List.take_take, List.take_length]
        have hframe := htake (buildFrame type (l'.head.lastSequence + 1) payload l'.chain).bytes
          (io.accepts.getD (frameHeaderBytes + payload.length))
        rw [length_buildFrame] at hframe
        refine .inr ⟨rfl, hopens, ?_⟩
        simp only [if_pos hopens, hframe]
      · rw [if_neg hopens] at hcontent
        subst hcontent
        cases h
        refine .inl ⟨by simp only [if_neg hopens], ?_, rfl⟩
        cases hfind : dir.journal.find? (segmentName l'.segment) with
        | none => rfl
        | some bytes => simp only [SortedMap.set_eq_self hfind]

/-- A failed append that wrote nothing leaves the history, and the handle at its end. -/
theorem Stands.append_unwritten {io : State.AppendIo} {e : Entry} {l l' : Handle} {dir dir' : Directory}
    {parts : List (List Entry)} {f : Failure} (hl : Stands l dir parts) (hd : Holds dir parts)
    (hlen : parts.length ≤ 257)
    (h : Ledger.append io e.type e.payload l dir = (.error f, l', dir')) (hw : writtenBytes io e.payload l = 0) :
    ∃ parts', parts'.flatten = parts.flatten ∧ parts'.length ≤ 257 ∧ Holds dir' parts' ∧ Stands l' dir' parts' ∧
      dir'.head = dir.head := by
  rcases append_error_cases h with ⟨_, rfl, rfl⟩ | ⟨hprep, _, rfl⟩
  · exact ⟨parts, rfl, hlen, hd, (hl.prepareAppend hd (Prod.mk.eta (p := Ledger.prepareAppend l e.payload)).symm).1, rfl⟩
  · -- the file is created, or stays as it was
    have hl₁ := (hl.prepareAppend hd hprep).1
    obtain ⟨ps, p, ht⟩ := hl₁.appendsTo hd
    have hfits := ((hl.prepareAppend hd hprep).2 rfl).2.1
    have hcontent : (dir.journal.find? (segmentName l'.segment)).getD [] ++
        (buildFrame e.type (l'.head.lastSequence + 1) e.payload l'.chain).bytes.take (writtenBytes io e.payload l) =
        encodeEntries (Cursor.start.after ps.flatten) (p ++ []) := by
      rw [hw, List.take_zero, List.append_nil, List.append_nil, ht.content]
    have hlength : (encodeEntries (Cursor.start.after ps.flatten) (p ++ [])).length = l'.segmentBytes := by
      rw [List.append_nil, ht.length_content hl₁]
    have hflat : (ps ++ [p ++ []]).flatten = parts.flatten := by simp [ht.history]
    refine ⟨ps ++ [p ++ []], hflat, ?_, ht.holds hd (fun _ h => by cases h) hcontent ?_,
      ⟨hl₁.opened, ?_, ?_, .inl ?_, ?_, hl₁.low, hl₁.count⟩, rfl⟩
    · rw [List.length_append, List.length_singleton, ← ht.index]
      have := hl₁.low; omega
    · rw [hcontent, hlength]; omega
    · rw [hflat]; exact hl₁.next
    · rw [hflat]; exact hl₁.chain
    · rw [List.length_append, List.length_singleton, ht.index]
    · simp only [SortedMap.find?_set_self, Option.map_some, Option.getD_some, hcontent]
      exact hlength.symm

/-! ## A part of a frame in front of the next one -/

/-- A complete frame is refused, or its record is taken. -/
theorem Scan.accept_cases (s : Scan) (bytes : Bytes) (offset : Nat) (record : Record) (consumed : Nat) :
    ((s.accept bytes offset record consumed).failure.isSome = true ∧
        (s.accept bytes offset record consumed).records = s.records) ∨
      (s.accept bytes offset record consumed).records = s.records ++ [record] := by
  unfold Scan.accept
  split
  · exact .inl ⟨rfl, rfl⟩
  · simp only
    split
    · exact .inl ⟨rfl, rfl⟩
    · exact .inr rfl

theorem Scan.stop_records (s : Scan) (bytes : Bytes) (offset : Nat) (f : Failure) :
    (s.stop bytes offset f).records = s.records := by
  unfold Scan.stop
  split <;> rfl

/-- A scan never gives up a record it has read. -/
theorem scanSegment_prefix (fuel : Nat) (bytes : Bytes) : ∀ (offset : Nat) (s : Scan),
    s.records <+: (scanSegment fuel bytes offset s).records := by
  induction fuel with
  | zero => intro offset s; exact List.prefix_refl _
  | succ fuel ih =>
    intro offset s
    rw [scanSegment]
    split
    · exact List.prefix_refl _
    · split
      · exact (s.stop_records ..).symm ▸ List.prefix_refl _
      · rename_i record consumed _
        have haccept : s.records <+: (s.accept bytes offset record consumed).records := by
          rcases s.accept_cases bytes offset record consumed with ⟨_, h⟩ | h
          · exact h.symm ▸ List.prefix_refl _
          · rw [h]; exact List.prefix_append _ _
        simp only
        split
        · exact haccept
        · exact haccept.trans (ih _ _)

/-- Where the bytes at an offset are no frame of the type `t`, an intact scan does not take a record of
that type next. -/
theorem scanSegment_next_type (fuel : Nat) {bytes : Bytes} {offset : Nat} {s : Scan} {t : RecordType}
    (h : ∀ r n, parseFrame bytes offset = .ok (r, n) → r.type ≠ t) {r : Record}
    (hr : (scanSegment fuel bytes offset s).records[s.records.length]? = some r) : r.type ≠ t := by
  have hnone : ∀ l : List Record, l = s.records → l[s.records.length]? ≠ some r := by
    rintro l rfl hl
    rw [List.getElem?_eq_none le_rfl] at hl
    cases hl
  cases fuel with
  | zero => exact absurd hr (hnone _ rfl)
  | succ fuel =>
    rw [scanSegment] at hr
    split at hr
    · exact absurd hr (hnone _ rfl)
    · split at hr
      · exact absurd hr (hnone _ (s.stop_records ..))
      · rename_i record consumed hparse
        simp only at hr
        rcases s.accept_cases bytes offset record consumed with ⟨hfail, hkept⟩ | htaken
        · rw [if_pos hfail] at hr
          exact absurd hr (hnone _ hkept)
        · -- the record is taken, and stays where it is
          have hprefix : s.records ++ [record] <+: (if (s.accept bytes offset record consumed).failure.isSome = true
              then s.accept bytes offset record consumed
              else scanSegment fuel bytes (offset + consumed) (s.accept bytes offset record consumed)).records := by
            split
            · exact htaken.symm ▸ List.prefix_refl _
            · exact htaken ▸ scanSegment_prefix fuel bytes _ _
          obtain ⟨rest, hrest⟩ := hprefix
          rw [← hrest, List.append_assoc, List.getElem?_append_right le_rfl, Nat.sub_self] at hr
          cases hr
          exact h r consumed hparse

/-- The eight bytes every frame starts with. -/
theorem buildFrame_bytes_start (type : RecordType) (sequence : UInt64) (payload : Bytes) (link : Digest) :
    ∃ rest, (buildFrame type sequence payload link).bytes =
      0x57 :: 0x4E :: 0x4C :: 0x31 :: 1 :: 0 :: UInt8.ofNat (type.value.toNat % 256) ::
        UInt8.ofNat (type.value.toNat / 256 % 256) :: rest :=
  ⟨_, rfl⟩

/-- A part of a frame in front of another frame is no frame of a small type other than its own. -/
theorem parseFrame_partial {e : Entry} {sequence sequence' : UInt64} {link link' : Digest} {t : RecordType}
    {payload : Bytes} {k : Nat} (hk : 0 < k) (hpart : k < (buildFrame e.type sequence e.payload link).bytes.length)
    (ht : t.value.toNat < 256) (hne : e.type ≠ t) (pre : Bytes) {r : Record} {n : Nat}
    (h : parseFrame (pre ++ ((buildFrame e.type sequence e.payload link).bytes.take k ++
      (buildFrame t sequence' payload link').bytes)) pre.length = .ok (r, n)) : r.type ≠ t := by
  rw [parseFrame_eq_ok_iff, List.drop_left] at h
  obtain ⟨_, hmagic, hversion, _, _, _, hr, _⟩ := h
  have htype : r.type = ⟨UInt16.ofNat (readLe (slice 6 2 ((buildFrame e.type sequence e.payload link).bytes.take k ++
      (buildFrame t sequence' payload link').bytes)))⟩ := by rw [hr]
  rcases Nat.lt_or_ge k 8 with hlt | hge
  · -- the fixed bytes of the second frame stand where the first one's fields are read
    obtain ⟨rest, hfirst⟩ := buildFrame_bytes_start e.type sequence e.payload link
    obtain ⟨rest', hsecond⟩ := buildFrame_bytes_start t sequence' payload link'
    rw [hfirst, hsecond] at hmagic hversion htype
    have hlarge : ∀ v : Nat, v < 65536 → 256 ≤ v → r.type = ⟨UInt16.ofNat v⟩ → r.type ≠ t := by
      rintro v hv hlow hrt rfl
      rw [hrt, UInt16.toNat_ofNat_of_lt' hv] at ht
      omega
    have hlow := (UInt8.ofNat (e.type.value.toNat % 256)).toNat_lt
    interval_cases k
    iterate 3 · simp [slice, readLe, recordMagic] at hmagic
    iterate 2 · simp [slice, readLe, frameVersion] at hversion
    · change r.type = ⟨UInt16.ofNat (readLe [0x57, 0x4E])⟩ at htype
      exact hlarge _ (by decide) (by decide) htype
    · change r.type = ⟨UInt16.ofNat (readLe [UInt8.ofNat (e.type.value.toNat % 256), 0x57])⟩ at htype
      have hvalue : readLe [UInt8.ofNat (e.type.value.toNat % 256), 0x57] =
          (UInt8.ofNat (e.type.value.toNat % 256)).toNat + 256 * 0x57 := rfl
      exact hlarge _ (by omega) (by omega) htype
  · have hown : slice 6 2 ((buildFrame e.type sequence e.payload link).bytes.take k ++
        (buildFrame t sequence' payload link').bytes) = writeLe 2 e.type.value.toNat := by
      rw [slice_append_left _ (by rw [List.length_take]; omega), slice, List.drop_take, List.take_take,
        min_eq_left (by omega)]
      exact (read_headerPrefix e.type sequence e.payload link
        (writeLe 4 (crc32 (headerPrefix e.type sequence e.payload link)) ++ e.payload)).2.2.1
    rw [htype, hown, readLe_writeLe_of_lt (lt_of_lt_of_le e.type.value.toNat_lt (by decide)), UInt16.ofNat_toNat]
    exact hne

/-- The same for a whole last segment that holds entries in front of the bytes. -/
theorem scanSegments_next_type {s : Scan} {c : Cursor} {records : List Record} (hs : s.At c records)
    {es : List Entry} (hes : Bounded es) (name junk : Bytes) {t : RecordType}
    (h : ∀ r n, parseFrame (encodeEntries c es ++ junk) (encodeEntries c es).length = .ok (r, n) → r.type ≠ t)
    {r : Record} (hr : (scanSegments [(name, encodeEntries c es ++ junk)] s).records[records.length + es.length]? = some r) :
    r.type ≠ t := by
  have hshort : ∀ l : List Record, l = records → l[records.length + es.length]? ≠ some r := by
    rintro l rfl hl
    rw [List.getElem?_eq_none (Nat.le_add_right _ _)] at hl
    cases hl
  rw [scanSegments, if_neg (by rw [hs.untorn]; decide)] at hr
  split at hr
  · exact absurd hr (hshort _ hs.records)
  · have hsame : (if (scanSegment (encodeEntries c es ++ junk).length (encodeEntries c es ++ junk) 0 s).failure.isSome = true
        then scanSegment (encodeEntries c es ++ junk).length (encodeEntries c es ++ junk) 0 s
        else scanSegments [] (scanSegment (encodeEntries c es ++ junk).length (encodeEntries c es ++ junk) 0 s)) =
        scanSegment (encodeEntries c es ++ junk).length (encodeEntries c es ++ junk) 0 s := by
      split <;> rfl
    simp only at hr
    rw [hsame] at hr
    have hlen := length_encodeEntries c es
    obtain ⟨fuel, hfuel⟩ : ∃ fuel, (encodeEntries c es ++ junk).length = fuel + es.length := by
      refine ⟨_, (Nat.sub_add_cancel ?_).symm⟩
      rw [List.length_append]
      exact le_trans (le_trans (Nat.le_mul_of_pos_left _ (by decide)) hlen) (Nat.le_add_right _ _)
    obtain ⟨s', hs', heq⟩ := scanSegment_entries es hes hs [] junk fuel
    simp only [List.nil_append, List.length_nil, Nat.zero_add] at heq
    rw [hfuel, heq] at hr
    have hcount : s'.records.length = records.length + es.length := by
      rw [hs'.records, List.length_append, length_recordsOf]
    rw [← hcount] at hr
    exact scanSegment_next_type fuel h hr

/-- A type below 256 that is not the given one. -/
def otherType (t : RecordType) : RecordType :=
  if t = .workloadRegistered then .contractPublished else .workloadRegistered

theorem otherType_ne (t : RecordType) : t ≠ otherType t := by
  unfold otherType
  split
  · rename_i h; rw [h]; decide
  · rename_i h; exact h

theorem otherType_lt (t : RecordType) : (otherType t).value.toNat < 256 := by
  unfold otherType
  split <;> decide

section Spoiled

variable {io : State.AppendIo} {e : Entry} {l l' : Handle} {dir dir' : Directory} {parts : List (List Entry)}
  {f : Failure}

/-- A whole frame left behind is read as a record nobody acknowledged. -/
theorem Stands.append_unflushed (hl : Stands l dir parts) (hd : Holds dir parts)
    (h : Ledger.append io e.type e.payload l dir = (.error f, l', dir'))
    (hw : writtenBytes io e.payload l = frameHeaderBytes + e.payload.length) : ¬ ReadsBack dir' parts.flatten := by
  rcases append_error_cases h with ⟨hzero, _⟩ | ⟨hprep, _, rfl⟩
  · simp [hw, frameHeaderBytes] at hzero
  · obtain ⟨hl₁, hbounds⟩ := hl.prepareAppend hd hprep
    obtain ⟨hpayload, hfits, _⟩ := hbounds rfl
    obtain ⟨ps, p, ht⟩ := hl₁.appendsTo hd
    have hcontent : (dir.journal.find? (segmentName l'.segment)).getD [] ++
        (buildFrame e.type (l'.head.lastSequence + 1) e.payload l'.chain).bytes.take (writtenBytes io e.payload l) =
        encodeEntries (Cursor.start.after ps.flatten) (p ++ [e]) := by
      rw [hw, ← length_buildFrame e.type (l'.head.lastSequence + 1) e.payload l'.chain, List.take_length, ht.content,
        encodeEntries_append, ← Cursor.after_append, ← ht.history, hl₁.next, hl₁.chain]
      simp [encodeEntries]
    have hholds := ht.holds hd (List.forall_mem_singleton.2 hpayload) hcontent (by
      rw [List.length_append, ht.content, ht.length_content hl₁, List.length_take, length_buildFrame]; omega)
    rintro ⟨records, report, hread, hview⟩
    rw [hholds.readAll] at hread
    cases hread
    have hlengths := congrArg List.length hview
    rw [List.length_map, length_recordsOf, length_numbered, ht.history] at hlengths
    simp at hlengths

/-- A part of a frame left behind spoils the next append through the handle. -/
theorem Stands.append_partial (hl : Stands l dir parts) (hd : Holds dir parts)
    (h : Ledger.append io e.type e.payload l dir = (.error f, l', dir'))
    (hpos : 0 < writtenBytes io e.payload l)
    (hpart : writtenBytes io e.payload l < frameHeaderBytes + e.payload.length) :
    ∃ e₂ l₂ dir₂, Ledger.appendAll [e₂] l' dir' = some (l₂, dir₂) ∧ ¬ ReadsBack dir₂ (parts.flatten ++ [e₂]) := by
  rcases append_error_cases h with ⟨hzero, _⟩ | ⟨hprep, _, rfl⟩
  · omega
  · obtain ⟨hl₁, hbounds⟩ := hl.prepareAppend hd hprep
    obtain ⟨hpayload, hfits, hretained⟩ := hbounds rfl
    obtain ⟨ps, p, ht⟩ := hl₁.appendsTo hd
    have hprep₂ : Ledger.prepareAppend l' [] = (.ok (), l') := by
      have h92 : frameHeaderBytes ≤ maxSegmentBytes := by decide
      unfold Ledger.prepareAppend
      simp only [hl₁.opened, List.length_nil, Nat.add_zero, Bool.not_true, Bool.false_eq_true, if_false]
      rw [if_neg (by omega), if_neg (by omega), if_neg (by omega)]
      simp only
      rw [if_neg (by omega)]
    have happend := append_succeeds_eq hprep₂ (otherType e.type) { dir with
      journal := dir.journal.set (segmentName l'.segment) ((dir.journal.find? (segmentName l'.segment)).getD [] ++
        (buildFrame e.type (l'.head.lastSequence + 1) e.payload l'.chain).bytes.take (writtenBytes io e.payload l)) }
    refine ⟨⟨otherType e.type, []⟩, _, _, by rw [Ledger.appendAll, happend]; rfl, ?_⟩
    rintro ⟨records, report, hread, hview⟩
    obtain ⟨hsound, hrecords⟩ := readAll_eq_ok hread
    simp only [SortedMap.find?_set_self, Option.getD_some, SortedMap.set_set, ht.content, ht.set] at hsound hrecords
    -- the segments before the last are read; the last one up to the part left behind
    obtain ⟨s₁, hs₁, hscan₁, _⟩ := scanSegments_append ps 0
      (fun e he => hd.bounded e (by rw [ht.history]; exact List.mem_append_left _ he))
      (fun e he => hd.sizes e (ht.before e he)) Scan.at_start
      [(segmentName l'.segment, encodeEntries (Cursor.start.after ps.flatten) p ++
        (buildFrame e.type (l'.head.lastSequence + 1) e.payload l'.chain).bytes.take (writtenBytes io e.payload l) ++
        (buildFrame (otherType e.type) (l'.head.lastSequence + 1) [] l'.chain).bytes)]
    rw [hscan₁] at hsound hrecords
    rw [List.append_assoc] at hsound hrecords
    rw [← hrecords] at hview
    obtain ⟨m, hm⟩ := numbered_snoc 1 parts.flatten ⟨otherType e.type, []⟩
    -- the record behind the history has the type of the second append, which none of the bytes there give
    have hlast := congrArg (fun l => l[parts.flatten.length]?) (hview.trans hm)
    simp only [List.getElem?_map, List.getElem?_append_right (le_of_eq (length_numbered _ _)), length_numbered,
      Nat.sub_self, List.getElem?_cons_zero] at hlast
    obtain ⟨r, hr, hrview⟩ := Option.map_eq_some_iff.1 hlast
    have hpart' : writtenBytes io e.payload l <
        (buildFrame e.type (l'.head.lastSequence + 1) e.payload l'.chain).bytes.length := by
      rw [length_buildFrame]; exact hpart
    have hcount : parts.flatten.length = ([] ++ recordsOf .start ps.flatten).length + p.length := by
      rw [List.nil_append, length_recordsOf, ← List.length_append, ← ht.history]
    rw [hcount] at hr
    exact scanSegments_next_type hs₁ (fun e he => hd.bounded e (by rw [ht.history]; exact List.mem_append_right _ he))
      _ _ (fun r n => parseFrame_partial hpos hpart' (otherType_lt _) (otherType_ne _) _) hr
      (congrArg (fun v : UInt64 × RecordType × Bytes => v.2.1) hrview)

end Spoiled

/-! ## Exactly when a failed append keeps the history -/

section Session

variable {coordinator : CoordinatorId} {trustDigest : Digest}

theorem keepsHistory_of_inv {s : Session} {parts : List (List Entry)} {l : Handle}
    (hi : s.Inv coordinator trustDigest parts) (hl : s.handle = some l) (hfound : s.found = 0) :
    KeepsHistory coordinator trustDigest s.acked l s.dir := by
  obtain ⟨hread, hreopen⟩ := hi.recovers
  refine ⟨hread, fun incarnation => ?_, fun es l' dir' happend => ?_⟩
  · obtain ⟨h, report, dir', hopen, _, hback⟩ := hreopen incarnation
    exact ⟨h, report, dir', hopen, hback⟩
  · obtain ⟨parts', hflat, hholds⟩ := (hi.handle l hl hfound).appendAll hi.holds happend
    rw [← hi.acked, ← hflat]
    exact hholds.readsBack

/-- A failed append through a handle whose boot found no record, after any run of successful ones, keeps
the history exactly when no byte of its frame reached the journal. -/
theorem failedAppend_keepsHistory_iff {path : Bytes} {ops : List Operation} {s : Session} {io : State.AppendIo}
    {e : Entry} {l l' : Handle} {dir' : Directory} {f : Failure}
    (hrun : Run (Session.Step coordinator trustDigest) Session.FirstBoot (Session.start path) ops s)
    (hl : s.handle = some l) (hfound : s.found = 0)
    (hfail : append io e.type e.payload l s.dir = (.error f, l', dir')) :
    KeepsHistory coordinator trustDigest s.acked l' dir' ↔ writtenBytes io e.payload l = 0 := by
  obtain ⟨parts, hi⟩ := Session.inv_of_firstBoot hrun
  have hstands := hi.handle l hl hfound
  constructor
  · intro hkeeps
    by_contra hw
    have hle : writtenBytes io e.payload l ≤ frameHeaderBytes + e.payload.length := by
      unfold writtenBytes
      split
      · exact Nat.zero_le _
      · split
        · exact Nat.min_le_right _ _
        · exact Nat.zero_le _
    rcases hle.lt_or_eq with hpart | hfull
    · obtain ⟨e₂, l₂, dir₂, happend, hback⟩ := hstands.append_partial hi.holds hfail (Nat.pos_of_ne_zero hw) hpart
      rw [hi.acked] at hback
      exact hback (hkeeps.further [e₂] l₂ dir₂ happend)
    · have hback := hstands.append_unflushed hi.holds hfail hfull
      rw [hi.acked] at hback
      exact hback hkeeps.read
  · intro hw
    obtain ⟨parts', hflat, hlen, hholds, hstands', hhead⟩ := hstands.append_unwritten hi.holds hi.count hfail hw
    have hbooted : dir'.head ≠ none := by rw [hhead]; exact hi.booted l hl
    have hi' : Session.Inv coordinator trustDigest { s with dir := dir', handle := some l' } parts' := by
      refine ⟨by rw [hflat, hi.acked], hholds, hlen, ?_, fun _ _ => hbooted,
        fun h hh _ => by cases hh; exact hstands'⟩
      rcases hi.head with ⟨hn, _⟩ | hsome
      · exact absurd hn (hi.booted l hl)
      · exact .inr (by simpa only [hhead] using hsome)
    exact keepsHistory_of_inv hi' rfl hfound

/-! ## A refused file and a torn write -/

/-- A first record. -/
def firstEntry : Entry := ⟨.genesis, utf8 "{}"⟩

/-- A record behind it. -/
def nextEntry : Entry := ⟨.policyInstalled, utf8 "{}"⟩

/-- The file cannot be opened. -/
def unopened : State.AppendIo := { opens := false }

/-- One byte is written before a write fails. -/
def tornAfterOne : State.AppendIo := { accepts := some 1 }

/-- A session after some operations, with what a failing append leaves. -/
def failedAppendAfter (ops : List Operation) (io : State.AppendIo) (e : Entry) :
    Option (Session × Handle × Except Failure UInt64 × Handle × Directory) :=
  (exec (Session.step .zero .zero) Session.FirstBoot (Session.start []) ops).bind fun s =>
    s.handle.map fun l => (s, l, append io e.type e.payload l s.dir)

theorem failedAppendAfter_spec {ops : List Operation} {io : State.AppendIo} {e : Entry} {acked : List Entry}
    (h : (failedAppendAfter ops io e).map (fun r => (r.1.acked, r.1.found, r.2.2.1.toBool)) = some (acked, 0, false)) :
    ∃ s l f l' dir', Run (Session.Step .zero .zero) Session.FirstBoot (Session.start []) ops s ∧
      s.handle = some l ∧ s.acked = acked ∧ s.found = 0 ∧
      append io e.type e.payload l s.dir = (.error f, l', dir') ∧
      failedAppendAfter ops io e = some (s, l, .error f, l', dir') := by
  obtain ⟨⟨s, l, r, l', dir'⟩, hr, hval⟩ := Option.map_eq_some_iff.1 h
  obtain ⟨hacked, hval⟩ := Prod.mk.inj hval
  obtain ⟨hfound, hfail⟩ := Prod.mk.inj hval
  obtain ⟨s₀, hs, hl⟩ := Option.bind_eq_some_iff.1 hr
  obtain ⟨l₀, hl₀, heq⟩ := Option.map_eq_some_iff.1 hl
  obtain ⟨rfl, hrest⟩ := Prod.mk.inj heq
  obtain ⟨rfl, happend⟩ := Prod.mk.inj hrest
  cases r with
  | ok n => cases hfail
  | error f => exact ⟨s₀, l₀, f, l', dir', run_of_exec _ _ hs, hl₀, hacked, hfound, happend, hr⟩

set_option maxRecDepth 100000 in
theorem failedAppend_keepsHistory_iff_unopened : ∃ (s : Session) (l l' : Handle) (dir' : Directory) (f : Failure),
    s.acked = [firstEntry] ∧ append unopened nextEntry.type nextEntry.payload l s.dir = (.error f, l', dir') ∧
      (KeepsHistory .zero .zero s.acked l' dir' ↔ writtenBytes unopened nextEntry.payload l = 0) := by
  obtain ⟨s, l, f, l', dir', hrun, hl, hacked, hfound, hfail, -⟩ := failedAppendAfter_spec
    (show (failedAppendAfter [.open .zero, .append firstEntry] unopened nextEntry).map _ =
      some ([firstEntry], 0, false) by decide +kernel)
  exact ⟨s, l, l', dir', f, hacked, hfail, failedAppend_keepsHistory_iff hrun hl hfound hfail⟩

set_option maxRecDepth 100000 in
/-- One byte left behind by a failed append makes the journal unreadable from the next append on. -/
theorem failedAppend_spoils : ¬ ∀ (coordinator : CoordinatorId) (trustDigest : Digest) (path : Bytes)
    (ops : List Operation) (s : Session) (io : State.AppendIo) (e : Entry) (l l' : Handle) (dir' : Directory)
    (f : Failure), Run (Session.Step coordinator trustDigest) Session.FirstBoot (Session.start path) ops s →
    s.handle = some l → s.found = 0 → append io e.type e.payload l s.dir = (.error f, l', dir') →
    KeepsHistory coordinator trustDigest s.acked l' dir' := by
  intro h
  obtain ⟨s, l, f, l', dir', hrun, hl, -, hfound, hfail, hlast⟩ := failedAppendAfter_spec 
    (show (failedAppendAfter [.open .zero] tornAfterOne firstEntry).map _ = some ([], 0, false) by decide +kernel)
  have hfurther : (failedAppendAfter [.open .zero] tornAfterOne firstEntry).map (fun r =>
      (appendAll [⟨.workloadRegistered, []⟩] r.2.2.2.1 r.2.2.2.2).map fun t => (readAll t.2).toBool) =
      some (some false) := by decide +kernel
  rw [hlast] at hfurther
  obtain ⟨⟨l₂, dir₂⟩, happend, hread⟩ := Option.map_eq_some_iff.1 (Option.some.inj hfurther)
  obtain ⟨records, report, hok, _⟩ := (h _ _ _ _ s _ _ l l' dir' f hrun hl hfound hfail).further _ l₂ dir₂ happend
  rw [hok] at hread
  cases hread

end Session

end Ledger

end Wnc
