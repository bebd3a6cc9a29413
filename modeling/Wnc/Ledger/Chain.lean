/-
What the links of a journal commit to. The chain value of a record is taken over its header with the link field
zeroed, so a link fixes the record before it and nothing older.
-/
import Wnc.Core.HashStream
import Wnc.Ledger.Snapshot

namespace Wnc

open Lib

namespace Ledger

/-- The bytes that the chain value of a record is the digest of. -/
def chainInput (type : RecordType) (sequence : UInt64) (payload : Bytes) : Bytes :=
  headerPrefix type sequence payload Digest.zero ++ payload

theorem chainValue_eq (type : RecordType) (sequence : UInt64) (payload : Bytes) :
    chainValue type sequence payload = sha256 (chainInput type sequence payload) := rfl

theorem writeLe_inj {k m n : Nat} (hm : m < 256 ^ k) (hn : n < 256 ^ k) (h : writeLe k m = writeLe k n) : m = n := by
  rw [← readLe_writeLe_of_lt hm, h, readLe_writeLe_of_lt hn]

/-- The bytes determine the type, the sequence and the payload. -/
theorem chainInput_inj {type type' : RecordType} {sequence sequence' : UInt64} {payload payload' : Bytes}
    (h : chainInput type sequence payload = chainInput type' sequence' payload') :
    type = type' ∧ sequence = sequence' ∧ payload = payload' := by
  have hpayload : payload = payload' := by
    have := congrArg (List.drop 88) h
    simpa only [chainInput, List.drop_left' (length_headerPrefix ..)] using this
  obtain ⟨_, _, htype, hsequence, _⟩ := read_headerPrefix type sequence payload Digest.zero payload
  obtain ⟨_, _, htype', hsequence', _⟩ := read_headerPrefix type' sequence' payload' Digest.zero payload'
  have hbytes : headerPrefix type sequence payload Digest.zero ++ payload =
      headerPrefix type' sequence' payload' Digest.zero ++ payload' := h
  rw [hbytes] at htype hsequence
  have ht := writeLe_inj (lt_of_lt_of_le type.value.toNat_lt (by decide))
    (lt_of_lt_of_le type'.value.toNat_lt (by decide)) (htype.symm.trans htype')
  have hs := writeLe_inj (lt_of_lt_of_le sequence.toNat_lt (by decide))
    (lt_of_lt_of_le sequence'.toNat_lt (by decide)) (hsequence.symm.trans hsequence')
  exact ⟨RecordType.ext (UInt16.toNat_inj.1 ht), UInt64.toNat_inj.1 hs, hpayload⟩

/-! ## The links of the records read -/

namespace Record

/-- The bytes that the chain value of a record is the digest of. -/
def input (r : Record) : Bytes := chainInput r.type r.sequence r.payload

/-- The chain value of a record. -/
def value (r : Record) : Digest := chainValue r.type r.sequence r.payload

theorem view_eq_of_input {q r : Record} (h : q.input = r.input) : q.view = r.view := by
  obtain ⟨ht, hs, hp⟩ := chainInput_inj h
  simp only [view, ht, hs, hp]

theorem value_eq_of_view {q r : Record} (h : q.view = r.view) : q.value = r.value := by
  simp only [view, Prod.mk.injEq] at h
  obtain ⟨hs, ht, hp⟩ := h
  simp only [value, hs, ht, hp]

end Record

/-- The header of a frame that parses is the header of its record. -/
theorem header_of_parseFrame {bytes : Bytes} {offset n : Nat} {r : Record} (h : parseFrame bytes offset = .ok (r, n)) :
    slice offset 88 bytes = headerPrefix r.type r.sequence r.payload r.chain := by
  rw [parseFrame_eq_ok_iff] at h
  obtain ⟨hlen, hmagic, hversion, _, _, hdigest, hr, _⟩ := h
  have hslice : slice offset 88 bytes = (bytes.drop offset).take 88 := rfl
  rw [hslice]
  generalize bytes.drop offset = header at *
  have hfits : ∀ o k, o + k ≤ 92 → o + k ≤ header.length := fun o k ho =>
    le_trans ho (le_trans (Nat.le_add_right _ _) hlen)
  -- every field is what the record says it is
  have htype : writeLe 2 r.type.value.toNat = slice 6 2 header := by
    have hlt : readLe (slice 6 2 header) < 2 ^ 16 := readLe_slice_lt (hfits 6 2 (by decide))
    rw [hr, UInt16.toNat_ofNat_of_lt' hlt, writeLe_readLe_slice (hfits 6 2 (by decide))]
  have hsequence : writeLe 8 r.sequence.toNat = slice 8 8 header := by
    have hlt : readLe (slice 8 8 header) < 2 ^ 64 := readLe_slice_lt (hfits 8 8 (by decide))
    rw [hr, UInt64.toNat_ofNat_of_lt' hlt, writeLe_readLe_slice (hfits 8 8 (by decide))]
  have hlength : writeLe 8 r.payload.length = slice 16 8 header := by
    rw [hr, length_slice hlen, writeLe_readLe_slice (hfits 16 8 (by decide))]
  have hpayload : (sha256 r.payload).bytes = slice 24 32 header := by
    rw [hdigest, hr, Digest.bytes_ofBytes (length_slice (hfits 24 32 (by decide)))]
  have hchain : r.chain.bytes = slice 56 32 header := by
    rw [hr, Digest.bytes_ofBytes (length_slice (hfits 56 32 (by decide)))]
  have hfields : header.take 88 = slice 0 4 header ++ (slice 4 2 header ++ (slice 6 2 header ++ (slice 8 8 header ++
      (slice 16 8 header ++ (slice 24 32 header ++ slice 56 32 header))))) := by
    rw [← slice_add 24 32, ← slice_add 16 8, ← slice_add 8 8, ← slice_add 6 2, ← slice_add 4 2, ← slice_add 0 4]
    rfl
  rw [hfields, headerPrefix, htype, hsequence, hlength, hpayload, hchain, ← hmagic, ← hversion,
    writeLe_readLe_slice (hfits 0 4 (by decide)), writeLe_readLe_slice (hfits 4 2 (by decide))]

/-- With its link zeroed it is what the chain value of the record is taken over. -/
theorem zeroLink_of_parseFrame {bytes : Bytes} {offset n : Nat} {r : Record} (h : parseFrame bytes offset = .ok (r, n)) :
    zeroLink (slice offset 88 bytes) = headerPrefix r.type r.sequence r.payload Digest.zero := by
  rw [header_of_parseFrame h, zeroLink_headerPrefix]

/-- The bytes of a frame that parses are those an append of its record writes. -/
theorem bytes_of_parseFrame {bytes : Bytes} {offset n : Nat} {r : Record} (h : parseFrame bytes offset = .ok (r, n)) :
    slice offset n bytes = (buildFrame r.type r.sequence r.payload r.chain).bytes := by
  have hheader := header_of_parseFrame h
  rw [parseFrame_eq_ok_iff] at h
  obtain ⟨hlen, -, -, -, hcrc, -, hr, rfl⟩ := h
  have hslice : ∀ k, slice offset k bytes = slice 0 k (bytes.drop offset) := fun k => by rw [slice, slice, List.drop_zero]
  rw [hslice] at hheader ⊢
  generalize bytes.drop offset = header at *
  have hpayload : slice 92 (readLe (slice 16 8 header)) header = r.payload := by rw [hr]; rfl
  have hchecksum : writeLe 4 (crc32 (slice 0 88 header)) = slice 88 4 header := by
    rw [← hcrc, writeLe_readLe_slice (le_trans (show 88 + 4 ≤ frameHeaderBytes from le_rfl)
      (le_trans (Nat.le_add_right _ _) hlen))]
  rw [buildFrame, ← hheader]
  simp only
  rw [hchecksum, ← hpayload, slice_add 0 frameHeaderBytes, show frameHeaderBytes = 88 + 4 from rfl, slice_add 0 88 4]

/-- Every record links to the one before it, the first to the start of the chain. -/
def LinkedFrom : Digest → List Record → Prop
  | _, [] => True
  | link, r :: rs => r.chain = link ∧ LinkedFrom r.value rs

/-- The chain value behind records. -/
def endLink (link : Digest) (records : List Record) : Digest := (records.getLast?.map Record.value).getD link

theorem linkedFrom_snoc {link : Digest} {records : List Record} {r : Record} :
    LinkedFrom link (records ++ [r]) ↔ LinkedFrom link records ∧ r.chain = endLink link records := by
  induction records generalizing link with
  | nil => simp [LinkedFrom, endLink]
  | cons q qs ih =>
    rw [List.cons_append, LinkedFrom, ih, LinkedFrom, and_assoc]
    cases hlast : qs.getLast? with
    | none =>
      rw [List.getLast?_eq_none_iff] at hlast
      rw [hlast]
      rfl
    | some q' => simp [endLink, List.getLast?_cons, hlast]

/-- A scan whose records are linked, and that expects the next link. -/
structure Scan.Linked (s : Scan) : Prop where
  records : LinkedFrom .zero s.records
  next : s.previousChain = endLink .zero s.records

theorem Scan.Linked.accept {s : Scan} (h : s.Linked) {bytes : Bytes} {offset consumed : Nat} {record : Record}
    (hparse : parseFrame bytes offset = .ok (record, consumed)) : (s.accept bytes offset record consumed).Linked := by
  unfold Scan.accept
  split
  · exact ⟨h.records, h.next⟩
  · simp only
    split
    · exact ⟨h.records, h.next⟩
    · rename_i hlink
      rw [ne_eq, not_not] at hlink
      refine ⟨linkedFrom_snoc.2 ⟨h.records, by rw [hlink, h.next]⟩, ?_⟩
      simp only [endLink, List.getLast?_concat, Option.map_some, Option.getD_some]
      rw [zeroLink_of_parseFrame hparse]
      rfl

/-- The records read from a journal are linked. -/
theorem readAll_linked {dir : Directory} {records : List Record} {report : RecoveryReport}
    (h : readAll dir = .ok (records, report)) : LinkedFrom .zero records := by
  have hs := scanSegments_invariant (P := Scan.Linked) (fun _ _ _ _ h => ⟨h.records, h.next⟩)
    (fun _ _ _ _ _ hparse h => h.accept hparse) dir.journal.entries {} ⟨trivial, rfl⟩
  rw [← (readAll_eq_ok h).2]
  exact hs.records

theorem LinkedFrom.getElem? {link : Digest} {records : List Record} (h : LinkedFrom link records) {i : Nat}
    {r : Record} (hr : records[i + 1]? = some r) : ∃ q, records[i]? = some q ∧ r.chain = q.value := by
  induction records generalizing link i with
  | nil => simp at hr
  | cons q qs ih =>
    rw [List.getElem?_cons_succ] at hr
    cases i with
    | zero =>
      cases qs with
      | nil => simp at hr
      | cons q' qs =>
        cases hr
        exact ⟨q, rfl, h.2.1⟩
    | succ i => exact ih h.2 hr

theorem LinkedFrom.head {link : Digest} {records : List Record} (h : LinkedFrom link records) {r : Record}
    (hr : records[0]? = some r) : r.chain = link := by
  cases records with
  | nil => cases hr
  | cons q qs => cases hr; exact h.1

/-! ## What a link commits to -/

theorem map_take_succ {α β : Type} (f : α → β) {xs ys : List α} {i : Nat} {x y : α} (hx : xs[i]? = some x)
    (hy : ys[i]? = some y) :
    (xs.take (i + 1)).map f = (ys.take (i + 1)).map f ↔ (xs.take i).map f = (ys.take i).map f ∧ f x = f y := by
  have hxlen := (List.getElem?_eq_some_iff.1 hx).1
  have hylen := (List.getElem?_eq_some_iff.1 hy).1
  rw [List.take_add_one, List.take_add_one, hx, hy, List.map_append, List.map_append]
  simp only [Option.toList_some, List.map_cons, List.map_nil]
  constructor
  · intro h
    obtain ⟨h1, h2⟩ := List.append_inj' h rfl
    exact ⟨h1, (List.cons.inj h2).1⟩
  · rintro ⟨h1, h2⟩
    rw [h1, h2]

/-- Of two journals that are read, each holding a record at one place with the same link, all that stands before is
the same exactly when it is so for two journals that share the record just before: the link fixes that record, and
nothing older. -/
theorem link_commits_iff {dir dir' : Directory} {records records' : List Record} {report report' : RecoveryReport}
    (hread : readAll dir = .ok (records, report)) (hread' : readAll dir' = .ok (records', report'))
    (hfree : CollisionFree ((records ++ records').map Record.input)) {i : Nat} {r r' : Record}
    (hr : records[i]? = some r) (hr' : records'[i]? = some r') :
    (r.chain = r'.chain → (records.take i).map Record.view = (records'.take i).map Record.view) ↔
      (records[i - 1]?.map Record.view = records'[i - 1]?.map Record.view →
        (records.take (i - 1)).map Record.view = (records'.take (i - 1)).map Record.view) := by
  cases i with
  | zero => simp
  | succ i =>
    obtain ⟨q, hq, hlink⟩ := (readAll_linked hread).getElem? hr
    obtain ⟨q', hq', hlink'⟩ := (readAll_linked hread').getElem? hr'
    have hsame : r.chain = r'.chain ↔ q.view = q'.view := by
      rw [hlink, hlink']
      constructor
      · intro h
        refine Record.view_eq_of_input (hfree _ ?_ _ ?_ h)
        · exact List.mem_map_of_mem (List.mem_append_left _ (List.mem_of_getElem? hq))
        · exact List.mem_map_of_mem (List.mem_append_right _ (List.mem_of_getElem? hq'))
      · exact Record.value_eq_of_view
    rw [Nat.add_sub_cancel, hsame, map_take_succ _ hq hq', hq, hq', Option.map_some, Option.map_some,
      Option.some.injEq]
    exact ⟨fun h heq => (h heq).1, fun h heq => ⟨h heq, heq⟩⟩

/-! ## Two journals with one link -/

/-- A journal of one segment with three records. -/
def threeRecords (first : Bytes) : List Entry := [⟨.genesis, first⟩, ⟨.genesis, utf8 "{}"⟩, ⟨.genesis, utf8 "{}"⟩]

def threeRecordDirectory (first : Bytes) : Directory :=
  { path := utf8 "state", head := none, snapshot := none
    journal := SortedMap.empty.set (segmentName 0) (encodeEntries .start (threeRecords first)) }

theorem holds_threeRecords {first : Bytes} (h : first.length ≤ 2) :
    Holds (threeRecordDirectory first) [threeRecords first] := by
  refine ⟨rfl, ?_, ?_⟩
  · intro e he
    simp only [List.flatten_cons, List.flatten_nil, List.append_nil, threeRecords, List.mem_cons, List.not_mem_nil,
      or_false] at he
    rcases he with rfl | rfl | rfl
    · exact le_trans h (by decide)
    · exact show 2 ≤ maxRecordBytes by decide
    · exact show 2 ≤ maxRecordBytes by decide
  · intro e he
    have he : e = (segmentName 0, encodeEntries .start (threeRecords first)) := List.mem_singleton.1 he
    have hlen : (utf8 "{}").length = 2 := rfl
    rw [he]
    simp only [threeRecords, encodeEntries, List.length_append, length_buildFrame, List.length_nil, hlen,
      frameHeaderBytes, maxSegmentBytes]
    omega

/-- What is read from such a journal. -/
def threeRead (first : Bytes) : List Record :=
  [recordOf .genesis 1 first .zero, recordOf .genesis 2 (utf8 "{}") (chainValue .genesis 1 first),
    recordOf .genesis 3 (utf8 "{}") (chainValue .genesis 2 (utf8 "{}"))]

theorem readAll_threeRecords (first : Bytes) (h : first.length ≤ 2) :
    ∃ report, readAll (threeRecordDirectory first) = .ok (threeRead first, report) := by
  have hread := (holds_threeRecords h).readAll
  have htwo : (1 : UInt64) + 1 = 2 := by decide
  have hthree : (2 : UInt64) + 1 = 3 := by decide
  simp only [List.flatten_cons, List.flatten_nil, List.append_nil, threeRecords, recordsOf, Cursor.next, Cursor.start,
    htwo, hthree] at hread
  exact ⟨_, hread⟩

theorem collisionFree_threeRead :
    CollisionFree ((threeRead (utf8 "{}") ++ threeRead (utf8 "[]")).map Record.input) := by
  have hnodup : ([chainInput .genesis 1 (utf8 "{}"), chainInput .genesis 1 (utf8 "[]"),
      chainInput .genesis 2 (utf8 "{}"), chainInput .genesis 3 (utf8 "{}")].map sha256).Nodup := by decide +kernel
  refine (CollisionFree.of_nodup hnodup).subset ?_
  intro a ha
  simp only [threeRead, List.cons_append, List.nil_append, List.map_cons, List.map_nil, Record.input, recordOf,
    List.mem_cons, List.not_mem_nil, or_false] at ha ⊢
  generalize chainInput .genesis 1 (utf8 "{}") = m₁ at *
  generalize chainInput .genesis 1 (utf8 "[]") = m₂ at *
  generalize chainInput .genesis 2 (utf8 "{}") = m₃ at *
  generalize chainInput .genesis 3 (utf8 "{}") = m₄ at *
  tauto

theorem link_commits_iff_third : ∃ records records' : List Record, ∃ r r' : Record,
    records[2]? = some r ∧ records'[2]? = some r' ∧
      ((r.chain = r'.chain → (records.take 2).map Record.view = (records'.take 2).map Record.view) ↔
        (records[1]?.map Record.view = records'[1]?.map Record.view →
          (records.take 1).map Record.view = (records'.take 1).map Record.view)) := by
  obtain ⟨report, hread⟩ := readAll_threeRecords (utf8 "{}") le_rfl
  obtain ⟨report', hread'⟩ := readAll_threeRecords (utf8 "[]") le_rfl
  exact ⟨_, _, _, _, rfl, rfl, link_commits_iff hread hread' collisionFree_threeRead rfl rfl⟩

/-- Two journals of three records that differ in the first and have one link in the third. -/
theorem link_forgets_older : ¬ ∀ (dir dir' : Directory) (records records' : List Record)
    (report report' : RecoveryReport) (i : Nat) (r r' : Record), readAll dir = .ok (records, report) →
    readAll dir' = .ok (records', report') → CollisionFree ((records ++ records').map Record.input) →
    records[i]? = some r → records'[i]? = some r' → r.chain = r'.chain →
    (records.take i).map Record.view = (records'.take i).map Record.view := by
  intro h
  obtain ⟨report, hread⟩ := readAll_threeRecords (utf8 "{}") le_rfl
  obtain ⟨report', hread'⟩ := readAll_threeRecords (utf8 "[]") le_rfl
  have hsame := h _ _ _ _ _ _ 2 _ _ hread hread' collisionFree_threeRead rfl rfl rfl
  have hfirst := congrArg (fun views => (views[0]?).map fun v : UInt64 × RecordType × Bytes => v.2.2) hsame
  exact absurd hfirst (show some (utf8 "{}") ≠ some (utf8 "[]") by decide)

end Ledger

end Wnc
