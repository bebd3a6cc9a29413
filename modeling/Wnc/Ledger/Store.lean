/-
The ledger over a state directory: the scan of the journal segments, opening with its repair of a
torn tail, appending with segment rotation, reading, snapshots and truncation. Every operation takes
the directory it works on and returns the directory it leaves.
-/
import Wnc.Ledger.Directory
import Wnc.Ledger.Frame

namespace Wnc

open Lib

namespace Ledger

def maxSegmentBytes : Nat := 8 * 1024 * 1024
def maxLedgerSegments : Nat := 256
def maxJournalBytes : Nat := maxLedgerSegments * maxSegmentBytes

/-! ## Segment files -/

def journalPrefix : Bytes := utf8 "journal-"

/-- Pads a decimal text with zeros to five characters. -/
def padFive (digits : Bytes) : Bytes := List.replicate (5 - digits.length) 48 ++ digits

def segmentName (segment : Nat) : Bytes := journalPrefix ++ padFive (toDecimal (segment + 1)) ++ utf8 ".log"

/-- The value of a decimal digit. -/
def digitValue (c : UInt8) : Option Nat := if 48 ≤ c ∧ c ≤ 57 then some (c.toNat - 48) else none

def isSpace (c : UInt8) : Bool := c == 32 || (9 ≤ c && c ≤ 13)

/-- The number the leading digits of a text denote, and whether there is one. -/
def leadingDigits : Bytes → Nat → Bool → Option Nat
  | [], acc, seen => if seen then some acc else none
  | c :: rest, acc, seen =>
    match digitValue c with
    | some d => leadingDigits rest (acc * 10 + d) true
    | none => if seen then some acc else none

/-- Conversion of a text to an unsigned long: leading space and one sign are skipped, the digits behind
them are read, and what follows is ignored. `none` where nothing converts. The texts are at most five
characters, so no value is out of range. -/
def stoul (text : Bytes) : Option Nat :=
  match text.dropWhile isSpace with
  | [] => none
  | c :: rest =>
    if c = 45 then (leadingDigits rest 0 false).map fun v => (2 ^ 64 - v) % 2 ^ 64
    else if c = 43 then leadingDigits rest 0 false
    else leadingDigits (c :: rest) 0 false

/-! ## Reading -/

structure RecoveryReport where
  recovered : Bool := false
  validRecords : Nat := 0
  truncatedBytes : Nat := 0
  lastValidSequence : UInt64 := 0
  validBytes : Nat := 0
  excessSegments : Nat := 0
  chainBreak : Bool := false
  detail : Bytes := []
deriving DecidableEq

/-- What a scan has read so far, and how it ended. -/
structure Scan where
  records : List Record := []
  report : RecoveryReport := {}
  expectedSequence : UInt64 := 1
  previousChain : Digest := .zero
  torn : Bool := false
  failure : Option Failure := none

namespace Scan

/-- The scan after a frame that cannot be read: a frame that ends early is a torn tail, any other is
refused. -/
def stop (s : Scan) (bytes : Bytes) (offset : Nat) (f : Failure) : Scan :=
  if f.code ≠ .ledgerTruncated then { s with failure := some f }
  else
    { s with
      torn := true
      report := { s.report with
        recovered := true
        truncatedBytes := bytes.length - offset
        validBytes := offset
        detail := codeToken f.code ++ utf8 ": " ++ f.message } }

/-- The scan after a complete frame: its sequence and its link must continue the chain. -/
def accept (s : Scan) (bytes : Bytes) (offset : Nat) (record : Record) (consumed : Nat) : Scan :=
  if record.sequence ≠ s.expectedSequence then
    let detail := utf8 "journal sequence jumps from " ++ toDecimal s.expectedSequence.toNat ++ utf8 " to " ++
      toDecimal record.sequence.toNat
    { s with
      report := { s.report with recovered := true, chainBreak := true, detail := detail }
      failure := some ⟨.indexGapDetected, detail⟩ }
  else
    let derived := chainOf (zeroLink (slice offset 88 bytes)) record.payload
    if record.chain ≠ s.previousChain then
      { s with failure := some ⟨.ledgerCorrupt, utf8 "journal record does not link to the previous record"⟩ }
    else
      { s with
        previousChain := derived
        expectedSequence := record.sequence + 1
        report := { s.report with lastValidSequence := record.sequence, validBytes := offset + consumed }
        records := s.records ++ [record] }

end Scan

/-- Scans the frames of one segment from an offset. Every frame takes at least its header, so the
segment's length is fuel enough. -/
def scanSegment : Nat → Bytes → Nat → Scan → Scan
  | 0, _, _, s => s
  | fuel + 1, bytes, offset, s =>
    if bytes.length ≤ offset then s
    else
      match parseFrame bytes offset with
      | .error f => s.stop bytes offset f
      | .ok (record, consumed) =>
        let s := s.accept bytes offset record consumed
        if s.failure.isSome then s else scanSegment fuel bytes (offset + consumed) s

/-- Scans the segments in the order of their names. Those behind a torn tail are only counted. -/
def scanSegments : List (Bytes × Bytes) → Scan → Scan
  | [], s => s
  | (name, bytes) :: rest, s =>
    if s.torn then
      scanSegments rest { s with report := { s.report with excessSegments := s.report.excessSegments + 1 } }
    else if bytes.length > maxSegmentBytes + 1 then
      { s with failure := some ⟨.ledgerOversized, utf8 "journal segment " ++ name ++
        utf8 " exceeds the segment bound"⟩ }
    else
      let s := scanSegment bytes.length bytes 0 s
      if s.failure.isSome then s else scanSegments rest s

def readFrames (dir : Directory) : Scan :=
  let s := scanSegments dir.journal.entries {}
  if s.failure.isSome then s else { s with report := { s.report with validRecords := s.records.length } }

def readAll (dir : Directory) : Except Failure (List Record × RecoveryReport) :=
  let s := readFrames dir
  match s.failure with
  | some f => .error f
  | none => .ok (s.records, s.report)

def readAfter (sequence : UInt64) (dir : Directory) : Except Failure (List Record × RecoveryReport) :=
  match readAll dir with
  | .error f => .error f
  | .ok (all, report) => .ok (all.filter fun r => r.sequence > sequence, report)

/-! ## The boot record -/

def headMagicWord : Nat := 0x31484E57
def headVersion : Nat := 1
def headBytes : Nat := 196

structure HeadRecord where
  formatVersion : Nat
  coordinator : CoordinatorId
  trustDigest : Digest
  epoch : UInt64
  incarnation : Incarnation
  lastSequence : UInt64
  bootCount : UInt64

/-- The 192 bytes of the boot record that its checksum covers. -/
def HeadRecord.content (head : HeadRecord) : Bytes :=
  writeLe 4 headMagicWord ++ (writeLe 2 headVersion ++ (writeLe 2 0 ++ (head.coordinator.view ++
    (head.trustDigest.bytes ++ (writeLe 8 head.epoch.toNat ++ (head.incarnation.bytes ++
      (writeLe 8 head.lastSequence.toNat ++ (writeLe 8 head.bootCount.toNat ++ List.replicate 48 0))))))))

def HeadRecord.encode (head : HeadRecord) : Bytes := head.content ++ writeLe 4 (crc32 head.content)

/-! ## Opening -/

/-- A ledger handle. -/
structure Handle where
  head : HeadRecord
  chain : Digest
  segment : Nat
  segmentBytes : Nat
  segmentCount : Nat
  retainedBytes : Nat
  isOpen : Bool

/-- What the operating system does with the steps of an open: whether the state directory can be
made, whether its paths resolve inside it, and the failure of a truncation and of the replacement
of the boot record. -/
structure OpenIo where
  ensuresDirectory : Bool := true
  pathsWithin : Bool := true
  truncation : Option Failure := none
  headReplacement : Option Failure := none

def OpenIo.succeeds : OpenIo := {}

/-- The counters of the previous boot, from the boot record's bytes. -/
def readHead (raw : Bytes) (coordinator : CoordinatorId) (trustDigest : Digest) :
    Except Failure (UInt64 × UInt64) :=
  if raw.length ≠ headBytes ∨ readLe (slice 0 4 raw) ≠ headMagicWord then
    fail .ledgerCorrupt "head record is malformed"
  else if readLe (slice 4 2 raw) ≠ headVersion then
    fail .ledgerIncompatible "head format version is not supported"
  else if readLe (slice 192 4 raw) ≠ crc32 (slice 0 192 raw) then
    fail .ledgerCorrupt "head record integrity check failed"
  else
    match (Id.parse (slice 8 64 raw) : Option CoordinatorId) with
    | none => fail .ledgerCorrupt "head record names an invalid coordinator identity"
    | some storedCoordinator =>
      if storedCoordinator ≠ coordinator then
        fail .indexMismatch "state directory belongs to another coordinator identity"
      else if Digest.ofBytes (slice 72 32 raw) ≠ trustDigest then
        fail .publisherNotTrusted "state directory was written under a different trust set"
      else .ok (UInt64.ofNat (readLe (slice 104 8 raw)), UInt64.ofNat (readLe (slice 136 8 raw)))

/-- Removes the last files of the journal, keeping the first `kept`, and truncates the last one kept. -/
def repairTornTail (io : OpenIo) (scan : RecoveryReport) (dir : Directory) : Except Failure Unit × Directory :=
  let segments := dir.journal.entries
  let kept := if segments.length > scan.excessSegments then segments.length - scan.excessSegments
    else segments.length
  match io.truncation, segments[kept - 1]? with
  | some f, some _ => (.error f, dir)
  | none, some (name, bytes) =>
    let journal := dir.journal.set name (bytes.take scan.validBytes)
    (.ok (), { dir with journal := journal.filter fun name' _ => (segments.drop kept).all fun e => e.1 != name' })
  | _, none => (.ok (), dir)

/-- The segment layout found in a directory: the number of segment files, the bytes they hold, and the
highest segment index their names give. -/
structure Layout where
  segmentCount : Nat := 0
  retainedBytes : Nat := 0
  segment : Nat := 0

def discoverSegments : List (Bytes × Bytes) → Layout → Except Failure Layout
  | [], l => .ok l
  | (name, bytes) :: rest, l =>
    if name.length < 12 then discoverSegments rest l
    else
      match stoul (slice 8 5 name) with
      | none => .error ⟨.ledgerCorrupt, utf8 "journal segment name '" ++ name ++ utf8 "' is malformed"⟩
      | some index =>
        discoverSegments rest
          { segmentCount := l.segmentCount + 1
            retainedBytes := l.retainedBytes + bytes.length
            segment := if index ≥ l.segment + 1 then index - 1 else l.segment }

/-- Rewrites the boot record. -/
def writeHead (failure : Option Failure) (head : HeadRecord) (dir : Directory) :
    Except Failure Unit × Directory :=
  match State.writeFileAtomic failure head.encode with
  | .error f => (.error f, dir)
  | .ok bytes => (.ok (), { dir with head := some bytes })

/-- Reads the boot record of a directory. Without one there must be no journal. -/
def loadHead (coordinator : CoordinatorId) (trustDigest : Digest) (dir : Directory) :
    Except Failure (Option (UInt64 × UInt64)) :=
  match State.readFile (dir.filePath (utf8 "head.bin")) dir.head headBytes with
  | .ok raw => (readHead raw coordinator trustDigest).map some
  | .error f =>
    if f.code ≠ .stateUnavailable then .error f
    else if dir.journal.entries ≠ [] then
      fail .recoveryRequired "journal segments exist without a head record"
    else .ok none

/-- The open behind the boot record: the journal is read and repaired, and the record of this boot replaces that of the
previous one. -/
def openFrom (io : OpenIo) (coordinator : CoordinatorId) (trustDigest : Digest) (incarnation : Incarnation)
    (previous : Option (UInt64 × UInt64)) (dir : Directory) : Except Failure (Handle × RecoveryReport) × Directory :=
  let (previousEpoch, previousBoot) := previous.getD (0, 0)
  match readAll dir with
  | .error f => (.error f, dir)
  | .ok (records, scan) =>
    let head : HeadRecord :=
      { formatVersion := headVersion
        coordinator := coordinator
        trustDigest := trustDigest
        epoch := previousEpoch + 1
        incarnation := incarnation
        lastSequence := scan.lastValidSequence
        bootCount := previousBoot + 1 }
    let recovery := { scan with recovered := scan.recovered || previous.isNone }
    match (if scan.truncatedBytes > 0 then repairTornTail io scan dir else (.ok (), dir)) with
    | (.error f, dir) => (.error f, dir)
    | (.ok _, dir) =>
      match discoverSegments dir.journal.entries {} with
      | .error f => (.error f, dir)
      | .ok layout =>
        match writeHead io.headReplacement head dir with
        | (.error f, dir) => (.error f, dir)
        | (.ok _, dir) =>
          (.ok ({ head := head
                  -- the link of the last record, as the reader surfaces it
                  chain := (records.getLast?.map Record.chain).getD .zero
                  segment := layout.segment
                  segmentBytes := ((dir.journal.find? (segmentName layout.segment)).map List.length).getD 0
                  segmentCount := layout.segmentCount
                  retainedBytes := layout.retainedBytes
                  isOpen := true }, recovery), dir)

/-- Opens a state directory under the incarnation drawn for this boot. -/
def openLedger (io : OpenIo) (coordinator : CoordinatorId) (trustDigest : Digest) (incarnation : Incarnation)
    (dir : Directory) : Except Failure (Handle × RecoveryReport) × Directory :=
  if !io.ensuresDirectory then
    (.error ⟨.directoryUnavailable, utf8 "cannot create " ++ dir.path⟩, dir)
  else if !io.pathsWithin then
    (fail .pathRejected "state paths resolve outside the state directory", dir)
  else
    match loadHead coordinator trustDigest dir with
    | .error f => (.error f, dir)
    | .ok previous => openFrom io coordinator trustDigest incarnation previous dir

/-! ## Appending -/

def rotateSegment (l : Handle) : Except Failure Handle :=
  if l.segmentCount ≥ maxLedgerSegments then
    .error ⟨.ledgerOversized, utf8 "journal reached " ++ toDecimal l.segmentCount ++
      utf8 " segments; the retention bound must be applied before appending"⟩
  else .ok { l with segment := l.segment + 1, segmentBytes := 0, segmentCount := l.segmentCount + 1 }

/-- The bounds an append checks, and the handle it goes on with: rotated to a new segment when the
frame does not fit the current one. -/
def prepareAppend (l : Handle) (payload : Bytes) : Except Failure Unit × Handle :=
  if !l.isOpen then (fail .stateUnavailable "ledger is not open", l)
  else if payload.length > maxRecordBytes then
    (fail .ledgerOversized "record payload exceeds the configured bound", l)
  else
    let frameBytes := frameHeaderBytes + payload.length
    if frameBytes > maxSegmentBytes then (fail .ledgerOversized "frame exceeds the segment bound", l)
    else
      match (if l.segmentBytes + frameBytes > maxSegmentBytes then rotateSegment l else .ok l) with
      | .error f => (.error f, l)
      | .ok l =>
        if l.retainedBytes + frameBytes > maxJournalBytes then
          (fail .ledgerOversized "journal would exceed its total byte bound", l)
        else (.ok (), l)

/-- Appends a record: the sequence it got or the failure, with the handle and the directory left. -/
def append (io : State.AppendIo) (type : RecordType) (payload : Bytes) (l : Handle) (dir : Directory) :
    Except Failure UInt64 × Handle × Directory :=
  match prepareAppend l payload with
  | (.error f, l) => (.error f, l, dir)
  | (.ok _, l) =>
    let next := l.head.lastSequence + 1
    let frame := buildFrame type next payload l.chain
    let name := segmentName l.segment
    match State.appendFileFlushed io (dir.filePath name) (dir.journal.find? name) frame.bytes with
    | (content, failure) =>
      let dir := match content with
        | some bytes => { dir with journal := dir.journal.set name bytes }
        | none => dir
      match failure with
      | some f => (.error f, l, dir)
      | none =>
        (.ok next,
          { l with
            head := { l.head with lastSequence := next }
            chain := frame.chain
            segmentBytes := l.segmentBytes + frame.bytes.length
            retainedBytes := l.retainedBytes + frame.bytes.length }, dir)

end Ledger

end Wnc
