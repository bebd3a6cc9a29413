/-
Epochs over the opens of one directory. An open takes its counters from the boot record on disk, so the record it
writes stands above the one before wherever that one was read. A record that exists and cannot be sized or opened is
taken for an absent one, and the only check behind that looks for journal files.
-/
import Wnc.Ledger.Handle
import Wnc.Lib.Run

namespace Wnc

open Lib

namespace Ledger

/-! ## What an open sees of its directory -/

/-- What the system shows an open: whether the boot record's file, where there is one, can be sized and opened, whether
the listing that looks for journal files without a boot record goes through, and the failure of the scan, in its own
listing or in reading a segment. -/
structure Sight where
  head : Bool := true
  listing : Bool := true
  scan : Option Failure := none

/-- The read of the boot record under a sight. A file that cannot be sized or opened is unavailable, as an absent one
is, and the error of the listing is not looked at. -/
def loadSeen (sight : Sight) (coordinator : CoordinatorId) (trustDigest : Digest) (dir : Directory) :
    Except Failure (Option (UInt64 × UInt64)) :=
  loadHead coordinator trustDigest
    { dir with
      head := if sight.head then dir.head else none
      journal := if sight.listing then dir.journal else .empty }

/-- Opens a state directory of which the system shows this much. -/
def openSeen (sight : Sight) (io : OpenIo) (coordinator : CoordinatorId) (trustDigest : Digest)
    (incarnation : Incarnation) (dir : Directory) : Except Failure (Handle × RecoveryReport) × Directory :=
  if !io.ensuresDirectory then
    (.error ⟨.directoryUnavailable, utf8 "cannot create " ++ dir.path⟩, dir)
  else if !io.pathsWithin then
    (fail .pathRejected "state paths resolve outside the state directory", dir)
  else
    match loadSeen sight coordinator trustDigest dir with
    | .error f => (.error f, dir)
    | .ok previous =>
      match sight.scan with
      | some f => (.error f, dir)
      | none => openFrom io coordinator trustDigest incarnation previous dir

theorem openSeen_all : openSeen {} = openLedger := rfl

/-- The boot record exists and is taken for absent, and no journal file is seen. -/
def Sight.Misses (sight : Sight) (dir : Directory) : Prop :=
  sight.head = false ∧ dir.head ≠ none ∧ (sight.listing = false ∨ dir.journal.entries = [])

/-- Where the boot record is not missed, a read of one that exists is the read of its bytes. -/
theorem loadSeen_ok {sight : Sight} {coordinator : CoordinatorId} {trustDigest : Digest} {dir : Directory} {raw : Bytes}
    {previous : Option (UInt64 × UInt64)} (hraw : dir.head = some raw) (hsees : ¬ sight.Misses dir)
    (h : loadSeen sight coordinator trustDigest dir = .ok previous) :
    ∃ counters, readHead raw coordinator trustDigest = .ok counters ∧ previous = some counters := by
  unfold loadSeen loadHead at h
  cases hhead : sight.head with
  | true =>
    simp only [hhead, if_true, hraw, State.readFile] at h
    split at h
    · rename_i raw' hread
      split at hread
      · cases hread
      · cases hread
        cases hcounters : readHead raw coordinator trustDigest with
        | error f => rw [hcounters] at h; cases h
        | ok counters => rw [hcounters] at h; cases h; exact ⟨counters, rfl, rfl⟩
    · rename_i f hread
      split at hread
      · cases hread
        rw [if_pos (by simp)] at h
        cases h
      · cases hread
  | false =>
    -- the record is taken for absent, and a journal file is seen
    have hseen : (if sight.listing = true then dir.journal else SortedMap.empty).entries ≠ [] := by
      cases hlisting : sight.listing with
      | true => exact fun hnone => hsees ⟨hhead, by rw [hraw]; exact Option.some_ne_none _, .inr hnone⟩
      | false => exact absurd ⟨hhead, by rw [hraw]; exact Option.some_ne_none _, .inl hlisting⟩ hsees
    simp only [hhead, Bool.false_eq_true, if_false, State.readFile, ne_eq, not_true, if_pos hseen, fail] at h
    cases h

/-! ## What an open writes -/

/-- An open that fails leaves the boot record. -/
theorem openSeen_error {sight : Sight} {io : OpenIo} {coordinator : CoordinatorId} {trustDigest : Digest}
    {incarnation : Incarnation} {dir dir' : Directory} {f : Failure}
    (h : openSeen sight io coordinator trustDigest incarnation dir = (.error f, dir')) : dir'.head = dir.head := by
  unfold openSeen at h
  split at h
  · cases h; rfl
  · split at h
    · cases h; rfl
    · split at h
      · cases h; rfl
      · split at h
        · cases h; rfl
        · rcases openFrom_error h with rfl | ⟨scan, rfl⟩
          · rfl
          · exact repairTornTail_head io scan dir

/-- An open that succeeds went on with what it read of the boot record, and wrote the record of its handle. -/
theorem openSeen_ok {sight : Sight} {io : OpenIo} {coordinator : CoordinatorId} {trustDigest : Digest}
    {incarnation : Incarnation} {dir dir' : Directory} {l : Handle} {report : RecoveryReport}
    (h : openSeen sight io coordinator trustDigest incarnation dir = (.ok (l, report), dir')) :
    ∃ previous, loadSeen sight coordinator trustDigest dir = .ok previous ∧ dir'.head = some l.head.encode ∧
      l.head.coordinator = coordinator ∧ l.head.trustDigest = trustDigest ∧
      l.head.epoch = (previous.getD (0, 0)).1 + 1 ∧ l.head.bootCount = (previous.getD (0, 0)).2 + 1 := by
  unfold openSeen at h
  split at h
  · cases h
  · split at h
    · cases h
    · split at h
      · cases h
      · rename_i previous hload
        split at h
        · cases h
        · obtain ⟨_, _, _, _, -, -, -, -, rfl, rfl⟩ := openFrom_ok h
          exact ⟨previous, hload, rfl, rfl, rfl, rfl, rfl⟩

/-- The bytes of a boot record are accepted under its own identities only, and give its own counters. -/
theorem readHead_encode_ok {head : HeadRecord} {coordinator : CoordinatorId} {trustDigest : Digest}
    {counters : UInt64 × UInt64} (h : readHead head.encode coordinator trustDigest = .ok counters) :
    head.coordinator = coordinator ∧ head.trustDigest = trustDigest ∧ counters = (head.epoch, head.bootCount) := by
  have hown := readHead_encode head
  unfold readHead at h hown
  split at h
  · cases h
  · rename_i hlength
    rw [if_neg hlength] at hown
    split at h
    · cases h
    · rename_i hversion
      rw [if_neg hversion] at hown
      split at h
      · cases h
      · rename_i hchecksum
        rw [if_neg hchecksum] at hown
        split at h
        · cases h
        · rename_i stored hstored
          rw [hstored] at hown
          simp only at hown
          split at h
          · cases h
          · rename_i hcoordinator
            split at h
            · cases h
            · rename_i htrust
              split at hown
              · cases hown
              · rename_i hcoordinator'
                split at hown
                · cases hown
                · rename_i htrust'
                  rw [not_not] at hcoordinator hcoordinator' htrust htrust'
                  cases h
                  exact ⟨hcoordinator' ▸ hcoordinator, htrust' ▸ htrust, Except.ok.inj hown⟩

/-- An append leaves the boot record. -/
theorem append_head (io : State.AppendIo) (type : RecordType) (payload : Bytes) (l : Handle) (dir : Directory) :
    (append io type payload l dir).2.2.head = dir.head := by
  unfold append
  split
  · rfl
  · simp only
    split <;> split <;> rfl

/-! ## Runs of opens and appends -/

/-- A successful open: the counters it read back, if it found any, and the boot record it wrote. -/
structure Boot where
  read : Option (UInt64 × UInt64)
  head : HeadRecord

/-- A boot behind an older one: it read back the older one's counters under the same identities, and stands above it. -/
structure Boot.Continues (newer older : Boot) : Prop where
  read : newer.read = some (older.head.epoch, older.head.bootCount)
  coordinator : newer.head.coordinator = older.head.coordinator
  trustDigest : newer.head.trustDigest = older.head.trustDigest
  epoch : older.head.epoch < newer.head.epoch
  bootCount : older.head.bootCount < newer.head.bootCount

/-- A boot whose epoch and boot count are above those of another. -/
def Boot.Above (newer older : Boot) : Prop :=
  older.head.epoch < newer.head.epoch ∧ older.head.bootCount < newer.head.bootCount

instance : IsTrans Boot Boot.Above := ⟨fun _ _ _ h h' => ⟨UInt64.lt_trans h'.1 h.1, UInt64.lt_trans h'.2 h.2⟩⟩

/-- The directory, and the successful opens so far, the newest first. -/
structure Boots where
  dir : Directory
  boots : List Boot

/-- An open of the directory under what the system shows and does, or an append through a handle. -/
inductive Attempt where
  | boot (sight : Sight) (io : OpenIo) (coordinator : CoordinatorId) (trustDigest : Digest) (incarnation : Incarnation)
  | append (io : State.AppendIo) (type : RecordType) (payload : Bytes) (l : Handle)

namespace Boots

def start (dir : Directory) : Boots := ⟨dir, []⟩

def step (s : Boots) : Attempt → Boots
  | .boot sight io coordinator trustDigest incarnation =>
    match openSeen sight io coordinator trustDigest incarnation s.dir with
    | (.error _, dir) => { s with dir := dir }
    | (.ok (l, _), dir) =>
      { dir := dir, boots := ⟨(loadSeen sight coordinator trustDigest s.dir).toOption.join, l.head⟩ :: s.boots }
  | .append io type payload l => { s with dir := (Ledger.append io type payload l s.dir).2.2 }

/-- The counters of the newest boot leave room for one more. -/
def Room (s : Boots) : Prop :=
  ∀ b ∈ s.boots.head?, b.head.epoch.toNat + 1 < 2 ^ 64 ∧ b.head.bootCount.toNat + 1 < 2 ^ 64

/-- An open does not take a boot record that exists for an absent one and go on. -/
def Sees (s : Boots) : Attempt → Prop
  | .boot sight _ _ _ _ => ¬ sight.Misses s.dir
  | .append _ _ _ _ => True

/-- Every boot stands above all earlier ones and read back what the one before it wrote, the boot record on disk is that
of the newest boot, and no open that fails touches it. -/
structure Sound (s : Boots) : Prop where
  above : s.boots.Pairwise Boot.Above
  continues : s.boots.IsChain Boot.Continues
  stored : ∀ b ∈ s.boots.head?, s.dir.head = some b.head.encode
  kept : ∀ sight io coordinator trustDigest incarnation f dir,
    openSeen sight io coordinator trustDigest incarnation s.dir = (.error f, dir) → dir.head = s.dir.head

/-- The invariant behind `Sound`: each boot continues the one before it, and the record on disk is the newest one's. -/
structure Inv (s : Boots) : Prop where
  continues : s.boots.IsChain Boot.Continues
  stored : ∀ b ∈ s.boots.head?, s.dir.head = some b.head.encode

theorem inv_start (dir : Directory) : (start dir).Inv := ⟨.nil, fun _ h => by cases h⟩

variable {s t : Boots}

theorem Inv.sound (hi : s.Inv) : s.Sound where
  above := (hi.continues.imp fun _ _ h => ⟨h.epoch, h.bootCount⟩).pairwise
  continues := hi.continues
  stored := hi.stored
  kept := fun _ _ _ _ _ _ _ => openSeen_error

/-- A counter with room for one more grows. -/
theorem lt_add_one {v : UInt64} (h : v.toNat + 1 < 2 ^ 64) : v < v + 1 := by
  rw [UInt64.lt_iff_toNat_lt, UInt64.toNat_add]
  simp only [UInt64.toNat_one]
  omega

/-- An open that succeeds and does not miss the boot record continues the newest boot. -/
theorem Inv.continues_boot (hi : s.Inv) (hroom : s.Room) {sight : Sight} (hsees : ¬ sight.Misses s.dir) {io : OpenIo}
    {coordinator : CoordinatorId} {trustDigest : Digest} {incarnation : Incarnation} {dir : Directory} {l : Handle}
    {report : RecoveryReport}
    (h : openSeen sight io coordinator trustDigest incarnation s.dir = (.ok (l, report), dir)) :
    ∀ b ∈ s.boots.head?,
      Boot.Continues ⟨(loadSeen sight coordinator trustDigest s.dir).toOption.join, l.head⟩ b := by
  intro b hb
  obtain ⟨previous, hload, _, hcoordinator, htrust, hepoch, hboot⟩ := openSeen_ok h
  obtain ⟨counters, hread, rfl⟩ := loadSeen_ok (hi.stored b hb) hsees hload
  obtain ⟨hcoordinator', htrust', rfl⟩ := readHead_encode_ok hread
  obtain ⟨hroomEpoch, hroomBoot⟩ := hroom b hb
  rw [hload]
  exact
    { read := rfl
      coordinator := hcoordinator.trans hcoordinator'.symm
      trustDigest := htrust.trans htrust'.symm
      epoch := by rw [hepoch]; exact lt_add_one hroomEpoch
      bootCount := by rw [hboot]; exact lt_add_one hroomBoot }

/-- Every step with room that does not miss the boot record keeps the invariant. -/
theorem Inv.step {a : Attempt} (hi : s.Inv) (hroom : s.Room) (hsees : s.Sees a) : (s.step a).Inv := by
  cases a with
  | boot sight io coordinator trustDigest incarnation =>
    rw [Boots.step]
    split
    · rename_i f dir h
      exact ⟨hi.continues, fun b hb => (openSeen_error h).trans (hi.stored b hb)⟩
    · rename_i l report dir h
      refine ⟨List.isChain_cons.2 ⟨hi.continues_boot hroom hsees h, hi.continues⟩, fun b hb => ?_⟩
      cases hb
      exact (openSeen_ok h).choose_spec.2.1
  | append io type payload l =>
    exact ⟨hi.continues, fun b hb => (append_head io type payload l s.dir).trans (hi.stored b hb)⟩

def Step (s : Boots) (a : Attempt) (t : Boots) : Prop := s.step a = t

/-- In every run of opens and appends on one directory, each failing or not, in which no open takes a boot record that
exists for an absent one, every boot stands above the earlier ones and read back what the one before it wrote. -/
theorem sees_sound {dir : Directory} {attempts : List Attempt}
    (h : Run Step (fun s a => s.Room ∧ s.Sees a) (start dir) attempts t) : t.Sound := by
  have hi : t.Inv := h.invariant Inv (fun s a t hi hg hs => by subst hs; exact hi.step hg.1 hg.2) (inv_start dir)
  exact hi.sound

/-- An open under a sight, with a system that makes every step succeed. -/
def opens (sight : Sight) : Attempt := .boot sight .succeeds .zero .zero .zero

set_option maxRecDepth 100000 in
/-- A first open, and a second one that reads the boot record. -/
theorem sees_sound_twice :
    (((start (.fresh [])).step (opens {})).step (opens {})).boots.map (fun b => b.head.epoch) = [2, 1] ∧
      (((start (.fresh [])).step (opens {})).step (opens {})).Sound := by
  refine ⟨by decide +kernel, sees_sound (.cons ⟨?_, ?_⟩ rfl (.cons ⟨?_, ?_⟩ rfl (.nil _)))⟩
  · exact fun _ h => by cases h
  · exact fun h => by cases h.1
  · exact fun _ h => by cases h; decide +kernel
  · exact fun h => by cases h.1

/-- A boot record that cannot be opened while there is no journal file: the second boot has the epoch of the first. -/
theorem missed_spec :
    (((start (.fresh [])).step (opens {})).step (opens { head := false })).boots.map (fun b => b.head.epoch) =
      [1, 1] := by
  decide +kernel

theorem epoch_repeated : ¬ ∀ (dir : Directory) (attempts : List Attempt) (t : Boots),
    Run Step (fun s _ => s.Room) (start dir) attempts t → t.Sound := by
  intro h
  have habove := (h (.fresh []) [opens {}, opens { head := false }] _
    (.cons (fun _ h => by cases h) rfl (.cons (fun _ h => by cases h; decide +kernel) rfl (.nil _)))).above
  have hgrow : ((((start (.fresh [])).step (opens {})).step (opens { head := false })).boots.map
      fun b => b.head.epoch).Pairwise fun newer older => older < newer := habove.map _ fun _ _ h => h.1
  rw [missed_spec, List.pairwise_pair] at hgrow
  exact absurd hgrow (by decide)

end Boots

end Ledger

end Wnc
