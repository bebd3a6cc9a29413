/-
One ledger directory over any number of boots: opens, successful appends and closes in any order, and
the records acknowledged so far. While every append goes through a handle whose open found no record,
the journal holds exactly the acknowledged records and every open succeeds. An append through a handle
that found records links to the wrong record: open sets the handle's chain value to the link of the last
record, not to its chain value.
-/
import Wnc.Ledger.Handle
import Wnc.Lib.Run

namespace Wnc

open Lib

namespace Ledger

/-- A directory in use: its files, the open handle with the number of records its open found, and the
records acknowledged over all boots. -/
structure Session where
  dir : Directory
  handle : Option Handle
  found : Nat
  acked : List Entry

/-- What is done with the directory. Every open draws a fresh incarnation. -/
inductive Operation
  | open (incarnation : Incarnation)
  | append (e : Entry)
  | close

namespace Session

/-- A directory nothing was written to yet. -/
def start (path : Bytes) : Session := ⟨.fresh path, none, 0, []⟩

variable (coordinator : CoordinatorId) (trustDigest : Digest)

/-- One operation, every file operation succeeding; `none` where it is refused. -/
def step (s : Session) : Operation → Option Session
  | .open incarnation =>
    match openLedger .succeeds coordinator trustDigest incarnation s.dir with
    | (.error _, _) => none
    | (.ok (h, report), dir) => some { s with dir := dir, handle := some h, found := report.validRecords }
  | .append e =>
    match s.handle with
    | none => none
    | some h =>
      match append .succeeds e.type e.payload h s.dir with
      | (.error _, _, _) => none
      | (.ok _, h, dir) => some { s with dir := dir, handle := some h, acked := s.acked ++ [e] }
  | .close => some { s with handle := none }

/-- The steps of a session. -/
def Step (s : Session) (op : Operation) (t : Session) : Prop := s.step coordinator trustDigest op = some t

/-- Any step at all. -/
def AnyStep (_ : Session) (_ : Operation) : Prop := True

/-- An append is made through a handle whose open found no record in the journal. -/
def FirstBoot (s : Session) : Operation → Prop
  | .append _ => s.found = 0
  | _ => True

instance (s : Session) (op : Operation) : Decidable (s.FirstBoot op) := by
  cases op <;> unfold FirstBoot <;> infer_instance

instance (s : Session) (op : Operation) : Decidable (s.AnyStep op) := inferInstanceAs (Decidable True)

/-- Every read returns exactly the acknowledged records, and so does every open and a read after it. -/
def Recovers (s : Session) : Prop :=
  ReadsBack s.dir s.acked ∧
    ∀ incarnation, ∃ h report dir, openLedger .succeeds coordinator trustDigest incarnation s.dir =
      (.ok (h, report), dir) ∧ report.validRecords = s.acked.length ∧ ReadsBack dir s.acked

/-- The invariant of sessions: the journal holds the acknowledged records over its segments, the boot
record is this coordinator's, and a handle whose open found no record stands at the end. -/
structure Inv (s : Session) (parts : List (List Entry)) : Prop where
  acked : parts.flatten = s.acked
  holds : Holds s.dir parts
  count : parts.length ≤ 257
  head : HeadOk coordinator trustDigest s.dir
  booted : ∀ h, s.handle = some h → s.dir.head ≠ none
  handle : ∀ h, s.handle = some h → s.found = 0 → Stands h s.dir parts

variable {coordinator trustDigest} {s t : Session} {parts : List (List Entry)}

theorem inv_start (path : Bytes) : (start path).Inv coordinator trustDigest [] where
  acked := rfl
  holds := .fresh path
  count := Nat.zero_le _
  head := .inl ⟨rfl, rfl⟩
  booted := fun _ h => by cases h
  handle := fun _ h => by cases h

theorem holds_setHead {dir : Directory} (h : Holds dir parts) (head : Option Bytes) :
    Holds { dir with head := head } parts := ⟨h.entries, h.bounded, h.sizes⟩

/-- Opening a session that satisfies the invariant succeeds, and the invariant holds afterwards. -/
theorem Inv.open (hi : s.Inv coordinator trustDigest parts) (incarnation : Incarnation) :
    ∃ h report dir, openLedger .succeeds coordinator trustDigest incarnation s.dir = (.ok (h, report), dir) ∧
      report.validRecords = s.acked.length ∧
      Inv coordinator trustDigest { s with dir := dir, handle := some h, found := report.validRecords } parts := by
  obtain ⟨h, report, hopen, hc, ht, hlast, hchain, hsegment, hcount, hbytes, hisOpen, hvalid⟩ :=
    openLedger_holds hi.holds hi.count hi.head incarnation
  refine ⟨h, report, _, hopen, by rw [hvalid, hi.acked], hi.acked, holds_setHead hi.holds _, hi.count,
    .inr ⟨h.head, rfl, hc, ht⟩, fun _ _ => Option.some_ne_none _, fun h' hh hfound => ?_⟩
  cases hh
  simp only [hvalid, List.length_eq_zero_iff] at hfound
  have hcounted := hi.count
  refine ⟨hisOpen, hlast, ?_, ?_, hbytes, by omega, by omega⟩
  · rw [hchain, hfound]; rfl
  · rw [hsegment]; omega

/-- Every step keeps the invariant, appends under the guard. -/
theorem Inv.step {op : Operation} (hi : s.Inv coordinator trustDigest parts) (hg : s.FirstBoot op)
    (hs : s.Step coordinator trustDigest op t) : ∃ parts', t.Inv coordinator trustDigest parts' := by
  unfold Step at hs
  cases op with
  | «open» incarnation =>
    obtain ⟨h, report, dir, hopen, _, hinv⟩ := hi.open incarnation
    rw [Session.step, hopen] at hs
    cases hs
    exact ⟨parts, hinv⟩
  | append e =>
    rw [Session.step] at hs
    cases hh : s.handle with
    | none => rw [hh] at hs; cases hs
    | some h =>
      simp only [hh] at hs
      split at hs
      · cases hs
      · rename_i sequence h' dir' happend
        cases hs
        obtain ⟨parts', hflat, hlen, hholds, hstands, hhead, _⟩ := (hi.handle h hh hg).append hi.holds happend
        have hbooted : dir'.head ≠ none := by rw [hhead]; exact hi.booted h hh
        refine ⟨parts', by rw [hflat, hi.acked], hholds, hlen, ?_, fun _ _ => hbooted,
          fun h'' hh' _ => by cases hh'; exact hstands⟩
        rcases hi.head with ⟨hn, _⟩ | hsome
        · exact absurd hn (hi.booted h hh)
        · exact .inr (by simpa only [hhead] using hsome)
  | close =>
    rw [Session.step] at hs
    cases hs
    exact ⟨parts, hi.acked, hi.holds, hi.count, hi.head, (fun _ hh => by cases hh), fun _ hh _ => by cases hh⟩

theorem Inv.recovers (hi : s.Inv coordinator trustDigest parts) : s.Recovers coordinator trustDigest := by
  refine ⟨by rw [← hi.acked]; exact hi.holds.readsBack, fun incarnation => ?_⟩
  obtain ⟨h, report, dir, hopen, hvalid, hinv⟩ := hi.open incarnation
  have hback := hinv.holds.readsBack
  rw [hinv.acked] at hback
  exact ⟨h, report, dir, hopen, hvalid, hback⟩

/-- A run whose appends go through a boot that found no record keeps the invariant. -/
theorem inv_of_firstBoot {path : Bytes} {ops : List Operation}
    (h : Run (Step coordinator trustDigest) FirstBoot (start path) ops t) :
    ∃ parts, t.Inv coordinator trustDigest parts :=
  h.invariant (fun s => ∃ parts, s.Inv coordinator trustDigest parts) (fun _ _ _ ⟨_, hi⟩ hg hs => hi.step hg hs)
    ⟨[], inv_start path⟩

/-- While every append goes through a handle whose open found no record, every read and every open
returns exactly the acknowledged records, in order, over all boots and segments. -/
theorem firstBoot_recovers {path : Bytes} {ops : List Operation}
    (h : Run (Step coordinator trustDigest) FirstBoot (start path) ops t) : t.Recovers coordinator trustDigest := by
  obtain ⟨_, hi⟩ := inv_of_firstBoot h
  exact hi.recovers

/-! ## An append after reopening -/

/-- A history of two records, one of them appended after reopening. -/
def reopenedAppend : List Operation :=
  [.open .zero, .append ⟨.genesis, utf8 "{}"⟩, .close, .open .zero, .append ⟨.genesis, utf8 "{}"⟩]

/-- The same with nothing appended after reopening. -/
def reopened : List Operation := reopenedAppend.take 4

set_option maxRecDepth 100000 in
theorem firstBoot_recovers_reopened : ∃ t, Run (Step .zero .zero) FirstBoot (start []) reopened t ∧
    t.Recovers .zero .zero := by
  obtain ⟨t, ht⟩ := Option.isSome_iff_exists.1
    (show (exec (step .zero .zero) FirstBoot (start []) reopened).isSome = true by decide +kernel)
  exact ⟨t, run_of_exec _ _ ht, firstBoot_recovers (run_of_exec _ _ ht)⟩

set_option maxRecDepth 100000 in
/-- Appending after reopening a journal with one record leaves a journal that no read accepts. -/
theorem reopenedAppend_unreadable : ¬ ∀ (coordinator : CoordinatorId) (trustDigest : Digest) (path : Bytes)
    (ops : List Operation) (t : Session), Run (Step coordinator trustDigest) AnyStep (start path) ops t →
    t.Recovers coordinator trustDigest := by
  intro h
  have hfail : (exec (step .zero .zero) AnyStep (start []) reopenedAppend).map
      (fun s => (readAll s.dir).toBool) = some false := by decide +kernel
  obtain ⟨t, ht, hread⟩ := Option.map_eq_some_iff.1 hfail
  obtain ⟨records, report, hok, _⟩ := (h _ _ _ _ t (run_of_exec _ _ ht)).1
  rw [hok] at hread
  cases hread

end Session

end Ledger

end Wnc
