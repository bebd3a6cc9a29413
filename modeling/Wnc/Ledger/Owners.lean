/-
Two coordinator processes on one state directory. An open does not take the directory lock, so it looks at the files
only: it succeeds while the other process still has the directory open, and then each process appends behind its own
counters. Where every open is made while the other process holds no handle, the directory has one owner at a time and
the journal holds exactly the records acknowledged to either process.
-/
import Wnc.Ledger.FailedAppend

namespace Wnc

open Lib

namespace State

/-- The system takes all the bytes of an append and flushes them, or takes none of them. -/
def AppendIo.Whole (io : AppendIo) : Prop :=
  io.opens = false ∨ io.accepts = some 0 ∨ (io.accepts = none ∧ io.flushes = true)

instance (io : AppendIo) : Decidable io.Whole := by unfold AppendIo.Whole; infer_instance

/-- An append that reports no failure left all its bytes. -/
theorem appendFileFlushed_ok {io : AppendIo} {path : Bytes} {content : Option Bytes} {bytes : Bytes}
    (h : (appendFileFlushed io path content bytes).2 = none) :
    appendFileFlushed io path content bytes = appendFileFlushed .succeeds path content bytes := by
  rw [appendFileFlushed_succeeds]
  unfold appendFileFlushed at h ⊢
  split at h
  · cases h
  · rename_i hopens
    rw [if_neg hopens]
    simp only at h ⊢
    split at h
    · cases h
    · rename_i hwhole
      rw [if_neg hwhole]
      split at h
      · cases h
      · rename_i hflushes
        rw [if_neg hflushes]
        rw [List.length_take] at hwhole
        rw [List.take_of_length_le (by omega)]

end State

namespace Ledger

/-! ## Steps under any system -/

/-- An open of a journal written by appends is refused and leaves the directory, or yields a handle that stands at the
end when the journal holds no record. -/
theorem openLedger_holds_cases {dir : Directory} {parts : List (List Entry)}
    (hd : Holds dir parts) (hp : parts.length ≤ 257) (io : OpenIo)
    (coordinator : CoordinatorId) (trustDigest : Digest) (incarnation : Incarnation) :
    (∃ f, openLedger io coordinator trustDigest incarnation dir = (.error f, dir)) ∨
      ∃ h report head, openLedger io coordinator trustDigest incarnation dir =
          (.ok (h, report), { dir with head := some head }) ∧
        (report.validRecords = 0 → Stands h { dir with head := some head } parts) := by
  rcases openLedger_cases io coordinator trustDigest incarnation dir with hfailed | ⟨previous, -, -, -, heq⟩
  · exact .inl hfailed
  · rw [heq]
    cases hreplace : io.headReplacement with
    | some f =>
      -- the boot record is the last thing an open writes
      have hscan := hd.readFrames
      unfold openFrom
      simp only [hreplace, hd.readAll, hscan.complete, writeHead, State.writeFileAtomic, if_false, Nat.lt_irrefl, gt_iff_lt]
      refine .inl ?_
      split
      · exact ⟨_, rfl⟩
      · exact ⟨f, rfl⟩
    | none =>
      obtain ⟨h, report, hopen, _, _, hlast, hchain, hsegment, hcount, hbytes, hisOpen, hvalid⟩ :=
        openFrom_holds hd hp hreplace coordinator trustDigest previous incarnation
      refine .inr ⟨h, report, _, hopen, fun hfound => ?_⟩
      rw [hvalid, List.length_eq_zero_iff] at hfound
      refine ⟨hisOpen, hlast, ?_, ?_, hbytes, by omega, by omega⟩
      · rw [hchain, hfound]; rfl
      · rw [hsegment]; omega

/-- An append that succeeds is one that no file operation failed in. -/
theorem append_ok {io : State.AppendIo} {type : RecordType} {payload : Bytes} {l l' : Handle} {dir dir' : Directory}
    {sequence : UInt64} (h : Ledger.append io type payload l dir = (.ok sequence, l', dir')) :
    Ledger.append .succeeds type payload l dir = (.ok sequence, l', dir') := by
  unfold Ledger.append at h ⊢
  split at h
  · cases h
  · simp only at h ⊢
    split at h
    · cases h
    · rename_i hfailure
      rw [← State.appendFileFlushed_ok hfailure, hfailure]
      exact h

/-- An append that the system takes wholly or not at all keeps the journal and the handle's place in it. -/
theorem Stands.append_whole {io : State.AppendIo} {e : Entry} {l l' : Handle} {dir dir' : Directory}
    {parts : List (List Entry)} {r : Except Failure UInt64} (hl : Stands l dir parts) (hd : Holds dir parts) (hlen : parts.length ≤ 257)
    (hio : io.Whole) (h : Ledger.append io e.type e.payload l dir = (r, l', dir')) :
    ∃ parts', parts'.flatten = parts.flatten ++ (if r.isOk then [e] else []) ∧ parts'.length ≤ 257 ∧
      Holds dir' parts' ∧ Stands l' dir' parts' := by
  cases r with
  | ok sequence =>
    obtain ⟨parts', hflat, hlen', hd', hl', _, _⟩ := hl.append hd (append_ok h)
    exact ⟨parts', hflat, hlen', hd', hl'⟩
  | error f =>
    have hunwritten : writtenBytes io e.payload l = 0 := by
      rcases append_error_cases h with ⟨hw, _, _⟩ | ⟨hprep, hopens, _⟩
      · exact hw
      · rcases hio with hclosed | hnone | ⟨hall, hflushes⟩
        · rw [hclosed] at hopens
          cases hopens
        · unfold writtenBytes
          rw [hprep]
          simp only [hopens, if_true, hnone, Option.getD_some, Nat.zero_min]
        · -- the system took the whole frame, so the append did not fail
          rw [Ledger.append, hprep] at h
          simp only [State.appendFileFlushed, hopens, hall, hflushes, Option.getD_none, List.take_length, Bool.not_true,
            Bool.false_eq_true, if_false, Nat.lt_irrefl] at h
          cases h
    obtain ⟨parts', hflat, hlen', hd', hl', _⟩ := hl.append_unwritten hd hlen h hunwritten
    refine ⟨parts', ?_, hlen', hd', hl'⟩
    rw [hflat]
    exact (List.append_nil _).symm

/-! ## The two processes -/

inductive Process
  | first | second
deriving DecidableEq

def Process.other : Process → Process
  | .first => .second
  | .second => .first

theorem Process.other_ne (p : Process) : p.other ≠ p := by cases p <;> exact fun h => by cases h

theorem Process.eq_or_other (p q : Process) : q = p ∨ q = p.other := by cases p <;> cases q <;> simp [Process.other]

/-- A directory with two processes on it: its files, the handle each process holds with the number of records its open
found, and the records acknowledged to either of them, in the order they were acknowledged. -/
structure Shared where
  dir : Directory
  handle : Process → Option Handle
  found : Process → Nat
  acked : List Entry

/-- What a process does with the directory, with what the operating system does. Every open draws a fresh
incarnation. -/
inductive Action
  | open (io : OpenIo) (incarnation : Incarnation)
  | append (io : State.AppendIo) (e : Entry)
  | close

namespace Shared

def start (path : Bytes) : Shared := ⟨.fresh path, fun _ => none, fun _ => 0, []⟩

section Step

variable (coordinator : Process → CoordinatorId) (trustDigest : Process → Digest)

/-- One step of one process. A refused step leaves what the call leaves. -/
def step (s : Shared) : Process × Action → Shared
  | (p, .open io incarnation) =>
    match openLedger io (coordinator p) (trustDigest p) incarnation s.dir with
    | (.error _, dir) => { s with dir := dir }
    | (.ok (h, report), dir) =>
      { s with
        dir := dir
        handle := Function.update s.handle p (some h)
        found := Function.update s.found p report.validRecords }
  | (p, .append io e) =>
    match s.handle p with
    | none => s
    | some h =>
      match append io e.type e.payload h s.dir with
      | (.error _, h, dir) => { s with dir := dir, handle := Function.update s.handle p (some h) }
      | (.ok _, h, dir) =>
        { s with dir := dir, handle := Function.update s.handle p (some h), acked := s.acked ++ [e] }
  | (p, .close) => { s with handle := Function.update s.handle p none }

def Step (s : Shared) (a : Process × Action) (t : Shared) : Prop := t = s.step coordinator trustDigest a

end Step

def AnyStep (_ : Shared) (_ : Process × Action) : Prop := True

/-- An open is made while the other process holds no handle. An append goes through a handle whose open found no record,
and the system takes its whole frame or none of it. -/
def Alone (s : Shared) : Process × Action → Prop
  | (p, .open _ _) => s.handle p.other = none
  | (p, .append io _) => s.handle p = none ∨ (s.found p = 0 ∧ io.Whole)
  | (_, .close) => True

/-- At most one process has the directory open, and the journal is readable and holds exactly the acknowledged records,
each once. -/
structure OneOwner (s : Shared) : Prop where
  exclusive : ∀ p, s.handle p ≠ none → s.handle p.other = none
  journal : ReadsBack s.dir s.acked

/-- The invariant behind `OneOwner`: the journal holds the acknowledged records over its segments, and a handle whose
open found no record stands at the end. -/
structure Inv (s : Shared) (parts : List (List Entry)) : Prop where
  acked : parts.flatten = s.acked
  holds : Holds s.dir parts
  count : parts.length ≤ 257
  exclusive : ∀ p, s.handle p ≠ none → s.handle p.other = none
  stands : ∀ p h, s.handle p = some h → s.found p = 0 → Stands h s.dir parts

variable {coordinator : Process → CoordinatorId} {trustDigest : Process → Digest} {s t : Shared}
  {parts : List (List Entry)}

theorem inv_start (path : Bytes) : (start path).Inv [] where
  acked := rfl
  holds := .fresh path
  count := Nat.zero_le _
  exclusive := fun _ h => absurd rfl h
  stands := fun _ _ h => by cases h

theorem Inv.oneOwner (hi : s.Inv parts) : s.OneOwner :=
  ⟨hi.exclusive, hi.acked ▸ hi.holds.readsBack⟩

/-! ## What a step does -/

section Update

variable {handle : Process → Option Handle} {p : Process} {h : Handle}

/-- A process that gets a handle while the other one has none is the only one with a handle. -/
theorem eq_of_update (hother : handle p.other = none) {q : Process} {h' : Handle}
    (hq : Function.update handle p (some h) q = some h') : q = p ∧ h' = h := by
  rcases p.eq_or_other q with rfl | rfl
  · rw [Function.update_self] at hq
    cases hq
    exact ⟨rfl, rfl⟩
  · rw [Function.update_of_ne p.other_ne, hother] at hq
    cases hq

theorem exclusive_update (hother : handle p.other = none) (q : Process)
    (hq : Function.update handle p (some h) q ≠ none) : Function.update handle p (some h) q.other = none := by
  obtain ⟨h', hh'⟩ := Option.ne_none_iff_exists'.1 hq
  obtain ⟨rfl, _⟩ := eq_of_update hother hh'
  rw [Function.update_of_ne q.other_ne, hother]

theorem stands_update (hother : handle p.other = none) {found : Process → Nat} {dir : Directory}
    (hstands : found p = 0 → Stands h dir parts) (q : Process) (h' : Handle)
    (hq : Function.update handle p (some h) q = some h') (hfound : found q = 0) : Stands h' dir parts := by
  obtain ⟨rfl, rfl⟩ := eq_of_update hother hq
  exact hstands hfound

end Update

/-- Every step under the guard keeps the invariant. -/
theorem Inv.step {a : Process × Action} (hi : s.Inv parts) (hg : s.Alone a)
    (hs : Step coordinator trustDigest s a t) : ∃ parts', t.Inv parts' := by
  obtain ⟨p, action⟩ := a
  rw [Step] at hs
  subst hs
  cases action with
  | «open» io incarnation =>
    rw [Shared.step]
    rcases openLedger_holds_cases hi.holds hi.count io (coordinator p) (trustDigest p) incarnation with
      ⟨f, hopen⟩ | ⟨h, report, head, hopen, hstands⟩
    · rw [hopen]
      exact ⟨parts, hi.acked, hi.holds, hi.count, hi.exclusive, hi.stands⟩
    · simp only [hopen]
      exact ⟨parts, hi.acked, Session.holds_setHead hi.holds _, hi.count, exclusive_update hg,
        stands_update hg (by simpa using hstands)⟩
  | append io e =>
    rw [Shared.step]
    cases hh : s.handle p with
    | none => exact ⟨parts, hi⟩
    | some h =>
      have hother := hi.exclusive p (by rw [hh]; exact Option.some_ne_none _)
      obtain ⟨hfound, hio⟩ := hg.resolve_left (by rw [hh]; exact Option.some_ne_none _)
      simp only
      split
      · rename_i f h' dir' happend
        obtain ⟨parts', hflat, hlen, hholds, hstands⟩ :=
          (hi.stands p h hh hfound).append_whole hi.holds hi.count hio happend
        refine ⟨parts', ?_, hholds, hlen, exclusive_update hother, stands_update hother fun _ => hstands⟩
        rw [hflat, ← hi.acked]
        exact List.append_nil _
      · rename_i sequence h' dir' happend
        obtain ⟨parts', hflat, hlen, hholds, hstands⟩ :=
          (hi.stands p h hh hfound).append_whole hi.holds hi.count hio happend
        refine ⟨parts', ?_, hholds, hlen, exclusive_update hother, stands_update hother fun _ => hstands⟩
        rw [hflat, hi.acked]
        rfl
  | close =>
    rw [Shared.step]
    have hstill : ∀ q h, Function.update s.handle p none q = some h → s.handle q = some h := by
      intro q h hq
      rcases p.eq_or_other q with rfl | rfl
      · rw [Function.update_self] at hq
        cases hq
      · rwa [Function.update_of_ne p.other_ne] at hq
    refine ⟨parts, hi.acked, hi.holds, hi.count, fun q hq => ?_, fun q h hq => hi.stands q h (hstill q h hq)⟩
    obtain ⟨h, hh⟩ := Option.ne_none_iff_exists'.1 hq
    have hother := hi.exclusive q (by rw [hstill q h hh]; exact Option.some_ne_none _)
    by_contra hne
    obtain ⟨h', hh'⟩ := Option.ne_none_iff_exists'.1 hne
    rw [hstill _ h' hh'] at hother
    cases hother

/-- In every run in which a process opens the directory only while the other one holds no handle, and appends only
through a handle whose open found no record with a system that takes its whole frame or none of it, the directory has
one owner and the journal holds exactly what was acknowledged. -/
theorem alone_oneOwner {path : Bytes} {actions : List (Process × Action)}
    (h : Run (Step coordinator trustDigest) Alone (start path) actions t) : t.OneOwner := by
  obtain ⟨parts, hi⟩ := h.invariant (fun s => ∃ parts, s.Inv parts) (fun _ _ _ ⟨_, hi⟩ hg hs => hi.step hg hs)
    ⟨[], inv_start path⟩
  exact hi.oneOwner

def opens (p : Process) : Process × Action := (p, .open .succeeds .zero)

def appends (p : Process) : Process × Action := (p, .append .succeeds ⟨.genesis, utf8 "{}"⟩)

/-- The state some steps lead to. -/
def after (actions : List (Process × Action)) : Shared :=
  actions.foldl (step (fun _ => .zero) (fun _ => .zero)) (start [])

theorem run_after (actions : List (Process × Action)) :
    Run (Step (fun _ => .zero) fun _ => .zero) AnyStep (start []) actions (after actions) := by
  unfold after
  generalize start [] = s
  induction actions generalizing s with
  | nil => exact .nil _
  | cons a actions ih => exact .cons trivial rfl (ih _)

set_option maxRecDepth 100000 in
/-- The second process takes over what the first one has closed. -/
theorem alone_oneOwner_handover : ∃ t, Run (Step (fun _ => .zero) fun _ => .zero) Alone (start [])
    [opens .first, appends .first, (.first, .close), opens .second] t ∧ t.OneOwner := by
  have hrun : Run (Step (fun _ => .zero) fun _ => .zero) Alone (start [])
      [opens .first, appends .first, (.first, .close), opens .second]
      (after [opens .first, appends .first, (.first, .close), opens .second]) :=
    .cons rfl rfl (.cons (.inr ⟨by decide +kernel, by decide⟩) rfl (.cons trivial rfl (.cons rfl rfl (.nil _))))
  exact ⟨_, hrun, alone_oneOwner hrun⟩

set_option maxRecDepth 100000 in
/-- Two processes that both open a fresh directory both get a handle, and once each has appended a record through it the
journal is unreadable. -/
theorem bothOpen_spec :
    ((after [opens .first, opens .second]).handle .first).isSome = true ∧
      ((after [opens .first, opens .second]).handle .second).isSome = true ∧
      (readAll (after [opens .first, opens .second, appends .first, appends .second]).dir).toBool = false := by
  decide +kernel

theorem twoOwners : ¬ ∀ (coordinator : Process → CoordinatorId) (trustDigest : Process → Digest) (path : Bytes)
    (actions : List (Process × Action)) (t : Shared), Run (Step coordinator trustDigest) AnyStep (start path) actions t →
    t.OneOwner := by
  intro h
  obtain ⟨hfirst, hsecond, _⟩ := bothOpen_spec
  have hnone := (h _ _ _ _ _ (run_after [opens .first, opens .second])).exclusive .first
    (by intro hnone; rw [hnone] at hfirst; cases hfirst)
  rw [Process.other] at hnone
  rw [hnone] at hsecond
  cases hsecond

end Shared

end Ledger

end Wnc
