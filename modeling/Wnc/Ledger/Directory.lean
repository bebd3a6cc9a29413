/-
The files of a state directory and the durable file primitives over them. A primitive that the
operating system can make fail takes what the system does as an argument.
-/
import Wnc.Core.Error
import Wnc.Lib.SortedMap

namespace Wnc

open Lib

/-- The files the ledger keeps in its state directory: the boot record, the snapshot, and the files
whose names start with `journal-`, by name. -/
structure Directory where
  path : Bytes
  head : Option Bytes
  snapshot : Option Bytes
  journal : SortedMap Bytes Bytes

namespace Directory

/-- A directory that holds none of the ledger's files. -/
def fresh (path : Bytes) : Directory := ⟨path, none, none, .empty⟩

def filePath (dir : Directory) (name : Bytes) : Bytes := dir.path ++ utf8 "/" ++ name

/-- The bytes in all the journal files. -/
def journalBytes (dir : Directory) : Nat := (dir.journal.entries.map fun e => e.2.length).sum

end Directory

/-! ## File primitives -/

namespace State

/-- Reads a whole file. An absent file is unavailable; one larger than the bound is refused. -/
def readFile (path : Bytes) (content : Option Bytes) (maxBytes : Nat) : Except Failure Bytes :=
  match content with
  | none => .error ⟨.stateUnavailable, utf8 "cannot size " ++ path ++ utf8 ": No such file or directory (2)"⟩
  | some bytes =>
    if bytes.length > maxBytes then .error ⟨.ledgerOversized, path ++ utf8 " exceeds the byte bound"⟩
    else .ok bytes

/-- What the operating system does with an append: whether it opens the file, how many bytes the
writes take before one fails (`none`: all of them), and whether the flush succeeds. -/
structure AppendIo where
  opens : Bool := true
  accepts : Option Nat := none
  flushes : Bool := true

/-- No failure. -/
def AppendIo.succeeds : AppendIo := {}

/-- The bytes of an append that reach the file. -/
def AppendIo.persisted (io : AppendIo) (bytes : Bytes) : Bytes :=
  if io.opens then bytes.take (io.accepts.getD bytes.length) else []

/-- Appends bytes and flushes them, creating the file when absent. The result is the file's content
afterwards (`none` while it does not exist) and the failure, if any. -/
def appendFileFlushed (io : AppendIo) (path : Bytes) (content : Option Bytes) (bytes : Bytes) :
    Option Bytes × Option Failure :=
  if !io.opens then
    (content, some ⟨.stateUnavailable, utf8 "cannot open " ++ path ++ utf8 " for append"⟩)
  else
    let written := bytes.take (io.accepts.getD bytes.length)
    let content := some (content.getD [] ++ written)
    if written.length < bytes.length then (content, some ⟨.ioFailed, utf8 "append failed for " ++ path⟩)
    else if !io.flushes then (content, some ⟨.atomicReplaceFailed, utf8 "fsync failed"⟩)
    else (content, none)

theorem appendFileFlushed_content (io : AppendIo) (path : Bytes) (content : Option Bytes) (bytes : Bytes) :
    (appendFileFlushed io path content bytes).1 =
      if io.opens then some (content.getD [] ++ bytes.take (io.accepts.getD bytes.length)) else content := by
  unfold appendFileFlushed
  cases io.opens with
  | false => rfl
  | true =>
    simp only [Bool.not_true, Bool.false_eq_true, if_false, if_true]
    split
    · rfl
    · split <;> rfl

theorem appendFileFlushed_succeeds (path : Bytes) (content : Option Bytes) (bytes : Bytes) :
    appendFileFlushed .succeeds path content bytes = (some (content.getD [] ++ bytes), none) := by
  simp [appendFileFlushed, AppendIo.succeeds]

/-- Writes a whole file through a temporary file and one replace, which happens wholly or not at all. -/
def writeFileAtomic (failure : Option Failure) (bytes : Bytes) : Except Failure Bytes :=
  match failure with
  | some f => .error f
  | none => .ok bytes

end State

end Wnc
