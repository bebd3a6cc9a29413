/-
What an open does, said once: it fails in its checks and leaves the directory, or goes on behind the boot record, where
a failure leaves at most the repair and a success is told step by step.
-/
import Wnc.Ledger.Store

namespace Wnc

namespace Ledger

variable {io : OpenIo} {coordinator : CoordinatorId} {trustDigest : Digest} {incarnation : Incarnation}
  {previous : Option (UInt64 × UInt64)} {dir dir' : Directory}

theorem repairTornTail_head (io : OpenIo) (scan : RecoveryReport) (dir : Directory) :
    (repairTornTail io scan dir).2.head = dir.head := by
  unfold repairTornTail
  simp only
  split <;> rfl

/-- A failure behind the boot record leaves the directory, or leaves it as the repair did. -/
theorem openFrom_error {f : Failure} (h : openFrom io coordinator trustDigest incarnation previous dir = (.error f, dir')) :
    dir' = dir ∨ ∃ scan, dir' = (repairTornTail io scan dir).2 := by
  unfold openFrom at h
  simp only at h
  split at h
  · cases h; exact .inl rfl
  · rename_i records scan _
    have hrepaired : ∀ {r : Except Failure Unit} {repaired : Directory},
        (if scan.truncatedBytes > 0 then repairTornTail io scan dir else (.ok (), dir)) = (r, repaired) →
          repaired = dir ∨ ∃ scan, repaired = (repairTornTail io scan dir).2 := by
      intro r repaired hrepair
      split at hrepair
      · exact .inr ⟨scan, by rw [hrepair]⟩
      · cases hrepair
        exact .inl rfl
    split at h
    · rename_i hrepair
      cases h
      exact hrepaired hrepair
    · rename_i hrepair
      split at h
      · cases h
        exact hrepaired hrepair
      · unfold writeHead at h
        split at h
        · rename_i hwrite
          split at hwrite
          · cases hwrite
            cases h
            exact hrepaired hrepair
          · cases hwrite
        · cases h

/-- What a success behind the boot record found, step by step, and the handle, the report and the directory it came to. -/
theorem openFrom_ok {l : Handle} {report : RecoveryReport}
    (h : openFrom io coordinator trustDigest incarnation previous dir = (.ok (l, report), dir')) :
    ∃ records scan repaired layout, readAll dir = .ok (records, scan) ∧
      (if scan.truncatedBytes > 0 then repairTornTail io scan dir else (.ok (), dir)) = (.ok (), repaired) ∧
      discoverSegments repaired.journal.entries {} = .ok layout ∧
      report = { scan with recovered := scan.recovered || previous.isNone } ∧
      dir' = { repaired with head := some l.head.encode } ∧
      l = { head :=
              { formatVersion := headVersion
                coordinator := coordinator
                trustDigest := trustDigest
                epoch := (previous.getD (0, 0)).1 + 1
                incarnation := incarnation
                lastSequence := scan.lastValidSequence
                bootCount := (previous.getD (0, 0)).2 + 1 }
            chain := (records.getLast?.map Record.chain).getD .zero
            segment := layout.segment
            segmentBytes := ((repaired.journal.find? (segmentName layout.segment)).map List.length).getD 0
            segmentCount := layout.segmentCount
            retainedBytes := layout.retainedBytes
            isOpen := true } := by
  unfold openFrom at h
  simp only at h
  split at h
  · cases h
  · rename_i records scan hread
    split at h
    · cases h
    · rename_i repaired hrepair
      split at h
      · cases h
      · rename_i layout hdiscover
        unfold writeHead State.writeFileAtomic at h
        cases hreplace : io.headReplacement with
        | some f => rw [hreplace] at h; cases h
        | none =>
          rw [hreplace] at h
          cases h
          exact ⟨records, scan, repaired, layout, hread, hrepair, hdiscover, rfl, rfl, rfl⟩

/-- An open fails in its checks and leaves the directory, or goes on behind the boot record. -/
theorem openLedger_cases (io : OpenIo) (coordinator : CoordinatorId) (trustDigest : Digest) (incarnation : Incarnation)
    (dir : Directory) :
    (∃ f, openLedger io coordinator trustDigest incarnation dir = (.error f, dir)) ∨
      ∃ previous, io.ensuresDirectory = true ∧ io.pathsWithin = true ∧
        loadHead coordinator trustDigest dir = .ok previous ∧
        openLedger io coordinator trustDigest incarnation dir =
          openFrom io coordinator trustDigest incarnation previous dir := by
  unfold openLedger
  cases io.ensuresDirectory with
  | false => exact .inl ⟨_, rfl⟩
  | true =>
    cases io.pathsWithin with
    | false => exact .inl ⟨_, rfl⟩
    | true =>
      cases loadHead coordinator trustDigest dir with
      | error f => exact .inl ⟨f, rfl⟩
      | ok previous => exact .inr ⟨previous, rfl, rfl, rfl, rfl⟩

/-- A successful open read the boot record and went on behind it. -/
theorem openLedger_openFrom {l : Handle} {report : RecoveryReport}
    (h : openLedger io coordinator trustDigest incarnation dir = (.ok (l, report), dir')) :
    ∃ previous, loadHead coordinator trustDigest dir = .ok previous ∧
      openFrom io coordinator trustDigest incarnation previous dir = (.ok (l, report), dir') := by
  rcases openLedger_cases io coordinator trustDigest incarnation dir with
    ⟨f, hf⟩ | ⟨previous, -, -, hload, heq⟩
  · rw [hf] at h
    cases h
  · exact ⟨previous, hload, heq ▸ h⟩

/-- An open that passes its checks goes on behind the boot record. -/
theorem openLedger_loaded_eq (hensures : io.ensuresDirectory = true) (hwithin : io.pathsWithin = true)
    (hload : loadHead coordinator trustDigest dir = .ok previous) :
    openLedger io coordinator trustDigest incarnation dir =
      openFrom io coordinator trustDigest incarnation previous dir := by
  unfold openLedger
  simp only [hensures, hwithin, hload, Bool.not_true, Bool.false_eq_true, if_false]

end Ledger

end Wnc
