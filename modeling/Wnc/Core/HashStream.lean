/-
The hasher is fed in pieces: its digest depends on the bytes alone, and the bytes of length prefixed parts tell the
parts apart.
-/
import Wnc.Core.Hash
import Wnc.Lib.Blocks
import Mathlib.Data.List.Nodup

namespace Wnc

open Lib

namespace Sha256

/-! ## Pieces -/

theorem compressBlocks_eq (n : Nat) (s : Sha256State) (bytes : Bytes) :
    compressBlocks n s bytes = (absorbBlocks Sha256State.compress blockBytes n s bytes, bytes.drop (blockBytes * n)) := by
  induction n generalizing s bytes with
  | zero => rfl
  | succ n ih => rw [compressBlocks, ih, List.drop_drop, Nat.mul_succ, Nat.add_comm 64]; rfl

/-- An update absorbs the bytes and counts them. -/
theorem update_eq {h : Sha256} (hopen : h.finished = false) (bytes : Bytes) : h.update bytes =
    { state := (absorb Sha256State.compress blockBytes (h.state, h.buffer) bytes).1
      buffer := (absorb Sha256State.compress blockBytes (h.state, h.buffer) bytes).2
      totalBytes := (h.totalBytes + bytes.length) % 18446744073709551616
      finished := false } := by
  unfold update fillBuffer absorb
  simp only [hopen, Bool.false_eq_true, if_false, compressBlocks_eq]
  by_cases hempty : h.buffer = []
  · simp only [hempty, if_true]
    split <;> simp [*]
  · simp only [hempty, if_false]
    split <;> split <;> simp [*]

/-- The hasher that was fed a message. -/
def fed (message : Bytes) : Sha256 where
  state := (compressBlocks (message.length / 64) .initial message).1
  buffer := message.drop (64 * (message.length / 64))
  totalBytes := message.length % 18446744073709551616
  finished := false

theorem fed_nil : fed [] = {} := rfl

theorem fed_eq (message : Bytes) : fed message =
    { state := (absorbed Sha256State.compress blockBytes .initial message).1
      buffer := (absorbed Sha256State.compress blockBytes .initial message).2
      totalBytes := message.length % 18446744073709551616
      finished := false } := by
  unfold fed
  rw [compressBlocks_eq]
  rfl

theorem update_fed (message bytes : Bytes) : (fed message).update bytes = fed (message ++ bytes) := by
  have htotal : (message.length % 18446744073709551616 + bytes.length) % 18446744073709551616 =
      (message ++ bytes).length % 18446744073709551616 := by
    rw [List.length_append]
    omega
  rw [update_eq rfl, fed_eq message, fed_eq (message ++ bytes), ← absorb_absorbed _ _ (by decide), htotal]

theorem sha256_eq (message : Bytes) : sha256 message = (fed message).digest := by
  unfold sha256
  rw [← fed_nil, update_fed, List.nil_append]

end Sha256

/-! ## Parts -/

/-- The bytes a part is fed as. -/
def partInput (part : Bytes) : Bytes :=
  if part.length > 0xFFFFFFFF then [0xFF, 0xFF, 0xFF, 0xFF] ++ (sha256 part).bytes else writeBe 4 part.length ++ part

theorem feedParts_fed : ∀ (parts : List Bytes) (message : Bytes),
    feedParts (.fed message) parts = .fed (message ++ parts.flatMap partInput)
  | [], message => by rw [List.flatMap_nil, List.append_nil]; rfl
  | part :: parts, message => by
    unfold feedParts
    rw [Sha256.update_fed, Sha256.update_fed, Sha256.update_fed, Sha256.update_fed, feedParts_fed, feedParts_fed,
      List.flatMap_cons, partInput]
    split <;> simp only [List.append_assoc]

theorem sha256Parts_eq (parts : List Bytes) : sha256Parts parts = sha256 (parts.flatMap partInput) := by
  unfold sha256Parts
  rw [← Sha256.fed_nil, feedParts_fed, List.nil_append, Sha256.sha256_eq]

theorem readBe_writeBe {k n : Nat} (h : n < 256 ^ k) : readBe (writeBe k n) = n := by
  rw [readBe, writeBe, List.reverse_reverse, readLe_writeLe_of_lt h]

/-- The bytes a part is fed as tell it from another, unless both are long and have one digest. -/
theorem partInput_injective_of_long {part part' : Bytes}
    (hfree : part.length > 0xFFFFFFFF → part'.length > 0xFFFFFFFF → sha256 part = sha256 part' → part = part')
    (h : partInput part = partInput part') : part = part' := by
  have hmark : ∀ {part part' : Bytes}, ¬part.length > 0xFFFFFFFF →
      writeBe 4 part.length ++ part ≠ [0xFF, 0xFF, 0xFF, 0xFF] ++ (sha256 part').bytes := by
    intro part part' hshort h
    obtain ⟨hlength, hpart⟩ := List.append_inj h (by rw [length_writeBe]; rfl)
    have hvalue := congrArg readBe hlength
    rw [readBe_writeBe (by omega)] at hvalue
    have hlongest : readBe [255, 255, 255, 255] = 0xFFFFFFFF := by decide
    have hdigest := congrArg List.length hpart
    rw [Digest.length_eq] at hdigest
    omega
  unfold partInput at h
  split at h
  · rename_i hlong
    split at h
    · rename_i hlong'
      exact hfree hlong hlong' (Digest.ext (List.append_cancel_left h))
    · rename_i hshort
      exact absurd h.symm (hmark hshort)
  · rename_i hshort
    split at h
    · exact absurd h (hmark hshort)
    · exact (List.append_inj h (by rw [length_writeBe, length_writeBe])).2

theorem partInput_injective {part part' : Bytes} (hfree : sha256 part = sha256 part' → part = part')
    (h : partInput part = partInput part') : part = part' :=
  partInput_injective_of_long (fun _ _ => hfree) h

/-- The bytes hashed for a payload of a domain. -/
def domainInput (domain payload : Bytes) : Bytes := [utf8 "wnc/v1", domain, payload].flatMap partInput

theorem digestDomain_eq (domain payload : Bytes) : digestDomain domain payload = sha256 (domainInput domain payload) :=
  sha256Parts_eq _

theorem domainInput_injective {domain payload payload' : Bytes} (hfree : sha256 payload = sha256 payload' → payload = payload')
    (h : domainInput domain payload = domainInput domain payload') : payload = payload' := by
  unfold domainInput at h
  simp only [List.flatMap_cons, List.flatMap_nil, List.append_nil] at h
  exact partInput_injective hfree (List.append_cancel_left (List.append_cancel_left h))

/-! ## Collisions -/

namespace Ledger

/-- No two messages of a list have one digest. -/
def CollisionFree (messages : List Bytes) : Prop :=
  ∀ a ∈ messages, ∀ b ∈ messages, sha256 a = sha256 b → a = b

theorem CollisionFree.of_nodup {messages : List Bytes} (h : (messages.map sha256).Nodup) : CollisionFree messages :=
  fun _ ha _ hb => List.inj_on_of_nodup_map h ha hb

theorem collisionFree_singleton (m : Bytes) : CollisionFree [m] := by
  intro a ha b hb _
  rw [List.mem_singleton.1 ha, List.mem_singleton.1 hb]

theorem CollisionFree.subset {messages messages' : List Bytes} (h : CollisionFree messages)
    (hsub : ∀ a ∈ messages', a ∈ messages) : CollisionFree messages' :=
  fun a ha b hb => h a (hsub a ha) b (hsub b hb)

end Ledger

end Wnc
