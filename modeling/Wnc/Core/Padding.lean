/-
The streaming hashers against FIPS 180-4: fed in pieces of any lengths and finished, each one holds the fold of its
compression over the padded message.
-/
import Wnc.Core.Hash512
import Wnc.Core.HashStream

namespace Wnc

open Lib

/-! ## The padded message -/

/-- The number of zero bytes of the padding: the fewest that fill up a block together with the byte of the one bit and
the length. -/
def zeroBytes (block lengthBytes length : Nat) : Nat := (block - (length + 1 + lengthBytes) % block) % block

/-- The message, a one bit, zero bits, and the length of the message in bits. -/
def padded (block lengthBytes : Nat) (m : Bytes) : Bytes :=
  m ++ 128 :: List.replicate (zeroBytes block lengthBytes m.length) 0 ++ writeBe lengthBytes (m.length * 8)

theorem length_padded (block lengthBytes : Nat) (m : Bytes) :
    (padded block lengthBytes m).length = m.length + 1 + zeroBytes block lengthBytes m.length + lengthBytes := by
  simp only [padded, List.length_append, List.length_cons, List.length_replicate, length_writeBe]
  omega

theorem zeroBytes_fills {block : Nat} (hblock : 0 < block) (lengthBytes length : Nat) :
    block ∣ length + 1 + zeroBytes block lengthBytes length + lengthBytes := by
  have hlt := Nat.mod_lt (length + 1 + lengthBytes) hblock
  have hsplit := Nat.mod_add_div (length + 1 + lengthBytes) block
  unfold zeroBytes
  rcases Nat.eq_zero_or_pos ((length + 1 + lengthBytes) % block) with hzero | hpos
  · rw [hzero, Nat.sub_zero, Nat.mod_self]
    exact Nat.dvd_of_mod_eq_zero (by rw [← hzero]; congr 1; omega)
  · rw [Nat.mod_eq_of_lt (by omega)]
    exact ⟨(length + 1 + lengthBytes) / block + 1, by rw [Nat.mul_add, Nat.mul_one]; omega⟩

/-- No fewer zero bytes do. -/
theorem zeroBytes_least {block : Nat} (hblock : 0 < block) {lengthBytes length k : Nat}
    (h : block ∣ length + 1 + k + lengthBytes) : zeroBytes block lengthBytes length ≤ k := by
  have hlt := Nat.mod_lt (length + 1 + lengthBytes) hblock
  unfold zeroBytes
  rcases Nat.eq_zero_or_pos ((length + 1 + lengthBytes) % block) with hzero | hpos
  · rw [hzero, Nat.sub_zero, Nat.mod_self]
    exact Nat.zero_le _
  · rw [Nat.mod_eq_of_lt (by omega)]
    by_contra hfew
    have hmod : (length + 1 + lengthBytes + k) % block = (length + 1 + lengthBytes) % block + k := by
      rw [Nat.add_mod, Nat.mod_eq_of_lt (show k < block by omega), Nat.mod_eq_of_lt (by omega)]
    have hdvd := Nat.mod_eq_zero_of_dvd h
    rw [Nat.add_right_comm (length + 1), hmod] at hdvd
    omega

/-! ## SHA-256 -/

/-- The digest of a message: the compression folded over the blocks of the padded message. -/
def sha256Fold (m : Bytes) : Bytes :=
  ((blocks 64 (padded 64 8 m)).foldl Sha256State.compress .initial).words.flatMap (writeBe 4)

namespace Sha256

theorem foldl_update (chunks : List Bytes) (m : Bytes) : chunks.foldl update (fed m) = fed (m ++ chunks.flatten) := by
  induction chunks generalizing m with
  | nil => rw [List.flatten_nil, List.append_nil]; rfl
  | cons chunk chunks ih =>
    rw [List.foldl_cons, update_fed, ih, List.flatten_cons, List.append_assoc]

/-- Finishing feeds the padding, and the length modulo the size of its field. -/
theorem finish_fed (m : Bytes) : (fed m).finish = { fed (m ++
    128 :: List.replicate (zeroBytes 64 8 m.length) 0 ++ writeBe 8 (m.length % 18446744073709551616 * 8 %
      18446744073709551616)) with finished := true } := by
  have hbuffer : (fed m).buffer.length = m.length % 64 := by
    rw [fed, List.length_drop]
    omega
  have hpad : (if m.length % 64 < 56 then 56 - m.length % 64 else 120 - m.length % 64) - 1 = zeroBytes 64 8 m.length := by
    unfold zeroBytes
    split <;> omega
  unfold finish
  simp only [show (fed m).finished = false from rfl, Bool.false_eq_true, if_false, hbuffer, hpad, update_fed]
  rfl

theorem digest_fed {m : Bytes} (h : m.length < 2 ^ 61) : (fed m).digest.bytes = sha256Fold m := by
  have hlength : m.length % 18446744073709551616 * 8 % 18446744073709551616 = m.length * 8 := by omega
  have hwhole : 64 ∣ (padded 64 8 m).length := by
    rw [length_padded]
    exact zeroBytes_fills (by decide) 8 m.length
  have hfinish : (fed m).finish.state = (blocks 64 (padded 64 8 m)).foldl Sha256State.compress .initial := by
    rw [finish_fed, hlength]
    show (fed (padded 64 8 m)).state = _
    rw [fed_eq]
    exact congrArg Prod.fst (absorbed_whole Sha256State.compress 64 .initial hwhole)
  show (fed m).finish.state.words.flatMap (writeBe 4) = _
  rw [hfinish, sha256Fold]

end Sha256

/-! ## SHA-512 -/

def sha512Fold (m : Bytes) : Bytes :=
  ((blocks 128 (padded 128 16 m)).foldl Sha512State.compress .initial).words.flatMap (writeBe 8)

namespace Sha512

theorem compressBlocks512_eq (n : Nat) (s : Sha512State) (bytes : Bytes) :
    compressBlocks512 n s bytes =
      (absorbBlocks Sha512State.compress blockBytes n s bytes, bytes.drop (blockBytes * n)) := by
  induction n generalizing s bytes with
  | zero => rfl
  | succ n ih => rw [compressBlocks512, ih, List.drop_drop, Nat.mul_succ, Nat.add_comm 128]; rfl

/-- An update absorbs the bytes and counts them. -/
theorem update_eq {h : Sha512} (hopen : h.finished = false) (bytes : Bytes) : h.update bytes =
    { state := (absorb Sha512State.compress blockBytes (h.state, h.buffer) bytes).1
      buffer := (absorb Sha512State.compress blockBytes (h.state, h.buffer) bytes).2
      totalBytes := (h.totalBytes + bytes.length) % 18446744073709551616
      finished := false } := by
  unfold update fillBuffer absorb
  simp only [hopen, Bool.false_eq_true, if_false, compressBlocks512_eq]
  by_cases hempty : h.buffer = []
  · simp only [hempty, if_true]
    split <;> simp [*]
  · simp only [hempty, if_false]
    split <;> split <;> simp [*]

/-- The hasher that was fed a message. -/
def fed (m : Bytes) : Sha512 where
  state := (absorbed Sha512State.compress blockBytes .initial m).1
  buffer := (absorbed Sha512State.compress blockBytes .initial m).2
  totalBytes := m.length % 18446744073709551616
  finished := false

theorem fed_nil : fed [] = {} := rfl

theorem update_fed (m bytes : Bytes) : (fed m).update bytes = fed (m ++ bytes) := by
  have htotal : (m.length % 18446744073709551616 + bytes.length) % 18446744073709551616 =
      (m ++ bytes).length % 18446744073709551616 := by
    rw [List.length_append]
    omega
  rw [update_eq rfl, fed, fed, ← absorb_absorbed _ _ (by decide), htotal]

theorem foldl_update (chunks : List Bytes) (m : Bytes) : chunks.foldl update (fed m) = fed (m ++ chunks.flatten) := by
  induction chunks generalizing m with
  | nil => rw [List.flatten_nil, List.append_nil]; rfl
  | cons chunk chunks ih =>
    rw [List.foldl_cons, update_fed, ih, List.flatten_cons, List.append_assoc]

/-- The upper half of the length field stays zero. -/
theorem finish_fed (m : Bytes) : (fed m).finish = { fed (m ++
    128 :: List.replicate (zeroBytes 128 16 m.length) 0 ++ (List.replicate 8 0 ++ writeBe 8 (m.length %
      18446744073709551616 * 8 % 18446744073709551616))) with finished := true } := by
  have hbuffer : (fed m).buffer.length = m.length % 128 := by
    show (m.drop (128 * (m.length / 128))).length = m.length % 128
    rw [List.length_drop]
    omega
  have hpad : (if m.length % 128 < 112 then 112 - m.length % 128 else 240 - m.length % 128) - 1 =
      zeroBytes 128 16 m.length := by
    unfold zeroBytes
    split <;> omega
  unfold finish
  simp only [show (fed m).finished = false from rfl, Bool.false_eq_true, if_false, hbuffer, hpad, update_fed]
  rfl

theorem digest_fed {m : Bytes} (h : m.length < 2 ^ 61) : (fed m).digest.bytes = sha512Fold m := by
  have hlength : m.length % 18446744073709551616 * 8 % 18446744073709551616 = m.length * 8 := by omega
  have hfield : List.replicate 8 0 ++ writeBe 8 (m.length * 8) = writeBe 16 (m.length * 8) :=
    replicate_append_writeBe 8 (by omega)
  have hwhole : 128 ∣ (padded 128 16 m).length := by
    rw [length_padded]
    exact zeroBytes_fills (by decide) 16 m.length
  have hfinish : (fed m).finish.state = (blocks 128 (padded 128 16 m)).foldl Sha512State.compress .initial := by
    rw [finish_fed, hlength, hfield]
    exact congrArg Prod.fst (absorbed_whole Sha512State.compress 128 .initial hwhole)
  show (fed m).finish.state.words.flatMap (writeBe 8) = _
  rw [hfinish, sha512Fold]

end Sha512

/-! ## Streams -/

/-- Whatever pieces a message of fewer than `2 ^ 61` bytes is fed in, the digest is the fold of the compression over the
padded message, and so depends on the message alone. -/
theorem streaming_eq_fold (chunks : List Bytes) (h : chunks.flatten.length < 2 ^ 61) :
    (chunks.foldl Sha256.update {}).digest.bytes = sha256Fold chunks.flatten ∧
      (chunks.foldl Sha512.update {}).digest.bytes = sha512Fold chunks.flatten ∧
      ∀ others : List Bytes, others.flatten = chunks.flatten →
        (others.foldl Sha256.update {}).digest = (chunks.foldl Sha256.update {}).digest ∧
          (others.foldl Sha512.update {}).digest = (chunks.foldl Sha512.update {}).digest := by
  have hfed : ∀ chunks : List Bytes, chunks.foldl Sha256.update {} = .fed chunks.flatten :=
    fun chunks => Sha256.foldl_update chunks []
  have hfed512 : ∀ chunks : List Bytes, chunks.foldl Sha512.update {} = .fed chunks.flatten :=
    fun chunks => Sha512.foldl_update chunks []
  refine ⟨?_, ?_, fun others hothers => ⟨?_, ?_⟩⟩
  · rw [hfed, Sha256.digest_fed h]
  · rw [hfed512, Sha512.digest_fed h]
  · rw [hfed, hfed, hothers]
  · rw [hfed512, hfed512, hothers]

theorem streaming_eq_fold_abc :
    ([utf8 "a", [], utf8 "bc"].foldl Sha256.update {}).digest = ([utf8 "abc"].foldl Sha256.update {}).digest :=
  ((streaming_eq_fold [utf8 "abc"] (by decide)).2.2 [utf8 "a", [], utf8 "bc"] (by decide)).1

end Wnc
