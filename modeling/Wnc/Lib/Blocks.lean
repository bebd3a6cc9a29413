/-
Messages absorbed block by block: a function of a state and a block is folded over the whole blocks of a message, and
what is left over is kept for the block that comes next. Pieces that are absorbed one after the other leave the state of
their concatenation.
-/
import Mathlib.Data.List.Basic
import Mathlib.Data.List.Range

namespace Wnc.Lib

section

variable {σ β : Type} (f : σ → List β → σ) (B : Nat)

/-- The whole blocks of a message. -/
def blocks (m : List β) : List (List β) := (List.range (m.length / B)).map fun i => (m.drop (B * i)).take B

/-- The fold over the first `n` blocks. -/
def absorbBlocks : Nat → σ → List β → σ
  | 0, s, _ => s
  | n + 1, s, m => absorbBlocks n (f s (m.take B)) (m.drop B)

theorem absorbBlocks_eq_foldl (n : Nat) (s : σ) (m : List β) :
    absorbBlocks f B n s m = ((List.range n).map fun i => (m.drop (B * i)).take B).foldl f s := by
  induction n generalizing s m with
  | zero => rfl
  | succ n ih =>
    rw [absorbBlocks, ih, List.range_succ_eq_map, List.map_cons, List.foldl_cons, Nat.mul_zero, List.drop_zero,
      List.map_map]
    congr 1
    refine List.map_congr_left fun i _ => ?_
    rw [Function.comp_apply, List.drop_drop, Nat.mul_succ, Nat.add_comm]

/-- The fold over all whole blocks. -/
theorem absorbBlocks_eq_blocks (s : σ) (m : List β) : absorbBlocks f B (m.length / B) s m = (blocks B m).foldl f s :=
  absorbBlocks_eq_foldl f B _ s m

theorem absorbBlocks_add (n k : Nat) (s : σ) (m : List β) :
    absorbBlocks f B (n + k) s m = absorbBlocks f B k (absorbBlocks f B n s m) (m.drop (B * n)) := by
  induction n generalizing s m with
  | zero => rw [Nat.zero_add, Nat.mul_zero, List.drop_zero]; rfl
  | succ n ih =>
    rw [Nat.add_right_comm, absorbBlocks, ih, absorbBlocks, List.drop_drop, Nat.mul_succ, Nat.add_comm B]

/-- Whole blocks are absorbed whatever stands behind them. -/
theorem absorbBlocks_append {n : Nat} {m : List β} (s : σ) (more : List β) (h : B * n ≤ m.length) :
    absorbBlocks f B n s (m ++ more) = absorbBlocks f B n s m := by
  induction n generalizing s m with
  | zero => rfl
  | succ n ih =>
    rw [Nat.mul_succ] at h
    have hB : B ≤ m.length := by omega
    rw [absorbBlocks, absorbBlocks, List.take_append_of_le_length hB, List.drop_append_of_le_length hB]
    exact ih _ (by rw [List.length_drop]; omega)

/-- One piece: it first tops up a block that is incomplete, and what is left over of it is kept. -/
def absorb (a : σ × List β) (bytes : List β) : σ × List β :=
  let (a, bytes) :=
    if a.2 = [] then (a, bytes)
    else
      let buffer := a.2 ++ bytes.take (B - a.2.length)
      (if buffer.length = B then (f a.1 buffer, []) else (a.1, buffer), bytes.drop (B - a.2.length))
  let rest := bytes.drop (B * (bytes.length / B))
  (absorbBlocks f B (bytes.length / B) a.1 bytes, if rest = [] then a.2 else rest)

/-- The state behind a message, and what is left over of it. -/
def absorbed (s : σ) (m : List β) : σ × List β :=
  (absorbBlocks f B (m.length / B) s m, m.drop (B * (m.length / B)))

/-- A message of whole blocks leaves nothing over. -/
theorem absorbed_whole (s : σ) {m : List β} (h : B ∣ m.length) :
    absorbed f B s m = ((blocks B m).foldl f s, []) := by
  unfold absorbed
  rw [absorbBlocks_eq_blocks, Nat.mul_div_cancel' h, List.drop_length]

theorem absorb_absorbed (hB : 0 < B) (s : σ) (m bytes : List β) :
    absorb f B (absorbed f B s m) bytes = absorbed f B s (m ++ bytes) := by
  have hlen : (m ++ bytes).length = m.length + bytes.length := List.length_append
  have hwhole : B * (m.length / B) ≤ m.length := Nat.mul_div_le _ _
  have hbuffer : (m.drop (B * (m.length / B))).length = m.length % B := by
    rw [List.length_drop, Nat.mod_eq_sub]
  have hlt : m.length % B < B := Nat.mod_lt _ hB
  have hmod : m.length % B + B * (m.length / B) = m.length := Nat.mod_add_div _ _
  unfold absorbed
  generalize m.length / B = n at *
  generalize hr : m.length % B = r at *
  have hfirst : absorbBlocks f B n s (m ++ bytes) = absorbBlocks f B n s m := absorbBlocks_append f B s bytes hwhole
  have hdrop : (m ++ bytes).drop (B * n) = m.drop (B * n) ++ bytes := List.drop_append_of_le_length hwhole
  -- the blocks of the message that is longer, behind those that were whole before
  have hsplit : (m ++ bytes).length / B = n + (r + bytes.length) / B := by
    rw [hlen, ← hmod, Nat.add_right_comm, Nat.add_mul_div_left _ _ hB, Nat.add_comm]
  rw [hsplit, absorbBlocks_add, hfirst, hdrop, Nat.mul_add, ← List.drop_drop, hdrop]
  generalize absorbBlocks f B n s m = s'
  generalize m.drop (B * n) = buffer at *
  subst hbuffer
  unfold absorb
  by_cases hempty : buffer = []
  · -- nothing was left over
    subst hempty
    simp only [if_true, List.nil_append, List.length_nil, Nat.zero_add]
    split
    · rename_i hnone
      rw [hnone]
    · rfl
  · rw [if_neg hempty]
    simp only
    by_cases hshort : buffer.length + bytes.length < B
    · -- the piece does not complete the block
      have htake : bytes.take (B - buffer.length) = bytes := List.take_of_length_le (by omega)
      have hgone : bytes.drop (B - buffer.length) = [] := List.drop_of_length_le (by omega)
      rw [htake, hgone, if_neg (by rw [List.length_append]; omega), Nat.div_eq_of_lt hshort, List.length_nil,
        Nat.zero_div, Nat.mul_zero, List.drop_zero, List.drop_zero, if_pos rfl]
      rfl
    · -- the block is completed and absorbed
      have hwant : (buffer ++ bytes.take (B - buffer.length)).length = B := by
        rw [List.length_append, List.length_take]
        omega
      have hblock : (buffer ++ bytes).take B = buffer ++ bytes.take (B - buffer.length) := by
        rw [List.take_append, List.take_of_length_le (by omega)]
      have hbehind : (buffer ++ bytes).drop B = bytes.drop (B - buffer.length) := by
        rw [List.drop_append, List.drop_of_length_le (by omega), List.nil_append]
      have hcount : (buffer.length + bytes.length) / B = (bytes.drop (B - buffer.length)).length / B + 1 := by
        rw [List.length_drop, ← Nat.add_div_right _ hB]
        congr 1
        omega
      rw [if_pos hwant, hcount, absorbBlocks, hblock, hbehind, Nat.mul_succ, Nat.add_comm _ B, ← List.drop_drop, hbehind]
      split
      · rename_i hnone
        rw [hnone]
      · rfl

end

end Wnc.Lib
