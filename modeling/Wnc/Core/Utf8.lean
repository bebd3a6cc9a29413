/-
The UTF-8 of strings: the decoder reads exactly the well-formed sequences, and every code point is written as the one
sequence that stands for it.
-/
import Wnc.Lib.Utf8
import Wnc.Core.JsonGrammar

namespace Wnc

open Lib

namespace Parser

open Grammar

theorem ofNat_eq {b : UInt8} {n : Nat} (h : b.toNat = n) : UInt8.ofNat n = b := by rw [← h, UInt8.ofNat_toNat]

/-- A well-formed sequence is what is written for its code point. -/
theorem appendUtf8_of_utf8 {sequence : Bytes} {codepoint : Nat} (h : Utf8 sequence codepoint) :
    appendUtf8 codepoint = sequence := by
  cases h with
  | @one a ha => rw [appendUtf8, if_pos (by omega), ofNat_eq rfl]
  | @two a b ha hb =>
    unfold Tail at hb
    rw [appendUtf8_two (by omega) (by omega) (by omega), ofNat_eq (b := a) (by omega), ofNat_eq (b := b) (by omega)]
  | @three a b c ha hb hc hoverlong hsurrogate =>
    unfold Tail at hb hc
    rw [appendUtf8_three (by omega) (by omega) (by omega) (by omega), ofNat_eq (b := a) (by omega),
      ofNat_eq (b := b) (by omega), ofNat_eq (b := c) (by omega)]
  | @four a b c d ha hb hc hd hoverlong hrange =>
    unfold Tail at hb hc hd
    rw [appendUtf8_four (by omega) (by omega) (by omega) (by omega), ofNat_eq (b := a) (by omega),
      ofNat_eq (b := b) (by omega), ofNat_eq (b := c) (by omega), ofNat_eq (b := d) (by omega)]

/-- What is written for a code point is well formed. -/
theorem utf8_appendUtf8 {codepoint : Nat} (h : Scalar codepoint) : Utf8 (appendUtf8 codepoint) codepoint := by
  obtain ⟨hle, hsurrogate⟩ := h
  unfold appendUtf8
  split
  next h1 =>
    have hform := Utf8.one (a := UInt8.ofNat codepoint) (by rw [toNat_byte (by omega)]; omega)
    rwa [toNat_byte (by omega)] at hform
  next h1 =>
    split
    next h2 =>
      have ha := toNat_byte (show 0xC0 + codepoint / 64 < 256 by omega)
      have hb := toNat_byte (show 0x80 + codepoint % 64 < 256 by omega)
      have hform := Utf8.two (a := UInt8.ofNat (0xC0 + codepoint / 64)) (b := UInt8.ofNat (0x80 + codepoint % 64))
        (by omega) (by unfold Tail; omega)
      rw [ha, hb] at hform
      convert hform using 1
      omega
    next h2 =>
      have hc := toNat_byte (show 0x80 + codepoint % 64 < 256 by omega)
      have hb := toNat_byte (show 0x80 + codepoint / 64 % 64 < 256 by omega)
      split
      next h3 =>
        have ha := toNat_byte (show 0xE0 + codepoint / 4096 < 256 by omega)
        have hform := Utf8.three (a := UInt8.ofNat (0xE0 + codepoint / 4096))
          (b := UInt8.ofNat (0x80 + codepoint / 64 % 64)) (c := UInt8.ofNat (0x80 + codepoint % 64))
          (by omega) (by unfold Tail; omega) (by unfold Tail; omega) (by omega) (by omega)
        rw [ha, hb, hc] at hform
        convert hform using 1
        omega
      next h3 =>
        have ha := toNat_byte (show 0xF0 + codepoint / 262144 < 256 by omega)
        have hd := toNat_byte (show 0x80 + codepoint / 4096 % 64 < 256 by omega)
        have hform := Utf8.four (a := UInt8.ofNat (0xF0 + codepoint / 262144))
          (b := UInt8.ofNat (0x80 + codepoint / 4096 % 64)) (c := UInt8.ofNat (0x80 + codepoint / 64 % 64))
          (d := UInt8.ofNat (0x80 + codepoint % 64))
          (by omega) (by unfold Tail; omega) (by unfold Tail; omega) (by unfold Tail; omega) (by omega) (by omega)
        rw [ha, hb, hc, hd] at hform
        convert hform using 1
        omega

theorem decodeUtf8_of_utf8 {sequence : Bytes} {codepoint : Nat} (h : Utf8 sequence codepoint) (rest : Bytes) :
    decodeUtf8 (sequence ++ rest) = some (sequence.length, codepoint) := by
  rw [← appendUtf8_of_utf8 h]
  exact decodeUtf8_complete h.scalar rest

theorem utf8_of_decodeUtf8 {text : Bytes} {length codepoint : Nat} (h : decodeUtf8 text = some (length, codepoint)) :
    Utf8 (text.take length) codepoint ∧ (text.take length).length = length := by
  obtain ⟨hscalar, htake⟩ := decodeUtf8_sound h
  obtain ⟨-, hle, -, -⟩ := decodeUtf8_spec h
  rw [htake]
  refine ⟨utf8_appendUtf8 hscalar, ?_⟩
  rw [← htake, List.length_take, Nat.min_eq_left hle]

/-- At every position of a text a sequence is read exactly where a well-formed one starts, with its length and code point;
what is written for a code point is read back as it, and what is read is what is written for its code point. -/
theorem decodeUtf8_exact (text : Bytes) (i : Nat) :
    (∀ length codepoint, decodeUtf8 (text.drop i) = some (length, codepoint) ↔
      0 < length ∧ ∃ sequence, Utf8 sequence codepoint ∧ sequence.length = length ∧ sequence <+: text.drop i) ∧
    (∀ codepoint, Scalar codepoint → ∀ rest,
      decodeUtf8 (appendUtf8 codepoint ++ rest) = some ((appendUtf8 codepoint).length, codepoint)) ∧
    ∀ length codepoint, decodeUtf8 (text.drop i) = some (length, codepoint) →
      Scalar codepoint ∧ appendUtf8 codepoint = (text.drop i).take length := by
  refine ⟨fun length codepoint => ⟨fun h => ?_, ?_⟩, fun codepoint h rest => decodeUtf8_complete h rest,
    fun length codepoint h => ?_⟩
  · obtain ⟨hform, hlength⟩ := utf8_of_decodeUtf8 h
    have hpos := hform.length_pos
    exact ⟨by omega, _, hform, hlength, List.take_prefix _ _⟩
  · rintro ⟨-, sequence, hform, rfl, rest, hrest⟩
    rw [← hrest]
    exact decodeUtf8_of_utf8 hform rest
  · obtain ⟨hscalar, htake⟩ := decodeUtf8_sound h
    exact ⟨hscalar, htake.symm⟩

end Parser

end Wnc
