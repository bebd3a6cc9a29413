/-
Well-formed UTF-8: the byte sequences of one character, class by class, and the code points they stand for.
-/
import Wnc.Lib.Bytes

namespace Wnc.Lib

/-- A byte that continues a sequence. -/
def Tail (b : UInt8) : Prop := 0x80 ≤ b.toNat ∧ b.toNat ≤ 0xBF

/-- A well-formed sequence and its code point. The second byte is kept off the overlong forms behind `E0` and `F0`, off the
surrogates behind `ED`, and off what is above U+10FFFF behind `F4`. -/
inductive Utf8 : Bytes → Nat → Prop
  | one {a : UInt8} (ha : a.toNat ≤ 0x7F) : Utf8 [a] a.toNat
  | two {a b : UInt8} (ha : 0xC2 ≤ a.toNat ∧ a.toNat ≤ 0xDF) (hb : Tail b) :
      Utf8 [a, b] ((a.toNat - 0xC0) * 64 + (b.toNat - 0x80))
  | three {a b c : UInt8} (ha : 0xE0 ≤ a.toNat ∧ a.toNat ≤ 0xEF) (hb : Tail b) (hc : Tail c)
      (hoverlong : a.toNat = 0xE0 → 0xA0 ≤ b.toNat) (hsurrogate : a.toNat = 0xED → b.toNat ≤ 0x9F) :
      Utf8 [a, b, c] (((a.toNat - 0xE0) * 64 + (b.toNat - 0x80)) * 64 + (c.toNat - 0x80))
  | four {a b c d : UInt8} (ha : 0xF0 ≤ a.toNat ∧ a.toNat ≤ 0xF4) (hb : Tail b) (hc : Tail c) (hd : Tail d)
      (hoverlong : a.toNat = 0xF0 → 0x90 ≤ b.toNat) (hrange : a.toNat = 0xF4 → b.toNat ≤ 0x8F) :
      Utf8 [a, b, c, d]
        ((((a.toNat - 0xF0) * 64 + (b.toNat - 0x80)) * 64 + (c.toNat - 0x80)) * 64 + (d.toNat - 0x80))

theorem Utf8.length_pos {sequence : Bytes} {codepoint : Nat} (h : Utf8 sequence codepoint) : 0 < sequence.length := by
  cases h <;> exact Nat.succ_pos _

/-- The code points are the Unicode scalar values. -/
theorem Utf8.scalar {sequence : Bytes} {codepoint : Nat} (h : Utf8 sequence codepoint) :
    codepoint ≤ 0x10FFFF ∧ ¬(0xD800 ≤ codepoint ∧ codepoint ≤ 0xDFFF) := by
  cases h with
  | one ha => omega
  | two ha hb =>
    unfold Tail at hb
    omega
  | three ha hb hc hoverlong hsurrogate =>
    unfold Tail at hb hc
    omega
  | four ha hb hc hd hoverlong hrange =>
    unfold Tail at hb hc hd
    omega

end Wnc.Lib
