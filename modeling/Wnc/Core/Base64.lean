/-
The base64url encoding read back: what its decoder makes of encoded bytes is these bytes, and it takes nothing but
encodings and what is padded behind them.
-/
import Wnc.Core.Identity

namespace Wnc

open Lib

theorem base64UrlValue_char : ∀ v < 64, base64UrlValue (base64UrlChar v) = some v := by decide +kernel

theorem base64UrlChar_ne_padding : ∀ v < 64, base64UrlChar v ≠ 61 := by decide +kernel

/-- The byte that a character completes: only the six bits before it count. -/
def completed (previous v shift : Nat) : UInt8 := UInt8.ofNat ((previous * 64 + v) / 2 ^ shift % 256)

/-- One character of a group, behind an accumulator that ends in six known bits. -/
theorem base64UrlDecodeLoop_char {maxBytes v previous : Nat} (hv : v < 64) {acc : Nat} (hacc : acc % 64 = previous)
    (rest : Bytes) (bits : Nat) (hbits : bits ≤ 6) (out : Bytes) : ∃ acc', acc' % 64 = v ∧
      base64UrlDecodeLoop maxBytes (base64UrlChar v :: rest) acc bits out =
        if 2 ≤ bits then
          if (out ++ [completed previous v (bits - 2)]).length > maxBytes then none
          else base64UrlDecodeLoop maxBytes rest acc' (bits - 2) (out ++ [completed previous v (bits - 2)])
        else base64UrlDecodeLoop maxBytes rest acc' (bits + 6) out := by
  have hbyte : UInt8.ofNat ((acc * 64 + v) % 2 ^ 32 / 2 ^ (bits + 6 - 8) % 256) = completed previous v (bits - 2) := by
    unfold completed
    have hcases : bits = 0 ∨ bits = 1 ∨ bits = 2 ∨ bits = 3 ∨ bits = 4 ∨ bits = 5 ∨ bits = 6 := by omega
    congr 1
    rcases hcases with rfl | rfl | rfl | rfl | rfl | rfl | rfl <;> simp only [Nat.reducePow, Nat.reduceAdd, Nat.reduceSub] <;> omega
  refine ⟨(acc * 64 + v) % 2 ^ 32, by omega, ?_⟩
  rw [base64UrlDecodeLoop, base64UrlValue_char v hv]
  simp only [hbyte]
  by_cases h2 : 2 ≤ bits
  · rw [if_pos (by omega), if_pos h2, show bits + 6 - 8 = bits - 2 by omega]
  · rw [if_neg (by omega), if_neg h2]

theorem completed_eq {previous v shift : Nat} {c : UInt8} (h : (previous * 64 + v) / 2 ^ shift % 256 = c.toNat) :
    completed previous v shift = c := by
  rw [completed, h, UInt8.ofNat_toNat]

/-- A character that completes a byte. -/
theorem base64UrlDecodeLoop_byte (maxBytes : Nat) {v previous : Nat} {c : UInt8} (hv : v < 64) {acc : Nat} (hacc : acc % 64 = previous)
    (rest : Bytes) {bits : Nat} (hbits : 2 ≤ bits) (hbits' : bits ≤ 6) (out : Bytes)
    (hc : (previous * 64 + v) / 2 ^ (bits - 2) % 256 = c.toNat) : ∃ acc', acc' % 64 = v ∧
      base64UrlDecodeLoop maxBytes (base64UrlChar v :: rest) acc bits out =
        if out.length + 1 ≤ maxBytes then base64UrlDecodeLoop maxBytes rest acc' (bits - 2) (out ++ [c]) else none := by
  obtain ⟨acc', hacc', heq⟩ := @base64UrlDecodeLoop_char maxBytes v previous hv acc hacc rest bits hbits' out
  refine ⟨acc', hacc', ?_⟩
  rw [heq, if_pos hbits, completed_eq hc, List.length_append, List.length_singleton]
  by_cases hlen : out.length + 1 ≤ maxBytes
  · rw [if_pos hlen, if_neg (not_lt.2 hlen)]
  · rw [if_neg hlen, if_pos (not_le.1 hlen)]

/-- The first character of a group, which completes none. -/
theorem base64UrlDecodeLoop_bits (maxBytes : Nat) {v : Nat} (hv : v < 64) (acc : Nat) (rest out : Bytes) : ∃ acc', acc' % 64 = v ∧
    base64UrlDecodeLoop maxBytes (base64UrlChar v :: rest) acc 0 out = base64UrlDecodeLoop maxBytes rest acc' 6 out := by
  obtain ⟨acc', hacc', heq⟩ := @base64UrlDecodeLoop_char maxBytes v _ hv acc rfl rest 0 (by omega) out
  exact ⟨acc', hacc', by rw [heq, if_neg (by omega)]⟩

/-- What is decoded of an encoding: the bytes that were encoded, when they are within the bound, and no bits beyond
them. -/
theorem base64UrlDecodeLoop_encode {maxBytes : Nat} : ∀ (bs : Bytes) (acc : Nat) (out : Bytes), ∃ acc' bits',
    acc' % 2 ^ bits' = 0 ∧ base64UrlDecodeLoop maxBytes (base64UrlEncode bs) acc 0 out =
      if bs = [] ∨ out.length + bs.length ≤ maxBytes then some (acc', bits', out ++ bs) else none
  | [], acc, out => ⟨acc, 0, Nat.mod_one _, by rw [if_pos (.inl rfl), List.append_nil]; rfl⟩
  | [a], acc, out => by
    have ha := a.toNat_lt
    rw [base64UrlEncode]
    obtain ⟨acc₁, h₁, heq₁⟩ := base64UrlDecodeLoop_bits maxBytes
      (show a.toNat * 65536 / 262144 % 64 < 64 by omega) acc [base64UrlChar (a.toNat * 65536 / 4096 % 64)] out
    obtain ⟨acc₂, h₂, heq₂⟩ := base64UrlDecodeLoop_byte maxBytes (c := a)
      (show a.toNat * 65536 / 4096 % 64 < 64 by omega) h₁ [] (show 2 ≤ 6 by decide) (by decide) out
      (by simp only [Nat.reduceSub, Nat.reducePow]; omega)
    refine ⟨acc₂, 4, by omega, ?_⟩
    rw [heq₁, heq₂]
    simp only [List.cons_ne_nil, false_or, List.length_singleton]
    rfl
  | [a, b], acc, out => by
    have ha := a.toNat_lt
    have hb := b.toNat_lt
    rw [base64UrlEncode]
    generalize hchunk : a.toNat * 65536 + b.toNat * 256 = chunk
    obtain ⟨acc₁, h₁, heq₁⟩ := base64UrlDecodeLoop_bits maxBytes (show chunk / 262144 % 64 < 64 by omega) acc
      [base64UrlChar (chunk / 4096 % 64), base64UrlChar (chunk / 64 % 64)] out
    obtain ⟨acc₂, h₂, heq₂⟩ := base64UrlDecodeLoop_byte maxBytes (c := a)
      (show chunk / 4096 % 64 < 64 by omega) h₁ [base64UrlChar (chunk / 64 % 64)] (show 2 ≤ 6 by decide) (by decide) out
      (by simp only [Nat.reduceSub, Nat.reducePow]; omega)
    obtain ⟨acc₃, h₃, heq₃⟩ := base64UrlDecodeLoop_byte maxBytes (c := b)
      (show chunk / 64 % 64 < 64 by omega) h₂ [] (show 2 ≤ 6 - 2 by decide) (by decide) (out ++ [a])
      (by simp only [Nat.reduceSub, Nat.reducePow]; omega)
    refine ⟨acc₃, 2, by omega, ?_⟩
    rw [heq₁, heq₂, heq₃, List.append_assoc]
    simp only [List.cons_ne_nil, false_or, List.length_append, List.length_cons, List.length_nil]
    split <;> split <;> first | rfl | omega
  | a :: b :: c :: rest, acc, out => by
    have ha := a.toNat_lt
    have hb := b.toNat_lt
    have hc := c.toNat_lt
    rw [base64UrlEncode]
    generalize hchunk : a.toNat * 65536 + b.toNat * 256 + c.toNat = chunk
    obtain ⟨acc₁, h₁, heq₁⟩ := base64UrlDecodeLoop_bits maxBytes (show chunk / 262144 % 64 < 64 by omega) acc
      (base64UrlChar (chunk / 4096 % 64) :: base64UrlChar (chunk / 64 % 64) :: base64UrlChar (chunk % 64) ::
        base64UrlEncode rest) out
    obtain ⟨acc₂, h₂, heq₂⟩ := base64UrlDecodeLoop_byte maxBytes (c := a)
      (show chunk / 4096 % 64 < 64 by omega) h₁
      (base64UrlChar (chunk / 64 % 64) :: base64UrlChar (chunk % 64) :: base64UrlEncode rest) (show 2 ≤ 6 by decide)
      (by decide) out (by simp only [Nat.reduceSub, Nat.reducePow]; omega)
    obtain ⟨acc₃, h₃, heq₃⟩ := base64UrlDecodeLoop_byte maxBytes (c := b)
      (show chunk / 64 % 64 < 64 by omega) h₂ (base64UrlChar (chunk % 64) :: base64UrlEncode rest)
      (show 2 ≤ 6 - 2 by decide) (by decide) (out ++ [a]) (by simp only [Nat.reduceSub, Nat.reducePow]; omega)
    obtain ⟨acc₄, h₄, heq₄⟩ := base64UrlDecodeLoop_byte maxBytes (c := c)
      (show chunk % 64 < 64 by omega) h₃ (base64UrlEncode rest) (show 2 ≤ 6 - 2 - 2 by decide) (by decide)
      (out ++ [a] ++ [b]) (by simp only [Nat.reduceSub, Nat.reducePow]; omega)
    obtain ⟨acc', bits', hzero, hrest⟩ := base64UrlDecodeLoop_encode rest acc₄ (out ++ [a] ++ [b] ++ [c])
    refine ⟨acc', bits', hzero, ?_⟩
    rw [heq₁, heq₂, heq₃, heq₄, hrest]
    simp only [List.cons_ne_nil, false_or, List.length_append, List.length_cons, List.length_nil, List.append_assoc,
      List.cons_append, List.nil_append]
    cases rest <;> simp only [List.cons_ne_nil, false_or, true_or, if_true, List.length_cons, List.length_nil] <;>
      split_ifs <;> first | rfl | omega

/-- Every character of an encoding stands for six bits. -/
theorem mem_base64UrlEncode : ∀ (bs : Bytes), ∀ c ∈ base64UrlEncode bs, ∃ v < 64, c = base64UrlChar v
  | [], _, h => by cases h
  | [_], c, h => by
    simp only [base64UrlEncode, List.mem_cons, List.not_mem_nil, or_false] at h
    rcases h with rfl | rfl <;> exact ⟨_, by omega, rfl⟩
  | [_, _], c, h => by
    simp only [base64UrlEncode, List.mem_cons, List.not_mem_nil, or_false] at h
    rcases h with rfl | rfl | rfl <;> exact ⟨_, by omega, rfl⟩
  | _ :: _ :: _ :: rest, c, h => by
    simp only [base64UrlEncode, List.mem_cons] at h
    rcases h with rfl | rfl | rfl | rfl | h
    · exact ⟨_, by omega, rfl⟩
    · exact ⟨_, by omega, rfl⟩
    · exact ⟨_, by omega, rfl⟩
    · exact ⟨_, by omega, rfl⟩
    · exact mem_base64UrlEncode rest c h

/-- No character of an encoding is padding. -/
theorem ne_padding_of_mem_encode (bs : Bytes) : ∀ c ∈ base64UrlEncode bs, c ≠ 61 := by
  intro c hc
  obtain ⟨v, hv, rfl⟩ := mem_base64UrlEncode bs c hc
  exact base64UrlChar_ne_padding v hv

theorem padding_encode (bs : Bytes) : ((base64UrlEncode bs).reverse.takeWhile (· == 61)).length = 0 := by
  have hall : ∀ c ∈ (base64UrlEncode bs).reverse, c ≠ 61 := fun c hc =>
    ne_padding_of_mem_encode bs c (List.mem_reverse.1 hc)
  cases hr : (base64UrlEncode bs).reverse with
  | nil => rfl
  | cons c rest =>
    have hc := hall c (by rw [hr]; exact List.mem_cons_self)
    rw [List.takeWhile_cons_of_neg (by rwa [beq_iff_eq])]
    rfl

/-- The length of an encoding is one that the decoder takes, and declares no more bytes than were encoded. -/
theorem length_encode : ∀ bs : Bytes, (base64UrlEncode bs).length % 4 ≠ 1 ∧ (base64UrlEncode bs).length / 4 * 3 ≤ bs.length
  | [] => by decide
  | [_] => by simp [base64UrlEncode]
  | [_, _] => by simp [base64UrlEncode]
  | _ :: _ :: _ :: rest => by
    have := length_encode rest
    simp only [base64UrlEncode, List.length_cons]
    omega

/-- What is decoded of an encoding is what was encoded. -/
theorem eq_of_base64UrlDecode_encode {bs bs' : Bytes} {maxBytes : Nat}
    (h : base64UrlDecode (base64UrlEncode bs) maxBytes = some bs') : bs' = bs := by
  obtain ⟨acc, bits, -, hloop⟩ := @base64UrlDecodeLoop_encode maxBytes bs 0 []
  unfold base64UrlDecode at h
  simp only [padding_encode, Nat.sub_zero, List.take_length] at h
  split at h
  · cases h
  · split at h
    · cases h
    · rw [hloop] at h
      split_ifs at h with hfits
      · simp only at h
        split at h
        · cases h
        · cases h
          rfl

/-- An encoding of bytes within the bound is decoded to them. -/
theorem base64UrlDecode_encode {bs : Bytes} {maxBytes : Nat} (hbound : maxBytes + 3 < 2 ^ 64)
    (h : bs.length ≤ maxBytes) : base64UrlDecode (base64UrlEncode bs) maxBytes = some bs := by
  obtain ⟨acc, bits, hzero, hloop⟩ := @base64UrlDecodeLoop_encode maxBytes bs 0 []
  obtain ⟨hlength, hbytes⟩ := length_encode bs
  unfold base64UrlDecode
  simp only [padding_encode, Nat.sub_zero, List.take_length]
  rw [Nat.mod_eq_of_lt hbound, if_neg (by omega), if_neg (by omega), hloop, if_pos (.inr (by rw [List.length_nil, Nat.zero_add]; exact h))]
  simp only
  rw [if_neg (fun hne => hne.2 hzero), List.nil_append]

theorem length_base64UrlDecodeLoop {maxBytes : Nat} : ∀ {text : Bytes} {acc bits : Nat} {out : Bytes} {acc' bits' : Nat}
    {out' : Bytes}, out.length ≤ maxBytes → base64UrlDecodeLoop maxBytes text acc bits out = some (acc', bits', out') →
    out'.length ≤ maxBytes
  | [], _, _, _, _, _, _, hlen, h => by
    cases h
    exact hlen
  | _ :: _, _, _, _, _, _, _, hlen, h => by
    rw [base64UrlDecodeLoop] at h
    split at h
    · cases h
    · simp only at h
      split at h
      · split at h
        · cases h
        · rename_i hfits
          exact length_base64UrlDecodeLoop (not_lt.1 hfits) h
      · exact length_base64UrlDecodeLoop hlen h

/-- What is decoded is within the bound. -/
theorem length_base64UrlDecode {text bs : Bytes} {maxBytes : Nat} (h : base64UrlDecode text maxBytes = some bs) :
    bs.length ≤ maxBytes := by
  unfold base64UrlDecode at h
  simp only at h
  split at h
  · cases h
  · split at h
    · cases h
    · split at h
      · cases h
      · rename_i acc bits out hloop
        split at h
        · cases h
        · cases h
          exact length_base64UrlDecodeLoop (Nat.zero_le _) hloop

/-! ## The language of the decoder -/

/-- A character with a value is the character of that value. -/
theorem base64UrlChar_value {c : UInt8} {v : Nat} (h : base64UrlValue c = some v) : v < 64 ∧ base64UrlChar v = c := by
  have hall : ∀ n < 256, ∀ v, base64UrlValue (UInt8.ofNat n) = some v →
      v < 64 ∧ base64UrlChar v = UInt8.ofNat n := by
    have hcheck : ∀ n < 256, (base64UrlValue (UInt8.ofNat n)).all
        (fun v => v < 64 && base64UrlChar v == UInt8.ofNat n) = true := by decide +kernel
    intro n hn v hv
    have hn := hcheck n hn
    rw [hv] at hn
    simpa using hn
  have hc := hall c.toNat c.toNat_lt v
  rw [UInt8.ofNat_toNat] at hc
  exact hc h

/-- Where the loop goes on, the character has a value. -/
theorem char_of_base64UrlDecodeLoop {maxBytes : Nat} {c : UInt8} {rest out : Bytes} {acc bits : Nat}
    {r : Nat × Nat × Bytes} (h : base64UrlDecodeLoop maxBytes (c :: rest) acc bits out = some r) :
    ∃ v < 64, c = base64UrlChar v := by
  rw [base64UrlDecodeLoop] at h
  cases hv : base64UrlValue c with
  | none =>
    rw [hv] at h
    cases h
  | some v => exact ⟨v, (base64UrlChar_value hv).1, (base64UrlChar_value hv).2.symm⟩

/-- Where the loop goes on past the first character of a group. -/
theorem some_of_base64UrlDecodeLoop_bits {maxBytes v : Nat} (hv : v < 64) {acc : Nat} {rest out : Bytes}
    {r : Nat × Nat × Bytes} (h : base64UrlDecodeLoop maxBytes (base64UrlChar v :: rest) acc 0 out = some r) :
    ∃ acc', acc' % 64 = v ∧ base64UrlDecodeLoop maxBytes rest acc' 6 out = some r := by
  obtain ⟨acc', hacc', heq⟩ := base64UrlDecodeLoop_bits maxBytes hv acc rest out
  exact ⟨acc', hacc', heq.symm.trans h⟩

/-- Where it goes on past a character that completes a byte. -/
theorem some_of_base64UrlDecodeLoop_byte {maxBytes v previous : Nat} (hv : v < 64) {acc : Nat}
    (hacc : acc % 64 = previous) {rest out : Bytes} {bits : Nat} (hbits : 2 ≤ bits) (hbits' : bits ≤ 6)
    {r : Nat × Nat × Bytes} (h : base64UrlDecodeLoop maxBytes (base64UrlChar v :: rest) acc bits out = some r) :
    ∃ acc' c, acc' % 64 = v ∧ c.toNat = (previous * 64 + v) / 2 ^ (bits - 2) % 256 ∧
      base64UrlDecodeLoop maxBytes rest acc' (bits - 2) (out ++ [c]) = some r := by
  have hc : (previous * 64 + v) / 2 ^ (bits - 2) % 256 =
      (UInt8.ofNat ((previous * 64 + v) / 2 ^ (bits - 2) % 256)).toNat := by
    rw [UInt8.toNat_ofNat', Nat.mod_mod]
  obtain ⟨acc', hacc', heq⟩ := base64UrlDecodeLoop_byte maxBytes hv hacc rest hbits hbits' out hc
  rw [heq] at h
  split at h
  · exact ⟨acc', _, hacc', hc.symm, h⟩
  · cases h

/-- Whatever the loop decodes without bits left over is an encoding, group by group. -/
theorem encode_of_base64UrlDecodeLoop {maxBytes : Nat} : ∀ {text : Bytes} {acc : Nat} {out : Bytes} {acc' bits' : Nat}
    {out' : Bytes}, text.length % 4 ≠ 1 → base64UrlDecodeLoop maxBytes text acc 0 out = some (acc', bits', out') →
    acc' % 2 ^ bits' = 0 → ∃ bs, out' = out ++ bs ∧ text = base64UrlEncode bs
  | [], _, out, _, _, _, _, h, _ => by
    cases h
    exact ⟨[], (List.append_nil out).symm, rfl⟩
  | [_], _, _, _, _, _, hlen, _, _ => absurd rfl hlen
  | [c₁, c₂], acc, out, acc', bits', out', _, h, hzero => by
    obtain ⟨v₁, hv₁, rfl⟩ := char_of_base64UrlDecodeLoop h
    obtain ⟨acc₁, h₁, h⟩ := some_of_base64UrlDecodeLoop_bits hv₁ h
    obtain ⟨v₂, hv₂, rfl⟩ := char_of_base64UrlDecodeLoop h
    obtain ⟨acc₂, a, h₂, ha, h⟩ := some_of_base64UrlDecodeLoop_byte hv₂ h₁ (by decide) (by decide) h
    cases h
    simp only [Nat.reduceSub, Nat.reducePow] at ha hzero
    refine ⟨[a], rfl, ?_⟩
    have hfirst : a.toNat * 65536 / 262144 % 64 = v₁ := by omega
    have hsecond : a.toNat * 65536 / 4096 % 64 = v₂ := by omega
    rw [base64UrlEncode, hfirst, hsecond]
  | [c₁, c₂, c₃], acc, out, acc', bits', out', _, h, hzero => by
    obtain ⟨v₁, hv₁, rfl⟩ := char_of_base64UrlDecodeLoop h
    obtain ⟨acc₁, h₁, h⟩ := some_of_base64UrlDecodeLoop_bits hv₁ h
    obtain ⟨v₂, hv₂, rfl⟩ := char_of_base64UrlDecodeLoop h
    obtain ⟨acc₂, a, h₂, ha, h⟩ := some_of_base64UrlDecodeLoop_byte hv₂ h₁ (by decide) (by decide) h
    obtain ⟨v₃, hv₃, rfl⟩ := char_of_base64UrlDecodeLoop h
    obtain ⟨acc₃, b, h₃, hb, h⟩ := some_of_base64UrlDecodeLoop_byte hv₃ h₂ (by decide) (by decide) h
    cases h
    simp only [Nat.reduceSub, Nat.reducePow] at ha hb hzero
    refine ⟨[a, b], by rw [List.append_assoc]; rfl, ?_⟩
    have hfirst : (a.toNat * 65536 + b.toNat * 256) / 262144 % 64 = v₁ := by omega
    have hsecond : (a.toNat * 65536 + b.toNat * 256) / 4096 % 64 = v₂ := by omega
    have hthird : (a.toNat * 65536 + b.toNat * 256) / 64 % 64 = v₃ := by omega
    rw [base64UrlEncode]
    simp only [hfirst, hsecond, hthird]
  | c₁ :: c₂ :: c₃ :: c₄ :: rest, acc, out, acc', bits', out', hlen, h, hzero => by
    obtain ⟨v₁, hv₁, rfl⟩ := char_of_base64UrlDecodeLoop h
    obtain ⟨acc₁, h₁, h⟩ := some_of_base64UrlDecodeLoop_bits hv₁ h
    obtain ⟨v₂, hv₂, rfl⟩ := char_of_base64UrlDecodeLoop h
    obtain ⟨acc₂, a, h₂, ha, h⟩ := some_of_base64UrlDecodeLoop_byte hv₂ h₁ (by decide) (by decide) h
    obtain ⟨v₃, hv₃, rfl⟩ := char_of_base64UrlDecodeLoop h
    obtain ⟨acc₃, b, h₃, hb, h⟩ := some_of_base64UrlDecodeLoop_byte hv₃ h₂ (by decide) (by decide) h
    obtain ⟨v₄, hv₄, rfl⟩ := char_of_base64UrlDecodeLoop h
    obtain ⟨acc₄, c, h₄, hc, h⟩ := some_of_base64UrlDecodeLoop_byte hv₄ h₃ (by decide) (by decide) h
    have hlen : rest.length % 4 ≠ 1 := by
      simp only [List.length_cons] at hlen
      omega
    obtain ⟨bs, rfl, rfl⟩ := encode_of_base64UrlDecodeLoop hlen h hzero
    simp only [Nat.reduceSub, Nat.reducePow] at ha hb hc
    refine ⟨a :: b :: c :: bs, by simp only [List.append_assoc, List.cons_append, List.nil_append], ?_⟩
    have hfirst : (a.toNat * 65536 + b.toNat * 256 + c.toNat) / 262144 % 64 = v₁ := by omega
    have hsecond : (a.toNat * 65536 + b.toNat * 256 + c.toNat) / 4096 % 64 = v₂ := by omega
    have hthird : (a.toNat * 65536 + b.toNat * 256 + c.toNat) / 64 % 64 = v₃ := by omega
    have hfourth : (a.toNat * 65536 + b.toNat * 256 + c.toNat) % 64 = v₄ := by omega
    rw [base64UrlEncode]
    simp only [hfirst, hsecond, hthird, hfourth]

/-- The number of padding characters at the end of a text. -/
theorem padding_append (bs : Bytes) (n : Nat) :
    ((base64UrlEncode bs ++ List.replicate n 61).reverse.takeWhile (· == 61)).length = n := by
  have hencode := padding_encode bs
  rw [List.length_eq_zero_iff] at hencode
  rw [List.reverse_append, List.reverse_replicate, List.takeWhile_append_of_pos, hencode, List.append_nil,
    List.length_replicate]
  intro c hc
  rw [List.eq_of_mem_replicate hc]
  rfl

/-- Padding behind an encoding is dropped, when it is no more than two characters. -/
theorem base64UrlDecode_append (bs : Bytes) (n maxBytes : Nat) :
    base64UrlDecode (base64UrlEncode bs ++ List.replicate n 61) maxBytes =
      if n > 2 then none else base64UrlDecode (base64UrlEncode bs) maxBytes := by
  have hlength : (base64UrlEncode bs ++ List.replicate n 61).length - n = (base64UrlEncode bs).length := by
    rw [List.length_append, List.length_replicate, Nat.add_sub_cancel]
  unfold base64UrlDecode
  simp only [padding_append, hlength, List.take_left, padding_encode, Nat.sub_zero, List.take_length]
  by_cases hn : n > 2
  · rw [if_pos (.inl hn), if_pos hn]
  · simp only [hn, false_or, if_false, show ¬ 0 > 2 by decide]

/-- A text is what comes before its padding, and the padding. -/
theorem eq_append_padding (text : Bytes) :
    text = text.take (text.length - (text.reverse.takeWhile (· == 61)).length) ++
      List.replicate (text.reverse.takeWhile (· == 61)).length 61 := by
  have hall : text.reverse.takeWhile (· == 61) = List.replicate (text.reverse.takeWhile (· == 61)).length 61 :=
    List.eq_replicate_of_mem fun c hc => by simpa using List.all_eq_true.1 List.all_takeWhile c hc
  have hsplit := congrArg List.reverse (List.takeWhile_append_dropWhile (p := (· == (61 : UInt8))) (l := text.reverse))
  rw [List.reverse_append, List.reverse_reverse] at hsplit
  generalize (text.reverse.dropWhile (· == 61)).reverse = front at hsplit
  generalize text.reverse.takeWhile (· == 61) = padding at hall hsplit ⊢
  rw [hall, List.reverse_replicate] at hsplit
  rw [← hsplit, List.length_append, List.length_replicate, Nat.add_sub_cancel, List.take_left]

/-- The decoder takes the encodings of bytes within the bound, and what is padded behind them by no more than two
characters; and nothing at all under a bound to which its sum overflows. -/
theorem base64UrlDecode_eq_some_iff {text bs : Bytes} {maxBytes : Nat} (hsize : maxBytes < 2 ^ 64) :
    base64UrlDecode text maxBytes = some bs ↔
      maxBytes + 3 < 2 ^ 64 ∧ bs.length ≤ maxBytes ∧ ∃ n ≤ 2, text = base64UrlEncode bs ++ List.replicate n 61 := by
  constructor
  · intro h
    have hfits := length_base64UrlDecode h
    unfold base64UrlDecode at h
    simp only at h
    split at h
    · cases h
    · rename_i hpadding
      split at h
      · cases h
      · rename_i hestimated
        split at h
        · cases h
        · rename_i acc bits out hloop
          split at h
          · cases h
          · rename_i hzero
            cases h
            obtain ⟨hpadding, hlength⟩ := not_or.1 hpadding
            have hleft : acc % 2 ^ bits = 0 := by
              by_contra hne
              rcases Nat.eq_zero_or_pos bits with rfl | hbits
              · exact hne (Nat.mod_one _)
              · exact hzero ⟨hbits, hne⟩
            obtain ⟨bs', hout, htext⟩ := encode_of_base64UrlDecodeLoop hlength hloop hleft
            rw [List.nil_append] at hout
            subst hout
            refine ⟨by omega, hfits, _, not_lt.1 hpadding, ?_⟩
            rw [← htext]
            exact eq_append_padding text
  · rintro ⟨hbound, hfits, n, hn, rfl⟩
    rw [base64UrlDecode_append, if_neg (not_lt.2 hn)]
    exact base64UrlDecode_encode hbound hfits

/-- The padding that the final group of an encoding requires. -/
def finalPadding (bs : Bytes) : Bytes :=
  match bs.length % 3 with
  | 1 => [61, 61]
  | 2 => [61]
  | _ => []

/-- A text that spells bytes: their encoding, without padding or behind it the padding that the final group requires. -/
def Spells (text bs : Bytes) : Prop := text = base64UrlEncode bs ∨ text = base64UrlEncode bs ++ finalPadding bs

/-- The decoder takes a text exactly when it spells bytes within the bound, and returns these bytes. -/
def DecodesExactly (text : Bytes) (maxBytes : Nat) : Prop :=
  ∀ bs, base64UrlDecode text maxBytes = some bs ↔ bs.length ≤ maxBytes ∧ Spells text bs

/-- A text that is the encoding of bytes within the bound, behind it one or two padding characters that are not the
ones its final group requires. -/
def Mispadded (text : Bytes) (maxBytes : Nat) : Prop :=
  ∃ bs, bs.length ≤ maxBytes ∧ ∃ n, (n = 1 ∨ n = 2) ∧ n ≠ (finalPadding bs).length ∧
    text = base64UrlEncode bs ++ List.replicate n 61

theorem finalPadding_eq (bs : Bytes) :
    finalPadding bs = List.replicate (finalPadding bs).length 61 ∧ (finalPadding bs).length ≤ 2 := by
  unfold finalPadding
  split <;> exact ⟨rfl, by decide⟩

/-- What stands before the padding and how much of it there is, is determined by the text. -/
theorem append_padding_inj {bs bs' : Bytes} {n n' : Nat}
    (h : base64UrlEncode bs ++ List.replicate n 61 = base64UrlEncode bs' ++ List.replicate n' 61) :
    base64UrlEncode bs = base64UrlEncode bs' ∧ n = n' := by
  have hn : n = n' := by rw [← padding_append bs n, h, padding_append]
  subst hn
  exact ⟨List.append_cancel_right h, rfl⟩

theorem spells_iff {text bs : Bytes} :
    Spells text bs ↔ ∃ n, (n = 0 ∨ n = (finalPadding bs).length) ∧ text = base64UrlEncode bs ++ List.replicate n 61 := by
  unfold Spells
  constructor
  · rintro (h | h)
    · exact ⟨0, .inl rfl, h.trans (List.append_nil _).symm⟩
    · exact ⟨_, .inr rfl, by rw [← (finalPadding_eq bs).1]; exact h⟩
  · rintro ⟨n, rfl | rfl, h⟩
    · exact .inl (h.trans (List.append_nil _))
    · exact .inr (by rw [(finalPadding_eq bs).1]; exact h)

/-- The decoder is exact on every text but those that are padded otherwise than their final group requires; and under a
bound to which its sum overflows, on the texts that spell nothing within the bound. -/
theorem decodesExactly_iff (text : Bytes) (maxBytes : UInt64) :
    DecodesExactly text maxBytes.toNat ↔
      if maxBytes.toNat + 3 < 2 ^ 64 then ¬ Mispadded text maxBytes.toNat
      else ¬ ∃ bs, bs.length ≤ maxBytes.toNat ∧ Spells text bs := by
  have hdecode := fun bs => @base64UrlDecode_eq_some_iff text bs maxBytes.toNat maxBytes.toNat_lt
  unfold DecodesExactly
  simp only [hdecode]
  split
  · rename_i hbound
    constructor
    · rintro h ⟨bs, hfits, n, hn, hrequired, htext⟩
      obtain ⟨-, hspells⟩ := (h bs).1 ⟨hbound, hfits, n, by omega, htext⟩
      obtain ⟨n', hn', htext'⟩ := spells_iff.1 hspells
      obtain ⟨-, rfl⟩ := append_padding_inj (htext.symm.trans htext')
      omega
    · intro h bs
      constructor
      · rintro ⟨-, hfits, n, hn, htext⟩
        refine ⟨hfits, spells_iff.2 ⟨n, ?_, htext⟩⟩
        by_contra hother
        exact h ⟨bs, hfits, n, by omega, by omega, htext⟩
      · rintro ⟨hfits, hspells⟩
        obtain ⟨n, hn, htext⟩ := spells_iff.1 hspells
        have hrequired := (finalPadding_eq bs).2
        exact ⟨hbound, hfits, n, by omega, htext⟩
  · rename_i hbound
    constructor
    · rintro h ⟨bs, hfits, hspells⟩
      exact hbound ((h bs).2 ⟨hfits, hspells⟩).1
    · intro h bs
      exact ⟨fun hd => absurd hd.1 hbound, fun hs => absurd ⟨bs, hs⟩ h⟩

set_option maxRecDepth 100000 in
/-- Three encoded bytes are decoded with a padding character behind them that no group requires. -/
theorem decodes_mispadded : ¬ ∀ (text : Bytes) (maxBytes : UInt64), DecodesExactly text maxBytes.toNat := by
  intro h
  have hdecoded : base64UrlDecode (utf8 "QUJD=") 3 = some (utf8 "ABC") := by decide +kernel
  obtain ⟨-, hspells⟩ := (h (utf8 "QUJD=") 3 (utf8 "ABC")).1 hdecoded
  have hnot : ¬ (utf8 "QUJD=" = base64UrlEncode (utf8 "ABC") ∨
      utf8 "QUJD=" = base64UrlEncode (utf8 "ABC") ++ finalPadding (utf8 "ABC")) := by decide +kernel
  exact hnot hspells

/-! ## Incarnations -/

namespace Incarnation

theorem isZero_iff (i : Incarnation) : i.isZero = true ↔ i = .zero := by
  unfold isZero
  rw [List.all_eq_true]
  constructor
  · intro h
    exact Incarnation.ext (List.eq_replicate_iff.2 ⟨i.length_eq, fun b hb => by simpa using h b hb⟩)
  · rintro rfl b hb
    rw [List.eq_of_mem_replicate hb]
    rfl

/-- The text of an incarnation that is not zero is read. -/
theorem parse_str {i : Incarnation} (h : i.isZero = false) : parse i.str = some i := by
  unfold parse str
  rw [base64UrlDecode_encode (by decide) (show i.bytes.length ≤ incarnationBytes from le_of_eq i.length_eq)]
  simp only [dif_pos i.length_eq]
  exact if_neg (by rw [h]; decide)

end Incarnation

end Wnc
