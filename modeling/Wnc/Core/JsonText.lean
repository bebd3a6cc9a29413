/-
The canonical text of JSON values apart from the budget it is written under, and the tokens of it as the
decoder reads them back: strings and numbers.
-/
import Wnc.Core.JsonDecode

namespace Wnc

open Lib

namespace Json

/-! ## Text without a budget -/

mutual

def text : Json → Bytes
  | .null => utf8 "null"
  | .bool b => if b then utf8 "true" else utf8 "false"
  | .int i => formatInt i
  | .real d => (formatCanonicalReal d).getD []
  | .string s => escapedString s
  | .array items => 91 :: textItems items true
  | .object members => 123 :: textMembers members true

def textItems : List Json → Bool → Bytes
  | [], _ => [93]
  | value :: rest, first => (if first then [] else [44]) ++ text value ++ textItems rest false

def textMembers : List (Bytes × Json) → Bool → Bytes
  | [], _ => [125]
  | (key, value) :: rest, first =>
    (if first then [] else [44]) ++ escapedString key ++ [58] ++ text value ++ textMembers rest false

end

mutual

/-- What stays within the budget was not cut. -/
theorem dumpImpl_eq_text (budget : Nat) : ∀ (v : Json) (size : Nat),
    size + (dumpImpl budget v size).length ≤ budget → dumpImpl budget v size = text v
  | .null, size, h => by simp only [dumpImpl, text] at h ⊢; exact if_neg (by omega)
  | .bool b, size, h => by simp only [dumpImpl, text] at h ⊢; exact if_neg (by omega)
  | .int i, size, h => by simp only [dumpImpl, text] at h ⊢; exact if_neg (by omega)
  | .real d, size, h => by simp only [dumpImpl, text] at h ⊢; exact if_neg (by omega)
  | .string s, size, h => by simp only [dumpImpl, text] at h ⊢; exact if_neg (by omega)
  | .array items, size, h => by
    have hsize : ¬size > budget := by omega
    simp only [dumpImpl, text, if_neg hsize, List.length_cons] at h ⊢
    rw [dumpItems_eq_text budget items true (size + 1) (by omega)]
  | .object members, size, h => by
    have hsize : ¬size > budget := by omega
    simp only [dumpImpl, text, if_neg hsize, List.length_cons] at h ⊢
    rw [dumpMembers_eq_text budget members true (size + 1) (by omega)]

theorem dumpItems_eq_text (budget : Nat) : ∀ (items : List Json) (first : Bool) (size : Nat),
    size + (dumpItems budget items first size).length ≤ budget → dumpItems budget items first size = textItems items first
  | [], _, _, _ => rfl
  | v :: rest, first, size, h => by
    simp only [dumpItems, textItems] at h ⊢
    generalize hs : (if first = true then ([] : Bytes) else [44]) = separator at h ⊢
    have hcut : ¬size + (separator ++ dumpImpl budget v (size + separator.length)).length > budget := by
      intro hc
      rw [if_pos hc] at h
      omega
    rw [if_neg hcut] at h ⊢
    simp only [List.length_append] at h hcut ⊢
    rw [dumpImpl_eq_text budget v _ (by omega)] at h ⊢
    rw [dumpItems_eq_text budget rest false _ (by omega)]

theorem dumpMembers_eq_text (budget : Nat) : ∀ (members : List (Bytes × Json)) (first : Bool) (size : Nat),
    size + (dumpMembers budget members first size).length ≤ budget →
      dumpMembers budget members first size = textMembers members first
  | [], _, _, _ => rfl
  | (key, v) :: rest, first, size, h => by
    simp only [dumpMembers, textMembers] at h ⊢
    generalize (if first = true then ([] : Bytes) else [44]) ++ escapedString key ++ [58] = opening at h ⊢
    have hcut : ¬size + (opening ++ dumpImpl budget v (size + opening.length)).length > budget := by
      intro hc
      rw [if_pos hc] at h
      omega
    rw [if_neg hcut] at h ⊢
    simp only [List.length_append] at h hcut ⊢
    rw [dumpImpl_eq_text budget v _ (by omega)] at h ⊢
    rw [dumpMembers_eq_text budget rest false _ (by omega)]

end

/-- A dump within the budget is the text of the value. -/
theorem dump_eq_text {v : Json} (h : v.dump.length ≤ maxDocumentBytes * 2) : v.dump = v.text :=
  dumpImpl_eq_text _ v 0 (by rw [Nat.zero_add]; exact h)

/-! ## Bounds -/

mutual

/-- A bound on the length of the text of a value, for which no text has to be written. -/
def extent : Json → Nat
  | .null => 4
  | .bool _ => 5
  | .int i => (formatInt i).length
  | .real d => ((formatCanonicalReal d).getD []).length
  | .string s => 6 * s.length + 2
  | .array items => extentItems items + 1
  | .object members => extentMembers members + 1

def extentItems : List Json → Nat
  | [] => 1
  | value :: rest => extent value + extentItems rest + 1

def extentMembers : List (Bytes × Json) → Nat
  | [] => 1
  | (key, value) :: rest => 6 * key.length + extent value + extentMembers rest + 4

end

theorem length_escapedString_le (s : Bytes) : (escapedString s).length ≤ 6 * s.length + 2 := by
  have hchar : ∀ c, (escapeChar c).length ≤ 6 := by
    intro c
    unfold escapeChar
    repeat' split
    all_goals simp
  have hflat : (s.flatMap escapeChar).length ≤ 6 * s.length := by
    induction s with
    | nil => exact Nat.le_refl 0
    | cons c s ih =>
      rw [List.flatMap_cons, List.length_append, List.length_cons]
      have := hchar c
      omega
  rw [escapedString, List.length_cons, List.length_append, List.length_singleton]
  omega

mutual

theorem length_dumpImpl_le (budget : Nat) : ∀ (v : Json) (size : Nat), (dumpImpl budget v size).length ≤ v.extent
  | .null, size => by
    simp only [dumpImpl, extent]
    split <;> decide
  | .bool b, size => by
    simp only [dumpImpl, extent]
    split
    · exact Nat.zero_le _
    · cases b <;> decide
  | .int i, size => by
    simp only [dumpImpl, extent]
    split
    · exact Nat.zero_le _
    · exact Nat.le_refl _
  | .real d, size => by
    simp only [dumpImpl, extent]
    split
    · exact Nat.zero_le _
    · exact Nat.le_refl _
  | .string s, size => by
    simp only [dumpImpl, extent]
    split
    · exact Nat.zero_le _
    · exact length_escapedString_le s
  | .array items, size => by
    simp only [dumpImpl, extent]
    split
    · exact Nat.zero_le _
    · exact Nat.succ_le_succ (length_dumpItems_le budget items true (size + 1))
  | .object members, size => by
    simp only [dumpImpl, extent]
    split
    · exact Nat.zero_le _
    · exact Nat.succ_le_succ (length_dumpMembers_le budget members true (size + 1))

theorem length_dumpItems_le (budget : Nat) : ∀ (items : List Json) (first : Bool) (size : Nat),
    (dumpItems budget items first size).length ≤ extentItems items
  | [], first, size => by rw [dumpItems, extentItems, List.length_singleton]
  | value :: rest, first, size => by
    rw [dumpItems, extentItems]
    generalize hfirst : (if first then [] else [44] : Bytes) = separator
    have hseparator : separator.length ≤ 1 := by rw [← hfirst]; cases first <;> decide
    have hvalue := length_dumpImpl_le budget value (size + separator.length)
    split
    · rw [List.length_append]
      omega
    · have hrest := length_dumpItems_le budget rest false
        (size + (separator ++ dumpImpl budget value (size + separator.length)).length)
      simp only [List.length_append] at hrest ⊢
      omega

theorem length_dumpMembers_le (budget : Nat) : ∀ (members : List (Bytes × Json)) (first : Bool) (size : Nat),
    (dumpMembers budget members first size).length ≤ extentMembers members
  | [], first, size => by rw [dumpMembers, extentMembers, List.length_singleton]
  | (key, value) :: rest, first, size => by
    rw [dumpMembers, extentMembers]
    generalize hfirst : (if first then [] else [44] : Bytes) = separator
    have hseparator : separator.length ≤ 1 := by rw [← hfirst]; cases first <;> decide
    have hopening : (separator ++ escapedString key ++ [58]).length ≤ 6 * key.length + 4 := by
      have hkey := length_escapedString_le key
      rw [List.length_append, List.length_append, List.length_singleton]
      omega
    generalize separator ++ escapedString key ++ [58] = opening at hopening ⊢
    have hvalue := length_dumpImpl_le budget value (size + opening.length)
    split
    · rw [List.length_append]
      omega
    · have hrest := length_dumpMembers_le budget rest false
        (size + (opening ++ dumpImpl budget value (size + opening.length)).length)
      simp only [List.length_append] at hrest ⊢
      omega

end

/-- The text of a value is bounded without being written. -/
theorem length_dump_le (v : Json) : v.dump.length ≤ v.extent := length_dumpImpl_le _ v 0

end Json

/-! ## UTF-8 -/

namespace Parser

/-- A text of well-formed UTF-8 sequences. -/
inductive ValidUtf8 : Bytes → Prop
  | nil : ValidUtf8 []
  | cons {sequence rest : Bytes} {codepoint : Nat} (h : decodeUtf8 sequence = some (sequence.length, codepoint))
      (hrest : ValidUtf8 rest) : ValidUtf8 (sequence ++ rest)

theorem decodeContinuation_spec : ∀ {k value : Nat} {bs : Bytes} {result : Nat},
    decodeContinuation k value bs = some result →
      k ≤ bs.length ∧ (∀ b ∈ bs.take k, 0x80 ≤ b) ∧ ∀ rest, decodeContinuation k value (bs.take k ++ rest) = some result
  | 0, _, _, _, h => ⟨Nat.zero_le _, fun _ hb => by simp at hb, fun rest => by simpa [decodeContinuation] using h⟩
  | _ + 1, _, [], _, h => by cases h
  | k + 1, value, b :: bs, result, h => by
    rw [decodeContinuation] at h
    split at h
    · rename_i hb
      obtain ⟨hlen, hall, happ⟩ := decodeContinuation_spec h
      refine ⟨Nat.succ_le_succ hlen, fun c hc => ?_, fun rest => ?_⟩
      · rw [List.take_succ_cons, List.mem_cons] at hc
        rcases hc with rfl | hc
        · exact hb.1
        · exact hall c hc
      · rw [List.take_succ_cons, List.cons_append, decodeContinuation, if_pos hb]
        exact happ rest
    · cases h

/-- A decoded sequence lies within the text, depends on its own bytes alone, and has no ASCII byte unless it is
one. -/
theorem decodeUtf8_spec {bs : Bytes} {length codepoint : Nat} (h : decodeUtf8 bs = some (length, codepoint)) :
    0 < length ∧ length ≤ bs.length ∧ (1 < length → ∀ b ∈ bs.take length, 0x80 ≤ b) ∧
      ∀ rest, decodeUtf8 (bs.take length ++ rest) = some (length, codepoint) := by
  cases bs with
  | nil => cases h
  | cons b bs =>
    -- a sequence of several bytes, whatever its length
    have multi : ∀ {k lead minimum value : Nat}, 0x80 ≤ b → decodeContinuation k lead bs = some value →
        (if value < minimum then none
          else if 0xD800 ≤ value ∧ value ≤ 0xDFFF then none
          else if value > 0x10FFFF then none
          else some (k + 1, value)) = some (length, codepoint) →
        0 < length ∧ length ≤ (b :: bs).length ∧ (1 < length → ∀ c ∈ (b :: bs).take length, 0x80 ≤ c) ∧ length = k + 1 ∧
          ∀ rest, decodeContinuation k lead (bs.take k ++ rest) = some value := by
      intro k lead minimum value hb hc hm
      obtain ⟨hlen, hall, happ⟩ := decodeContinuation_spec hc
      have hlength : length = k + 1 := by
        split at hm
        · cases hm
        · split at hm
          · cases hm
          · split at hm
            · cases hm
            · cases hm; rfl
      subst hlength
      refine ⟨Nat.succ_pos k, Nat.succ_le_succ hlen, fun _ c hcm => ?_, rfl, happ⟩
      rw [List.take_succ_cons, List.mem_cons] at hcm
      rcases hcm with rfl | hcm
      · exact hb
      · exact hall c hcm
    unfold decodeUtf8 at h ⊢
    simp only at h
    split at h
    · rename_i hb
      cases h
      exact ⟨Nat.one_pos, Nat.succ_le_succ (Nat.zero_le _), fun hlt => absurd hlt (lt_irrefl 1), fun rest => by simp [hb]⟩
    · rename_i hb
      split at h
      · rename_i h2
        cases hc : decodeContinuation (2 - 1) (b.toNat % 32) bs with
        | none => rw [hc] at h; cases h
        | some value =>
          rw [hc] at h
          obtain ⟨hpos, hle, hhigh, rfl, happ⟩ := multi (not_lt.1 hb) hc h
          refine ⟨hpos, hle, hhigh, fun rest => ?_⟩
          simp only [List.take_succ_cons, List.cons_append, if_neg hb, if_pos h2, happ]
          exact h
      · rename_i h2
        split at h
        · rename_i h3
          cases hc : decodeContinuation (3 - 1) (b.toNat % 16) bs with
          | none => rw [hc] at h; cases h
          | some value =>
            rw [hc] at h
            obtain ⟨hpos, hle, hhigh, rfl, happ⟩ := multi (not_lt.1 hb) hc h
            refine ⟨hpos, hle, hhigh, fun rest => ?_⟩
            simp only [List.take_succ_cons, List.cons_append, if_neg hb, if_neg h2, if_pos h3, happ]
            exact h
        · rename_i h3
          split at h
          · rename_i h4
            cases hc : decodeContinuation (4 - 1) (b.toNat % 8) bs with
            | none => rw [hc] at h; cases h
            | some value =>
              rw [hc] at h
              obtain ⟨hpos, hle, hhigh, rfl, happ⟩ := multi (not_lt.1 hb) hc h
              refine ⟨hpos, hle, hhigh, fun rest => ?_⟩
              simp only [List.take_succ_cons, List.cons_append, if_neg hb, if_neg h2, if_neg h3, if_pos h4, happ]
              exact h
          · cases h

/-! ## Strings -/

/-- The escape of a control character without a letter. -/
theorem parseUnicodeEscape_control : ∀ n < 32, (escapeFor (UInt8.ofNat n) = none →
    escapeChar (UInt8.ofNat n) = [92, 117, 48, 48, hexDigit (n / 16 % 16), hexDigit (n % 16)]) ∧
    [48, 48, hexDigit (n / 16 % 16), hexDigit (n % 16)].mapM hexDigitValue =
      some [0, 0, Fin.ofNat 16 (n / 16), Fin.ofNat 16 (n % 16)] := by decide +kernel

theorem parseHex4_digits {a b c d : UInt8} {digits : List (Fin 16)} (h : [a, b, c, d].mapM hexDigitValue = some digits)
    (rest : Bytes) :
    parseHex4 (a :: b :: c :: d :: rest) = .ok (digits.foldl (fun value d => value * 16 + d.val) 0, rest) := by
  unfold parseHex4
  rw [if_neg (by simp), show (a :: b :: c :: d :: rest).take 4 = [a, b, c, d] from rfl, h]
  rfl

/-- An escaped control character reads back. -/
theorem parseChar_control {c : UInt8} (h : c < 32) (rest : Bytes) :
    parseChar (escapeChar c ++ rest) = .ok ([c], rest) := by
  obtain ⟨n, hn, rfl⟩ : ∃ n < 32, c = UInt8.ofNat n :=
    ⟨c.toNat, UInt8.lt_iff_toNat_lt.1 h, (UInt8.ofNat_toNat).symm⟩
  obtain ⟨hescape, hdigits⟩ := parseUnicodeEscape_control n hn
  cases hf : escapeFor (UInt8.ofNat n) with
  | none =>
    have hvalue : [(0 : Fin 16), 0, Fin.ofNat 16 (n / 16), Fin.ofNat 16 (n % 16)].foldl
        (fun value d => value * 16 + d.val) 0 = n := by
      simp only [List.foldl_cons, List.foldl_nil, Fin.val_ofNat, Fin.val_zero]
      omega
    have hunicode : parseUnicodeEscape (48 :: 48 :: hexDigit (n / 16 % 16) :: hexDigit (n % 16) :: rest) = .ok (n, rest) := by
      rw [parseUnicodeEscape, parseHex4_digits hdigits, hvalue]
      simp only
      rw [if_neg (by omega), if_neg (by omega)]
    rw [hescape hf]
    show parseChar (92 :: 117 :: 48 :: 48 :: hexDigit (n / 16 % 16) :: hexDigit (n % 16) :: rest) = _
    rw [parseChar]
    simp only [hunicode]
    rw [appendUtf8, if_pos (by omega)]
  | some letter =>
    -- the five characters that have a letter
    clear hescape hdigits
    unfold escapeFor at hf
    split at hf
    · rename_i hc; rw [hc]; rfl
    · split at hf
      · rename_i hc; rw [hc]; rfl
      · split at hf
        · rename_i hc; rw [hc]; rfl
        · split at hf
          · rename_i hc; rw [hc]; rfl
          · split at hf
            · rename_i hc; rw [hc]; rfl
            · cases hf

theorem length_escapeChar_pos (c : UInt8) : 0 < (escapeChar c).length := by
  unfold escapeChar
  split
  · decide
  · split
    · decide
    · split
      · split <;> simp
      · simp

theorem head_escapeChar_control {c : UInt8} (h : c < 32) : ∃ rest, escapeChar c = 92 :: rest := by
  have h34 : c ≠ 34 := fun hc => absurd h (by rw [hc]; decide)
  have h92 : c ≠ 92 := fun hc => absurd h (by rw [hc]; decide)
  rw [escapeChar, if_neg h34, if_neg h92, if_pos h]
  split <;> exact ⟨_, rfl⟩

/-- A character that is written as it is. -/
theorem escapeChar_plain {c : UInt8} (h34 : c ≠ 34) (h92 : c ≠ 92) (h32 : ¬c < 32) : escapeChar c = [c] := by
  rw [escapeChar, if_neg h34, if_neg h92, if_neg h32]

theorem flatMap_escapeChar {s : Bytes} (h : ∀ c ∈ s, c ≠ 34 ∧ c ≠ 92 ∧ ¬c < 32) : s.flatMap escapeChar = s := by
  induction s with
  | nil => rfl
  | cons c s ih =>
    rw [List.forall_mem_cons] at h
    rw [List.flatMap_cons, escapeChar_plain h.1.1 h.1.2.1 h.1.2.2, ih h.2]
    rfl

theorem parseChar_plain {c : UInt8} {behind : Bytes} {length codepoint : Nat} (h : c ≠ 92)
    (hd : decodeUtf8 (c :: behind) = some (length, codepoint)) :
    parseChar (c :: behind) = .ok ((c :: behind).take length, (c :: behind).drop length) := by
  unfold parseChar
  split
  · rename_i heq
    cases heq
    exact absurd rfl h
  · rw [hd]

/-- The escaped bytes of a sequence read back as the sequence. -/
theorem parseChar_sequence {sequence : Bytes} {codepoint : Nat}
    (h : decodeUtf8 sequence = some (sequence.length, codepoint)) (tail : Bytes) :
    ∃ c behind, sequence.flatMap escapeChar ++ tail = c :: behind ∧ c ≠ 34 ∧ ¬c < 32 ∧
      parseChar (c :: behind) = .ok (sequence, tail) := by
  obtain ⟨hpos, _, hhigh, happ⟩ := decodeUtf8_spec h
  rw [List.take_length] at hhigh happ
  have hplain : ∀ c rest, sequence = c :: rest → sequence.flatMap escapeChar = sequence → c ≠ 34 → c ≠ 92 → ¬c < 32 →
      ∃ c behind, sequence.flatMap escapeChar ++ tail = c :: behind ∧ c ≠ 34 ∧ ¬c < 32 ∧
        parseChar (c :: behind) = .ok (sequence, tail) := by
    intro c rest hs hesc h34 h92 h32
    refine ⟨c, rest ++ tail, by rw [hesc, hs]; rfl, h34, h32, ?_⟩
    have hd := happ tail
    rw [hs, List.cons_append] at hd
    rw [parseChar_plain h92 hd, ← List.cons_append, List.take_left, List.drop_left, hs]
  cases sequence with
  | nil => cases h
  | cons c rest =>
    cases rest with
    | nil =>
      by_cases h32 : c < 32
      · obtain ⟨rest, hrest⟩ := head_escapeChar_control h32
        refine ⟨92, rest ++ tail, by simp [hrest], by decide, by decide, ?_⟩
        have := parseChar_control h32 tail
        rwa [hrest] at this
      · by_cases h34 : c = 34
        · subst h34; exact ⟨92, 34 :: tail, rfl, by decide, by decide, rfl⟩
        · by_cases h92 : c = 92
          · subst h92; exact ⟨92, 92 :: tail, rfl, by decide, by decide, rfl⟩
          · exact hplain c [] rfl (by simp [escapeChar_plain h34 h92 h32]) h34 h92 h32
    | cons d rest =>
      -- no byte of a longer sequence is escaped
      have hall : ∀ b ∈ c :: d :: rest, b ≠ 34 ∧ b ≠ 92 ∧ ¬b < 32 := by
        intro b hb
        have hge := UInt8.le_iff_toNat_le.1 (hhigh (by simp) b hb)
        refine ⟨fun he => ?_, fun he => ?_, fun he => ?_⟩
        · rw [he] at hge; exact absurd hge (by decide)
        · rw [he] at hge; exact absurd hge (by decide)
        · exact absurd (lt_of_le_of_lt hge (UInt8.lt_iff_toNat_lt.1 he)) (by decide)
      obtain ⟨h34, h92, h32⟩ := hall c List.mem_cons_self
      exact hplain c (d :: rest) rfl (flatMap_escapeChar hall) h34 h92 h32

/-- The escaped text of a valid string within the bound reads back. -/
theorem parseStringLoop_escaped {o : JsonDecodeOptions} {s : Bytes} (h : ValidUtf8 s) : ∀ {fuel : Nat} {out : Bytes}
    (rest : Bytes), (s.flatMap escapeChar).length < fuel → (out ++ s).length ≤ o.maxStringBytes →
      parseStringLoop o fuel out (s.flatMap escapeChar ++ 34 :: rest) = .ok (out ++ s, rest) := by
  induction h with
  | nil =>
    intro fuel out rest hfuel _
    obtain ⟨fuel, rfl⟩ := Nat.exists_eq_add_of_lt hfuel
    rw [List.flatMap_nil, List.nil_append, List.append_nil, parseStringLoop]
    simp
  | @cons sequence tail codepoint hs htail ih =>
    intro fuel out rest hfuel hlen
    obtain ⟨fuel, rfl⟩ : ∃ k, fuel = k + 1 := ⟨fuel - 1, by omega⟩
    obtain ⟨c, behind, heq, h34, h32, hparse⟩ := parseChar_sequence hs (tail.flatMap escapeChar ++ 34 :: rest)
    rw [List.flatMap_append, List.append_assoc, heq, parseStringLoop]
    simp only [if_neg h34, if_neg h32, hparse]
    rw [List.flatMap_append, List.length_append] at hfuel
    rw [← List.append_assoc] at hlen
    have hbound : ¬(out ++ sequence).length > o.maxStringBytes := by
      rw [List.length_append] at hlen; omega
    have hstep : 0 < (sequence.flatMap escapeChar).length := by
      cases sequence with
      | nil => cases hs
      | cons b bs =>
        rw [List.flatMap_cons, List.length_append]
        exact Nat.add_pos_left (length_escapeChar_pos b) _
    rw [if_neg hbound, ih rest (by omega) hlen, List.append_assoc]

theorem parseString_escaped {o : JsonDecodeOptions} {s : Bytes} (h : ValidUtf8 s) (hlen : s.length ≤ o.maxStringBytes)
    (rest : Bytes) : parseString o (escapedString s ++ rest) = .ok (s, rest) := by
  rw [escapedString, List.cons_append, List.append_assoc, parseString]
  exact parseStringLoop_escaped h rest (by simp only [List.length_append, List.length_cons]; omega) hlen

end Parser

end Wnc
