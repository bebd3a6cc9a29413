/-
The language of the decoder: the documents of RFC 8259 within the configured bounds, and the value each denotes. What the
decoder reads as a character, a string or a number is one, and what is one is read.
-/
import Wnc.Core.JsonRoundTrip

namespace Wnc

open Lib

namespace Grammar

/-! ## Strings -/

/-- White space: blanks, tabs, line feeds and carriage returns. -/
def Blank (text : Bytes) : Prop := ∀ c ∈ text, c = 32 ∨ c = 9 ∨ c = 10 ∨ c = 13

/-- A code point that is not a surrogate. -/
def Scalar (codepoint : Nat) : Prop := codepoint ≤ 0x10FFFF ∧ ¬(0xD800 ≤ codepoint ∧ codepoint ≤ 0xDFFF)

/-- Four hexadecimal digits and their value. -/
structure Hex4 (text : Bytes) (value : Nat) : Prop where
  length : text.length = 4
  digits : ∃ digits : List (Fin 16), text.mapM hexDigitValue = some digits ∧
    value = digits.foldl (fun value d => value * 16 + d.val) 0

/-- The letters of the short escapes and the characters they stand for. -/
def shortEscapes : List (UInt8 × UInt8) :=
  [(34, 34), (92, 92), (47, 47), (98, 8), (102, 12), (110, 10), (114, 13), (116, 9)]

/-- A character as it is written in a string, and the bytes it stands for. -/
inductive Character : Bytes → Bytes → Prop
  | plain {codepoint : Nat} (hscalar : Scalar codepoint) (hcontrol : 32 ≤ codepoint) (hquote : codepoint ≠ 34)
      (hescape : codepoint ≠ 92) : Character (Parser.appendUtf8 codepoint) (Parser.appendUtf8 codepoint)
  | short {letter c : UInt8} (h : (letter, c) ∈ shortEscapes) : Character [92, letter] [c]
  | escape {digits : Bytes} {codepoint : Nat} (h : Hex4 digits codepoint) (hscalar : Scalar codepoint) :
      Character (92 :: 117 :: digits) (Parser.appendUtf8 codepoint)
  | pair {digits digits' : Bytes} {high low : Nat} (hhigh : Hex4 digits high) (hlow : Hex4 digits' low)
      (h : 0xD800 ≤ high ∧ high ≤ 0xDBFF) (h' : 0xDC00 ≤ low ∧ low ≤ 0xDFFF) :
      Character (92 :: 117 :: digits ++ 92 :: 117 :: digits')
        (Parser.appendUtf8 (0x10000 + (high - 0xD800) * 1024 + (low - 0xDC00)))

inductive Characters : Bytes → Bytes → Prop
  | nil : Characters [] []
  | cons {text value texts values : Bytes} (h : Character text value) (hs : Characters texts values) :
      Characters (text ++ texts) (value ++ values)

/-- A string within a bound and the bytes it denotes. -/
inductive Quoted (o : JsonDecodeOptions) : Bytes → Bytes → Prop
  | mk {text value : Bytes} (h : Characters text value) (hlength : value.length ≤ o.maxStringBytes) :
      Quoted o (34 :: (text ++ [34])) value

/-! ## Numbers -/

structure Digits (text : Bytes) : Prop where
  nonempty : text ≠ []
  digit : ∀ c ∈ text, isDigit c = true

inductive Fraction : Bytes → Option Bytes → Prop
  | none : Fraction [] none
  | some {digits : Bytes} (h : Digits digits) : Fraction (46 :: digits) (some digits)

inductive Sign : Bytes → Option UInt8 → Prop
  | none : Sign [] none
  | plus : Sign [43] (some 43)
  | minus : Sign [45] (some 45)

inductive Exponent : Bytes → Option (Option UInt8 × Bytes) → Prop
  | none : Exponent [] none
  | some {e : UInt8} {signText digits : Bytes} {sign : Option UInt8} (he : e = 101 ∨ e = 69) (hsign : Sign signText sign)
      (h : Digits digits) : Exponent (e :: (signText ++ digits)) (some (sign, digits))

/-- A number as it is written, without leading zeros. -/
inductive Numeral : Bytes → Parser.Literal → Prop
  | mk {negative : Bool} {integer fractionText exponentText : Bytes} {fraction : Option Bytes}
      {exponent : Option (Option UInt8 × Bytes)} (hinteger : IsNumeral integer) (hfraction : Fraction fractionText fraction)
      (hexponent : Exponent exponentText exponent) :
      Numeral ((if negative then [45] else []) ++ (integer ++ (fractionText ++ exponentText)))
        ⟨negative, integer, fraction, exponent⟩

/-- The value of a number: an integer of 64 bits when it has neither fraction nor exponent, else what it is converted to,
if that is finite. -/
inductive Denotes : Parser.Literal → Json → Prop
  | int {l : Parser.Literal} {i : Int64} (h : l.isReal = false)
      (hi : i.toInt = if l.negative then -(decimalValue l.integer : Int) else decimalValue l.integer) : Denotes l (.int i)
  | real {l : Parser.Literal} {d : Double} (h : l.isReal = true) (hd : l.fromChars = some d) (hfinite : d.isFinite = true) :
      Denotes l (.ofReal d)

/-! ## Values -/

/-- The literal names and the values they stand for. -/
def literals : List (Bytes × Json) := [(utf8 "true", .bool true), (utf8 "false", .bool false), (utf8 "null", .null)]

/-- What a stretch of a text stands for: a value, or what is between the brackets of an array or of an object. -/
inductive Phrase
  | value (v : Json)
  | items (items : List Json)
  | members (members : List (Bytes × Json))

/-- The members of an object behind those of a map, in the order of their keys. -/
def memberMap (map members : List (Bytes × Json)) : List (Bytes × Json) :=
  members.foldl (fun map e => Assoc.set e.1 e.2 map) map

/-- A text that stands for a phrase inside a number of arrays and objects, within the bounds of the options. -/
inductive Stands (o : JsonDecodeOptions) : Nat → Phrase → Bytes → Prop
  | literal {depth : Nat} {text : Bytes} {v : Json} (hdepth : depth ≤ o.depthBound) (h : (text, v) ∈ literals) :
      Stands o depth (.value v) text
  | string {depth : Nat} {text value : Bytes} (hdepth : depth ≤ o.depthBound) (h : Quoted o text value) :
      Stands o depth (.value (.string value)) text
  | number {depth : Nat} {text : Bytes} {l : Parser.Literal} {v : Json} (hdepth : depth ≤ o.depthBound) (h : Numeral text l)
      (hlength : text.length ≤ 64) (hv : Denotes l v) : Stands o depth (.value v) text
  | emptyArray {depth : Nat} {blank : Bytes} (hdepth : depth ≤ o.depthBound) (hblank : Blank blank) :
      Stands o depth (.value (.array [])) (91 :: (blank ++ [93]))
  | array {depth : Nat} {text : Bytes} {items : List Json} (hdepth : depth ≤ o.depthBound)
      (h : Stands o (depth + 1) (.items items) text) : Stands o depth (.value (.array items)) (91 :: (text ++ [93]))
  | emptyObject {depth : Nat} {blank : Bytes} (hdepth : depth ≤ o.depthBound) (hblank : Blank blank) :
      Stands o depth (.value (.object [])) (123 :: (blank ++ [125]))
  | object {depth : Nat} {text : Bytes} {members : List (Bytes × Json)} (hdepth : depth ≤ o.depthBound)
      (h : Stands o (depth + 1) (.members members) text) (hkeys : (members.map Prod.fst).Nodup) :
      Stands o depth (.value (.object (memberMap [] members))) (123 :: (text ++ [125]))
  | item {depth : Nat} {before text after : Bytes} {v : Json} (hbefore : Blank before) (h : Stands o depth (.value v) text)
      (hafter : Blank after) : Stands o depth (.items [v]) (before ++ (text ++ after))
  | items {depth : Nat} {before text after texts : Bytes} {v : Json} {items : List Json} (hbefore : Blank before)
      (h : Stands o depth (.value v) text) (hafter : Blank after) (hs : Stands o depth (.items items) texts) :
      Stands o depth (.items (v :: items)) (before ++ (text ++ (after ++ 44 :: texts)))
  | member {depth : Nat} {before keyText between behind text after key : Bytes} {v : Json} (hbefore : Blank before)
      (hkey : Quoted o keyText key) (hbetween : Blank between) (hbehind : Blank behind) (h : Stands o depth (.value v) text)
      (hafter : Blank after) :
      Stands o depth (.members [(key, v)]) (before ++ (keyText ++ (between ++ 58 :: (behind ++ (text ++ after)))))
  | members {depth : Nat} {before keyText between behind text after texts key : Bytes} {v : Json}
      {members : List (Bytes × Json)} (hbefore : Blank before) (hkey : Quoted o keyText key) (hbetween : Blank between)
      (hbehind : Blank behind) (h : Stands o depth (.value v) text) (hafter : Blank after)
      (hs : Stands o depth (.members members) texts) :
      Stands o depth (.members ((key, v) :: members))
        (before ++ (keyText ++ (between ++ 58 :: (behind ++ (text ++ (after ++ 44 :: texts))))))

/-- A document within the bounds of the options and the value it denotes. -/
structure Document (o : JsonDecodeOptions) (text : Bytes) (v : Json) : Prop where
  size : text.length ≤ o.maxBytes
  content : ∃ before body after, text = before ++ (body ++ after) ∧ Blank before ∧ Blank after ∧ Stands o 0 (.value v) body
  object : o.requireObject = true → v.isObject = true

end Grammar

namespace Parser

open Grammar

/-! ### UTF-8 -/

/-- The lead byte of a sequence. -/
theorem ofNat_lead {b low high : UInt8} (base bits : Nat) (h : low ≤ b ∧ b < high) (hlow : low.toNat = base)
    (hhigh : high.toNat = base + bits) (hbase : base % bits = 0) : UInt8.ofNat (base + b.toNat % bits) = b := by
  have h1 := UInt8.le_iff_toNat_le.1 h.1
  have h2 := UInt8.lt_iff_toNat_lt.1 h.2
  have hmod : b.toNat % bits = b.toNat - base := by
    have hsplit : b.toNat = base + (b.toNat - base) := by omega
    rw [hsplit, Nat.add_mod, hbase, Nat.zero_add, Nat.mod_mod, Nat.mod_eq_of_lt (by omega)]
    omega
  rw [hmod, Nat.add_sub_cancel' (by omega), UInt8.ofNat_toNat]

theorem decodeContinuation_sound {k value result : Nat} {bs : Bytes} (h : decodeContinuation (k + 1) value bs = some result) :
    ∃ n rest, n < 64 ∧ bs = UInt8.ofNat (0x80 + n) :: rest ∧ decodeContinuation k (value * 64 + n) rest = some result := by
  cases bs with
  | nil => cases h
  | cons b rest =>
    rw [decodeContinuation] at h
    split at h
    · rename_i hb
      refine ⟨b.toNat % 64, rest, Nat.mod_lt _ (by decide), ?_, h⟩
      rw [ofNat_lead 0x80 64 hb rfl rfl rfl]
    · cases h

theorem appendUtf8_two {lead n : Nat} (hlead : lead < 32) (hn : n < 64) (h : 0x80 ≤ lead * 64 + n) :
    appendUtf8 (lead * 64 + n) = [UInt8.ofNat (0xC0 + lead), UInt8.ofNat (0x80 + n)] := by
  unfold appendUtf8
  rw [if_neg (by omega), if_pos (by omega), show (lead * 64 + n) / 64 = lead by omega, show (lead * 64 + n) % 64 = n by omega]

theorem appendUtf8_three {lead m n : Nat} (hlead : lead < 16) (hm : m < 64) (hn : n < 64)
    (h : 0x800 ≤ (lead * 64 + m) * 64 + n) : appendUtf8 ((lead * 64 + m) * 64 + n) =
      [UInt8.ofNat (0xE0 + lead), UInt8.ofNat (0x80 + m), UInt8.ofNat (0x80 + n)] := by
  unfold appendUtf8
  rw [if_neg (by omega), if_neg (by omega), if_pos (by omega), show ((lead * 64 + m) * 64 + n) / 4096 = lead by omega,
    show ((lead * 64 + m) * 64 + n) / 64 % 64 = m by omega, show ((lead * 64 + m) * 64 + n) % 64 = n by omega]

theorem appendUtf8_four {lead l m n : Nat} (hl : l < 64) (hm : m < 64) (hn : n < 64)
    (h : 0x10000 ≤ ((lead * 64 + l) * 64 + m) * 64 + n) : appendUtf8 (((lead * 64 + l) * 64 + m) * 64 + n) =
      [UInt8.ofNat (0xF0 + lead), UInt8.ofNat (0x80 + l), UInt8.ofNat (0x80 + m), UInt8.ofNat (0x80 + n)] := by
  unfold appendUtf8
  rw [if_neg (by omega), if_neg (by omega), if_neg (by omega),
    show (((lead * 64 + l) * 64 + m) * 64 + n) / 262144 = lead by omega,
    show (((lead * 64 + l) * 64 + m) * 64 + n) / 4096 % 64 = l by omega,
    show (((lead * 64 + l) * 64 + m) * 64 + n) / 64 % 64 = m by omega,
    show (((lead * 64 + l) * 64 + m) * 64 + n) % 64 = n by omega]

/-- A decoded sequence is the one of its code point. -/
theorem decodeUtf8_sound {bs : Bytes} {length codepoint : Nat} (h : decodeUtf8 bs = some (length, codepoint)) :
    Scalar codepoint ∧ bs.take length = appendUtf8 codepoint := by
  cases bs with
  | nil => cases h
  | cons b bs =>
    -- what is checked of a sequence of several bytes
    have checked : ∀ {k minimum value : Nat}, (if value < minimum then none
        else if 0xD800 ≤ value ∧ value ≤ 0xDFFF then none
        else if value > 0x10FFFF then none
        else some (k, value)) = some (length, codepoint) →
          length = k ∧ codepoint = value ∧ minimum ≤ codepoint ∧ Scalar codepoint := by
      intro k minimum value hm
      split at hm
      · cases hm
      · split at hm
        · cases hm
        · split at hm
          · cases hm
          · cases hm
            exact ⟨rfl, rfl, by omega, by omega, by omega⟩
    unfold decodeUtf8 at h
    simp only at h
    split at h
    · rename_i hb
      cases h
      have hlt : b.toNat < 0x80 := UInt8.lt_iff_toNat_lt.1 hb
      refine ⟨⟨by omega, by omega⟩, ?_⟩
      rw [appendUtf8, if_pos hlt, UInt8.ofNat_toNat]
      rfl
    · split at h
      · rename_i hlead
        cases hc : decodeContinuation (2 - 1) (b.toNat % 32) bs with
        | none => rw [hc] at h; cases h
        | some value =>
          rw [hc] at h
          obtain ⟨hlength, hvalue, hminimum, hscalar⟩ := checked h
          obtain ⟨n, rest, hn, rfl, hdone⟩ := decodeContinuation_sound hc
          have hdone := Option.some.inj hdone
          rw [← hvalue] at hdone
          refine ⟨hscalar, ?_⟩
          rw [hlength, ← hdone, appendUtf8_two (Nat.mod_lt _ (by decide)) hn (by omega), ofNat_lead 0xC0 32 hlead rfl rfl rfl]
          rfl
      · split at h
        · rename_i hlead
          cases hc : decodeContinuation (3 - 1) (b.toNat % 16) bs with
          | none => rw [hc] at h; cases h
          | some value =>
            rw [hc] at h
            obtain ⟨hlength, hvalue, hminimum, hscalar⟩ := checked h
            obtain ⟨m, rest, hm, rfl, hc'⟩ := decodeContinuation_sound hc
            obtain ⟨n, rest, hn, rfl, hdone⟩ := decodeContinuation_sound hc'
            have hdone := Option.some.inj hdone
            rw [← hvalue] at hdone
            refine ⟨hscalar, ?_⟩
            rw [hlength, ← hdone, appendUtf8_three (Nat.mod_lt _ (by decide)) hm hn (by omega), ofNat_lead 0xE0 16 hlead rfl rfl rfl]
            rfl
        · split at h
          · rename_i hlead
            cases hc : decodeContinuation (4 - 1) (b.toNat % 8) bs with
            | none => rw [hc] at h; cases h
            | some value =>
              rw [hc] at h
              obtain ⟨hlength, hvalue, hminimum, hscalar⟩ := checked h
              obtain ⟨l, rest, hl, rfl, hc'⟩ := decodeContinuation_sound hc
              obtain ⟨m, rest, hm, rfl, hc''⟩ := decodeContinuation_sound hc'
              obtain ⟨n, rest, hn, rfl, hdone⟩ := decodeContinuation_sound hc''
              have hdone := Option.some.inj hdone
              rw [← hvalue] at hdone
              refine ⟨hscalar, ?_⟩
              rw [hlength, ← hdone, appendUtf8_four hl hm hn (by omega),
                ofNat_lead 0xF0 8 hlead rfl rfl rfl]
              rfl
          · cases h

/-- The sequence of a code point is decoded, whatever is behind it. -/
theorem decodeUtf8_complete {codepoint : Nat} (h : Scalar codepoint) (rest : Bytes) :
    decodeUtf8 (appendUtf8 codepoint ++ rest) = some ((appendUtf8 codepoint).length, codepoint) := by
  obtain ⟨-, -, -, happ⟩ := decodeUtf8_spec (decodeUtf8_appendUtf8 h.1 h.2)
  rw [← happ rest, List.take_length]

/-! ### Characters -/

theorem parseHex4_sound {input rest : Bytes} {value : Nat} (h : parseHex4 input = .ok (value, rest)) :
    ∃ digits, input = digits ++ rest ∧ Hex4 digits value := by
  unfold parseHex4 at h
  split at h
  · cases h
  · rename_i hlength
    split at h
    · cases h
    · rename_i ds hds
      cases h
      exact ⟨input.take 4, (List.take_append_drop 4 input).symm, by rw [List.length_take]; omega, ds, hds, rfl⟩

theorem parseHex4_complete {digits : Bytes} {value : Nat} (h : Hex4 digits value) (rest : Bytes) :
    parseHex4 (digits ++ rest) = .ok (value, rest) := by
  obtain ⟨hlength, ds, hds, rfl⟩ := h
  have htake : (digits ++ rest).take 4 = digits := by rw [← hlength, List.take_left']; rfl
  have hdrop : (digits ++ rest).drop 4 = rest := by rw [← hlength, List.drop_left']; rfl
  unfold parseHex4
  rw [if_neg (by rw [List.length_append]; omega), htake, hds, hdrop]

/-- What an escape of a code point reads: four digits, or a high surrogate with the low one behind it. -/
theorem parseUnicodeEscape_sound {input rest : Bytes} {codepoint : Nat}
    (h : parseUnicodeEscape input = .ok (codepoint, rest)) :
    ∃ text, input = text ++ rest ∧ Character (92 :: 117 :: text) (appendUtf8 codepoint) := by
  unfold parseUnicodeEscape at h
  split at h
  · cases h
  · rename_i first behind hfirst
    obtain ⟨digits, rfl, hdigits⟩ := parseHex4_sound hfirst
    have hrange := parseHex4_lt hfirst
    split at h
    · rename_i hhigh
      split at h
      · rename_i low
        split at h
        · cases h
        · split at h
          · cases h
          · rename_i second behind hsecond
            obtain ⟨digits', rfl, hdigits'⟩ := parseHex4_sound hsecond
            split at h
            · cases h
            · rename_i hlow
              obtain ⟨rfl, rfl⟩ := Prod.mk.inj (Except.ok.inj h)
              refine ⟨digits ++ 92 :: 117 :: digits', by simp, ?_⟩
              exact .pair hdigits hdigits' hhigh (by omega)
      · cases h
    · rename_i hhigh
      split at h
      · cases h
      · rename_i hlow
        cases h
        exact ⟨digits, rfl, .escape hdigits ⟨by omega, by omega⟩⟩

/-- What a character reads, given that it is neither a quote nor a control character. -/
theorem parseChar_sound {c : UInt8} {input rest value : Bytes} (hquote : c ≠ 34) (hcontrol : ¬c < 32)
    (h : parseChar (c :: input) = .ok (value, rest)) : ∃ text, c :: input = text ++ rest ∧ Character text value := by
  unfold parseChar at h
  split at h
  · rename_i escape heq
    cases heq
    split at h
    · cases h
    · cases h; exact ⟨[92, 34], rfl, .short (by decide)⟩
    · cases h; exact ⟨[92, 92], rfl, .short (by decide)⟩
    · cases h; exact ⟨[92, 47], rfl, .short (by decide)⟩
    · cases h; exact ⟨[92, 98], rfl, .short (by decide)⟩
    · cases h; exact ⟨[92, 102], rfl, .short (by decide)⟩
    · cases h; exact ⟨[92, 110], rfl, .short (by decide)⟩
    · cases h; exact ⟨[92, 114], rfl, .short (by decide)⟩
    · cases h; exact ⟨[92, 116], rfl, .short (by decide)⟩
    · split at h
      · cases h
      · rename_i codepoint rest' hescape
        cases h
        obtain ⟨text, rfl, hcharacter⟩ := parseUnicodeEscape_sound hescape
        exact ⟨92 :: 117 :: text, rfl, hcharacter⟩
    · cases h
  · rename_i hno
    split at h
    · cases h
    · rename_i length codepoint hdecode
      cases h
      obtain ⟨hscalar, htake⟩ := decodeUtf8_sound hdecode
      refine ⟨(c :: input).take length, (List.take_append_drop _ _).symm, ?_⟩
      rw [htake]
      have hsmall : codepoint < 0x80 → c = UInt8.ofNat codepoint := by
        intro hlt
        obtain ⟨n, rfl⟩ := Nat.exists_eq_succ_of_ne_zero (decodeUtf8_spec hdecode).1.ne'
        rw [appendUtf8, if_pos hlt, List.take_succ_cons] at htake
        exact (List.cons.inj htake).1
      refine .plain hscalar ?_ ?_ ?_
      · by_contra hlow
        refine hcontrol ?_
        rw [hsmall (by omega), UInt8.lt_iff_toNat_lt, toNat_byte (by omega)]
        exact not_le.1 hlow
      · rintro rfl
        exact hquote (hsmall (by decide))
      · rintro rfl
        exact hno input (by rw [hsmall (by decide)]; rfl)

theorem head_appendUtf8 (codepoint : Nat) : ∃ c more, appendUtf8 codepoint = c :: more ∧
    (codepoint < 0x80 → c.toNat = codepoint) ∧ (0x80 ≤ codepoint → codepoint ≤ 0x10FFFF → 0x80 ≤ c.toNat) := by
  unfold appendUtf8
  split
  · rename_i h
    exact ⟨_, _, rfl, fun _ => toNat_byte (by omega), fun h' => by omega⟩
  · rename_i h
    split
    · exact ⟨_, _, rfl, fun h' => absurd h' h, fun _ _ => by rw [toNat_byte (by omega)]; omega⟩
    · split
      · exact ⟨_, _, rfl, fun h' => absurd h' h, fun _ _ => by rw [toNat_byte (by omega)]; omega⟩
      · exact ⟨_, _, rfl, fun h' => absurd h' h, fun _ hmax => by rw [toNat_byte (by omega)]; omega⟩

theorem parseUnicodeEscape_escape {digits : Bytes} {codepoint : Nat} (h : Hex4 digits codepoint) (hscalar : Scalar codepoint)
    (rest : Bytes) : parseUnicodeEscape (digits ++ rest) = .ok (codepoint, rest) := by
  obtain ⟨-, hsurrogate⟩ := hscalar
  unfold parseUnicodeEscape
  rw [parseHex4_complete h]
  simp only
  rw [if_neg (by omega), if_neg (by omega)]

theorem parseUnicodeEscape_pair {digits digits' : Bytes} {high low : Nat} (hhigh : Hex4 digits high) (hlow : Hex4 digits' low)
    (h : 0xD800 ≤ high ∧ high ≤ 0xDBFF) (h' : 0xDC00 ≤ low ∧ low ≤ 0xDFFF) (rest : Bytes) :
    parseUnicodeEscape (digits ++ 92 :: 117 :: (digits' ++ rest)) =
      .ok (0x10000 + (high - 0xD800) * 1024 + (low - 0xDC00), rest) := by
  have hlength := hlow.length
  unfold parseUnicodeEscape
  rw [parseHex4_complete hhigh]
  simp only
  rw [if_pos h, if_neg (by rw [List.length_append]; omega), parseHex4_complete hlow]
  simp only
  rw [if_neg (by omega)]

/-- A character is read up to its end; it starts neither with a quote nor with a control character. -/
theorem parseChar_complete {text value : Bytes} (h : Character text value) :
    (∃ c more, text = c :: more ∧ c ≠ 34 ∧ ¬c < 32) ∧ ∀ rest, parseChar (text ++ rest) = .ok (value, rest) := by
  cases h with
  | @plain codepoint hscalar hcontrol hquote hescape =>
    obtain ⟨c, more, heq, hsmall, hlarge⟩ := head_appendUtf8 codepoint
    have hne : ∀ b : UInt8, b.toNat < 0x80 → codepoint ≠ b.toNat → c ≠ b := by
      rintro b hb hcodepoint rfl
      rcases lt_or_ge codepoint 0x80 with hlt | hge
      · exact hcodepoint (hsmall hlt).symm
      · exact absurd (hlarge hge hscalar.1) (not_le.2 hb)
    refine ⟨⟨c, more, heq, hne 34 (by decide) hquote, fun hlt => ?_⟩, fun rest => ?_⟩
    · have hlow : c.toNat < 32 := UInt8.lt_iff_toNat_lt.1 hlt
      rcases lt_or_ge codepoint 0x80 with hlt | hge
      · rw [hsmall hlt] at hlow
        omega
      · have := hlarge hge hscalar.1
        omega
    · have hdecode := decodeUtf8_complete hscalar rest
      rw [heq] at hdecode ⊢
      unfold parseChar
      split
      · rename_i heq'
        exact absurd (List.cons.inj heq').1 (hne 92 (by decide) hescape)
      · rw [hdecode]
        simp only [List.take_left', List.drop_left']
  | @short letter c hmem =>
    simp only [shortEscapes, List.mem_cons, Prod.mk.injEq, List.not_mem_nil, or_false] at hmem
    refine ⟨⟨92, [letter], rfl, by decide, by decide⟩, fun rest => ?_⟩
    rcases hmem with ⟨rfl, rfl⟩ | ⟨rfl, rfl⟩ | ⟨rfl, rfl⟩ | ⟨rfl, rfl⟩ | ⟨rfl, rfl⟩ | ⟨rfl, rfl⟩ | ⟨rfl, rfl⟩ | ⟨rfl, rfl⟩ <;>
      rfl
  | @escape digits codepoint hdigits hscalar =>
    refine ⟨⟨92, 117 :: digits, rfl, by decide, by decide⟩, fun rest => ?_⟩
    rw [List.cons_append, List.cons_append]
    unfold parseChar
    simp only [parseUnicodeEscape_escape hdigits hscalar rest]
  | @pair digits digits' high low hhigh hlow hrange hrange' =>
    refine ⟨⟨92, 117 :: (digits ++ 92 :: 117 :: digits'), rfl, by decide, by decide⟩, fun rest => ?_⟩
    rw [List.cons_append, List.cons_append, List.cons_append, List.cons_append, List.append_assoc, List.cons_append,
      List.cons_append]
    unfold parseChar
    simp only [parseUnicodeEscape_pair hhigh hlow hrange hrange' rest]

/-! ### Strings -/

theorem parseStringLoop_sound {o : JsonDecodeOptions} : ∀ {fuel : Nat} {out input value rest : Bytes},
    parseStringLoop o fuel out input = .ok (value, rest) →
      ∃ text more, input = text ++ 34 :: rest ∧ value = out ++ more ∧ Characters text more ∧
        (more ≠ [] → value.length ≤ o.maxStringBytes)
  | 0, _, _, _, _, h => by cases h
  | fuel + 1, out, input, value, rest, h => by
    unfold parseStringLoop at h
    split at h
    · cases h
    · rename_i c behind
      split at h
      · rename_i hquote
        cases h
        exact ⟨[], [], by rw [hquote]; rfl, (List.append_nil _).symm, .nil, fun h => absurd rfl h⟩
      · rename_i hquote
        split at h
        · cases h
        · rename_i hcontrol
          split at h
          · cases h
          · rename_i bytes rest' hchar
            split at h
            · cases h
            · rename_i hlength
              obtain ⟨text, htext, hcharacter⟩ := parseChar_sound hquote hcontrol hchar
              obtain ⟨texts, more, rfl, rfl, hmore, hbound⟩ := parseStringLoop_sound h
              refine ⟨text ++ texts, bytes ++ more, by rw [htext, List.append_assoc], by rw [List.append_assoc],
                .cons hcharacter hmore, fun _ => ?_⟩
              by_cases hempty : more = []
              · rw [hempty, List.append_nil]
                exact not_lt.1 hlength
              · exact hbound hempty

theorem parseString_sound {o : JsonDecodeOptions} {input value rest : Bytes} (h : parseString o input = .ok (value, rest)) :
    ∃ text, input = text ++ rest ∧ Quoted o text value := by
  unfold parseString at h
  split at h
  · obtain ⟨text, more, rfl, hvalue, hcharacters, hbound⟩ := parseStringLoop_sound h
    rw [List.nil_append] at hvalue
    rw [← hvalue] at hcharacters hbound
    refine ⟨34 :: (text ++ [34]), by simp, .mk hcharacters ?_⟩
    by_cases hempty : value = []
    · rw [hempty]
      exact Nat.zero_le _
    · exact hbound hempty
  · cases h

theorem parseStringLoop_complete {o : JsonDecodeOptions} {text value : Bytes} (h : Characters text value) :
    ∀ {fuel : Nat} {out : Bytes} (rest : Bytes), text.length < fuel → (out ++ value).length ≤ o.maxStringBytes →
      parseStringLoop o fuel out (text ++ 34 :: rest) = .ok (out ++ value, rest) := by
  induction h with
  | nil =>
    intro fuel out rest hfuel _
    obtain ⟨fuel, rfl⟩ := Nat.exists_eq_succ_of_ne_zero (Nat.ne_of_gt hfuel)
    rw [List.nil_append, parseStringLoop, List.append_nil]
    rfl
  | @cons text value texts values hcharacter _ ih =>
    intro fuel out rest hfuel hlength
    obtain ⟨fuel, rfl⟩ := Nat.exists_eq_succ_of_ne_zero (Nat.ne_of_gt (Nat.zero_lt_of_lt hfuel))
    obtain ⟨⟨c, more, rfl, hquote, hcontrol⟩, hparse⟩ := parseChar_complete hcharacter
    have hchar := hparse (texts ++ 34 :: rest)
    rw [← List.append_assoc] at hlength
    have hbound : ¬(out ++ value).length > o.maxStringBytes := by
      rw [List.length_append] at hlength
      omega
    rw [List.append_assoc, List.cons_append, parseStringLoop]
    rw [List.cons_append] at hchar
    simp only [if_neg hquote, if_neg hcontrol, hchar, if_neg hbound]
    rw [ih rest (by simp only [List.length_append, List.length_cons] at hfuel; omega) hlength, List.append_assoc]

theorem parseString_complete {o : JsonDecodeOptions} {text value : Bytes} (h : Quoted o text value) (rest : Bytes) :
    parseString o (text ++ rest) = .ok (value, rest) := by
  obtain ⟨hcharacters, hlength⟩ := h
  rename_i text
  rw [List.cons_append, List.append_assoc, parseString]
  exact parseStringLoop_complete hcharacters rest (by simp only [List.length_append]; omega) hlength

/-! ### Numbers -/

theorem scanDigits_sound {input digits rest : Bytes} {message : String} (h : scanDigits input message = .ok (digits, rest)) :
    input = digits ++ rest ∧ Digits digits := by
  unfold scanDigits at h
  split at h
  · cases h
  · rename_i hne
    cases h
    exact ⟨List.takeWhile_append_dropWhile.symm, hne, fun c hc => List.mem_takeWhile_imp hc⟩

theorem scanInteger_sound {input integer rest : Bytes} (h : scanInteger input = .ok (integer, rest)) :
    input = integer ++ rest ∧ IsNumeral integer := by
  unfold scanInteger at h
  split at h
  · cases h
  · rename_i more behind hscan
    obtain ⟨hinput, hdigits⟩ := scanDigits_sound hscan
    split at h
    · cases h
    · rename_i hmore
      cases h
      rw [not_not] at hmore
      rw [hmore] at hinput hdigits
      exact ⟨hinput, hdigits.nonempty, hdigits.digit, .inl rfl⟩
  · rename_i digits behind hno hscan
    obtain ⟨hinput, hdigits⟩ := scanDigits_sound hscan
    cases h
    refine ⟨hinput, hdigits.nonempty, hdigits.digit, .inr fun hhead => ?_⟩
    obtain ⟨more, rfl⟩ := List.head?_eq_some_iff.1 hhead
    exact hno more rfl

theorem scanFraction_sound {input rest : Bytes} {fraction : Option Bytes} (h : scanFraction input = .ok (fraction, rest)) :
    ∃ text, input = text ++ rest ∧ Fraction text fraction := by
  unfold scanFraction at h
  split at h
  · split at h
    · cases h
    · rename_i digits behind hscan
      cases h
      obtain ⟨rfl, hdigits⟩ := scanDigits_sound hscan
      exact ⟨46 :: digits, rfl, .some hdigits⟩
  · cases h
    exact ⟨[], rfl, .none⟩

theorem scanExponent_sound {input rest : Bytes} {exponent : Option (Option UInt8 × Bytes)}
    (h : scanExponent input = .ok (exponent, rest)) : ∃ text, input = text ++ rest ∧ Exponent text exponent := by
  unfold scanExponent at h
  split at h
  -- the letter in either case
  case h_1 tail | h_2 tail =>
    simp only at h
    split at h
    · cases h
    · rename_i digits rest' hscan
      cases h
      obtain ⟨hinput, hdigits⟩ := scanDigits_sound hscan
      split at hinput
      · exact ⟨_ :: ([43] ++ digits), by rw [List.cons_append, List.append_assoc, ← hinput]; rfl,
          .some (by decide) .plus hdigits⟩
      · exact ⟨_ :: ([45] ++ digits), by rw [List.cons_append, List.append_assoc, ← hinput]; rfl,
          .some (by decide) .minus hdigits⟩
      · exact ⟨_ :: ([] ++ digits), by rw [List.cons_append, List.append_assoc, ← hinput]; rfl,
          .some (by decide) .none hdigits⟩
  case h_3 =>
    cases h
    exact ⟨[], rfl, .none⟩

theorem scanNumber_sound {input rest : Bytes} {l : Literal} (h : scanNumber input = .ok (l, rest)) :
    ∃ text, input = text ++ rest ∧ Numeral text l := by
  unfold scanNumber at h
  simp only at h
  split at h
  · cases h
  · rename_i integer rest₁ hinteger
    split at h
    · cases h
    · rename_i fraction rest₂ hfraction
      split at h
      · cases h
      · rename_i exponent rest₃ hexponent
        cases h
        obtain ⟨hinput, hnumeral⟩ := scanInteger_sound hinteger
        obtain ⟨fractionText, rfl, hf⟩ := scanFraction_sound hfraction
        obtain ⟨exponentText, rfl, he⟩ := scanExponent_sound hexponent
        refine ⟨_, ?_, .mk hnumeral hf he⟩
        by_cases hnegative : (input.head? == some 45) = true
        · rw [if_pos hnegative] at hinput ⊢
          obtain ⟨more, rfl⟩ := List.head?_eq_some_iff.1 (beq_iff_eq.1 hnegative)
          rw [List.drop_one, List.tail_cons] at hinput
          rw [hinput]
          simp
        · rw [if_neg hnegative] at hinput ⊢
          rw [hinput]
          simp

/-- What may stand behind a number: nothing that goes on with it. -/
def Follows (rest : Bytes) : Prop := ∀ c ∈ rest.head?, isDigit c = false ∧ c ≠ 46 ∧ c ≠ 101 ∧ c ≠ 69

theorem scanExponent_complete {text rest : Bytes} {exponent : Option (Option UInt8 × Bytes)} (h : Exponent text exponent)
    (hrest : Follows rest) : scanExponent (text ++ rest) = .ok (exponent, rest) := by
  have hdigit : ∀ c ∈ rest.head?, isDigit c = false := fun c hc => (hrest c hc).1
  cases h with
  | none =>
    cases rest with
    | nil => rfl
    | cons c rest =>
      obtain ⟨-, -, hlower, hupper⟩ := hrest c rfl
      rw [List.nil_append]
      unfold scanExponent
      split
      · rename_i heq; exact absurd (List.cons.inj heq).1 hlower
      · rename_i heq; exact absurd (List.cons.inj heq).1 hupper
      · rfl
  | @some e signText digits sign he hsign hdigits =>
    have hscan := scanDigits_append hdigits.nonempty hdigits.digit hdigit "exponent has no digits"
    obtain ⟨d, more, hcons⟩ := List.exists_cons_of_ne_nil hdigits.nonempty
    have hd : isDigit d = true := hdigits.digit d (by rw [hcons]; exact List.mem_cons_self)
    have hplus : d ≠ 43 := by rintro rfl; exact absurd hd (by decide)
    have hminus : d ≠ 45 := by rintro rfl; exact absurd hd (by decide)
    rcases he with rfl | rfl <;> cases hsign <;> unfold scanExponent <;>
      simp_all

theorem scanFraction_complete {text rest : Bytes} {fraction : Option Bytes} (h : Fraction text fraction)
    (hrest : ∀ c ∈ rest.head?, isDigit c = false ∧ c ≠ 46) : scanFraction (text ++ rest) = .ok (fraction, rest) := by
  cases h with
  | none =>
    cases rest with
    | nil => rfl
    | cons c rest =>
      rw [List.nil_append]
      unfold scanFraction
      split
      · rename_i heq; exact absurd (List.cons.inj heq).1 (hrest c rfl).2
      · rfl
  | @some digits hdigits =>
    rw [List.cons_append, scanFraction, scanDigits_append hdigits.nonempty hdigits.digit (fun c hc => (hrest c hc).1)]

theorem scanNumber_complete {text rest : Bytes} {l : Literal} (h : Numeral text l) (hrest : Follows rest) :
    scanNumber (text ++ rest) = .ok (l, rest) := by
  obtain ⟨hinteger, hfraction, hexponent⟩ := h
  rename_i negative integer fractionText exponentText fraction exponent
  have hbehindExponent : ∀ c ∈ (exponentText ++ rest).head?, isDigit c = false ∧ c ≠ 46 := by
    cases hexponent with
    | none => exact fun c hc => ⟨(hrest c hc).1, (hrest c hc).2.1⟩
    | some he hsign hdigits =>
      intro c hc
      cases hc
      rcases he with rfl | rfl
      · exact ⟨rfl, by decide⟩
      · exact ⟨rfl, by decide⟩
  have hbehind : ∀ c ∈ (fractionText ++ (exponentText ++ rest)).head?, isDigit c = false := by
    cases hfraction with
    | none => exact fun c hc => (hbehindExponent c hc).1
    | some hdigits =>
      intro c hc
      cases hc
      rfl
  obtain ⟨d, more, hcons⟩ := List.exists_cons_of_ne_nil hinteger.nonempty
  have hd : d ≠ 45 := by
    rintro rfl
    exact absurd (hinteger.digit 45 (by rw [hcons]; exact List.mem_cons_self)) (by decide)
  rw [List.append_assoc, List.append_assoc, List.append_assoc]
  have hsign : (((if negative then [45] else []) ++ (integer ++ (fractionText ++ (exponentText ++ rest)))).head? == some 45) =
      negative ∧ (if negative then ((if negative then [45] else []) ++
        (integer ++ (fractionText ++ (exponentText ++ rest)))).drop 1
        else (if negative then [45] else []) ++ (integer ++ (fractionText ++ (exponentText ++ rest)))) =
      integer ++ (fractionText ++ (exponentText ++ rest)) := by
    cases negative <;> simp [hcons, hd]
  unfold scanNumber
  simp only [hsign.1, hsign.2, scanInteger_append hinteger hbehind, scanFraction_complete hfraction hbehindExponent,
    scanExponent_complete hexponent hrest]

theorem readMagnitude_sound : ∀ {digits : Bytes} {magnitude value : Nat}, readMagnitude digits magnitude = some value →
    value = magnitude * 10 ^ digits.length + decimalValue digits
  | [], magnitude, value, h => by
    cases h
    simp [decimalValue]
  | c :: digits, magnitude, value, h => by
    rw [readMagnitude] at h
    split at h
    · cases h
    · rw [readMagnitude_sound h, show c :: digits = [c] ++ digits from rfl, decimalValue_append, List.length_append,
        List.length_singleton, pow_add]
      simp only [decimalValue, List.foldl_cons, List.foldl_nil]
      ring

/-- A literal within the bound has the value it denotes, and no other. -/
theorem numberValue_iff {l : Literal} {rest : Bytes} {v : Json} (hdigits : ∀ c ∈ l.integer, isDigit c = true) :
    numberValue l rest = .ok v ↔ l.length ≤ 64 ∧ Denotes l v := by
  unfold numberValue
  by_cases hlength : l.length > 64
  · rw [if_pos hlength]
    constructor
    · intro h
      cases h
    · intro h
      exact absurd hlength (not_lt.2 h.1)
  · rw [if_neg hlength]
    constructor
    · intro h
      refine ⟨not_lt.1 hlength, ?_⟩
      split at h
      · rename_i hreal
        rw [Bool.not_eq_true'] at hreal
        split at h
        · cases h
        · rename_i magnitude hmagnitude
          have hvalue := readMagnitude_sound hmagnitude
          rw [Nat.zero_mul, Nat.zero_add] at hvalue
          split at h
          · rename_i hnegative
            split at h
            · cases h
            · rename_i hle
              cases h
              refine .int hreal ?_
              rw [if_pos hnegative, Int64.toInt_ofInt_of_le (by omega) (by omega), hvalue]
          · rename_i hnegative
            split at h
            · cases h
            · rename_i hle
              cases h
              refine .int hreal ?_
              rw [if_neg hnegative, Int64.toInt_ofInt_of_le (by omega) (by omega), hvalue]
      · rename_i hreal
        rw [Bool.not_eq_true', Bool.not_eq_false] at hreal
        split at h
        · cases h
        · rename_i d hd
          split at h
          · cases h
          · rename_i hfinite
            cases h
            exact .real hreal hd (by simpa using hfinite)
    · rintro ⟨-, hdenotes⟩
      cases hdenotes with
      | @int i hreal hi =>
        have hlow := i.le_toInt
        have hhigh := i.toInt_lt
        have hmagnitude : readMagnitude l.integer 0 = some (decimalValue l.integer) := by
          rw [readMagnitude_eq hdigits (by split at hi <;> omega), Nat.zero_mul, Nat.zero_add]
        rw [hreal, Bool.not_false, if_pos rfl, hmagnitude]
        simp only
        by_cases hnegative : l.negative = true
        · rw [if_pos hnegative] at hi
          rw [if_pos hnegative, if_neg (by omega), ← hi, Int64.ofInt_toInt]
        · rw [if_neg hnegative] at hi
          rw [if_neg hnegative, if_neg (by omega), ← hi, Int64.ofInt_toInt]
      | @real d hreal hd hfinite =>
        rw [hreal, Bool.not_true, if_neg Bool.false_ne_true, hd]
        simp only [hfinite, Bool.not_true, if_neg Bool.false_ne_true]

end Parser

end Wnc
