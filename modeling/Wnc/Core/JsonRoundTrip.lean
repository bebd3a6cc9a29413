/-
What the decoder yields, and when its canonical text yields it again. A decoded value has valid strings within the
bound, nests no deeper than the bound and holds finite numbers; its text reads back as an equal value exactly when the
text is within the document bound and every real number in it has a text that denotes it.
-/
import Wnc.Core.JsonObject

namespace Wnc

open Lib

/-! ## Strings read -/

namespace Parser

theorem toNat_byte {n : Nat} (h : n < 256) : (UInt8.ofNat n).toNat = n := UInt8.toNat_ofNat_of_lt' h

/-- A continuation byte appends its six bits. -/
theorem decodeContinuation_byte {k value n : Nat} (h : n < 64) (rest : Bytes) :
    decodeContinuation (k + 1) value (UInt8.ofNat (0x80 + n) :: rest) = decodeContinuation k (value * 64 + n) rest := by
  have hn : (UInt8.ofNat (0x80 + n)).toNat = 0x80 + n := toNat_byte (by omega)
  rw [decodeContinuation, if_pos, hn]
  · congr 1; omega
  · rw [UInt8.le_iff_toNat_le, UInt8.lt_iff_toNat_lt, hn]
    exact ⟨Nat.le_add_right _ _, by show 128 + n < 192; omega⟩

/-- The bytes of a code point are the sequence that denotes it. -/
theorem decodeUtf8_appendUtf8 {codepoint : Nat} (h : codepoint ≤ 0x10FFFF)
    (hs : ¬(0xD800 ≤ codepoint ∧ codepoint ≤ 0xDFFF)) :
    decodeUtf8 (appendUtf8 codepoint) = some ((appendUtf8 codepoint).length, codepoint) := by
  have hlead : ∀ {n : Nat}, n < 256 → ∀ bound : UInt8, (UInt8.ofNat n < bound ↔ n < bound.toNat) ∧
      (bound ≤ UInt8.ofNat n ↔ bound.toNat ≤ n) := by
    intro n hn bound
    rw [UInt8.lt_iff_toNat_lt, UInt8.le_iff_toNat_le, toNat_byte hn]
    exact ⟨Iff.rfl, Iff.rfl⟩
  unfold appendUtf8
  split
  · rename_i h1
    have hb : UInt8.ofNat codepoint < 0x80 := ((hlead (by omega) _).1).2 h1
    simp only [decodeUtf8, if_pos hb, toNat_byte (show codepoint < 256 by omega), List.length_cons, List.length_nil]
  · rename_i h1
    split
    · rename_i h2
      have hn : 0xC0 + codepoint / 64 < 256 := by omega
      have hb : ¬UInt8.ofNat (0xC0 + codepoint / 64) < 0x80 := fun hb => by
        have : 0xC0 + codepoint / 64 < 0x80 := ((hlead hn _).1).1 hb
        omega
      have hb2 : 0xC0 ≤ UInt8.ofNat (0xC0 + codepoint / 64) ∧ UInt8.ofNat (0xC0 + codepoint / 64) < 0xE0 :=
        ⟨((hlead hn _).2).2 (Nat.le_add_right _ _), ((hlead hn _).1).2 (by show 0xC0 + codepoint / 64 < 0xE0; omega)⟩
      have hbits : (0xC0 + codepoint / 64) % 32 = codepoint / 64 := by omega
      have hvalue : decodeContinuation 1 (codepoint / 64) [UInt8.ofNat (0x80 + codepoint % 64)] = some codepoint := by
        rw [decodeContinuation_byte (by omega), decodeContinuation]
        congr 1
        omega
      simp only [decodeUtf8, if_neg hb, if_pos hb2, toNat_byte hn, hbits, Nat.reduceSub, hvalue]
      rw [if_neg (by omega), if_neg hs, if_neg (by omega)]
      rfl
    · rename_i h2
      split
      · rename_i h3
        have hn : 0xE0 + codepoint / 4096 < 256 := by omega
        have hb : ¬UInt8.ofNat (0xE0 + codepoint / 4096) < 0x80 := fun hb => by
          have : 0xE0 + codepoint / 4096 < 0x80 := ((hlead hn _).1).1 hb
          omega
        have hb2 : ¬(0xC0 ≤ UInt8.ofNat (0xE0 + codepoint / 4096) ∧ UInt8.ofNat (0xE0 + codepoint / 4096) < 0xE0) :=
          fun hb => by
            have : 0xE0 + codepoint / 4096 < 0xE0 := ((hlead hn _).1).1 hb.2
            omega
        have hb3 : 0xE0 ≤ UInt8.ofNat (0xE0 + codepoint / 4096) ∧ UInt8.ofNat (0xE0 + codepoint / 4096) < 0xF0 :=
          ⟨((hlead hn _).2).2 (Nat.le_add_right _ _), ((hlead hn _).1).2 (by show 0xE0 + codepoint / 4096 < 0xF0; omega)⟩
        have hbits : (0xE0 + codepoint / 4096) % 16 = codepoint / 4096 := by omega
        have hvalue : decodeContinuation 2 (codepoint / 4096)
            [UInt8.ofNat (0x80 + codepoint / 64 % 64), UInt8.ofNat (0x80 + codepoint % 64)] = some codepoint := by
          rw [decodeContinuation_byte (by omega), decodeContinuation_byte (by omega), decodeContinuation]
          congr 1
          omega
        simp only [decodeUtf8, if_neg hb, if_neg hb2, if_pos hb3, toNat_byte hn, hbits, Nat.reduceSub, hvalue]
        rw [if_neg (by omega), if_neg hs, if_neg (by omega)]
        rfl
      · rename_i h3
        have hn : 0xF0 + codepoint / 262144 < 256 := by omega
        have hb : ¬UInt8.ofNat (0xF0 + codepoint / 262144) < 0x80 := fun hb => by
          have : 0xF0 + codepoint / 262144 < 0x80 := ((hlead hn _).1).1 hb
          omega
        have hb2 : ¬(0xC0 ≤ UInt8.ofNat (0xF0 + codepoint / 262144) ∧ UInt8.ofNat (0xF0 + codepoint / 262144) < 0xE0) :=
          fun hb => by
            have : 0xF0 + codepoint / 262144 < 0xE0 := ((hlead hn _).1).1 hb.2
            omega
        have hb3 : ¬(0xE0 ≤ UInt8.ofNat (0xF0 + codepoint / 262144) ∧ UInt8.ofNat (0xF0 + codepoint / 262144) < 0xF0) :=
          fun hb => by
            have : 0xF0 + codepoint / 262144 < 0xF0 := ((hlead hn _).1).1 hb.2
            omega
        have hb4 : 0xF0 ≤ UInt8.ofNat (0xF0 + codepoint / 262144) ∧ UInt8.ofNat (0xF0 + codepoint / 262144) < 0xF8 :=
          ⟨((hlead hn _).2).2 (Nat.le_add_right _ _), ((hlead hn _).1).2 (by show 0xF0 + codepoint / 262144 < 0xF8; omega)⟩
        have hbits : (0xF0 + codepoint / 262144) % 8 = codepoint / 262144 := by omega
        have hvalue : decodeContinuation 3 (codepoint / 262144) [UInt8.ofNat (0x80 + codepoint / 4096 % 64),
            UInt8.ofNat (0x80 + codepoint / 64 % 64), UInt8.ofNat (0x80 + codepoint % 64)] = some codepoint := by
          rw [decodeContinuation_byte (by omega), decodeContinuation_byte (by omega), decodeContinuation_byte (by omega),
            decodeContinuation]
          congr 1
          omega
        simp only [decodeUtf8, if_neg hb, if_neg hb2, if_neg hb3, if_pos hb4, toNat_byte hn, hbits, Nat.reduceSub, hvalue]
        rw [if_neg (by omega), if_neg hs, if_neg (by omega)]
        rfl

theorem ValidUtf8.single {sequence : Bytes} {codepoint : Nat}
    (h : decodeUtf8 sequence = some (sequence.length, codepoint)) : ValidUtf8 sequence := by
  have := ValidUtf8.cons h .nil
  rwa [List.append_nil] at this

theorem ValidUtf8.append {s t : Bytes} (hs : ValidUtf8 s) (ht : ValidUtf8 t) : ValidUtf8 (s ++ t) := by
  induction hs with
  | nil => exact ht
  | cons h _ ih =>
    rw [List.append_assoc]
    exact .cons h ih

theorem parseHex4_lt {rest behind : Bytes} {value : Nat} (h : parseHex4 rest = .ok (value, behind)) : value < 0x10000 := by
  unfold parseHex4 at h
  split at h
  · cases h
  · split at h
    · cases h
    · rename_i digits hdigits
      cases h
      have hlength : digits.length ≤ 4 := by
        rw [length_mapM_option hdigits]
        exact List.length_take_le 4 rest
      have hfold : ∀ (digits : List (Fin 16)) (acc : Nat),
          digits.foldl (fun value d => value * 16 + d.val) acc < (acc + 1) * 16 ^ digits.length := by
        intro digits
        induction digits with
        | nil => intro acc; simp
        | cons d digits ih =>
          intro acc
          rw [List.foldl_cons, List.length_cons, pow_succ']
          refine lt_of_lt_of_le (ih _) ?_
          rw [← Nat.mul_assoc]
          exact Nat.mul_le_mul_right _ (by have := d.isLt; omega)
      refine lt_of_lt_of_le (hfold digits 0) ?_
      rw [Nat.zero_add, Nat.one_mul]
      exact Nat.pow_le_pow_right (by decide) hlength

/-- An escape denotes a code point that has a sequence. -/
theorem parseUnicodeEscape_range {rest behind : Bytes} {codepoint : Nat}
    (h : parseUnicodeEscape rest = .ok (codepoint, behind)) :
    codepoint ≤ 0x10FFFF ∧ ¬(0xD800 ≤ codepoint ∧ codepoint ≤ 0xDFFF) := by
  unfold parseUnicodeEscape at h
  split at h
  · cases h
  · rename_i first rest' hfirst
    have hfirst' := parseHex4_lt hfirst
    split at h
    · rename_i hhigh
      split at h
      · split at h
        · cases h
        · split at h
          · cases h
          · rename_i second rest'' hsecond
            split at h
            · cases h
            · rename_i hlow
              have hsecond' := parseHex4_lt hsecond
              obtain ⟨rfl, rfl⟩ := Prod.mk.inj (Except.ok.inj h)
              omega
      · cases h
    · rename_i hhigh
      split at h
      · cases h
      · cases h
        omega

/-- A character of a string is one valid sequence. -/
theorem parseChar_valid {rest bytes behind : Bytes} (h : parseChar rest = .ok (bytes, behind)) : ValidUtf8 bytes := by
  have hascii : ∀ {c : UInt8}, c < 0x80 → ValidUtf8 [c] := fun hc => .single (decodeUtf8_ascii hc [])
  unfold parseChar at h
  split at h
  · split at h
    · cases h
    · cases h; exact hascii (by decide)
    · cases h; exact hascii (by decide)
    · cases h; exact hascii (by decide)
    · cases h; exact hascii (by decide)
    · cases h; exact hascii (by decide)
    · cases h; exact hascii (by decide)
    · cases h; exact hascii (by decide)
    · cases h; exact hascii (by decide)
    · split at h
      · cases h
      · rename_i codepoint rest' hescape
        cases h
        obtain ⟨hle, hsurrogate⟩ := parseUnicodeEscape_range hescape
        exact .single (decodeUtf8_appendUtf8 hle hsurrogate)
    · cases h
  · split at h
    · cases h
    · rename_i length codepoint hd
      cases h
      obtain ⟨_, hle, _, happ⟩ := decodeUtf8_spec hd
      have := happ []
      rw [List.append_nil] at this
      exact ValidUtf8.single (this.trans (by rw [List.length_take, min_eq_left hle]))

theorem parseStringLoop_valid {o : JsonDecodeOptions} : ∀ {fuel : Nat} {out rest value behind : Bytes},
    ValidUtf8 out → out.length ≤ o.maxStringBytes → parseStringLoop o fuel out rest = .ok (value, behind) →
      ValidUtf8 value ∧ value.length ≤ o.maxStringBytes
  | 0, _, _, _, _, _, _, h => by cases h
  | fuel + 1, out, rest, value, behind, hout, hlen, h => by
    unfold parseStringLoop at h
    split at h
    · cases h
    · split at h
      · cases h
        exact ⟨hout, hlen⟩
      · split at h
        · cases h
        · split at h
          · cases h
          · rename_i bytes rest' hchar
            split at h
            · cases h
            · rename_i hbound
              exact parseStringLoop_valid (hout.append (parseChar_valid hchar)) (not_lt.1 hbound) h

/-- A string that is read is valid and within the bound. -/
theorem parseString_valid {o : JsonDecodeOptions} {rest value behind : Bytes} (h : parseString o rest = .ok (value, behind)) :
    ValidUtf8 value ∧ value.length ≤ o.maxStringBytes := by
  unfold parseString at h
  split at h
  · exact parseStringLoop_valid .nil (Nat.zero_le _) h
  · cases h

end Parser

/-! ## Values read -/

namespace Json

mutual

/-- What a decoder with these bounds yields at a depth. -/
def Decoded (o : JsonDecodeOptions) (depth : Nat) : Json → Prop
  | .real d => depth ≤ o.depthBound ∧ d.isFinite = true ∧ (d.magnitude = 0 → d = .zero)
  | .string s => depth ≤ o.depthBound ∧ Parser.ValidUtf8 s ∧ s.length ≤ o.maxStringBytes
  | .array items => depth ≤ o.depthBound ∧ DecodedItems o depth items
  | .object members => depth ≤ o.depthBound ∧ Assoc.Sorted members ∧ DecodedMembers o depth members
  | _ => depth ≤ o.depthBound

def DecodedItems (o : JsonDecodeOptions) (depth : Nat) : List Json → Prop
  | [] => True
  | v :: rest => Decoded o (depth + 1) v ∧ DecodedItems o depth rest

def DecodedMembers (o : JsonDecodeOptions) (depth : Nat) : List (Bytes × Json) → Prop
  | [] => True
  | (key, v) :: rest => (Parser.ValidUtf8 key ∧ key.length ≤ o.maxStringBytes) ∧ Decoded o (depth + 1) v ∧
      DecodedMembers o depth rest

end

variable {o : JsonDecodeOptions} {depth : Nat}

theorem decodedItems_iff {items : List Json} : DecodedItems o depth items ↔ ∀ v ∈ items, v.Decoded o (depth + 1) := by
  induction items with
  | nil => simp [DecodedItems]
  | cons v items ih => rw [DecodedItems, ih, List.forall_mem_cons]

theorem decodedMembers_iff {members : List (Bytes × Json)} : DecodedMembers o depth members ↔
    ∀ e ∈ members, (Parser.ValidUtf8 e.1 ∧ e.1.length ≤ o.maxStringBytes) ∧ e.2.Decoded o (depth + 1) := by
  induction members with
  | nil => simp [DecodedMembers]
  | cons e members ih =>
    obtain ⟨key, v⟩ := e
    rw [DecodedMembers, ih, List.forall_mem_cons, and_assoc, and_assoc, and_assoc]

theorem decoded_ofReal {d : Double} (hd : depth ≤ o.depthBound) (hf : d.isFinite = true) : (ofReal d).Decoded o depth := by
  unfold ofReal
  split
  · exact ⟨hd, by decide, fun _ => rfl⟩
  · rename_i hne
    exact ⟨hd, hf, fun h0 => absurd ((Double.eq_zero_iff hf).2 h0) hne⟩

end Json

namespace Parser

variable {o : JsonDecodeOptions}

theorem parseNumber_decoded {depth : Nat} {rest behind : Bytes} {v : Json} (hd : depth ≤ o.depthBound)
    (h : parseNumber rest = .ok (v, behind)) : v.Decoded o depth := by
  unfold parseNumber at h
  split at h
  · cases h
  · split at h
    · cases h
    · rename_i value hvalue
      cases h
      unfold numberValue at hvalue
      split at hvalue
      · cases hvalue
      · split at hvalue
        · split at hvalue
          · cases hvalue
          · split at hvalue
            · split at hvalue
              · cases hvalue
              · cases hvalue; exact hd
            · split at hvalue
              · cases hvalue
              · cases hvalue; exact hd
        · split at hvalue
          · cases hvalue
          · split at hvalue
            · cases hvalue
            · rename_i hfinite
              cases hvalue
              exact Json.decoded_ofReal hd (by simpa using hfinite)

theorem literal_ok {token : String} {value v : Json} {rest behind : Bytes} (h : literal token value rest = .ok (v, behind)) :
    v = value := by
  unfold literal at h
  simp only at h
  split at h
  · cases h
  · split at h
    · cases h
    · cases h; rfl

mutual

theorem parseValue_decoded : ∀ {fuel depth : Nat} {rest behind : Bytes} {v : Json},
    parseValue o fuel depth rest = .ok (v, behind) → v.Decoded o depth
  | 0, _, _, _, _, h => by cases h
  | fuel + 1, depth, rest, behind, v, h => by
    by_cases hd : o.depthBound < depth
    · obtain ⟨e, he⟩ : ∃ e, parseValue o (fuel + 1) depth rest = .error e := parseValue_refused hd
      rw [he] at h
      cases h
    · have hd' : depth ≤ o.depthBound := not_lt.1 hd
      unfold parseValue at h
      split at h
      · cases h
      · rw [if_neg (within hd')] at h
        split at h
        · split at h
          · cases h; exact ⟨hd', Assoc.sorted_nil, trivial⟩
          · exact parseMembers_decoded hd' Assoc.sorted_nil trivial h
        · split at h
          · split at h
            · cases h; exact ⟨hd', trivial⟩
            · exact parseItems_decoded hd' (show Json.DecodedItems o depth [] from trivial) h
          · split at h
            · split at h
              · cases h
              · rename_i value rest' hstring
                cases h
                exact ⟨hd', parseString_valid hstring⟩
            · split at h
              · rw [literal_ok h]; exact hd'
              · split at h
                · rw [literal_ok h]; exact hd'
                · split at h
                  · rw [literal_ok h]; exact hd'
                  · split at h
                    · exact parseNumber_decoded hd' h
                    · cases h

theorem parseMembers_decoded : ∀ {fuel depth : Nat} {members : List (Bytes × Json)} {rest behind : Bytes} {v : Json},
    depth ≤ o.depthBound → Assoc.Sorted members → Json.DecodedMembers o depth members →
      parseMembers o fuel depth members rest = .ok (v, behind) → v.Decoded o depth
  | 0, _, _, _, _, _, _, _, _, h => by cases h
  | fuel + 1, depth, members, rest, behind, v, hd, hsorted, hmembers, h => by
    unfold parseMembers at h
    split at h
    · cases h
    · rename_i key rest' hkey
      split at h
      · split at h
        · cases h
        · rename_i value rest'' hvalue
          split at h
          · cases h
          · have hset : Json.DecodedMembers o depth (Assoc.set key value members) :=
              Json.decodedMembers_iff.2 fun e he => by
                rcases Assoc.mem_set he with rfl | he
                · exact ⟨parseString_valid hkey, parseValue_decoded hvalue⟩
                · exact Json.decodedMembers_iff.1 hmembers e he
            split at h
            · cases h
            · exact parseMembers_decoded hd hsorted.set hset h
            · cases h
              exact ⟨hd, hsorted.set, hset⟩
            · cases h
      · cases h

theorem parseItems_decoded : ∀ {fuel depth : Nat} {items : List Json} {rest behind : Bytes} {v : Json},
    depth ≤ o.depthBound → Json.DecodedItems o depth items →
      parseItems o fuel depth items rest = .ok (v, behind) → v.Decoded o depth
  | 0, _, _, _, _, _, _, _, h => by cases h
  | fuel + 1, depth, items, rest, behind, v, hd, hitems, h => by
    unfold parseItems at h
    split at h
    · cases h
    · rename_i value rest' hvalue
      have hsnoc : Json.DecodedItems o depth (items ++ [value]) := Json.decodedItems_iff.2 fun w hw => by
        rcases List.mem_append.1 hw with hw | hw
        · exact Json.decodedItems_iff.1 hitems w hw
        · rw [List.mem_singleton.1 hw]; exact parseValue_decoded hvalue
      split at h
      · cases h
      · exact parseItems_decoded hd hsnoc h
      · cases h
        exact ⟨hd, hsnoc⟩
      · cases h

end

end Parser

/-- A value that is decoded is within the bounds of its decoder. -/
theorem jsonDecode_decoded {o : JsonDecodeOptions} {text : Bytes} {v : Json} (h : jsonDecode text o = .ok v) :
    v.Decoded o 0 := by
  unfold jsonDecode at h
  split at h
  · cases h
  · split at h
    · cases h
    · rename_i value hparse
      cases h
      unfold Parser.parseDocument at hparse
      simp only at hparse
      split at hparse
      · cases hparse
      · split at hparse
        · cases hparse
        · rename_i value' rest hvalue
          split at hparse
          · cases hparse
          · split at hparse
            · cases hparse
            · cases hparse
              exact Parser.parseValue_decoded hvalue

/-! ## Equality -/

namespace Json

mutual

/-- Equality of values as the code tests it: number by number, and member by member in order. -/
def same : Json → Json → Bool
  | .null, .null => true
  | .bool a, .bool b => a == b
  | .int a, .int b => a == b
  | .real a, .real b => a.eq b
  | .string a, .string b => a == b
  | .array a, .array b => sameItems a b
  | .object a, .object b => sameMembers a b
  | _, _ => false

def sameItems : List Json → List Json → Bool
  | [], [] => true
  | v :: rest, w :: rest' => same v w && sameItems rest rest'
  | _, _ => false

def sameMembers : List (Bytes × Json) → List (Bytes × Json) → Bool
  | [], [] => true
  | (key, v) :: rest, (key', w) :: rest' => key == key' && same v w && sameMembers rest rest'
  | _, _ => false

end

end Json

/-- A number whose canonical text is a literal that denotes it: where it is negative its shortest text is in scientific
notation, and in plain notation it has a text that fits a literal. -/
def Lib.Double.Faithful (d : Double) : Prop :=
  (d.negative = true → (Double.scientificText d.magnitude).length < (Double.fixedText d.magnitude).length) ∧
    ∃ text, formatCanonicalReal d = some text ∧ text.length ≤ 64

namespace Json

mutual

/-- Every real number in a value is faithful. -/
def Faithful : Json → Prop
  | .real d => d.Faithful
  | .array items => FaithfulItems items
  | .object members => FaithfulMembers members
  | _ => True

def FaithfulItems : List Json → Prop
  | [] => True
  | v :: rest => Faithful v ∧ FaithfulItems rest

def FaithfulMembers : List (Bytes × Json) → Prop
  | [] => True
  | (_, v) :: rest => Faithful v ∧ FaithfulMembers rest

end

mutual

/-- The value with every array that has the text of the empty one made the empty one. -/
def emptied : Json → Json
  | .array items => .array (if soleTextless items then [] else emptiedItems items)
  | .object members => .object (emptiedMembers members)
  | v => v

def emptiedItems : List Json → List Json
  | [] => []
  | v :: rest => emptied v :: emptiedItems rest

def emptiedMembers : List (Bytes × Json) → List (Bytes × Json)
  | [] => []
  | (key, v) :: rest => (key, emptied v) :: emptiedMembers rest

end

theorem soleTextless_iff {items : List Json} : soleTextless items = true ↔
    ∃ d, items = [.real d] ∧ formatCanonicalReal d = none := by
  constructor
  · intro h
    unfold soleTextless at h
    split at h
    · rename_i d
      exact ⟨d, rfl, Option.isNone_iff_eq_none.1 h⟩
    · cases h
  · rintro ⟨d, rfl, hd⟩
    rw [soleTextless, hd]
    rfl

theorem isReal_emptied : ∀ v : Json, v.emptied.isReal = v.isReal
  | .null | .bool _ | .int _ | .real _ | .string _ | .array _ | .object _ => rfl

mutual

theorem text_emptied : ∀ v : Json, v.emptied.text = v.text
  | .null | .bool _ | .int _ | .real _ | .string _ => rfl
  | .array items => by
    rw [emptied, text, text]
    split
    · rename_i h
      obtain ⟨d, rfl, hd⟩ := soleTextless_iff.1 h
      simp only [textItems, text, hd, Option.getD_none, if_true, List.append_nil, List.nil_append]
    · rw [textItems_emptied]
  | .object members => by rw [emptied, text, text, textMembers_emptied]

theorem textItems_emptied : ∀ (items : List Json) (first : Bool), textItems (emptiedItems items) first = textItems items first
  | [], _ => rfl
  | v :: rest, first => by rw [emptiedItems, textItems, textItems, text_emptied v, textItems_emptied rest]

theorem textMembers_emptied : ∀ (members : List (Bytes × Json)) (first : Bool),
    textMembers (emptiedMembers members) first = textMembers members first
  | [], _ => rfl
  | (key, v) :: rest, first => by
    rw [emptiedMembers, textMembers, textMembers, text_emptied v, textMembers_emptied rest]

end

theorem emptiedMembers_eq : ∀ members : List (Bytes × Json), emptiedMembers members = members.map fun e => (e.1, e.2.emptied)
  | [] => rfl
  | (key, v) :: rest => by rw [emptiedMembers, emptiedMembers_eq rest, List.map_cons]

theorem sorted_emptiedMembers {members : List (Bytes × Json)} (h : Assoc.Sorted members) :
    Assoc.Sorted (emptiedMembers members) := by
  unfold Assoc.Sorted
  rw [emptiedMembers_eq, List.pairwise_map]
  exact h

theorem soleTextless_emptiedItems {items : List Json} (h : soleTextless items = false) :
    soleTextless (emptiedItems items) = false := by
  rw [← Bool.not_eq_true] at h ⊢
  rintro hsole
  obtain ⟨d, hitems, hd⟩ := soleTextless_iff.1 hsole
  refine h (soleTextless_iff.2 ⟨d, ?_, hd⟩)
  match items with
  | [] => cases hitems
  | v :: w :: rest =>
    rw [emptiedItems, emptiedItems, List.cons.injEq] at hitems
    cases hitems.2
  | [v] =>
    rw [emptiedItems, emptiedItems, List.cons.injEq] at hitems
    have hreal := isReal_emptied v
    rw [hitems.1] at hreal
    cases v with
    | real d' => exact congrArg (fun w => [w]) (show real d' = real d from hitems.1)
    | _ => cases hreal

variable {o : JsonDecodeOptions}

mutual

theorem Decoded.solid : ∀ {v : Json} {depth : Nat}, v.Decoded o depth → v.emptied.Solid
  | .null, _, _ | .bool _, _, _ | .int _, _, _ | .real _, _, _ | .string _, _, _ => trivial
  | .array items, depth, h => by
    rw [emptied]
    split
    · exact ⟨rfl, trivial⟩
    · rename_i hsole
      exact ⟨soleTextless_emptiedItems (Bool.not_eq_true _ ▸ hsole), DecodedItems.solid h.2⟩
  | .object members, depth, h => ⟨sorted_emptiedMembers h.2.1, DecodedMembers.solid h.2.2⟩

theorem DecodedItems.solid : ∀ {items : List Json} {depth : Nat}, DecodedItems o depth items → SolidItems (emptiedItems items)
  | [], _, _ => trivial
  | _ :: _, _, h => ⟨Decoded.solid h.1, DecodedItems.solid h.2⟩

theorem DecodedMembers.solid : ∀ {members : List (Bytes × Json)} {depth : Nat}, DecodedMembers o depth members →
    SolidMembers (emptiedMembers members)
  | [], _, _ => trivial
  | (_, _) :: _, _, h => ⟨Decoded.solid h.2.1, DecodedMembers.solid h.2.2⟩

end

end Json

namespace Lib.Double

/-- The number that a text denotes is the one it was written for, unless the sign is left out. -/
theorem canonical_eq_iff {d : Double} (hf : d.isFinite = true) (hzero : d.magnitude = 0 → d = zero) :
    d.canonical.eq d = true ↔ (d.negative = true → (scientificText d.magnitude).length < (fixedText d.magnitude).length) := by
  have hnan : d.isNan = false := not_isNan_of_isFinite hf
  have hnan' : d.canonical.isNan = false := not_isNan_of_isFinite (by rw [canonical_isFinite]; exact hf)
  rw [eq_iff hnan' hnan]
  by_cases h0 : d.magnitude = 0
  · rw [canonical_eq_zero h0, hzero h0]
    exact ⟨(fun _ h => by cases h), fun _ => rfl⟩
  · have hscaled : 0 < scaled d.magnitude := by
      rw [← scaled_zero]
      exact scaled_strictMono (Nat.pos_of_ne_zero h0)
    unfold canonical order
    rw [if_neg h0]
    simp only
    cases d.negative with
    | false => simp
    | true =>
      simp only [Bool.true_and, decide_eq_true_eq, if_true, forall_const]
      split
      · rename_i hlt; exact ⟨fun _ => hlt, fun _ => rfl⟩
      · rename_i hlt; exact ⟨fun h => by omega, fun h => absurd h hlt⟩

end Lib.Double

namespace Json

variable {o : JsonDecodeOptions}

mutual

/-- A decoded value whose text reads back as an equal value holds faithful numbers only. -/
theorem Decoded.faithful : ∀ {v : Json} {depth : Nat}, v.Decoded o depth → v.emptied.Readable o depth →
    v.emptied.reread.same v = true → v.Faithful
  | .null, _, _, _, _ | .bool _, _, _, _, _ | .int _, _, _, _, _ | .string _, _, _, _, _ => trivial
  | .real d, _, hv, hr, hs => ⟨(Double.canonical_eq_iff hv.2.1 hv.2.2).1 hs, hr.2⟩
  | .array items, depth, hv, hr, hs => by
    rw [emptied] at hr hs
    split at hr
    · rename_i hsole
      obtain ⟨d, rfl, _⟩ := soleTextless_iff.1 hsole
      rw [if_pos hsole] at hs
      cases hs
    · rename_i hsole
      rw [if_neg hsole] at hs
      exact DecodedItems.faithful hv.2 hr.2 hs
  | .object members, depth, hv, hr, hs => DecodedMembers.faithful hv.2.2 hr.2 hs

theorem DecodedItems.faithful : ∀ {items : List Json} {depth : Nat}, DecodedItems o depth items →
    ReadableItems o depth (emptiedItems items) → sameItems (rereadItems (emptiedItems items)) items = true →
      FaithfulItems items
  | [], _, _, _, _ => trivial
  | _ :: _, _, hv, hr, hs => by
    rw [emptiedItems, rereadItems, sameItems, Bool.and_eq_true] at hs
    exact ⟨Decoded.faithful hv.1 hr.1 hs.1, DecodedItems.faithful hv.2 hr.2 hs.2⟩

theorem DecodedMembers.faithful : ∀ {members : List (Bytes × Json)} {depth : Nat}, DecodedMembers o depth members →
    ReadableMembers o depth (emptiedMembers members) →
      sameMembers (rereadMembers (emptiedMembers members)) members = true → FaithfulMembers members
  | [], _, _, _, _ => trivial
  | (_, _) :: _, _, hv, hr, hs => by
    rw [emptiedMembers, rereadMembers, sameMembers, Bool.and_eq_true, Bool.and_eq_true] at hs
    exact ⟨Decoded.faithful hv.2.1 hr.2.1 hs.1.2, DecodedMembers.faithful hv.2.2 hr.2.2 hs.2⟩

end

theorem FaithfulItems.not_soleTextless {items : List Json} (h : FaithfulItems items) : soleTextless items = false := by
  rw [← Bool.not_eq_true]
  intro hsole
  obtain ⟨d, rfl, hd⟩ := soleTextless_iff.1 hsole
  obtain ⟨text, htext, _⟩ := h.1.2
  rw [hd] at htext
  cases htext

mutual

/-- A decoded value that holds faithful numbers only is within the bounds, and its text reads back as an equal value. -/
theorem Faithful.reads : ∀ {v : Json} {depth : Nat}, v.Faithful → v.Decoded o depth →
    v.emptied.Readable o depth ∧ v.emptied.reread.same v = true
  | .null, _, _, hv => ⟨hv, rfl⟩
  | .bool b, _, _, hv => ⟨hv, beq_self_eq_true b⟩
  | .int i, _, _, hv => ⟨hv, beq_self_eq_true i⟩
  | .string s, _, _, hv => ⟨hv, beq_self_eq_true s⟩
  | .real d, _, h, hv => ⟨⟨hv.1, h.2⟩, (Double.canonical_eq_iff hv.2.1 hv.2.2).2 h.1⟩
  | .array items, depth, h, hv => by
    have hsole := FaithfulItems.not_soleTextless h
    obtain ⟨hr, hs⟩ := FaithfulItems.reads h hv.2
    rw [emptied, if_neg (by rw [hsole]; decide)]
    exact ⟨⟨hv.1, hr⟩, hs⟩
  | .object members, depth, h, hv => by
    obtain ⟨hr, hs⟩ := FaithfulMembers.reads h hv.2.2
    exact ⟨⟨hv.1, hr⟩, hs⟩

theorem FaithfulItems.reads : ∀ {items : List Json} {depth : Nat}, FaithfulItems items → DecodedItems o depth items →
    ReadableItems o depth (emptiedItems items) ∧ sameItems (rereadItems (emptiedItems items)) items = true
  | [], _, _, _ => ⟨trivial, rfl⟩
  | _ :: _, _, h, hv => by
    obtain ⟨hr, hs⟩ := Faithful.reads h.1 hv.1
    obtain ⟨hrs, hss⟩ := FaithfulItems.reads h.2 hv.2
    rw [emptiedItems, rereadItems, sameItems, hs, hss]
    exact ⟨⟨hr, hrs⟩, rfl⟩

theorem FaithfulMembers.reads : ∀ {members : List (Bytes × Json)} {depth : Nat}, FaithfulMembers members →
    DecodedMembers o depth members →
      ReadableMembers o depth (emptiedMembers members) ∧ sameMembers (rereadMembers (emptiedMembers members)) members = true
  | [], _, _, _ => ⟨trivial, rfl⟩
  | (key, _) :: _, _, h, hv => by
    obtain ⟨hr, hs⟩ := Faithful.reads h.1 hv.2.1
    obtain ⟨hrs, hss⟩ := FaithfulMembers.reads h.2 hv.2.2
    rw [emptiedMembers, rereadMembers, sameMembers, hs, hss, beq_self_eq_true]
    exact ⟨⟨hv.1, hr, hrs⟩, rfl⟩

end

mutual

/-- A text within the budget is not cut. -/
theorem dumpImpl_of_text (budget : Nat) : ∀ (v : Json) (size : Nat), size + (text v).length ≤ budget →
    dumpImpl budget v size = text v
  | .null, size, h => by rw [dumpImpl, text]; exact if_neg (by omega)
  | .bool b, size, h => by rw [dumpImpl, text]; exact if_neg (by omega)
  | .int i, size, h => by rw [dumpImpl, text]; exact if_neg (by omega)
  | .real d, size, h => by rw [dumpImpl, text]; exact if_neg (by omega)
  | .string s, size, h => by rw [dumpImpl, text]; exact if_neg (by omega)
  | .array items, size, h => by
    rw [text, List.length_cons] at h
    rw [dumpImpl, if_neg (by omega), text, dumpItems_of_text budget items true (size + 1) (by omega)]
  | .object members, size, h => by
    rw [text, List.length_cons] at h
    rw [dumpImpl, if_neg (by omega), text, dumpMembers_of_text budget members true (size + 1) (by omega)]

theorem dumpItems_of_text (budget : Nat) : ∀ (items : List Json) (first : Bool) (size : Nat),
    size + (textItems items first).length ≤ budget → dumpItems budget items first size = textItems items first
  | [], _, _, _ => rfl
  | v :: rest, first, size, h => by
    rw [textItems] at h
    simp only [dumpItems, textItems]
    generalize (if first = true then ([] : Bytes) else [44]) = separator at h ⊢
    simp only [List.length_append] at h
    rw [dumpImpl_of_text budget v _ (by omega), if_neg (by rw [List.length_append]; omega),
      dumpItems_of_text budget rest false _ (by rw [List.length_append]; omega)]

theorem dumpMembers_of_text (budget : Nat) : ∀ (members : List (Bytes × Json)) (first : Bool) (size : Nat),
    size + (textMembers members first).length ≤ budget → dumpMembers budget members first size = textMembers members first
  | [], _, _, _ => rfl
  | (key, v) :: rest, first, size, h => by
    rw [textMembers] at h
    simp only [dumpMembers, textMembers]
    generalize (if first = true then ([] : Bytes) else [44]) ++ escapedString key ++ [58] = opening at h ⊢
    simp only [List.length_append] at h
    rw [dumpImpl_of_text budget v _ (by omega), if_neg (by rw [List.length_append]; omega),
      dumpMembers_of_text budget rest false _ (by rw [List.length_append]; omega)]

end

/-- The dump fits the document bound exactly when the text does, and then it is the text. -/
theorem length_dump_le_iff (v : Json) : v.dump.length ≤ maxDocumentBytes ↔ v.text.length ≤ maxDocumentBytes := by
  constructor
  · intro h
    rwa [← dump_eq_text (le_trans h (by decide))]
  · intro h
    rwa [dump, dumpImpl_of_text _ v 0 (by omega)]

end Json

/-! ## Round trip -/

/-- What the decoder yields under its default options is yielded again by its canonical text exactly when the text is
within the document bound and every real number in it is faithful. -/
theorem jsonDecode_dump_iff {text : Bytes} {v : Json} (h : jsonDecode text {} = .ok v) :
    (∃ w, jsonDecode v.dump {} = .ok w ∧ w.same v = true) ↔ v.text.length ≤ maxDocumentBytes ∧ v.Faithful := by
  have hv := jsonDecode_decoded h
  by_cases hlen : v.text.length ≤ maxDocumentBytes
  · have hdump : v.dump = v.emptied.text := by
      rw [Json.text_emptied, Json.dump_eq_text (le_trans ((Json.length_dump_le_iff v).2 hlen) (by decide))]
    have hread := jsonDecode_solid (v := v.emptied) (o := {}) hv.solid (by rw [Json.text_emptied]; exact hlen)
      (fun hobject => by cases hobject)
    rw [hdump]
    constructor
    · rintro ⟨w, hw, hsame⟩
      rcases hread with ⟨hr, heq⟩ | ⟨_, e, heq⟩
      · rw [heq] at hw
        cases hw
        exact ⟨hlen, hv.faithful hr hsame⟩
      · rw [heq] at hw
        cases hw
    · rintro ⟨_, hfaithful⟩
      obtain ⟨hr, hsame⟩ := hfaithful.reads hv
      rcases hread with ⟨_, heq⟩ | ⟨hn, _⟩
      · exact ⟨_, heq, hsame⟩
      · exact absurd hr hn
  · constructor
    · rintro ⟨w, hw, _⟩
      unfold jsonDecode at hw
      rw [if_pos (not_le.1 fun hle => hlen ((Json.length_dump_le_iff v).1 hle))] at hw
      cases hw
    · rintro ⟨hle, _⟩
      exact absurd hle hlen

set_option maxRecDepth 100000 in
theorem jsonDecode_dump_iff_mixed : ∃ v, jsonDecode (utf8 "\x7b\"a\":[2.5,-1],\"b\":\"x\"\x7d") {} = .ok v ∧
    ((∃ w, jsonDecode v.dump {} = .ok w ∧ w.same v = true) ↔ v.text.length ≤ maxDocumentBytes ∧ v.Faithful) := by
  have hok : (jsonDecode (utf8 "\x7b\"a\":[2.5,-1],\"b\":\"x\"\x7d") {}).isOk = true := by decide +kernel
  cases hd : jsonDecode (utf8 "\x7b\"a\":[2.5,-1],\"b\":\"x\"\x7d") {} with
  | error e => rw [hd] at hok; cases hok
  | ok v => exact ⟨v, rfl, jsonDecode_dump_iff hd⟩

set_option maxRecDepth 100000 in
/-- The text of a negative number in fixed notation denotes its absolute value. -/
theorem jsonDecode_dump_negative : ¬ ∀ (text : Bytes) (v : Json), jsonDecode text {} = .ok v →
    ∃ w, jsonDecode v.dump {} = .ok w ∧ w.same v = true := by
  intro h
  have hsame : ((jsonDecode (utf8 "-2.5") {}).toOption.bind fun v =>
      (jsonDecode v.dump {}).toOption.map fun w => w.same v) = some false := by decide +kernel
  obtain ⟨v, hv, hw⟩ := Option.bind_eq_some_iff.1 hsame
  obtain ⟨w, hw, hne⟩ := Option.map_eq_some_iff.1 hw
  cases hd : jsonDecode (utf8 "-2.5") {} with
  | error e => rw [hd] at hv; cases hv
  | ok v' =>
    rw [hd] at hv
    cases hv
    obtain ⟨w', hw', heq⟩ := h _ _ hd
    rw [hw'] at hw
    cases hw
    rw [heq] at hne
    cases hne

end Wnc
