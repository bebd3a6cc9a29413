/-
What the decoder makes of canonical text. A value is read back as it was written, but for real numbers whose sign
was left out, exactly when its strings, numbers and nesting are within the bounds of the decoder.
-/
import Wnc.Core.JsonNumber
import Wnc.Core.JsonText

namespace Wnc

open Lib

namespace Parser

/-! ## Strings -/

/-- A character that stands for itself in a string. -/
def Plain (c : UInt8) : Prop := c ≠ 34 ∧ c ≠ 92 ∧ ¬c < 32

theorem plain_of_le {c : UInt8} (h : 0x80 ≤ c) : Plain c := by
  have hge := UInt8.le_iff_toNat_le.1 h
  refine ⟨fun he => ?_, fun he => ?_, fun he => ?_⟩
  · rw [he] at hge; exact absurd hge (by decide)
  · rw [he] at hge; exact absurd hge (by decide)
  · exact absurd (lt_of_le_of_lt hge (UInt8.lt_iff_toNat_lt.1 he)) (by decide)

/-- An escape starts with a backslash. -/
theorem head_escapeChar {c : UInt8} (h : ¬Plain c) : ∃ more, escapeChar c = 92 :: more := by
  by_cases h32 : c < 32
  · exact head_escapeChar_control h32
  · by_cases h34 : c = 34
    · exact ⟨[34], by rw [h34]; rfl⟩
    · by_cases h92 : c = 92
      · exact ⟨[92], by rw [h92]; rfl⟩
      · exact absurd ⟨h34, h92, h32⟩ h

/-- Plain characters at the start of an escaped string are those of the string. -/
theorem take_escaped : ∀ {n : Nat} {s rest : Bytes}, n ≤ (s.flatMap escapeChar ++ 34 :: rest).length →
    (∀ c ∈ (s.flatMap escapeChar ++ 34 :: rest).take n, Plain c) →
    n ≤ s.length ∧ (s.flatMap escapeChar ++ 34 :: rest).take n = s.take n ∧
      (s.flatMap escapeChar ++ 34 :: rest).drop n = (s.drop n).flatMap escapeChar ++ 34 :: rest
  | 0, _, _, _, _ => ⟨Nat.zero_le _, rfl, rfl⟩
  | _ + 1, [], _, _, h => by
    have h34 := h 34 (by rw [List.flatMap_nil, List.nil_append, List.take_succ_cons]; exact List.mem_cons_self)
    exact absurd rfl h34.1
  | n + 1, c :: s, rest, hlen, h => by
    have hc : Plain c := by
      by_contra hn
      obtain ⟨more, hmore⟩ := head_escapeChar hn
      have h92 := h 92 (by
        rw [List.flatMap_cons, hmore, List.cons_append, List.cons_append, List.take_succ_cons]
        exact List.mem_cons_self)
      exact absurd rfl h92.2.1
    have heq : (c :: s).flatMap escapeChar ++ 34 :: rest = c :: (s.flatMap escapeChar ++ 34 :: rest) := by
      rw [List.flatMap_cons, escapeChar_plain hc.1 hc.2.1 hc.2.2]
      rfl
    rw [heq] at hlen h ⊢
    rw [List.take_succ_cons, List.forall_mem_cons] at h
    obtain ⟨hle, htake, hdrop⟩ := take_escaped (Nat.le_of_succ_le_succ hlen) h.2
    refine ⟨Nat.succ_le_succ hle, ?_, ?_⟩
    · rw [List.take_succ_cons, htake, List.take_succ_cons]
    · rw [List.drop_succ_cons, hdrop, List.drop_succ_cons]

theorem decodeUtf8_ascii {c : UInt8} (h : c < 0x80) (rest : Bytes) : decodeUtf8 (c :: rest) = some (1, c.toNat) := by
  unfold decodeUtf8
  simp only [if_pos h]

/-- What is read of the next character of an escaped string is a sequence at its start. -/
theorem parseChar_escaped {c : UInt8} {s rest bytes behind : Bytes}
    (h : parseChar ((c :: s).flatMap escapeChar ++ 34 :: rest) = .ok (bytes, behind)) :
    ∃ tail, c :: s = bytes ++ tail ∧ behind = tail.flatMap escapeChar ++ 34 :: rest ∧ bytes ≠ [] ∧
      ∃ codepoint, decodeUtf8 bytes = some (bytes.length, codepoint) := by
  have hascii : c < 0x80 → ((c :: s).flatMap escapeChar ++ 34 :: rest) = escapeChar c ++ (s.flatMap escapeChar ++ 34 :: rest) →
      parseChar (escapeChar c ++ (s.flatMap escapeChar ++ 34 :: rest)) = .ok ([c], s.flatMap escapeChar ++ 34 :: rest) →
      ∃ tail, c :: s = bytes ++ tail ∧ behind = tail.flatMap escapeChar ++ 34 :: rest ∧ bytes ≠ [] ∧
        ∃ codepoint, decodeUtf8 bytes = some (bytes.length, codepoint) := by
    intro hc heq hparse
    rw [heq, hparse] at h
    cases h
    exact ⟨s, rfl, rfl, List.cons_ne_nil _ _, _, decodeUtf8_ascii hc []⟩
  have hsplit : (c :: s).flatMap escapeChar ++ 34 :: rest = escapeChar c ++ (s.flatMap escapeChar ++ 34 :: rest) := by
    rw [List.flatMap_cons, List.append_assoc]
  by_cases h32 : c < 32
  · refine hascii ?_ hsplit (parseChar_control h32 _)
    exact UInt8.lt_iff_toNat_lt.2 (lt_trans (UInt8.lt_iff_toNat_lt.1 h32) (by decide))
  · by_cases h34 : c = 34
    · subst h34
      exact hascii (by decide) hsplit rfl
    · by_cases h92 : c = 92
      · subst h92
        exact hascii (by decide) hsplit rfl
      · have hplain : Plain c := ⟨h34, h92, h32⟩
        have htext : (c :: s).flatMap escapeChar ++ 34 :: rest = c :: (s.flatMap escapeChar ++ 34 :: rest) := by
          rw [List.flatMap_cons, escapeChar_plain h34 h92 h32]
          rfl
        cases hd : decodeUtf8 (c :: (s.flatMap escapeChar ++ 34 :: rest)) with
        | none =>
          rw [htext] at h
          unfold parseChar at h
          split at h
          · rename_i heq; cases heq; exact absurd rfl h92
          · rw [hd] at h; cases h
        | some decoded =>
          obtain ⟨length, codepoint⟩ := decoded
          obtain ⟨hpos, hle, hhigh, happ⟩ := decodeUtf8_spec hd
          rw [htext, parseChar_plain h92 hd] at h
          cases h
          rw [← htext] at hle hhigh happ ⊢
          have hall : ∀ b ∈ ((c :: s).flatMap escapeChar ++ 34 :: rest).take length, Plain b := by
            intro b hb
            rcases Nat.lt_or_ge 1 length with h1 | h1
            · exact plain_of_le (hhigh h1 b hb)
            · obtain rfl : length = 1 := by omega
              rw [htext, List.take_succ_cons, List.take_zero, List.mem_singleton] at hb
              rw [hb]
              exact hplain
          obtain ⟨hn, htake, hdrop⟩ := take_escaped hle hall
          have happ' := happ []
          rw [List.append_nil, htake] at happ'
          rw [htake, hdrop]
          refine ⟨(c :: s).drop length, (List.take_append_drop _ _).symm, rfl, ?_, codepoint, ?_⟩
          · rw [← List.length_pos_iff, List.length_take]
            omega
          · rw [happ', List.length_take, Nat.min_eq_left hn]

theorem head_escaped (c : UInt8) (s rest : Bytes) :
    ∃ b more, (c :: s).flatMap escapeChar ++ rest = b :: more ∧ b ≠ 34 ∧ ¬b < 32 := by
  by_cases hc : Plain c
  · exact ⟨c, s.flatMap escapeChar ++ rest, by
      rw [List.flatMap_cons, escapeChar_plain hc.1 hc.2.1 hc.2.2]; rfl, hc.1, hc.2.2⟩
  · obtain ⟨more, hmore⟩ := head_escapeChar hc
    exact ⟨92, more ++ s.flatMap escapeChar ++ rest, by
      rw [List.flatMap_cons, hmore]; rfl, by decide, by decide⟩

/-- What is read of an escaped string is the string, which is valid and within the bound. -/
theorem parseStringLoop_ok {o : JsonDecodeOptions} : ∀ {fuel : Nat} {out s rest value behind : Bytes},
    out.length ≤ o.maxStringBytes →
    parseStringLoop o fuel out (s.flatMap escapeChar ++ 34 :: rest) = .ok (value, behind) →
    ValidUtf8 s ∧ (out ++ s).length ≤ o.maxStringBytes
  | 0, _, _, _, _, _, _, h => by cases h
  | fuel + 1, out, [], rest, _, _, hout, _ => ⟨.nil, by rw [List.append_nil]; exact hout⟩
  | fuel + 1, out, c :: s, rest, value, behind, _, h => by
    obtain ⟨b, more, htext, h34, h32⟩ := head_escaped c s (34 :: rest)
    rw [htext, parseStringLoop] at h
    simp only [if_neg h34, if_neg h32] at h
    rw [← htext] at h
    cases hchar : parseChar ((c :: s).flatMap escapeChar ++ 34 :: rest) with
    | error e => rw [hchar] at h; cases h
    | ok read =>
      obtain ⟨bytes, left⟩ := read
      rw [hchar] at h
      simp only at h
      split at h
      · cases h
      · rename_i hbound
        obtain ⟨tail, heq, rfl, -, codepoint, hd⟩ := parseChar_escaped hchar
        obtain ⟨hvalid, hlen⟩ := parseStringLoop_ok (not_lt.1 hbound) h
        rw [heq]
        exact ⟨.cons hd hvalid, by rw [← List.append_assoc]; exact hlen⟩

/-- An escaped string reads as the string exactly when it is valid and within the bound. -/
theorem parseString_reads {o : JsonDecodeOptions} (s rest : Bytes) :
    Reads (parseString o (escapedString s ++ rest)) (ValidUtf8 s ∧ s.length ≤ o.maxStringBytes) s rest := by
  by_cases h : ValidUtf8 s ∧ s.length ≤ o.maxStringBytes
  · exact .inl ⟨h, parseString_escaped h.1 h.2 rest⟩
  · refine .inr ⟨h, ?_⟩
    cases hp : parseString o (escapedString s ++ rest) with
    | error e => exact ⟨e, rfl⟩
    | ok read =>
      obtain ⟨value, behind⟩ := read
      refine absurd ?_ h
      rw [escapedString, List.cons_append, List.append_assoc, parseString] at hp
      exact parseStringLoop_ok (Nat.zero_le _) hp

end Parser

/-! ## Values -/

namespace Json

mutual

/-- What the canonical text of a value denotes. -/
def reread : Json → Json
  | .null => .null
  | .bool b => .bool b
  | .int i => .int i
  | .real d => .real d.canonical
  | .string s => .string s
  | .array items => .array (rereadItems items)
  | .object members => .object (rereadMembers members)

def rereadItems : List Json → List Json
  | [] => []
  | v :: rest => reread v :: rereadItems rest

def rereadMembers : List (Bytes × Json) → List (Bytes × Json)
  | [] => []
  | (key, v) :: rest => (key, reread v) :: rereadMembers rest

end

/-- A real number may have no text, so that an array cannot hold one. -/
def isReal : Json → Bool
  | .real _ => true
  | _ => false

mutual

/-- Objects hold their members in order, and arrays hold no real numbers. -/
def Proper : Json → Prop
  | .array items => ProperItems items
  | .object members => Assoc.Sorted members ∧ ProperMembers members
  | _ => True

def ProperItems : List Json → Prop
  | [] => True
  | v :: rest => v.isReal = false ∧ Proper v ∧ ProperItems rest

def ProperMembers : List (Bytes × Json) → Prop
  | [] => True
  | (_, v) :: rest => Proper v ∧ ProperMembers rest

end

/-- An array whose only item has no text, so that its text is that of the empty array. -/
def soleTextless : List Json → Bool
  | [.real d] => (formatCanonicalReal d).isNone
  | _ => false

mutual

/-- Objects hold their members in order, and no array has the text of the empty one by an item without text. -/
def Solid : Json → Prop
  | .array items => soleTextless items = false ∧ SolidItems items
  | .object members => Assoc.Sorted members ∧ SolidMembers members
  | _ => True

def SolidItems : List Json → Prop
  | [] => True
  | v :: rest => Solid v ∧ SolidItems rest

def SolidMembers : List (Bytes × Json) → Prop
  | [] => True
  | (_, v) :: rest => Solid v ∧ SolidMembers rest

end

theorem soleTextless_cons {v : Json} (h : v.isReal = false) (rest : List Json) : soleTextless (v :: rest) = false := by
  cases v with
  | real d => cases h
  | _ => cases rest <;> rfl

mutual

theorem Proper.solid : ∀ {v : Json}, v.Proper → v.Solid
  | .null, _ | .bool _, _ | .int _, _ | .real _, _ | .string _, _ => trivial
  | .array [], _ => ⟨rfl, trivial⟩
  | .array (_ :: rest), h => ⟨soleTextless_cons h.1 rest, ProperItems.solid h⟩
  | .object _, h => ⟨h.1, ProperMembers.solid h.2⟩

theorem ProperItems.solid : ∀ {items : List Json}, ProperItems items → SolidItems items
  | [], _ => trivial
  | _ :: _, h => ⟨Proper.solid h.2.1, ProperItems.solid h.2.2⟩

theorem ProperMembers.solid : ∀ {members : List (Bytes × Json)}, ProperMembers members → SolidMembers members
  | [], _ => trivial
  | (_, _) :: _, h => ⟨Proper.solid h.1, ProperMembers.solid h.2⟩

end

end Json

/-- The nesting the decoder lets through. -/
def JsonDecodeOptions.depthBound (o : JsonDecodeOptions) : Nat := if o.maxDepth = 0 then 1 else o.maxDepth

namespace Json

mutual

/-- A value at a depth whose text is within the bounds of the decoder. -/
def Readable (o : JsonDecodeOptions) (depth : Nat) : Json → Prop
  | .real d => depth ≤ o.depthBound ∧ ∃ text, formatCanonicalReal d = some text ∧ text.length ≤ 64
  | .string s => depth ≤ o.depthBound ∧ Parser.ValidUtf8 s ∧ s.length ≤ o.maxStringBytes
  | .array items => depth ≤ o.depthBound ∧ ReadableItems o depth items
  | .object members => depth ≤ o.depthBound ∧ ReadableMembers o depth members
  | _ => depth ≤ o.depthBound

def ReadableItems (o : JsonDecodeOptions) (depth : Nat) : List Json → Prop
  | [] => True
  | v :: rest => Readable o (depth + 1) v ∧ ReadableItems o depth rest

def ReadableMembers (o : JsonDecodeOptions) (depth : Nat) : List (Bytes × Json) → Prop
  | [] => True
  | (key, v) :: rest => (Parser.ValidUtf8 key ∧ key.length ≤ o.maxStringBytes) ∧ Readable o (depth + 1) v ∧
      ReadableMembers o depth rest

end

/-- A text without white space in front of it. -/
theorem skipWs_of_head {text : Bytes} (h : ∀ c ∈ text.head?, Parser.isWs c = false) : Parser.skipWs text = text := by
  cases text with
  | nil => rfl
  | cons c rest => exact List.dropWhile_cons_of_neg (by rw [h c rfl]; decide)

theorem skipWs_ends {rest : Bytes} (h : Parser.Ends rest) : Parser.skipWs rest = rest := by
  refine skipWs_of_head fun c hc => ?_
  rcases h c hc with rfl | rfl | rfl <;> rfl

/-- A character that values start with: no white space, no separator and no closing bracket. -/
def Starts (c : UInt8) : Prop := Parser.isWs c = false ∧ c ≠ 93 ∧ c ≠ 125

instance instDecidableStarts (c : UInt8) : Decidable (Starts c) :=
  inferInstanceAs (Decidable (Parser.isWs c = false ∧ c ≠ 93 ∧ c ≠ 125))

theorem starts_of_isDigit {c : UInt8} (h : isDigit c = true) : Starts c := by
  have hne : ∀ b : UInt8, isDigit b = false → c ≠ b := by
    rintro b hb rfl
    exact absurd h (by rw [hb]; decide)
  refine ⟨?_, hne 93 (by decide), hne 125 (by decide)⟩
  simp [Parser.isWs, hne 32 (by decide), hne 9 (by decide), hne 10 (by decide), hne 13 (by decide)]

theorem head_text : ∀ v : Json, ∀ c ∈ v.text.head?, Starts c
  | .null, _, hc => by cases hc; decide
  | .bool true, _, hc => by cases hc; decide
  | .bool false, _, hc => by cases hc; decide
  | .string _, _, hc => by cases hc; decide
  | .array _, _, hc => by cases hc; decide
  | .object _, _, hc => by cases hc; decide
  | .int i, c, hc => by
    rw [text, formatInt] at hc
    split at hc
    · cases hc; decide
    · obtain ⟨d, more, hcons⟩ := List.exists_cons_of_ne_nil (List.length_pos_iff.1 (length_toDecimal_pos i.toInt.natAbs))
      rw [hcons] at hc
      cases hc
      exact starts_of_isDigit (isDigit_toDecimal i.toInt.natAbs _ (by rw [hcons]; exact List.mem_cons_self))
  | .real d, c, hc => by
    rw [text] at hc
    cases hf : formatCanonicalReal d with
    | none => rw [hf] at hc; cases hc
    | some text =>
      obtain ⟨-, plain, hplain, -, rfl⟩ := formatCanonicalReal_spec hf
      obtain ⟨-, b, more, rfl, hb⟩ := hplain.digits
      rw [hf, Option.getD_some] at hc
      split at hc
      · cases hc; decide
      · cases hc; exact starts_of_isDigit hb

theorem nonempty_text : ∀ {v : Json}, v.isReal = false → ∃ c rest, v.text = c :: rest
  | .null, _ => ⟨_, _, rfl⟩
  | .bool true, _ => ⟨_, _, rfl⟩
  | .bool false, _ => ⟨_, _, rfl⟩
  | .string _, _ => ⟨_, _, rfl⟩
  | .array _, _ => ⟨_, _, rfl⟩
  | .object _, _ => ⟨_, _, rfl⟩
  | .int i, _ => by
    rw [text, formatInt]
    split
    · exact ⟨_, _, rfl⟩
    · exact List.exists_cons_of_ne_nil (List.length_pos_iff.1 (length_toDecimal_pos i.toInt.natAbs))
  | .real _, h => by cases h

/-- The text of items starts a value or goes on behind one, unless it is that of the empty array. -/
theorem head_textItems {v : Json} {items : List Json} (h : soleTextless (v :: items) = false) (rest : Bytes) :
    ∃ c behind, textItems (v :: items) true ++ rest = c :: behind ∧ Starts c := by
  have htext : textItems (v :: items) true ++ rest = v.text ++ (textItems items false ++ rest) := by
    rw [textItems, if_pos rfl, List.nil_append, List.append_assoc]
  rw [htext]
  cases hv : v.text with
  | cons c text => exact ⟨c, text ++ (textItems items false ++ rest), rfl, head_text v c (by rw [hv]; rfl)⟩
  | nil =>
    cases items with
    | cons w items => exact ⟨44, _, rfl, by decide⟩
    | nil =>
      -- the only item has a text
      cases hreal : v.isReal with
      | false =>
        obtain ⟨c, text, hcons⟩ := nonempty_text hreal
        rw [hcons] at hv
        cases hv
      | true =>
        cases v with
        | real d =>
          rw [soleTextless, Option.isNone_eq_false_iff, Option.isSome_iff_exists] at h
          obtain ⟨text, hf⟩ := h
          obtain ⟨-, plain, hplain, -, rfl⟩ := formatCanonicalReal_spec hf
          obtain ⟨-, b, more, rfl, -⟩ := hplain.digits
          rw [Json.text, hf, Option.getD_some] at hv
          exact absurd hv (List.append_ne_nil_of_right_ne_nil _ (List.cons_ne_nil _ _))
        | _ => cases hreal

theorem Readable.depth {o : JsonDecodeOptions} {depth : Nat} : ∀ {v : Json}, Readable o depth v → depth ≤ o.depthBound
  | .null, h => h
  | .bool _, h => h
  | .int _, h => h
  | .real _, h => h.1
  | .string _, h => h.1
  | .array _, h => h.1
  | .object _, h => h.1

end Json

namespace Parser

theorem parseValue_refused {o : JsonDecodeOptions} {fuel depth : Nat} {rest : Bytes} (h : o.depthBound < depth) :
    ∃ e, parseValue o fuel depth rest = .error e := by
  cases fuel with
  | zero => exact ⟨_, rfl⟩
  | succ fuel =>
    cases rest with
    | nil => exact ⟨_, rfl⟩
    | cons c rest =>
      rw [parseValue, if_pos (show depth > if o.maxDepth = 0 then 1 else o.maxDepth from h)]
      exact ⟨_, rfl⟩

theorem literal_append (token : String) (value : Json) (rest : Bytes) :
    literal token value (utf8 token ++ rest) = .ok (value, rest) := by
  unfold literal
  simp only
  rw [if_neg (by rw [List.length_append]; omega), List.take_left, if_neg (fun h => h rfl), List.drop_left]

theorem within {o : JsonDecodeOptions} {depth : Nat} (h : depth ≤ o.depthBound) :
    ¬(depth > if o.maxDepth = 0 then 1 else o.maxDepth) := not_lt.2 h

theorem parseValue_null {o : JsonDecodeOptions} {fuel depth : Nat} (hd : depth ≤ o.depthBound) (rest : Bytes) :
    parseValue o (fuel + 1) depth (utf8 "null" ++ rest) = .ok (.null, rest) := by
  rw [← literal_append "null" .null rest]
  show parseValue o (fuel + 1) depth (110 :: ([117, 108, 108] ++ rest)) = _
  rw [parseValue, if_neg (within hd)]
  rfl

theorem parseValue_bool {o : JsonDecodeOptions} {fuel depth : Nat} (hd : depth ≤ o.depthBound) (b : Bool) (rest : Bytes) :
    parseValue o (fuel + 1) depth ((Json.bool b).text ++ rest) = .ok (.bool b, rest) := by
  cases b with
  | true =>
    rw [← literal_append "true" (.bool true) rest]
    show parseValue o (fuel + 1) depth (116 :: ([114, 117, 101] ++ rest)) = _
    rw [parseValue, if_neg (within hd)]
    rfl
  | false =>
    rw [← literal_append "false" (.bool false) rest]
    show parseValue o (fuel + 1) depth (102 :: ([97, 108, 115, 101] ++ rest)) = _
    rw [parseValue, if_neg (within hd)]
    rfl

theorem parseValue_string {o : JsonDecodeOptions} {fuel depth : Nat} (hd : depth ≤ o.depthBound) (s rest : Bytes) :
    Reads (parseValue o (fuel + 1) depth (escapedString s ++ rest)) (depth ≤ o.depthBound ∧ ValidUtf8 s ∧
      s.length ≤ o.maxStringBytes) (.string s) rest := by
  have hvalue : parseValue o (fuel + 1) depth (escapedString s ++ rest) =
      (parseString o (escapedString s ++ rest)).map fun read => (.string read.1, read.2) := by
    unfold escapedString
    rw [List.cons_append, parseValue, if_neg (within hd)]
    generalize parseString o (34 :: _) = read
    simp only
    cases read <;> rfl
  rw [hvalue]
  rcases @parseString_reads o s rest with ⟨hc, heq⟩ | ⟨hc, e, heq⟩
  · exact .inl ⟨⟨hd, hc⟩, by simp only [heq, Except.map]⟩
  · exact .inr ⟨fun h => hc h.2, e, by simp only [heq, Except.map]⟩

theorem parseValue_array {o : JsonDecodeOptions} {fuel depth : Nat} {c : UInt8} {rest : Bytes} (hd : depth ≤ o.depthBound)
    (hc : Json.Starts c) : parseValue o (fuel + 1) depth (91 :: c :: rest) = parseItems o fuel depth [] (c :: rest) := by
  rw [parseValue, if_neg (within hd), if_neg (by decide), if_pos rfl]
  rw [Json.skipWs_of_head (fun b hb => by cases hb; exact hc.1)]
  split
  · rename_i heq; cases heq; exact absurd rfl hc.2.1
  · rfl

theorem parseValue_object {o : JsonDecodeOptions} {fuel depth : Nat} {c : UInt8} {rest : Bytes} (hd : depth ≤ o.depthBound)
    (hc : Json.Starts c) : parseValue o (fuel + 1) depth (123 :: c :: rest) = parseMembers o fuel depth [] (c :: rest) := by
  rw [parseValue, if_neg (within hd), if_pos rfl]
  rw [Json.skipWs_of_head (fun b hb => by cases hb; exact hc.1)]
  split
  · rename_i heq; cases heq; exact absurd rfl hc.2.2
  · rfl

/-- A number starts a number. -/
theorem parseValue_number {o : JsonDecodeOptions} {fuel depth : Nat} {c : UInt8} {rest : Bytes}
    (hd : depth ≤ o.depthBound) (hc : c = 45 ∨ isDigit c = true) :
    parseValue o (fuel + 1) depth (c :: rest) = parseNumber (c :: rest) := by
  have hne : ∀ b : UInt8, b ≠ 45 → isDigit b = false → c ≠ b := by
    rintro b hb hb' rfl
    rcases hc with rfl | hc
    · exact hb rfl
    · exact absurd hc (by rw [hb']; decide)
  have hnumber : (c == 45 || isDigit c) = true := by
    rcases hc with rfl | hc
    · rfl
    · rw [hc, Bool.or_true]
  rw [parseValue, if_neg (within hd), if_neg (hne 123 (by decide) (by decide)), if_neg (hne 91 (by decide) (by decide)),
    if_neg (hne 34 (by decide) (by decide)), if_neg (hne 116 (by decide) (by decide)),
    if_neg (hne 102 (by decide) (by decide)), if_neg (hne 110 (by decide) (by decide)), if_pos hnumber]

/-- The text of an integer starts with its sign or a digit. -/
theorem head_formatInt (i : Int64) : ∃ c rest, formatInt i = c :: rest ∧ (c = 45 ∨ isDigit c = true) := by
  unfold formatInt
  split
  · exact ⟨_, _, rfl, .inl rfl⟩
  · obtain ⟨d, more, hcons⟩ := List.exists_cons_of_ne_nil (List.length_pos_iff.1 (length_toDecimal_pos i.toInt.natAbs))
    exact ⟨d, more, hcons, .inr (isDigit_toDecimal i.toInt.natAbs _ (by rw [hcons]; exact List.mem_cons_self))⟩

theorem head_formatCanonicalReal {d : Double} {text : Bytes} (h : formatCanonicalReal d = some text) :
    ∃ c rest, text = c :: rest ∧ (c = 45 ∨ isDigit c = true) := by
  obtain ⟨-, plain, hplain, -, rfl⟩ := formatCanonicalReal_spec h
  obtain ⟨-, b, more, rfl, hb⟩ := hplain.digits
  split
  · exact ⟨_, _, rfl, .inl rfl⟩
  · exact ⟨_, _, rfl, .inr hb⟩

/-- No value starts where one should end. -/
theorem parseValue_ends {o : JsonDecodeOptions} {fuel depth : Nat} {rest : Bytes} (h : Ends rest) :
    ∃ e, parseValue o fuel depth rest = .error e := by
  by_cases hd : o.depthBound < depth
  · exact parseValue_refused hd
  · cases fuel with
    | zero => exact ⟨_, rfl⟩
    | succ fuel =>
      cases rest with
      | nil => exact ⟨_, rfl⟩
      | cons c rest =>
        rw [parseValue, if_neg (within (not_lt.1 hd))]
        rcases ends_cons.1 h with rfl | rfl | rfl <;> exact ⟨_, rfl⟩

theorem ends_textItems (items : List Json) (rest : Bytes) : Ends (Json.textItems items false ++ rest) := by
  cases items with
  | nil => exact ends_cons.2 (.inr (.inl rfl))
  | cons v items => exact ends_cons.2 (.inl rfl)

theorem ends_textMembers (members : List (Bytes × Json)) (rest : Bytes) : Ends (Json.textMembers members false ++ rest) := by
  cases members with
  | nil => exact ends_cons.2 (.inr (.inr rfl))
  | cons e members => exact ends_cons.2 (.inl rfl)

/-- Values start where white space has been skipped. -/
theorem skipWs_text (v : Json) {rest : Bytes} (h : Ends rest) : skipWs (v.text ++ rest) = v.text ++ rest := by
  refine Json.skipWs_of_head fun c hc => ?_
  cases ht : v.text with
  | nil =>
    rw [ht, List.nil_append] at hc
    rcases h c hc with rfl | rfl | rfl <;> rfl
  | cons b text =>
    rw [ht] at hc
    exact (Json.head_text v c (by rw [ht]; exact hc)).1

mutual

/-- The decoder reads the text of a value as what it denotes, exactly when the value is within its bounds. -/
theorem parseValue_text {o : JsonDecodeOptions} : ∀ (v : Json), v.Solid → ∀ {fuel depth : Nat} {rest : Bytes},
    2 * (v.text ++ rest).length + 1 ≤ fuel → Ends rest →
      Reads (parseValue o fuel depth (v.text ++ rest)) (v.Readable o depth) v.reread rest
  | v, hv, fuel, depth, rest, hfuel, hrest => by
    by_cases hd : o.depthBound < depth
    · exact .inr ⟨fun h => absurd h.depth (not_le.2 hd), parseValue_refused hd⟩
    · obtain ⟨fuel, rfl⟩ : ∃ k, fuel = k + 1 := ⟨fuel - 1, by omega⟩
      have hd' := not_lt.1 hd
      match v, hv, hfuel with
      | .null, _, _ => exact .inl ⟨hd', parseValue_null hd' rest⟩
      | .bool value, _, _ => exact .inl ⟨hd', parseValue_bool hd' value rest⟩
      | .int i, _, _ =>
        refine .inl ⟨hd', ?_⟩
        obtain ⟨c, more, hcons, hc⟩ := head_formatInt i
        rw [Json.text, hcons, List.cons_append, parseValue_number hd' hc, ← List.cons_append, ← hcons,
          parseNumber_formatInt i hrest]
        rfl
      | .real d, _, _ =>
        cases hf : formatCanonicalReal d with
        | none =>
          rw [Json.text, hf, Option.getD_none, List.nil_append]
          refine .inr ⟨fun h => ?_, parseValue_ends hrest⟩
          obtain ⟨text, htext, -⟩ := h.2
          rw [hf] at htext
          cases htext
        | some text =>
          obtain ⟨c, more, hcons, hc⟩ := head_formatCanonicalReal hf
          rw [Json.text, hf, Option.getD_some, hcons, List.cons_append, parseValue_number hd' hc, ← List.cons_append, ← hcons]
          rcases parseNumber_formatCanonicalReal hf hrest with ⟨hlen, heq⟩ | ⟨hlen, heq⟩
          · exact .inl ⟨⟨hd', text, hf, hlen⟩, heq⟩
          · refine .inr ⟨fun h => hlen ?_, heq⟩
            obtain ⟨text', htext, hle⟩ := h.2
            rw [hf] at htext
            cases htext
            exact hle
      | .string s, _, _ => exact parseValue_string hd' s rest
      | .array [], _, _ =>
        refine .inl ⟨⟨hd', trivial⟩, ?_⟩
        show parseValue o (fuel + 1) depth (91 :: 93 :: rest) = _
        rw [parseValue, if_neg (within hd')]
        rfl
      | .array (w :: more), hv, hfuel =>
        obtain ⟨c, behind, hitems, hc⟩ := Json.head_textItems hv.1 rest
        have htext : (Json.array (w :: more)).text ++ rest = 91 :: (Json.textItems (w :: more) true ++ rest) := rfl
        have hread := @parseItems_text o (w :: more) hv.2 (List.cons_ne_nil _ _) fuel depth [] rest (by
          rw [htext, List.length_cons] at hfuel
          omega)
        rw [htext, hitems, parseValue_array hd' hc, ← hitems]
        rcases hread with ⟨hr, heq⟩ | ⟨hr, heq⟩
        · exact .inl ⟨⟨hd', hr⟩, heq⟩
        · exact .inr ⟨fun h => hr h.2, heq⟩
      | .object [], _, _ =>
        refine .inl ⟨⟨hd', trivial⟩, ?_⟩
        show parseValue o (fuel + 1) depth (123 :: 125 :: rest) = _
        rw [parseValue, if_neg (within hd')]
        rfl
      | .object ((key, w) :: more), hv, hfuel =>
        have htext : (Json.object ((key, w) :: more)).text ++ rest = 123 :: (Json.textMembers ((key, w) :: more) true ++ rest) :=
          rfl
        have hmembers : ∃ behind, Json.textMembers ((key, w) :: more) true ++ rest = 34 :: behind := ⟨_, rfl⟩
        obtain ⟨behind, hmembers⟩ := hmembers
        have hread := @parseMembers_text o ((key, w) :: more) hv.2 hv.1 (List.cons_ne_nil _ _) fuel depth [] rest
          (fun _ ha => (nomatch ha)) (by
            rw [htext, List.length_cons] at hfuel
            omega)
        rw [htext, hmembers, parseValue_object hd' (by decide), ← hmembers]
        rcases hread with ⟨hr, heq⟩ | ⟨hr, heq⟩
        · exact .inl ⟨⟨hd', hr⟩, heq⟩
        · exact .inr ⟨fun h => hr h.2, heq⟩

theorem parseItems_text {o : JsonDecodeOptions} : ∀ (items : List Json), Json.SolidItems items → items ≠ [] →
    ∀ {fuel depth : Nat} {acc : List Json} {rest : Bytes}, 2 * (Json.textItems items true ++ rest).length + 2 ≤ fuel →
      Reads (parseItems o fuel depth acc (Json.textItems items true ++ rest)) (Json.ReadableItems o depth items)
        (.array (acc ++ Json.rereadItems items)) rest
  | [], _, hne, _, _, _, _, _ => absurd rfl hne
  | v :: more, hv, _, fuel, depth, acc, rest, hfuel => by
    obtain ⟨fuel, rfl⟩ : ∃ k, fuel = k + 1 := ⟨fuel - 1, by omega⟩
    have htext : Json.textItems (v :: more) true ++ rest = v.text ++ (Json.textItems more false ++ rest) := by
      rw [Json.textItems, if_pos rfl, List.nil_append, List.append_assoc]
    have hends := ends_textItems more rest
    have hvalue := @parseValue_text o v hv.1 fuel (depth + 1) (Json.textItems more false ++ rest)
      (by rw [← htext]; omega) hends
    have hmore := fun hne => @parseItems_text o more hv.2 hne fuel depth (acc ++ [v.reread]) rest
    rw [htext] at hfuel ⊢
    rw [parseItems, skipWs_text v hends]
    rcases hvalue with ⟨hr, heq⟩ | ⟨hr, e, heq⟩
    · rw [heq]
      simp only [Json.skipWs_ends hends]
      cases more with
      | nil => exact .inl ⟨⟨hr, trivial⟩, rfl⟩
      | cons w more =>
        have hrest : Json.textItems (w :: more) false ++ rest = 44 :: (Json.textItems (w :: more) true ++ rest) := rfl
        rw [hrest] at hfuel ⊢
        simp only [List.length_append, List.length_cons] at hfuel hmore
        rcases hmore (List.cons_ne_nil _ _) (by omega) with ⟨hrs, heq⟩ | ⟨hrs, e, heq⟩
        · refine .inl ⟨⟨hr, hrs⟩, ?_⟩
          show parseItems o fuel depth (acc ++ [v.reread]) (Json.textItems (w :: more) true ++ rest) = _
          rw [heq, List.append_assoc]
          rfl
        · exact .inr ⟨fun h => hrs h.2, e, heq⟩
    · exact .inr ⟨fun h => hr h.1, e, by rw [heq]⟩

theorem parseMembers_text {o : JsonDecodeOptions} : ∀ (members : List (Bytes × Json)), Json.SolidMembers members →
    Assoc.Sorted members → members ≠ [] → ∀ {fuel depth : Nat} {acc : List (Bytes × Json)} {rest : Bytes},
    (∀ a ∈ acc, ∀ b ∈ members, a.1 < b.1) → 2 * (Json.textMembers members true ++ rest).length + 2 ≤ fuel →
      Reads (parseMembers o fuel depth acc (Json.textMembers members true ++ rest)) (Json.ReadableMembers o depth members)
        (.object (acc ++ Json.rereadMembers members)) rest
  | [], _, _, hne, _, _, _, _, _, _ => absurd rfl hne
  | (key, v) :: more, hv, hsorted, _, fuel, depth, acc, rest, hbelow, hfuel => by
    obtain ⟨fuel, rfl⟩ : ∃ k, fuel = k + 1 := ⟨fuel - 1, by omega⟩
    have hcolon : Json.textMembers ((key, v) :: more) true ++ rest =
        escapedString key ++ 58 :: (v.text ++ (Json.textMembers more false ++ rest)) := by
      rw [Json.textMembers, if_pos rfl, List.nil_append]
      simp only [List.append_assoc, List.cons_append, List.nil_append]
    have hends := ends_textMembers more rest
    obtain ⟨hfirst, hsorted'⟩ := Assoc.sorted_cons.1 hsorted
    rw [hcolon] at hfuel ⊢
    simp only [List.length_append, List.length_cons] at hfuel
    have hvalue := @parseValue_text o v hv.1 fuel (depth + 1) (Json.textMembers more false ++ rest)
      (by simp only [List.length_append]; omega) hends
    have hbelow' : ∀ a ∈ acc ++ [(key, v.reread)], ∀ b ∈ more, a.1 < b.1 := by
      intro a ha b hb
      rcases List.mem_append.1 ha with ha | ha
      · exact hbelow a ha b (List.mem_cons_of_mem _ hb)
      · rw [List.mem_singleton.1 ha]; exact hfirst b hb
    have hmore := fun hne => @parseMembers_text o more hv.2 hsorted' hne fuel depth (acc ++ [(key, v.reread)]) rest hbelow'
    have hlast : ∀ a ∈ acc, a.1 < key := fun a ha => hbelow a ha _ List.mem_cons_self
    have hnew : (Assoc.find key acc).isSome = false := by
      rw [Option.isSome_eq_false_iff, Option.isNone_iff_eq_none, Assoc.find_eq_none_iff]
      exact fun a ha => ne_of_lt (hlast a ha)
    have hkey : skipWs (escapedString key ++ 58 :: (v.text ++ (Json.textMembers more false ++ rest))) =
        escapedString key ++ 58 :: (v.text ++ (Json.textMembers more false ++ rest)) := rfl
    rw [parseMembers, hkey]
    rcases @parseString_reads o key (58 :: (v.text ++ (Json.textMembers more false ++ rest))) with ⟨hk, heq⟩ | ⟨hk, e, heq⟩
    · have hskip : skipWs (58 :: (v.text ++ (Json.textMembers more false ++ rest))) =
          58 :: (v.text ++ (Json.textMembers more false ++ rest)) := rfl
      rw [heq]
      simp only [hskip, skipWs_text v hends]
      rcases hvalue with ⟨hr, heq⟩ | ⟨hr, e, heq⟩
      · rw [heq]
        simp only [hnew, Bool.false_eq_true, if_false, Json.skipWs_ends hends, Assoc.set_append_of_lt hlast]
        cases more with
        | nil => exact .inl ⟨⟨hk, hr, trivial⟩, rfl⟩
        | cons w more =>
          have hrest : Json.textMembers (w :: more) false ++ rest = 44 :: (Json.textMembers (w :: more) true ++ rest) := rfl
          have hlen := congrArg List.length hrest
          rw [hrest]
          simp only [List.length_append, List.length_cons] at hlen hmore
          rcases hmore (List.cons_ne_nil _ _) (by omega) with ⟨hrs, heq⟩ | ⟨hrs, e, heq⟩
          · refine .inl ⟨⟨hk, hr, hrs⟩, ?_⟩
            show parseMembers o fuel depth (acc ++ [(key, v.reread)]) (Json.textMembers (w :: more) true ++ rest) = _
            rw [heq, List.append_assoc]
            rfl
          · exact .inr ⟨fun h => hrs h.2.2, e, heq⟩
      · exact .inr ⟨fun h => hr h.2.1, e, by rw [heq]⟩
    · exact .inr ⟨fun h => hk h.1, e, by rw [heq]⟩

end

end Parser

/-- Canonical text within the size bound decodes to what it denotes, exactly when it is within the other bounds. -/
theorem jsonDecode_solid {v : Json} {o : JsonDecodeOptions} (hv : v.Solid) (hlen : v.text.length ≤ o.maxBytes)
    (hobject : o.requireObject = true → v.isObject = true) :
    (v.Readable o 0 ∧ jsonDecode v.text o = .ok v.reread) ∨ (¬v.Readable o 0 ∧ ∃ e, jsonDecode v.text o = .error e) := by
  have hends : Parser.Ends [] := fun _ h => by cases h
  have hskip := Parser.skipWs_text v hends
  have hread := @Parser.parseValue_text o v hv (2 * v.text.length + 1) 0 [] (by rw [List.append_nil]) hends
  rw [List.append_nil] at hskip hread
  unfold jsonDecode Parser.parseDocument
  rw [if_neg (not_lt.2 hlen), hskip]
  by_cases hempty : v.text = []
  · simp only [if_pos hempty]
    rcases hread with ⟨hr, heq⟩ | ⟨hr, -⟩
    · rw [hempty] at heq
      cases heq
    · exact .inr ⟨hr, _, rfl⟩
  · simp only [if_neg hempty]
    rcases hread with ⟨hr, heq⟩ | ⟨hr, e, heq⟩
    · have hrest : Parser.skipWs [] = [] := rfl
      have hkind : (o.requireObject && !v.reread.isObject) = false := by
        cases ho : o.requireObject with
        | false => rfl
        | true =>
          have := hobject ho
          cases v with
          | object members => rfl
          | _ => cases this
      simp only [heq, hrest, hkind]
      exact .inl ⟨hr, rfl⟩
    · simp only [heq]
      exact .inr ⟨hr, _, rfl⟩

theorem jsonDecode_text {v : Json} {o : JsonDecodeOptions} (hv : v.Proper) (hlen : v.text.length ≤ o.maxBytes)
    (hobject : o.requireObject = true → v.isObject = true) :
    (v.Readable o 0 ∧ jsonDecode v.text o = .ok v.reread) ∨ (¬v.Readable o 0 ∧ ∃ e, jsonDecode v.text o = .error e) :=
  jsonDecode_solid hv.solid hlen hobject

end Wnc
