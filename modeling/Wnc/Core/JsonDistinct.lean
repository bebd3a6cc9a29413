/-
The canonical text of a value tells it apart from every other, but for the numbers that have no text of their own.
Numbers of the size contracts declare have one.
-/
import Wnc.Core.JsonObject

namespace Wnc

open Lib

/-- A run of elements with a property ends where the first without it stands. -/
theorem append_eq_of_stop {α : Type} {p : α → Prop} : ∀ {a b r r' : List α}, (∀ c ∈ a, p c) → (∀ c ∈ b, p c) →
    (∀ c ∈ r.head?, ¬p c) → (∀ c ∈ r'.head?, ¬p c) → a ++ r = b ++ r' → a = b ∧ r = r'
  | [], [], _, _, _, _, _, _, h => ⟨rfl, h⟩
  | [], c :: b, r, r', _, hb, hr, _, h => by
    rw [List.nil_append, List.cons_append] at h
    exact absurd (hb c List.mem_cons_self) (hr c (by rw [h]; rfl))
  | c :: a, [], r, r', ha, _, _, hr', h => by
    rw [List.nil_append, List.cons_append] at h
    exact absurd (ha c List.mem_cons_self) (hr' c (by rw [← h]; rfl))
  | c :: a, d :: b, r, r', ha, hb, hr, hr', h => by
    obtain ⟨rfl, htail⟩ := List.cons.inj h
    obtain ⟨rfl, hrest⟩ := append_eq_of_stop (fun x hx => ha x (List.mem_cons_of_mem _ hx))
      (fun x hx => hb x (List.mem_cons_of_mem _ hx)) hr hr' htail
    exact ⟨rfl, hrest⟩

/-! ## Numbers -/

theorem Lib.Double.ReadsPlain.unique {text : Bytes} {m n : Nat} (hm : Double.ReadsPlain text m)
    (hn : Double.ReadsPlain text n) : m = n := by
  obtain ⟨integer, fraction, rfl, hinteger, _, _, rfl⟩ := hm
  obtain ⟨integer', fraction', htext, hinteger', _, _, rfl⟩ := hn
  have hpoint : ∀ rest : Bytes, ∀ c ∈ (46 :: rest : Bytes).head?, ¬isDigit c = true := by
    rintro rest c ⟨⟩
    decide
  obtain ⟨rfl, hfraction⟩ := append_eq_of_stop hinteger.digit hinteger'.digit (hpoint _) (hpoint _) htext
  rw [(List.cons.inj hfraction).2]

/-- The number that a text denotes is written the same. -/
theorem formatCanonicalReal_canonical {d : Double} {text : Bytes} (h : formatCanonicalReal d = some text) :
    formatCanonicalReal d.canonical = some text := by
  have hf := (formatCanonicalReal_spec h).1
  by_cases h0 : d.magnitude = 0
  · unfold formatCanonicalReal at h
    rw [hf, (Double.eq_zero_iff hf).2 h0] at h
    rw [Double.canonical_eq_zero h0]
    exact h
  · by_cases hlen : (Double.scientificText d.magnitude).length < (Double.fixedText d.magnitude).length
    · -- a text in scientific notation keeps the sign
      have hsame : d.canonical = d := by
        unfold Double.canonical
        rw [if_neg h0, decide_eq_true hlen, Bool.and_true]
      rw [hsame]
      exact h
    · have hzero : ∀ negative, Double.eq ⟨negative, d.magnitude, d.bound⟩ .zero = false := fun negative =>
        Bool.eq_false_iff.2 fun he => h0 ((Double.eq_zero_iff (d := ⟨negative, d.magnitude, d.bound⟩) hf).1 he)
      have hwritten : ∀ negative, formatCanonicalReal ⟨negative, d.magnitude, d.bound⟩ =
          some (if 46 ∈ Double.fixedText d.magnitude then Double.fixedText d.magnitude
            else Double.fixedText d.magnitude ++ [46, 48]) := by
        intro negative
        obtain ⟨hplain, hhead⟩ := fixedText_spec h0
        have hfinite : Double.isFinite ⟨negative, d.magnitude, d.bound⟩ = true := hf
        unfold formatCanonicalReal
        rw [hfinite, hzero negative]
        unfold Double.toChars
        simp only [Bool.not_true, Bool.false_eq_true, if_false, if_neg h0, if_pos (not_lt.1 hlen)]
        rw [(@sign_spec negative _ hhead).2, hplain, Bool.not_false, if_pos rfl]
      unfold Double.canonical
      rw [if_neg h0, decide_eq_false hlen, Bool.and_false, hwritten, ← hwritten d.negative]
      exact h

/-- Two numbers of one text denote one number. -/
theorem canonical_eq_of_text {d e : Double} {text : Bytes} (hd : formatCanonicalReal d = some text)
    (he : formatCanonicalReal e = some text) : d.canonical = e.canonical := by
  obtain ⟨_, plain, hreads, _, htext⟩ := formatCanonicalReal_spec hd
  obtain ⟨_, plain', hreads', _, htext'⟩ := formatCanonicalReal_spec he
  have hsigns : ∀ {text : Bytes} {m : Nat}, Double.ReadsPlain text m → text.head? ≠ some 45 := by
    intro text m h
    obtain ⟨_, c, rest, rfl, hc⟩ := h.digits
    rw [List.head?_cons, ne_eq, Option.some.injEq]
    rintro rfl
    exact absurd hc (by decide)
  have hsame : d.canonical.negative = e.canonical.negative ∧ plain = plain' := by
    rw [htext] at htext'
    cases hn : d.canonical.negative <;> cases hn' : e.canonical.negative <;> rw [hn, hn'] at htext'
    · exact ⟨rfl, htext'⟩
    · exact absurd (by rw [show plain = _ from htext']; rfl) (hsigns hreads)
    · exact absurd (by rw [show plain' = _ from htext'.symm]; rfl) (hsigns hreads')
    · exact ⟨rfl, List.append_cancel_left htext'⟩
  obtain ⟨hnegative, rfl⟩ := hsame
  refine Double.ext hnegative ?_
  rw [Double.canonical_magnitude, Double.canonical_magnitude]
  exact hreads.unique hreads'

/-! ## Numbers that have a text -/

theorem decimalValue_lt : ∀ {digits : Bytes}, (∀ c ∈ digits, isDigit c = true) →
    decimalValue digits < 10 ^ digits.length
  | [], _ => by decide
  | c :: digits, h => by
    rw [List.forall_mem_cons] at h
    have hrest := decimalValue_lt h.2
    have hdigit : decimalValue [c] ≤ 9 := by
      have hrange := h.1
      unfold isDigit at hrange
      simp only [Bool.and_eq_true, decide_eq_true_eq] at hrange
      have := UInt8.le_iff_toNat_le.1 hrange.2
      have h57 : (57 : UInt8).toNat = 57 := rfl
      simp only [decimalValue, List.foldl_cons, List.foldl_nil]
      omega
    have happend := decimalValue_append [c] digits
    rw [List.singleton_append] at happend
    have hbound : decimalValue [c] * 10 ^ digits.length ≤ 9 * 10 ^ digits.length := Nat.mul_le_mul_right _ hdigit
    rw [happend, List.length_cons, pow_succ]
    omega

theorem readExponentDigits_of_le : ∀ {digits : Bytes} {acc : Nat}, (∀ c ∈ digits, isDigit c = true) →
    acc * 10 ^ digits.length + decimalValue digits ≤ 100000 → (readExponentDigits digits acc).isSome
  | [], _, _, _ => rfl
  | c :: digits, acc, h, hvalue => by
    rw [List.forall_mem_cons] at h
    have happend := decimalValue_append [c] digits
    rw [List.singleton_append] at happend
    have hone : decimalValue [c] = c.toNat - 48 := by simp [decimalValue]
    have hsum : (acc * 10 + (c.toNat - 48)) * 10 ^ digits.length + decimalValue digits ≤ 100000 := by
      rw [happend, hone, List.length_cons, pow_succ] at hvalue
      calc (acc * 10 + (c.toNat - 48)) * 10 ^ digits.length + decimalValue digits
          = acc * (10 ^ digits.length * 10) + ((c.toNat - 48) * 10 ^ digits.length + decimalValue digits) := by ring
        _ ≤ 100000 := hvalue
    have hacc : acc ≤ 100000 := by
      have hpos : 1 ≤ 10 ^ (c :: digits).length := Nat.one_le_pow _ _ (by decide)
      have := Nat.le_mul_of_pos_right acc hpos
      omega
    rw [readExponentDigits, h.1, if_neg (by decide), if_neg (by omega)]
    exact readExponentDigits_of_le h.2 hsum

/-- A moderate exponent is read. -/
theorem readExponent_of_le {x : Int} (h : x.natAbs ≤ 100000) : readExponent (Double.exponentText x) = some x := by
  have hsome : (readExponent (Double.exponentText x)).isSome := by
    unfold Double.exponentText
    simp only
    have hpad : ∀ c ∈ List.replicate (2 - (toDecimal x.natAbs).length) (48 : UInt8) ++ toDecimal x.natAbs, isDigit c = true := by
      intro c hc
      rcases List.mem_append.1 hc with hc | hc
      · rw [List.eq_of_mem_replicate hc]; rfl
      · exact isDigit_toDecimal _ c hc
    have hvalue : decimalValue (List.replicate (2 - (toDecimal x.natAbs).length) (48 : UInt8) ++ toDecimal x.natAbs) =
        x.natAbs := by
      rw [decimalValue_append, decimalValue_zeros, decimalValue_toDecimal, Nat.zero_mul, Nat.zero_add]
    have hnil : List.replicate (2 - (toDecimal x.natAbs).length) (48 : UInt8) ++ toDecimal x.natAbs ≠ [] :=
      List.append_ne_nil_of_right_ne_nil _ (List.length_pos_iff.1 (length_toDecimal_pos _))
    have hread := @readExponentDigits_of_le _ 0 hpad (by rw [hvalue, Nat.zero_mul]; omega)
    generalize List.replicate (2 - (toDecimal x.natAbs).length) (48 : UInt8) ++ toDecimal x.natAbs = digits at hnil hread
    unfold readExponent
    by_cases hx : x < 0
    · simp [hx, hnil, hread]
    · simp [hx, hnil, hread]
  obtain ⟨y, hy⟩ := Option.isSome_iff_exists.1 hsome
  rw [hy, readExponent_exponentText hy]

/-- A magnitude up to that of `10 ^ 15` has a leading exponent that can be expanded. -/
theorem leadingExponent_range {m : Nat} (h0 : m ≠ 0) (hm : m ≤ Double.index (10 ^ 16 * Double.one)) :
    -400 ≤ Double.leadingExponent m ∧ Double.leadingExponent m ≤ 40 := by
  have hreads := Double.reads_shortest m
  have hpos := Double.shortest_pos h0
  unfold Double.leadingExponent
  generalize (Double.shortest m).1 = c at hreads hpos
  generalize (Double.shortest m).2 = e at hreads
  have hlength := length_toDecimal_pos c
  have hupper : c < 10 ^ (toDecimal c).length := by
    have := decimalValue_lt (isDigit_toDecimal c)
    rwa [decimalValue_toDecimal] at this
  have hlower : 10 ^ ((toDecimal c).length - 1) ≤ c := by
    by_contra hlt
    by_cases hone : (toDecimal c).length = 1
    · rw [hone, Nat.sub_self, pow_zero] at hlt
      omega
    · have := length_toDecimal_le (k := (toDecimal c).length - 1) (by omega) (not_le.1 hlt)
      omega
  generalize (toDecimal c).length = n at hlength hupper hlower
  unfold Double.reads at hreads
  constructor
  · -- a smaller number would read as zero
    by_contra hsmall
    have he : ¬0 ≤ e := by omega
    rw [if_neg he] at hreads
    have hk : n + 400 ≤ (-e).toNat := by omega
    have htiny : 2 * (c * Double.one) < 10 ^ (-e).toNat := by
      have hone : 2 * Double.one < 10 ^ 400 := by decide +kernel
      calc 2 * (c * Double.one) = c * (2 * Double.one) := by ring
        _ < 10 ^ n * 10 ^ 400 := Nat.mul_lt_mul'' hupper hone
        _ = 10 ^ (n + 400) := (pow_add _ _ _).symm
        _ ≤ 10 ^ (-e).toNat := Nat.pow_le_pow_right (by decide) hk
    refine h0 ?_
    rw [← hreads]
    unfold Double.nearest
    simp only
    rw [Nat.div_eq_of_lt (by omega), Double.index_of_lt (by decide), if_pos]
    have hscaled : Double.scaled 0 + Double.scaled (0 + 1) = 1 := by decide
    rw [hscaled, Nat.one_mul]
    exact htiny
  · -- a larger one would be beyond the magnitude
    by_contra hlarge
    have hbeyond : Double.index (10 ^ 16 * Double.one) < Double.index (10 ^ 41 * Double.one) := by decide +kernel
    have hvalue : Double.index (10 ^ 41 * Double.one) ≤ m := by
      rw [← hreads]
      split
      · rename_i he
        refine le_trans (Double.index_mono ?_) (Double.index_le_nearest _ _)
        rw [Nat.div_one]
        refine Nat.mul_le_mul_right _ ?_
        calc 10 ^ 41 ≤ 10 ^ (n - 1 + e.toNat) := Nat.pow_le_pow_right (by decide) (by omega)
          _ = 10 ^ (n - 1) * 10 ^ e.toNat := pow_add _ _ _
          _ ≤ c * 10 ^ e.toNat := Nat.mul_le_mul_right _ hlower
      · rename_i he
        refine le_trans (Double.index_mono ?_) (Double.index_le_nearest _ _)
        rw [Nat.le_div_iff_mul_le (by positivity)]
        calc 10 ^ 41 * Double.one * 10 ^ (-e).toNat = 10 ^ (41 + (-e).toNat) * Double.one := by rw [pow_add]; ring
          _ ≤ 10 ^ (n - 1) * Double.one := Nat.mul_le_mul_right _ (Nat.pow_le_pow_right (by decide) (by omega))
          _ ≤ c * Double.one := Nat.mul_le_mul_right _ hlower
    omega

/-- A finite number that is not negative has a text when its magnitude is not above that of `10 ^ 16`. -/
theorem isSome_formatCanonicalReal {d : Double} (hf : d.isFinite = true)
    (hm : d.magnitude ≤ Double.index (10 ^ 16 * Double.one)) : (formatCanonicalReal d).isSome := by
  unfold formatCanonicalReal
  rw [hf, Bool.not_true, if_neg Bool.false_ne_true]
  split
  · rfl
  · rename_i hzero
    have h0 : d.magnitude ≠ 0 := fun h0 => hzero ((Double.eq_zero_iff hf).2 h0)
    unfold Double.toChars
    rw [if_neg h0]
    by_cases hlen : (Double.fixedText d.magnitude).length ≤ (Double.scientificText d.magnitude).length
    · obtain ⟨hplain, hhead⟩ := fixedText_spec h0
      simp only [if_pos hlen]
      rw [(@sign_spec d.negative _ hhead).2, hplain, Bool.not_false, if_pos rfl]
      rfl
    · obtain ⟨hlow, hhigh⟩ := leadingExponent_range h0 hm
      have htake : (Double.scientificText d.magnitude).dropWhile (fun c => !(c == 101 || c == 69)) =
          101 :: Double.exponentText (Double.leadingExponent d.magnitude) := by
        unfold Double.scientificText
        rw [List.dropWhile_append_of_pos fun c hc => by rw [mantissaText_no_exponent _ c hc]; rfl,
          List.dropWhile_cons_of_neg (by decide)]
      simp only [if_neg hlen]
      rw [(@sign_spec d.negative _ (head_scientificText d.magnitude)).2, any_isExponent_scientificText, Bool.not_true,
        if_neg Bool.false_ne_true, htake, List.drop_one, List.tail_cons, readExponent_of_le (by omega)]
      simp only [Option.isSome_map]
      have hmantissa : (Double.scientificText d.magnitude).takeWhile (fun c => !(c == 101 || c == 69)) =
          Double.mantissaText (toDecimal (Double.shortest d.magnitude).1) := by
        unfold Double.scientificText
        rw [List.takeWhile_append_of_pos fun c hc => by rw [mantissaText_no_exponent _ c hc]; rfl,
          List.takeWhile_cons_of_neg (by decide), List.append_nil]
      have hone : ((toDecimal (Double.shortest d.magnitude).1).take 1).length ≤ 1 := List.length_take_le _ _
      rw [hmantissa, expandExponent_eq ⟨hlow, hhigh⟩, takeWhile_mantissaText, intPoint_eq (by omega), if_pos (by omega)]
      rfl

/-! ## Strings -/

/-- Among the characters that are escaped none has an escape that starts another's. -/
theorem escapeChar_escaped : ∀ a < 93, ∀ b < 93, escapeChar (UInt8.ofNat a) <+: escapeChar (UInt8.ofNat b) →
    (escapeChar (UInt8.ofNat a)).head? = some 92 → a = b := by decide +kernel

theorem lt_of_not_plain {c : UInt8} (h : ¬Parser.Plain c) : c.toNat < 93 := by
  unfold Parser.Plain at h
  by_cases h34 : c = 34
  · rw [h34]; decide
  · by_cases h92 : c = 92
    · rw [h92]; decide
    · have h32 : c < 32 := by
        by_contra h32
        exact h ⟨h34, h92, h32⟩
      have := UInt8.lt_iff_toNat_lt.1 h32
      have hvalue : (32 : UInt8).toNat = 32 := rfl
      omega

/-- What is written for a character tells it and where it ends. -/
theorem escapeChar_append {a b : UInt8} {r r' : Bytes} (h : escapeChar a ++ r = escapeChar b ++ r') : a = b ∧ r = r' := by
  have hescape : ∀ {a b : UInt8}, escapeChar a <+: escapeChar b → a = b := by
    intro a b hab
    by_cases ha : Parser.Plain a
    · rw [Parser.escapeChar_plain ha.1 ha.2.1 ha.2.2] at hab
      by_cases hb : Parser.Plain b
      · rw [Parser.escapeChar_plain hb.1 hb.2.1 hb.2.2] at hab
        simpa using hab
      · obtain ⟨more, hmore⟩ := Parser.head_escapeChar hb
        rw [hmore] at hab
        exact absurd (by simpa using hab) ha.2.1
    · obtain ⟨more, hmore⟩ := Parser.head_escapeChar ha
      by_cases hb : Parser.Plain b
      · rw [hmore, Parser.escapeChar_plain hb.1 hb.2.1 hb.2.2] at hab
        exact absurd (by simpa using (List.cons_prefix_cons.1 hab).1.symm) hb.2.1
      · have hsame := escapeChar_escaped a.toNat (lt_of_not_plain ha) b.toNat (lt_of_not_plain hb)
        rw [UInt8.ofNat_toNat, UInt8.ofNat_toNat] at hsame
        exact UInt8.toNat_inj.1 (hsame hab (by rw [hmore]; rfl))
  have hsame : a = b := by
    rcases List.prefix_or_prefix_of_prefix (List.prefix_append (escapeChar a) r)
      (h ▸ List.prefix_append (escapeChar b) r') with hab | hba
    · exact hescape hab
    · exact (hescape hba).symm
  subst hsame
  exact ⟨rfl, List.append_cancel_left h⟩

theorem escapeChar_ne_quote (c : UInt8) (r r' : Bytes) : escapeChar c ++ r ≠ 34 :: r' := by
  intro h
  by_cases hc : Parser.Plain c
  · rw [Parser.escapeChar_plain hc.1 hc.2.1 hc.2.2] at h
    exact hc.1 (List.cons.inj h).1
  · obtain ⟨more, hmore⟩ := Parser.head_escapeChar hc
    rw [hmore] at h
    exact absurd (List.cons.inj h).1 (by decide)

theorem escaped_append : ∀ {s t r r' : Bytes}, s.flatMap escapeChar ++ 34 :: r = t.flatMap escapeChar ++ 34 :: r' →
    s = t ∧ r = r'
  | [], [], _, _, h => ⟨rfl, (List.cons.inj h).2⟩
  | [], d :: t, r, r', h => by
    rw [List.flatMap_nil, List.nil_append, List.flatMap_cons, List.append_assoc] at h
    exact absurd h.symm (escapeChar_ne_quote d _ r)
  | c :: s, [], r, r', h => by
    rw [List.flatMap_nil, List.nil_append, List.flatMap_cons, List.append_assoc] at h
    exact absurd h (escapeChar_ne_quote c _ r')
  | c :: s, d :: t, r, r', h => by
    rw [List.flatMap_cons, List.flatMap_cons, List.append_assoc, List.append_assoc] at h
    obtain ⟨rfl, htail⟩ := escapeChar_append h
    obtain ⟨rfl, hrest⟩ := escaped_append htail
    exact ⟨rfl, hrest⟩

theorem escapedString_append {s t r r' : Bytes} (h : escapedString s ++ r = escapedString t ++ r') : s = t ∧ r = r' := by
  unfold escapedString at h
  simp only [List.cons_append, List.append_assoc, List.nil_append] at h
  exact escaped_append (List.cons.inj h).2

/-! ## What a text tells -/

/-- The number that stands for those without a text. -/
def Lib.Double.unwritten : Double := ⟨false, Double.infinityMagnitude, by decide⟩

/-- What the text of a number tells of it. -/
def Lib.Double.printed (d : Double) : Double := if (formatCanonicalReal d).isSome then d.canonical else .unwritten

theorem formatCanonicalReal_printed (d : Double) : formatCanonicalReal d.printed = formatCanonicalReal d := by
  have hunwritten : formatCanonicalReal .unwritten = none := rfl
  unfold Double.printed
  cases h : formatCanonicalReal d with
  | none => rw [Option.isSome_none, if_neg Bool.false_ne_true, hunwritten]
  | some text => rw [Option.isSome_some, if_pos rfl, formatCanonicalReal_canonical h]

namespace Json

mutual

/-- What the text of a value tells of it. -/
def printed : Json → Json
  | .real d => .real d.printed
  | .array items => .array (printedItems items)
  | .object members => .object (printedMembers members)
  | v => v

def printedItems : List Json → List Json
  | [] => []
  | v :: rest => printed v :: printedItems rest

def printedMembers : List (Bytes × Json) → List (Bytes × Json)
  | [] => []
  | (key, v) :: rest => (key, printed v) :: printedMembers rest

end

mutual

theorem text_printed : ∀ v : Json, v.printed.text = v.text
  | .null | .bool _ | .int _ | .string _ => rfl
  | .real d => by rw [printed, text, formatCanonicalReal_printed, text]
  | .array items => by rw [printed, text, textItems_printed items, text]
  | .object members => by rw [printed, text, textMembers_printed members, text]

theorem textItems_printed : ∀ (items : List Json) (first : Bool), textItems (printedItems items) first = textItems items first
  | [], _ => rfl
  | v :: rest, first => by rw [printedItems, textItems, text_printed v, textItems_printed rest, textItems]

theorem textMembers_printed : ∀ (members : List (Bytes × Json)) (first : Bool),
    textMembers (printedMembers members) first = textMembers members first
  | [], _ => rfl
  | (key, v) :: rest, first => by rw [printedMembers, textMembers, text_printed v, textMembers_printed rest, textMembers]

end

/-! ## Literals and numbers -/

/-- The characters of literals and of numbers. -/
def Token (c : UInt8) : Prop := isDigit c = true ∨ c = 45 ∨ c = 46 ∨ c ∈ utf8 "nulltruefalse"

/-- The character that opens a string, an array or an object. -/
def opens : Json → Option UInt8
  | .string _ => some 34
  | .array _ => some 91
  | .object _ => some 123
  | _ => none

theorem mem_formatInt {i : Int64} : ∀ c ∈ formatInt i, isDigit c = true ∨ c = 45 := by
  intro c hc
  unfold formatInt at hc
  split at hc
  · rcases List.mem_cons.1 hc with rfl | hc
    · exact .inr rfl
    · exact .inl (isDigit_toDecimal _ c hc)
  · exact .inl (isDigit_toDecimal _ c hc)

theorem mem_formatCanonicalReal {d : Double} {text : Bytes} (h : formatCanonicalReal d = some text) :
    46 ∈ text ∧ ∀ c ∈ text, isDigit c = true ∨ c = 45 ∨ c = 46 := by
  obtain ⟨_, plain, hreads, _, rfl⟩ := formatCanonicalReal_spec h
  constructor
  · obtain ⟨integer, fraction, rfl, _⟩ := hreads
    simp
  · intro c hc
    rcases List.mem_append.1 hc with hc | hc
    · split at hc
      · exact .inr (.inl (List.mem_singleton.1 hc))
      · cases hc
    · rcases hreads.digits.1 c hc with hd | hd
      · exact .inl hd
      · exact .inr (.inr hd)

theorem token_text : ∀ {v : Json}, v.opens = none → ∀ c ∈ v.text, Token c
  | .null, _, _, hc => .inr (.inr (.inr ((by decide : utf8 "null" ⊆ utf8 "nulltruefalse") hc)))
  | .bool true, _, _, hc => .inr (.inr (.inr ((by decide : utf8 "true" ⊆ utf8 "nulltruefalse") hc)))
  | .bool false, _, _, hc => .inr (.inr (.inr ((by decide : utf8 "false" ⊆ utf8 "nulltruefalse") hc)))
  | .int i, _, c, hc => (mem_formatInt c hc).imp id .inl
  | .real d, _, c, hc => by
    cases h : formatCanonicalReal d with
    | none =>
      rw [text, h] at hc
      cases hc
    | some t =>
      rw [text, h] at hc
      exact ((mem_formatCanonicalReal h).2 c hc).imp id fun h => h.imp id .inl

theorem not_token : ∀ c : UInt8, c = 34 ∨ c = 44 ∨ c = 91 ∨ c = 93 ∨ c = 123 ∨ c = 125 → ¬Token c := by
  unfold Token
  rintro c (rfl | rfl | rfl | rfl | rfl | rfl) <;> decide

/-- The first character of a text tells strings, arrays and objects from each other and from the rest. -/
theorem opens_text (v : Json) {r : Bytes} (hr : Parser.Ends r) :
    (v.text ++ r).head?.filter (fun c => c == 34 || c == 91 || c == 123) = v.opens := by
  by_cases hv : v.opens = none
  · have hnone : ∀ c ∈ (v.text ++ r).head?, (c == 34 || c == 91 || c == 123) = false := by
      intro c hc
      have hfar : Token c ∨ c = 44 ∨ c = 93 ∨ c = 125 := by
        cases ht : v.text with
        | nil =>
          rw [ht] at hc
          exact .inr (hr c hc)
        | cons b rest =>
          rw [ht] at hc
          cases hc
          exact .inl (token_text hv _ (by rw [ht]; exact List.mem_cons_self))
      by_contra hopening
      have hbracket : c = 34 ∨ c = 91 ∨ c = 123 := by
        rwa [Bool.not_eq_false, Bool.or_eq_true, Bool.or_eq_true, beq_iff_eq, beq_iff_eq, beq_iff_eq, or_assoc] at hopening
      rcases hfar with htoken | hend
      · exact not_token c (by tauto) htoken
      · rcases hbracket with rfl | rfl | rfl <;> revert hend <;> decide
    rw [hv]
    cases hc : (v.text ++ r).head? with
    | none => rfl
    | some c =>
      rw [Option.filter_some, hnone c hc]
      rfl
  · cases v with
    | string s => rfl
    | array items => rfl
    | object members => rfl
    | _ => exact absurd rfl hv

/-- The kinds of value that open with no bracket, by their text. -/
def tokenKind (text : Bytes) : Nat :=
  if text = utf8 "null" then 0
  else if text = utf8 "true" then 1
  else if text = utf8 "false" then 2
  else if text.isEmpty || text.any (· = 46) then 3
  else 4

theorem tokenKind_number {text : Bytes} (h : ∀ c ∈ text, isDigit c = true ∨ c = 45 ∨ c = 46) :
    tokenKind text = if text.isEmpty || text.any (· = 46) then 3 else 4 := by
  have hne : ∀ word : Bytes, 101 ∈ word ∨ 108 ∈ word → text ≠ word := by
    rintro word hword rfl
    rcases hword with hword | hword
    · exact absurd (h _ hword) (by decide)
    · exact absurd (h _ hword) (by decide)
  unfold tokenKind
  rw [if_neg (hne _ (.inr (by decide))), if_neg (hne _ (.inl (by decide))), if_neg (hne _ (.inl (by decide)))]

theorem tokenKind_int (i : Int64) : tokenKind (formatInt i) = 4 := by
  rw [tokenKind_number fun c hc => (mem_formatInt c hc).imp id .inl, if_neg]
  rw [Bool.or_eq_true, List.isEmpty_iff, List.any_eq_true]
  rintro (hempty | ⟨c, hc, hpoint⟩)
  · obtain ⟨c, rest, hcons, _⟩ := Parser.head_formatInt i
    rw [hcons] at hempty
    cases hempty
  · rw [of_decide_eq_true hpoint] at hc
    exact absurd (mem_formatInt _ hc) (by decide)

theorem tokenKind_real (d : Double) : tokenKind ((formatCanonicalReal d).getD []) = 3 := by
  cases h : formatCanonicalReal d with
  | none => decide
  | some text =>
    obtain ⟨hpoint, hall⟩ := mem_formatCanonicalReal h
    rw [Option.getD_some, tokenKind_number hall, if_pos]
    rw [Bool.or_eq_true, List.any_eq_true]
    exact .inr ⟨46, hpoint, rfl⟩

def tokenRank : Json → Nat
  | .null => 0
  | .bool true => 1
  | .bool false => 2
  | .real _ => 3
  | _ => 4

theorem tokenKind_text {v : Json} (hv : v.opens = none) : tokenKind v.text = v.tokenRank := by
  cases v with
  | null => decide
  | bool b => cases b <;> decide
  | int i => exact tokenKind_int i
  | real d => exact tokenKind_real d
  | _ => cases hv

theorem printed_of_getD {d e : Double} (h : (formatCanonicalReal d).getD [] = (formatCanonicalReal e).getD []) :
    d.printed = e.printed := by
  have hempty : ∀ {d : Double}, formatCanonicalReal d ≠ some [] := by
    intro d hd
    cases (mem_formatCanonicalReal hd).1
  unfold Double.printed
  cases hd : formatCanonicalReal d with
  | none =>
    cases he : formatCanonicalReal e with
    | none => rw [Option.isSome_none, if_neg Bool.false_ne_true, if_neg Bool.false_ne_true]
    | some text =>
      rw [hd, he, Option.getD_none, Option.getD_some] at h
      exact absurd (h ▸ he) hempty
  | some text =>
    cases he : formatCanonicalReal e with
    | none =>
      rw [hd, he, Option.getD_none, Option.getD_some] at h
      exact absurd (h ▸ hd) hempty
    | some text' =>
      rw [hd, he, Option.getD_some, Option.getD_some] at h
      rw [Option.isSome_some, Option.isSome_some, if_pos rfl, if_pos rfl]
      exact canonical_eq_of_text hd (h ▸ he)

/-- Literals and numbers of one text are printed alike. -/
theorem printed_of_token {v w : Json} (hv : v.opens = none) (hw : w.opens = none) (h : v.text = w.text) :
    v.printed = w.printed := by
  have hrank : v.tokenRank = w.tokenRank := by rw [← tokenKind_text hv, ← tokenKind_text hw, h]
  cases v with
  | null =>
    cases w with
    | null => rfl
    | bool b => cases b <;> cases hrank
    | _ => cases hrank
  | bool b =>
    cases w with
    | bool b' => cases b <;> cases b' <;> first | rfl | cases hrank
    | _ => cases b <;> cases hrank
  | int i =>
    cases w with
    | int j =>
      have hi := @Parser.parseNumber_formatInt i [] fun _ h => nomatch h
      have hj := @Parser.parseNumber_formatInt j [] fun _ h => nomatch h
      rw [text, text] at h
      rw [h, hj] at hi
      rw [Json.int.inj (Prod.mk.inj (Except.ok.inj hi)).1]
    | bool b => cases b <;> cases hrank
    | null => cases hrank
    | real d => cases hrank
    | _ => cases hw
  | real d =>
    cases w with
    | real e =>
      rw [text, text] at h
      rw [printed, printed, printed_of_getD h]
    | bool b => cases b <;> cases hrank
    | _ => cases hrank
  | _ => cases hv

/-! ## Values -/

theorem opens_eq {v w : Json} {r r' : Bytes} (hr : Parser.Ends r) (hr' : Parser.Ends r') (h : v.text ++ r = w.text ++ r') :
    v.opens = w.opens := by
  rw [← opens_text v hr, h, opens_text w hr']

/-- The text of an item does not start like the end of an array. -/
theorem item_ne_end {v : Json} (hv : v.isReal = false) (r r' : Bytes) : v.text ++ r ≠ 93 :: r' := by
  obtain ⟨c, rest, hcons⟩ := nonempty_text hv
  have hstarts := head_text v c (by rw [hcons]; rfl)
  rw [hcons]
  exact fun h => hstarts.2.1 (List.cons.inj h).1

mutual

/-- The text of a value tells what is printed of it and where it ends. -/
theorem text_append : ∀ {v w : Json} {r r' : Bytes}, v.Proper → w.Proper → Parser.Ends r → Parser.Ends r' →
    v.text ++ r = w.text ++ r' → v.printed = w.printed ∧ r = r'
  | .null, w, r, r', hv, hw, hr, hr', h | .bool _, w, r, r', hv, hw, hr, hr', h | .int _, w, r, r', hv, hw, hr, hr', h
  | .real _, w, r, r', hv, hw, hr, hr', h => by
    have hopens := opens_eq hr hr' h
    have hstop : ∀ {r : Bytes}, Parser.Ends r → ∀ c ∈ r.head?, ¬Token c := fun hr c hc =>
      not_token c (by have := hr c hc; tauto)
    obtain ⟨htext, hrest⟩ := append_eq_of_stop (token_text rfl) (token_text hopens.symm) (hstop hr) (hstop hr') h
    exact ⟨printed_of_token rfl hopens.symm htext, hrest⟩
  | .string s, w, r, r', _, _, hr, hr', h => by
    have hopens := opens_eq hr hr' h
    cases w with
    | string t =>
      obtain ⟨rfl, hrest⟩ := escapedString_append h
      exact ⟨rfl, hrest⟩
    | _ => cases hopens
  | .array items, w, r, r', hv, hw, hr, hr', h => by
    have hopens := opens_eq hr hr' h
    cases w with
    | array items' =>
      obtain ⟨hitems, hrest⟩ := textItems_append hv hw (List.cons.inj h).2
      exact ⟨by rw [printed, printed, hitems], hrest⟩
    | _ => cases hopens
  | .object members, w, r, r', hv, hw, hr, hr', h => by
    have hopens := opens_eq hr hr' h
    cases w with
    | object members' =>
      obtain ⟨hmembers, hrest⟩ := textMembers_append hv.2 hw.2 (List.cons.inj h).2
      exact ⟨by rw [printed, printed, hmembers], hrest⟩
    | _ => cases hopens

theorem textItems_append : ∀ {items items' : List Json} {first : Bool} {r r' : Bytes}, ProperItems items →
    ProperItems items' → textItems items first ++ r = textItems items' first ++ r' →
      printedItems items = printedItems items' ∧ r = r'
  | [], [], _, _, _, _, _, h => ⟨rfl, (List.cons.inj h).2⟩
  | [], v :: rest, true, r, r', _, hw, h => by
    rw [textItems, textItems, if_pos rfl, List.nil_append, List.append_assoc] at h
    exact absurd h.symm (item_ne_end hw.1 _ _)
  | [], v :: rest, false, r, r', _, _, h => absurd (List.cons.inj h).1 (by decide)
  | v :: rest, [], true, r, r', hv, _, h => by
    rw [textItems, textItems, if_pos rfl, List.nil_append, List.append_assoc] at h
    exact absurd h (item_ne_end hv.1 _ _)
  | v :: rest, [], false, r, r', _, _, h => absurd (List.cons.inj h).1 (by decide)
  | v :: rest, w :: rest', first, r, r', hv, hw, h => by
    rw [textItems, textItems] at h
    simp only [List.append_assoc] at h
    obtain ⟨hprinted, htail⟩ := text_append hv.2.1 hw.2.1 (Parser.ends_textItems rest r) (Parser.ends_textItems rest' r')
      (List.append_cancel_left h)
    obtain ⟨hrest, hr⟩ := textItems_append hv.2.2 hw.2.2 htail
    exact ⟨by rw [printedItems, printedItems, hprinted, hrest], hr⟩

theorem textMembers_append : ∀ {members members' : List (Bytes × Json)} {first : Bool} {r r' : Bytes},
    ProperMembers members → ProperMembers members' → textMembers members first ++ r = textMembers members' first ++ r' →
      printedMembers members = printedMembers members' ∧ r = r'
  | [], [], _, _, _, _, _, h => ⟨rfl, (List.cons.inj h).2⟩
  | [], (_, _) :: _, true, _, _, _, _, h => absurd (List.cons.inj h).1 (by decide)
  | [], (_, _) :: _, false, _, _, _, _, h => absurd (List.cons.inj h).1 (by decide)
  | (_, _) :: _, [], true, _, _, _, _, h => absurd (List.cons.inj h).1 (by decide)
  | (_, _) :: _, [], false, _, _, _, _, h => absurd (List.cons.inj h).1 (by decide)
  | (key, v) :: rest, (key', w) :: rest', first, r, r', hv, hw, h => by
    rw [textMembers, textMembers] at h
    simp only [List.append_assoc] at h
    obtain ⟨rfl, hvalue⟩ := escapedString_append (List.append_cancel_left h)
    obtain ⟨hprinted, htail⟩ := text_append hv.1 hw.1 (Parser.ends_textMembers rest r) (Parser.ends_textMembers rest' r')
      (List.append_cancel_left hvalue)
    obtain ⟨hrest, hr⟩ := textMembers_append hv.2 hw.2 htail
    exact ⟨by rw [printedMembers, printedMembers, hprinted, hrest], hr⟩

end

/-- Values have one text exactly when the same is printed of them. -/
theorem text_eq_iff {v w : Json} (hv : v.Proper) (hw : w.Proper) : v.text = w.text ↔ v.printed = w.printed := by
  have hends : Parser.Ends [] := fun _ h => nomatch h
  constructor
  · intro h
    exact (text_append hv hw hends hends (by rw [h])).1
  · intro h
    rw [← text_printed v, h, text_printed]

/-! ## Members -/

theorem printedItems_eq : ∀ items : List Json, printedItems items = items.map printed
  | [] => rfl
  | v :: rest => by rw [printedItems, printedItems_eq rest, List.map_cons]

theorem printedMembers_eq : ∀ members : List (Bytes × Json), printedMembers members = members.map fun e => (e.1, e.2.printed)
  | [] => rfl
  | (key, v) :: rest => by rw [printedMembers, printedMembers_eq rest, List.map_cons]

theorem find_printed (v : Json) (key : Bytes) : v.printed.find key = (v.find key).map printed := by
  cases v with
  | object members =>
    rw [printed, printedMembers_eq]
    exact Assoc.find_map printed key members
  | _ => rfl

/-- What is found in values of which the same is printed. -/
theorem found_printed {v w : Json} (h : v.printed = w.printed) (key : String) :
    (v.find (utf8 key)).map printed = (w.find (utf8 key)).map printed := by
  rw [← find_printed, h, find_printed]

end Json

end Wnc
