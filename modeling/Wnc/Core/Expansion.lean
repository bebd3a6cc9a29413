/-
Plain notation of scientific texts. A number's digits keep their value when an exponent moves the point, as long as the
digits before the point can be counted in an `int`.
-/
import Wnc.Core.JsonNumber
import Mathlib.Algebra.Field.Rat
import Mathlib.Tactic.FieldSimp

namespace Wnc

open Lib

/-! ## Decimal texts -/

/-- A mantissa: decimal digits and at most one point. -/
structure IsMantissa (text : Bytes) : Prop where
  char : ∀ c ∈ text, isDigit c = true ∨ c = 46
  point : text.count 46 ≤ 1
  digit : ∃ c ∈ text, isDigit c = true

/-- The digits behind the point. -/
def fractionDigits (text : Bytes) : Bytes := (text.dropWhile (· != 46)).drop 1

/-- The number that a decimal text denotes. -/
def textValue (text : Bytes) : ℚ :=
  decimalValue (text.takeWhile (· != 46) ++ fractionDigits text) / 10 ^ (fractionDigits text).length

/-- A plain decimal text: digits on both sides of its point, and behind the first digit of the fraction no zero at its
end. -/
def IsPlain (text : Bytes) : Prop :=
  ∃ integer fraction, text = integer ++ 46 :: fraction ∧ integer ≠ [] ∧ fraction ≠ [] ∧
    (∀ c ∈ integer ++ fraction, isDigit c = true) ∧ (fraction.length = 1 ∨ fraction.getLast? ≠ some 48)

theorem takeWhile_plain {integer fraction : Bytes} (h : ∀ c ∈ integer, isDigit c = true) :
    (integer ++ 46 :: fraction).takeWhile (· != 46) = integer := by
  rw [List.takeWhile_append_of_pos fun c hc => ne_point_of_isDigit (h c hc), List.takeWhile_cons_of_neg (by decide),
    List.append_nil]

theorem fractionDigits_plain {integer fraction : Bytes} (h : ∀ c ∈ integer, isDigit c = true) :
    fractionDigits (integer ++ 46 :: fraction) = fraction := by
  rw [fractionDigits, List.dropWhile_append_of_pos fun c hc => ne_point_of_isDigit (h c hc),
    List.dropWhile_cons_of_neg (by decide), List.drop_one, List.tail_cons]

theorem textValue_plain {integer fraction : Bytes} (h : ∀ c ∈ integer, isDigit c = true) :
    textValue (integer ++ 46 :: fraction) = decimalValue (integer ++ fraction) / 10 ^ fraction.length := by
  rw [textValue, takeWhile_plain h, fractionDigits_plain h]

/-! ## Mantissas -/

/-- Behind the digits before the point there is nothing or the point. -/
theorem dropWhile_point (text : Bytes) :
    text.dropWhile (· != 46) = [] ∨ text.dropWhile (· != 46) = 46 :: fractionDigits text := by
  unfold fractionDigits
  cases hdrop : text.dropWhile (· != 46) with
  | nil => exact .inl rfl
  | cons d rest =>
    have hd := List.head_dropWhile_not (p := (· != 46)) (l := text) (by rw [hdrop]; exact List.cons_ne_nil _ _)
    simp only [hdrop, List.head_cons, bne_eq_false_iff_eq] at hd
    rw [hd]
    exact .inr rfl

/-- A mantissa has no second point. -/
theorem IsMantissa.fraction {text : Bytes} (h : IsMantissa text) : ∀ c ∈ fractionDigits text, isDigit c = true := by
  intro c hc
  have hmem : c ∈ text := (List.dropWhile_sublist _).subset (List.mem_of_mem_drop hc)
  refine (h.char c hmem).resolve_right ?_
  rintro rfl
  have hsplit := List.takeWhile_append_dropWhile (p := (· != 46)) (l := text)
  rcases dropWhile_point text with hnil | hcons
  · rw [fractionDigits, hnil] at hc
    cases hc
  · -- the point that is dropped would be a second one
    have hcount := h.point
    rw [← hsplit, hcons, List.count_append, List.count_cons_self] at hcount
    have := List.count_pos_iff.2 hc
    omega

theorem IsMantissa.filter {text : Bytes} (h : IsMantissa text) :
    (text.dropWhile (· != 46)).filter (· != 46) = fractionDigits text := by
  rcases dropWhile_point text with hnil | hcons
  · rw [fractionDigits, hnil]
    rfl
  · rw [hcons, List.filter_cons_of_neg (by decide), List.filter_eq_self]
    exact fun c hc => ne_point_of_isDigit (h.fraction c hc)

theorem IsMantissa.digits {text : Bytes} (h : IsMantissa text) :
    mantissaDigits text ≠ [] ∧ ∀ c ∈ mantissaDigits text, isDigit c = true := by
  have hinteger : ∀ c ∈ text.takeWhile (· != 46), isDigit c = true := fun c hc =>
    (h.char c ((List.takeWhile_sublist _).subset hc)).resolve_right fun h0 => by
      have := List.mem_takeWhile_imp hc
      simp [h0] at this
  rw [mantissaDigits, h.filter]
  constructor
  · obtain ⟨c, hc, hdigit⟩ := h.digit
    rw [← List.takeWhile_append_dropWhile (p := (· != 46)) (l := text), List.mem_append] at hc
    rcases hc with hc | hc
    · exact List.append_ne_nil_of_left_ne_nil (List.ne_nil_of_mem hc) _
    · have hmem : c ∈ (text.dropWhile (· != 46)).filter (· != 46) :=
        List.mem_filter.2 ⟨hc, ne_point_of_isDigit hdigit⟩
      rw [h.filter] at hmem
      exact List.append_ne_nil_of_right_ne_nil _ (List.ne_nil_of_mem hmem)
  · intro c hc
    rcases List.mem_append.1 hc with hc | hc
    · exact hinteger c hc
    · exact h.fraction c hc

/-- The value of a mantissa, the point counted from its first digit. -/
theorem IsMantissa.value {text : Bytes} (h : IsMantissa text) :
    textValue text = decimalValue (mantissaDigits text) *
      (10 : ℚ) ^ (((text.takeWhile (· != 46)).length : ℤ) - (mantissaDigits text).length) := by
  rw [textValue, mantissaDigits, h.filter, List.length_append, Nat.cast_add, sub_add_cancel_left, zpow_neg, zpow_natCast,
    div_eq_mul_inv]

/-! ## Placing the point -/

theorem decimalValue_zeros_append (n : Nat) (digits : Bytes) :
    decimalValue (List.replicate n 48 ++ digits) = decimalValue digits := by
  rw [decimalValue_append, decimalValue_zeros, Nat.zero_mul, Nat.zero_add]

/-- Wherever the point is placed, there are digits on both sides, and the value is the one of that place. -/
theorem placePoint_plain {digits : Bytes} (hne : digits ≠ []) (hdigit : ∀ c ∈ digits, isDigit c = true) (point : Int) :
    ∃ integer fraction, placePoint digits point = integer ++ 46 :: fraction ∧ integer ≠ [] ∧ fraction ≠ [] ∧
      (∀ c ∈ integer ++ fraction, isDigit c = true) ∧
      (decimalValue (integer ++ fraction) : ℚ) / 10 ^ fraction.length =
        decimalValue digits * (10 : ℚ) ^ (point - digits.length) := by
  have hpos := List.length_pos_iff.2 hne
  have hzeros : ∀ n, ∀ c ∈ List.replicate n (48 : UInt8), isDigit c = true := fun n c hc => by
    rw [List.eq_of_mem_replicate hc]
    rfl
  unfold placePoint
  split
  next hp =>
    -- before the digits
    refine ⟨[48], List.replicate (-point).toNat 48 ++ digits, rfl, List.cons_ne_nil _ _,
      List.append_ne_nil_of_right_ne_nil _ hne, ?_, ?_⟩
    · intro c hc
      rcases List.mem_append.1 hc with hc | hc
      · exact hzeros 1 c hc
      · exact (List.mem_append.1 hc).elim (hzeros _ c) (hdigit c)
    · have hzero := decimalValue_zeros_append 1 (List.replicate (-point).toNat 48 ++ digits)
      have hplaces : point - digits.length = -(((-point).toNat + digits.length : Nat) : ℤ) := by omega
      rw [List.replicate_one] at hzero
      rw [hzero, decimalValue_zeros_append, List.length_append, List.length_replicate, hplaces, zpow_neg, zpow_natCast,
        div_eq_mul_inv]
  next hp =>
    split
    next hbehind =>
      -- behind them
      refine ⟨digits ++ List.replicate (point.toNat - digits.length) 48, [48], rfl,
        List.append_ne_nil_of_left_ne_nil hne _, List.cons_ne_nil _ _, ?_, ?_⟩
      · intro c hc
        rcases List.mem_append.1 hc with hc | hc
        · exact (List.mem_append.1 hc).elim (hdigit c) (hzeros _ c)
        · exact hzeros 1 c hc
      · have hplaces : point - digits.length = ((point.toNat - digits.length : Nat) : ℤ) := by omega
        have hlast : decimalValue [48] = 0 := rfl
        rw [decimalValue_append, decimalValue_append, decimalValue_zeros, hlast, List.length_replicate, hplaces,
          zpow_natCast, List.length_singleton]
        push_cast
        ring
    next hinside =>
      -- or among them
      have hlength : (digits.drop point.toNat).length = digits.length - point.toNat := List.length_drop
      refine ⟨digits.take point.toNat, digits.drop point.toNat, rfl, ?_, ?_, ?_, ?_⟩
      · rw [← List.length_pos_iff, List.length_take]
        omega
      · rw [← List.length_pos_iff]
        omega
      · rw [List.take_append_drop]
        exact hdigit
      · have hplaces : point - digits.length = -((digits.length - point.toNat : Nat) : ℤ) := by omega
        rw [List.take_append_drop, hlength, hplaces, zpow_neg, zpow_natCast, div_eq_mul_inv]

/-- Without the zeros at its end a plain text has the same value. -/
theorem stripZeros_plain {integer fraction : Bytes} (hinteger : integer ≠ []) (hne : fraction ≠ [])
    (hdigit : ∀ c ∈ integer ++ fraction, isDigit c = true) :
    IsPlain (Double.stripZeros (integer ++ 46 :: fraction)) ∧
      textValue (Double.stripZeros (integer ++ 46 :: fraction)) = decimalValue (integer ++ fraction) / 10 ^ fraction.length := by
  have hinteger' : ∀ c ∈ integer, isDigit c = true := fun c hc => hdigit c (List.mem_append_left _ hc)
  obtain ⟨kept, zeros, hzeros, hkept, hlast, htext⟩ := Double.stripZeros_eq hinteger' hne
  rw [htext]
  refine ⟨⟨integer, kept, rfl, hinteger, hkept, fun c hc => hdigit c ?_, hlast⟩, ?_⟩
  · rw [hzeros, ← List.append_assoc]
    exact List.mem_append_left _ hc
  · rw [textValue_plain hinteger', hzeros, ← List.append_assoc, decimalValue_append (integer ++ kept), decimalValue_zeros,
      Nat.add_zero, List.length_append, List.length_replicate, pow_add, Nat.cast_mul, Nat.cast_pow, Nat.cast_ofNat,
      mul_div_mul_right _ _ (by positivity)]

/-! ## Expansion -/

/-- A plain text of exactly the mantissa times the power of ten. -/
def Expands (digits : Bytes) (exponent : Int) : Prop :=
  ∃ text, expandExponent digits exponent = some text ∧ IsPlain text ∧
    textValue text = textValue digits * (10 : ℚ) ^ exponent

/-- Nothing overflows where the point is placed, and the digits before it can be counted in an `int`, unless the number is
zero wherever its point is. -/
structure Placeable (digits : Bytes) (exponent : Int) : Prop where
  defined : (intPoint (digits.takeWhile (· != 46)).length exponent).isSome
  counted : (digits.takeWhile (· != 46)).length < 2147483648 ∨ textValue digits = 0

/-- What is returned has the value that belongs to the point as it was computed. -/
theorem expandExponent_value {digits : Bytes} {exponent point : Int} (h : IsMantissa digits)
    (hrange : -400 ≤ exponent ∧ exponent ≤ 40)
    (hpoint : intPoint (digits.takeWhile (· != 46)).length exponent = some point) :
    ∃ text, expandExponent digits exponent = some text ∧ IsPlain text ∧
      textValue text = textValue digits * (10 : ℚ) ^ (point - (digits.takeWhile (· != 46)).length) := by
  obtain ⟨hne, hdigit⟩ := h.digits
  obtain ⟨integer, fraction, hplace, hinteger, hfraction, hdigits, hvalue⟩ := placePoint_plain hne hdigit point
  obtain ⟨hplain, htext⟩ := stripZeros_plain hinteger hfraction hdigits
  have hplaces : point - (mantissaDigits digits).length =
      ((digits.takeWhile (· != 46)).length : ℤ) - (mantissaDigits digits).length +
        (point - (digits.takeWhile (· != 46)).length) := by ring
  rw [← hplace] at hplain htext
  refine ⟨_, ?_, hplain, ?_⟩
  · rw [expandExponent_eq hrange, hpoint, Option.map_some]
  · rw [htext, hvalue, h.value, mul_assoc, ← zpow_add₀ (by norm_num), hplaces]

theorem intPoint_some {n : Nat} {exponent point : Int} (h : intPoint n exponent = some point) :
    point - n = exponent ↔ n < 2147483648 := by
  unfold intPoint at h
  obtain ⟨-, h⟩ := Option.ite_none_right_eq_some.1 h
  rw [← Option.some.inj h]
  constructor
  · intro hn
    have hlow := Int.le_bmod (x := (n : Int)) (m := 4294967296) (by decide)
    have hhigh := Int.bmod_lt (x := (n : Int)) (m := 4294967296) (by decide)
    omega
  · intro hn
    rw [Int.bmod_eq_of_le (by omega) (by omega)]
    omega

theorem Expands.placeable {digits : Bytes} {exponent : Int} (h : IsMantissa digits)
    (hrange : -400 ≤ exponent ∧ exponent ≤ 40) (hexpands : Expands digits exponent) : Placeable digits exponent := by
  obtain ⟨text, htext, -, hvalue⟩ := hexpands
  have hsome := htext
  rw [expandExponent_eq hrange] at hsome
  obtain ⟨point, hpoint, -⟩ := Option.map_eq_some_iff.1 hsome
  obtain ⟨text', htext', -, hvalue'⟩ := expandExponent_value h hrange hpoint
  rw [htext] at htext'
  cases htext'
  refine ⟨by rw [hpoint]; rfl, ?_⟩
  rw [hvalue', mul_eq_mul_left_iff] at hvalue
  refine hvalue.imp_left fun hpow => (intPoint_some hpoint).1 ?_
  exact zpow_right_injective₀ (by norm_num) (by norm_num) hpow

theorem Placeable.expands {digits : Bytes} {exponent : Int} (h : IsMantissa digits)
    (hrange : -400 ≤ exponent ∧ exponent ≤ 40) (hplaceable : Placeable digits exponent) : Expands digits exponent := by
  obtain ⟨point, hpoint⟩ := Option.isSome_iff_exists.1 hplaceable.defined
  obtain ⟨text, htext, hplain, hvalue⟩ := expandExponent_value h hrange hpoint
  refine ⟨text, htext, hplain, ?_⟩
  rcases hplaceable.counted with hn | hzero
  · rw [hvalue, (intPoint_some hpoint).2 hn]
  · rw [hvalue, hzero, zero_mul, zero_mul]

/-- A mantissa is expanded to a plain text of its exact value exactly when its point can be placed. -/
theorem expands_iff {digits : Bytes} {exponent : Int} (h : IsMantissa digits) (hrange : -400 ≤ exponent ∧ exponent ≤ 40) :
    Expands digits exponent ↔ Placeable digits exponent :=
  ⟨Expands.placeable h hrange, Placeable.expands h hrange⟩

theorem expands_iff_small : Expands [49, 46, 53] (-7) ↔ Placeable [49, 46, 53] (-7) :=
  expands_iff ⟨by simp [isDigit], by decide, 49, by simp, rfl⟩ ⟨by decide, by decide⟩

example : expandExponent [49, 46, 53] (-7) = some (utf8 "0.00000015") := by decide +kernel

theorem isMantissa_ones {n : Nat} (h : 0 < n) : IsMantissa (List.replicate n 49) where
  char := fun c hc => by
    rw [List.eq_of_mem_replicate hc]
    exact .inl rfl
  point := by
    rw [List.count_replicate, if_neg (by decide)]
    exact Nat.zero_le _
  digit := ⟨49, List.mem_replicate.2 ⟨by omega, rfl⟩, rfl⟩

theorem takeWhile_ones (n : Nat) : (List.replicate n (49 : UInt8)).takeWhile (· != 46) = List.replicate n 49 :=
  List.takeWhile_eq_self_iff.2 fun c hc => by
    rw [List.eq_of_mem_replicate hc]
    rfl

theorem textValue_ones {n : Nat} (h : 0 < n) : textValue (List.replicate n 49) ≠ 0 := by
  obtain ⟨k, rfl⟩ := Nat.exists_eq_succ_of_ne_zero h.ne'
  have hvalue : 10 ^ k ≤ decimalValue (List.replicate (k + 1) 49) := by
    have hone : decimalValue [49] = 1 := rfl
    rw [List.replicate_succ, ← List.singleton_append, decimalValue_append, hone, List.length_replicate]
    omega
  have hpos : 0 < decimalValue (List.replicate (k + 1) 49) := lt_of_lt_of_le (by positivity) hvalue
  have hnil : fractionDigits (List.replicate (k + 1) 49) = [] := by
    rw [fractionDigits, List.dropWhile_eq_nil_iff.2 fun c hc => ?_]
    · rfl
    · rw [List.eq_of_mem_replicate hc]
      rfl
  rw [textValue, takeWhile_ones, hnil, List.append_nil, List.length_nil, pow_zero, div_one]
  exact_mod_cast hpos.ne'

/-- 4 GiB of ones are taken for a number with no digit before its point. -/
theorem expands_not_always : ¬∀ (digits : Bytes) (exponent : Int), IsMantissa digits →
    -400 ≤ exponent ∧ exponent ≤ 40 → Expands digits exponent := by
  intro h
  have hones : ∀ n, 0 < n → n < 2147483648 := fun n hn => by
    have hplaceable := (h _ 0 (isMantissa_ones hn) (by decide)).placeable (isMantissa_ones hn) (by decide)
    have hcounted := hplaceable.counted.resolve_right (textValue_ones hn)
    rwa [takeWhile_ones, List.length_replicate] at hcounted
  exact absurd (hones 4294967296 (by decide)) (by decide)

end Wnc
