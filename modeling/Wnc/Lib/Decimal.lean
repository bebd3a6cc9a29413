/-
Decimal texts of natural numbers, and binary64 numbers in decimal: the number a decimal literal reads
as, the shortest decimal that reads as a given number, and the texts printed from it. What is printed
is chosen among decimals that read back, so that reading a printed text returns the number by choice.
-/
import Wnc.Lib.Bytes
import Wnc.Lib.Double
import Mathlib.Data.List.DropRight

namespace Wnc.Lib

/-! ## Natural numbers -/

/-- The decimal text of a natural number. -/
def toDecimal (n : Nat) : Bytes := (Nat.toDigits 10 n).map fun c => UInt8.ofNat c.toNat

def isDigit (c : UInt8) : Bool := 48 ≤ c && c ≤ 57

/-- The number a text of decimal digits denotes. -/
def decimalValue (digits : Bytes) : Nat := digits.foldl (fun acc c => acc * 10 + (c.toNat - 48)) 0

/-- A non-empty text of digits without a redundant leading zero. -/
structure IsNumeral (digits : Bytes) : Prop where
  nonempty : digits ≠ []
  digit : ∀ c ∈ digits, isDigit c = true
  leading : digits = [48] ∨ digits.head? ≠ some 48

theorem toDecimal_of_lt {n : Nat} (h : n < 10) : toDecimal n = [UInt8.ofNat (48 + n)] := by
  interval_cases n <;> decide

theorem toDecimal_of_le {n : Nat} (h : 10 ≤ n) : toDecimal n = toDecimal (n / 10) ++ [UInt8.ofNat (48 + n % 10)] := by
  have hmod := toDecimal_of_lt (Nat.mod_lt n (by decide : 10 > 0))
  rw [toDecimal, Nat.toDigits_of_lt_base (Nat.mod_lt n (by decide : 10 > 0))] at hmod
  rw [toDecimal, Nat.toDigits_of_base_le (by decide) h, List.map_append, hmod]
  rfl

theorem isDigit_ofNat {d : Nat} (h : d < 10) : isDigit (UInt8.ofNat (48 + d)) = true := by
  interval_cases d <;> decide

theorem digit_toNat {d : Nat} (h : d < 10) : (UInt8.ofNat (48 + d)).toNat - 48 = d := by
  interval_cases d <;> decide

theorem decimalValue_append (a b : Bytes) :
    decimalValue (a ++ b) = decimalValue a * 10 ^ b.length + decimalValue b := by
  unfold decimalValue
  rw [List.foldl_append]
  generalize a.foldl _ 0 = s
  induction b generalizing s with
  | nil => simp
  | cons c b ih =>
    rw [List.foldl_cons, ih, List.foldl_cons, ih (0 * 10 + (c.toNat - 48)), List.length_cons, pow_succ']
    ring

@[simp] theorem decimalValue_nil : decimalValue [] = 0 := rfl

@[simp] theorem decimalValue_zeros (n : Nat) : decimalValue (List.replicate n 48) = 0 := by
  induction n with
  | zero => rfl
  | succ n ih => rw [List.replicate_succ', decimalValue_append, ih]; rfl

@[simp] theorem decimalValue_toDecimal (n : Nat) : decimalValue (toDecimal n) = n := by
  induction n using Nat.strong_induction_on with
  | _ n ih =>
    by_cases h : n < 10
    · rw [toDecimal_of_lt h, decimalValue, List.foldl_cons, List.foldl_nil, digit_toNat h, Nat.zero_mul, Nat.zero_add]
    · rw [toDecimal_of_le (by omega), decimalValue_append, ih (n / 10) (by omega), List.length_singleton,
        decimalValue, List.foldl_cons, List.foldl_nil, digit_toNat (by omega)]
      omega

theorem length_toDecimal_pos (n : Nat) : 0 < (toDecimal n).length := by
  rw [toDecimal, List.length_map]; exact Nat.length_toDigits_pos

theorem isDigit_toDecimal (n : Nat) : ∀ c ∈ toDecimal n, isDigit c = true := by
  induction n using Nat.strong_induction_on with
  | _ n ih =>
    intro c hc
    by_cases h : n < 10
    · rw [toDecimal_of_lt h, List.mem_singleton] at hc
      rw [hc]; exact isDigit_ofNat h
    · rw [toDecimal_of_le (by omega), List.mem_append, List.mem_singleton] at hc
      rcases hc with hc | rfl
      · exact ih (n / 10) (by omega) c hc
      · exact isDigit_ofNat (by omega)

/-- A positive number's text does not start with a zero. -/
theorem head_toDecimal {n : Nat} (h : 0 < n) : (toDecimal n).head? ≠ some 48 := by
  induction n using Nat.strong_induction_on with
  | _ n ih =>
    by_cases hn : n < 10
    · rw [toDecimal_of_lt hn]
      interval_cases n <;> decide
    · have hpos := length_toDecimal_pos (n / 10)
      rw [toDecimal_of_le (by omega), List.head?_append_of_ne_nil _ (List.length_pos_iff.1 hpos)]
      exact ih (n / 10) (by omega) (by omega)

theorem isNumeral_toDecimal (n : Nat) : IsNumeral (toDecimal n) where
  nonempty := List.length_pos_iff.1 (length_toDecimal_pos n)
  digit := isDigit_toDecimal n
  leading := by
    rcases Nat.eq_zero_or_pos n with rfl | h
    · exact .inl (by decide)
    · exact .inr (head_toDecimal h)

theorem length_toDecimal_le {n k : Nat} (hk : 0 < k) (h : n < 10 ^ k) : (toDecimal n).length ≤ k := by
  rw [toDecimal, List.length_map]
  exact (Nat.length_toDigits_le_iff (by decide) hk).2 h

namespace Double

/-! ## Decimals -/

/-- The magnitude nearest to `c * 10 ^ e`. -/
def reads (c : Nat) (e : Int) : Nat :=
  if 0 ≤ e then nearest (c * 10 ^ e.toNat) 1 else nearest c (10 ^ (-e).toNat)

/-- The finite number nearest to a signed `c * 10 ^ e`, if it is in range. -/
def ofDecimal (negative : Bool) (c : Nat) (e : Int) : Option Double :=
  if 0 ≤ e then ofRatio negative (c * 10 ^ e.toNat) 1 else ofRatio negative c (10 ^ (-e).toNat)

theorem reads_zero (e : Int) : reads 0 e = 0 := by
  unfold reads
  split
  · rw [Nat.zero_mul]; exact nearest_zero_left 1 Nat.one_pos
  · exact nearest_zero_left _ (by positivity)

/-- A decimal is read from its value: shifting digits into the exponent changes nothing. -/
theorem reads_shift (c : Nat) (e : Int) (k : Nat) : reads (c * 10 ^ k) (e - k) = reads c e := by
  unfold reads
  by_cases he : 0 ≤ e - k
  · rw [if_pos he, if_pos (by omega), Nat.mul_assoc, ← pow_add, show k + (e - k).toNat = e.toNat by omega]
  · rw [if_neg he]
    by_cases he' : 0 ≤ e
    · rw [if_pos he']
      refine nearest_congr (by positivity) Nat.one_pos ?_
      rw [Nat.mul_one, Nat.mul_assoc, ← pow_add, show e.toNat + (-(e - k)).toNat = k by omega]
    · rw [if_neg he']
      refine nearest_congr (by positivity) (by positivity) ?_
      rw [Nat.mul_assoc, ← pow_add, show k + (-e).toNat = (-(e - k)).toNat by omega]

theorem ofDecimal_eq (negative : Bool) (c : Nat) (e : Int) :
    ofDecimal negative c e =
      if infinityMagnitude ≤ reads c e then none
      else if reads c e = 0 ∧ c ≠ 0 then none
      else some (ofMagnitude negative (reads c e)) := by
  have hpow : c * 10 ^ e.toNat ≠ 0 ↔ c ≠ 0 := by simp
  unfold ofDecimal reads
  split
  · unfold ofRatio
    simp only [hpow]
  · rfl

/-! ## The shortest decimal -/

/-- The multiple of `10 ^ e` nearest to a magnitude, among the two around it that read as it. -/
def candidate (m : Nat) (e : Int) : Option Nat :=
  let num := if 0 ≤ e then scaled m else scaled m * 10 ^ (-e).toNat
  let den := if 0 ≤ e then one * 10 ^ e.toNat else one
  let c := num / den
  if reads c e = m then
    if reads (c + 1) e = m then
      if 2 * (num % den) < den then some c
      else if den < 2 * (num % den) then some (c + 1)
      else some (c + c % 2)
    else some c
  else if reads (c + 1) e = m then some (c + 1)
  else none

/-- Tries the exponents from one down. At `-1074` the decimal is exact. -/
def shortestFrom (m : Nat) : Nat → Int → Nat × Int
  | 0, _ => (scaled m * 5 ^ 1074, -1074)
  | fuel + 1, e =>
    match candidate m e with
    | some c => (c, e)
    | none => shortestFrom m fuel (e - 1)

/-- The shortest decimal that reads as a magnitude: the search starts at a power of ten above it. -/
def shortest (m : Nat) : Nat × Int :=
  let start := (scaled m / one).log2 / 3 + 1
  shortestFrom m (start + 1074) start

theorem reads_candidate {m c : Nat} {e : Int} (h : candidate m e = some c) : reads c e = m := by
  unfold candidate at h
  simp only at h
  generalize (if 0 ≤ e then scaled m else scaled m * 10 ^ (-e).toNat) = num at h
  generalize (if 0 ≤ e then one * 10 ^ e.toNat else one) = den at h
  split at h
  · rename_i hlow
    split at h
    · rename_i hhigh
      split at h
      · cases h; exact hlow
      · split at h
        · cases h; exact hhigh
        · cases h
          rcases Nat.mod_two_eq_zero_or_one (num / den) with hp | hp
          · rw [hp]; exact hlow
          · rw [hp]; exact hhigh
    · cases h; exact hlow
  · split at h
    · rename_i hhigh
      cases h; exact hhigh
    · cases h

theorem reads_exact (m : Nat) : reads (scaled m * 5 ^ 1074) (-1074) = m := by
  have hexp : (-(-1074 : Int)).toNat = 1074 := by decide
  rw [reads, if_neg (by decide), hexp]
  refine nearest_scaled (by positivity) ?_
  rw [Nat.mul_assoc, one, show (10 : Nat) = 5 * 2 from rfl, mul_pow]

theorem reads_shortestFrom (m fuel : Nat) (e : Int) :
    reads (shortestFrom m fuel e).1 (shortestFrom m fuel e).2 = m := by
  induction fuel generalizing e with
  | zero => exact reads_exact m
  | succ fuel ih =>
    rw [shortestFrom]
    cases h : candidate m e with
    | some c => exact reads_candidate h
    | none => exact ih (e - 1)

/-- The shortest decimal reads back. -/
theorem reads_shortest (m : Nat) : reads (shortest m).1 (shortest m).2 = m := reads_shortestFrom m _ _

theorem shortest_pos {m : Nat} (h : m ≠ 0) : 0 < (shortest m).1 := by
  refine Nat.pos_of_ne_zero fun h0 => h ?_
  rw [← reads_shortest m, h0, reads_zero]

/-- A magnitude whose shortest decimal has no fraction is whole. -/
theorem dvd_of_shortest {m : Nat} (h : 0 ≤ (shortest m).2) : one ∣ scaled m := by
  have hr := reads_shortest m
  rw [reads, if_pos h] at hr
  rw [← hr]
  exact dvd_scaled_nearest _

/-! ## Printing -/

/-- Fixed notation. A number without a fraction is printed exactly. -/
def fixedText (m : Nat) : Bytes :=
  let digits := toDecimal (shortest m).1
  let e := (shortest m).2
  if 0 ≤ e then toDecimal (scaled m / one)
  else
    let places := (-e).toNat
    if places < digits.length then
      digits.take (digits.length - places) ++ 46 :: digits.drop (digits.length - places)
    else 48 :: 46 :: (List.replicate (places - digits.length) 48 ++ digits)

/-- The digits of a scientific text: one digit, and the others behind a point. -/
def mantissaText (digits : Bytes) : Bytes :=
  if digits.length = 1 then digits else digits.take 1 ++ 46 :: digits.drop 1

/-- The exponent of a scientific text: its sign and at least two digits. -/
def exponentText (x : Int) : Bytes :=
  let digits := toDecimal x.natAbs
  (if x < 0 then 45 else 43) :: (List.replicate (2 - digits.length) 48 ++ digits)

/-- The decimal exponent of the first digit. -/
def leadingExponent (m : Nat) : Int := (shortest m).2 + ((toDecimal (shortest m).1).length - 1)

def scientificText (m : Nat) : Bytes :=
  mantissaText (toDecimal (shortest m).1) ++ 101 :: exponentText (leadingExponent m)

/-- The shortest text of a finite number: fixed notation unless the scientific one is shorter. -/
def toChars (d : Double) : Bytes :=
  (if d.negative then [45] else []) ++
    (if d.magnitude = 0 then [48]
     else if (fixedText d.magnitude).length ≤ (scientificText d.magnitude).length then fixedText d.magnitude
     else scientificText d.magnitude)

/-- The text with six digits behind the point, the last one rounded half to even. -/
def toFixedSix (d : Double) : Bytes :=
  let sign : Bytes := if d.negative then [45] else []
  if d.isNan then sign ++ utf8 "nan"
  else if !d.isFinite then sign ++ utf8 "inf"
  else
    let num := scaled d.magnitude * 1000000
    let q := num / one
    let rounded := if 2 * (num % one) < one then q else if one < 2 * (num % one) then q + 1 else q + q % 2
    let places := toDecimal (rounded % 1000000)
    sign ++ toDecimal (rounded / 1000000) ++ 46 :: (List.replicate (6 - places.length) 48 ++ places)

/-- A plain decimal text that reads as a magnitude: a numeral, a point and at least one digit. -/
def ReadsPlain (text : Bytes) (m : Nat) : Prop :=
  ∃ integer fraction, text = integer ++ 46 :: fraction ∧ IsNumeral integer ∧ fraction ≠ [] ∧
    (∀ c ∈ fraction, isDigit c = true) ∧ reads (decimalValue (integer ++ fraction)) (-fraction.length) = m

/-- A plain text has digits and its point, and starts with a digit. -/
theorem ReadsPlain.digits {text : Bytes} {m : Nat} (h : ReadsPlain text m) :
    (∀ c ∈ text, isDigit c = true ∨ c = 46) ∧ ∃ c rest, text = c :: rest ∧ isDigit c = true := by
  obtain ⟨integer, fraction, rfl, hinteger, _, hfraction, _⟩ := h
  constructor
  · intro c hc
    rcases List.mem_append.1 hc with hc | hc
    · exact .inl (hinteger.digit c hc)
    · rcases List.mem_cons.1 hc with rfl | hc
      · exact .inr rfl
      · exact .inl (hfraction c hc)
  · obtain ⟨c, rest, rfl⟩ := List.exists_cons_of_ne_nil hinteger.nonempty
    exact ⟨c, rest ++ 46 :: fraction, rfl, hinteger.digit c List.mem_cons_self⟩

/-- A plain text without the zeros at the end of its fraction, behind the first digit. -/
def stripZeros (text : Bytes) : Bytes :=
  text.take ((text.takeWhile (· != 46)).length + 2) ++
    (text.drop ((text.takeWhile (· != 46)).length + 2)).rdropWhile (· == 48)

/-- What is left of a plain text: all but some zeros of the fraction, and a digit of it. -/
theorem stripZeros_eq {integer fraction : Bytes} (hinteger : ∀ c ∈ integer, isDigit c = true) (hne : fraction ≠ []) :
    ∃ kept zeros, fraction = kept ++ List.replicate zeros 48 ∧ kept ≠ [] ∧ (kept.length = 1 ∨ kept.getLast? ≠ some 48) ∧
      stripZeros (integer ++ 46 :: fraction) = integer ++ 46 :: kept := by
  obtain ⟨first, more, rfl⟩ := List.exists_cons_of_ne_nil hne
  have hpoint : (integer ++ 46 :: first :: more).takeWhile (· != 46) = integer := by
    rw [List.takeWhile_append_of_pos, List.takeWhile_cons_of_neg (by decide), List.append_nil]
    intro c hc
    have hd := hinteger c hc
    rw [bne_iff_ne]
    rintro rfl
    exact absurd hd (by decide)
  have hzeros : more = more.rdropWhile (· == 48) ++ List.replicate (more.rtakeWhile (· == 48)).length 48 := by
    rw [← List.eq_replicate_iff.2 ⟨rfl, fun c hc => ?_⟩, List.rdropWhile_append_rtakeWhile]
    have := List.mem_rtakeWhile_imp hc
    simpa using this
  refine ⟨first :: more.rdropWhile (· == 48), (more.rtakeWhile (· == 48)).length, ?_, List.cons_ne_nil _ _, ?_, ?_⟩
  · rw [List.cons_append, ← hzeros]
  · -- the last digit left is the first one of the fraction or no zero
    by_cases hnil : more.rdropWhile (· == 48) = []
    · exact .inl (by rw [hnil, List.length_singleton])
    · right
      have hlast := List.rdropWhile_last_not (· == 48) more hnil
      rw [List.getLast?_cons_of_ne_nil hnil, List.getLast?_eq_some_getLast hnil]
      intro h
      rw [Option.some.inj h] at hlast
      exact hlast rfl
  · rw [stripZeros, hpoint, List.take_length_add_append, List.drop_length_add_append, List.append_assoc]
    rfl

/-- Zeros at the end of a fraction, behind its first digit, can go. -/
theorem ReadsPlain.strip {text : Bytes} {m : Nat} (h : ReadsPlain text m) : ReadsPlain (stripZeros text) m := by
  obtain ⟨integer, fraction, rfl, hinteger, hne, hfraction, hreads⟩ := h
  obtain ⟨kept, zeros, hzeros, hkept, -, htext⟩ := stripZeros_eq hinteger.digit hne
  have hdigits : ∀ c ∈ kept, isDigit c = true := fun c hc => hfraction c (by
    rw [hzeros]
    exact List.mem_append_left _ hc)
  refine ⟨integer, kept, htext, hinteger, hkept, hdigits, ?_⟩
  rw [← hreads, hzeros, ← List.append_assoc, decimalValue_append (integer ++ kept), decimalValue_zeros, Nat.add_zero,
    List.length_replicate, List.length_append, List.length_replicate,
    show (-(kept.length + zeros : Nat) : Int) = -kept.length - zeros by push_cast; ring, reads_shift]

/-- What a plain text reads as. -/
theorem ofDecimal_reads {d : Double} {c : Nat} {e : Int} (hfinite : d.isFinite = true) (hr : reads c e = d.magnitude)
    (hzero : d.magnitude = 0 → c = 0) : ofDecimal d.negative c e = some d := by
  rw [isFinite, decide_eq_true_eq] at hfinite
  rw [ofDecimal_eq, hr, if_neg (not_le.2 hfinite), if_neg fun h => h.2 (hzero h.1), ofMagnitude, dif_pos d.bound]

/-- The digits of a decimal, the point at a place inside, before or behind them. -/
theorem readsPlain_inside {c : Nat} {places : Nat} (h0 : 0 < places) (h : places < (toDecimal c).length) :
    ReadsPlain ((toDecimal c).take ((toDecimal c).length - places) ++
      46 :: (toDecimal c).drop ((toDecimal c).length - places)) (reads c (-places)) := by
  have hlen : ((toDecimal c).drop ((toDecimal c).length - places)).length = places := by
    rw [List.length_drop]; omega
  refine ⟨_, _, rfl, ⟨?_, fun d hd => isDigit_toDecimal c d (List.mem_of_mem_take hd), ?_⟩, ?_,
    fun d hd => isDigit_toDecimal c d (List.mem_of_mem_drop hd), ?_⟩
  · rw [← List.length_pos_iff, List.length_take]
    omega
  · have hc : 0 < c := by
      rcases Nat.eq_zero_or_pos c with rfl | hc
      · have : (toDecimal 0).length = 1 := by decide
        omega
      · exact hc
    right
    rw [List.head?_take, if_neg (by omega)]
    exact head_toDecimal hc
  · rw [← List.length_pos_iff, hlen]; exact h0
  · rw [List.take_append_drop, decimalValue_toDecimal, hlen]

theorem readsPlain_before {c : Nat} {places : Nat} (h : (toDecimal c).length ≤ places) :
    ReadsPlain (48 :: 46 :: (List.replicate (places - (toDecimal c).length) 48 ++ toDecimal c)) (reads c (-places)) := by
  have hpos := length_toDecimal_pos c
  refine ⟨[48], _, rfl, ⟨by decide, List.forall_mem_singleton.2 rfl, .inl rfl⟩, ?_, fun d hd => ?_, ?_⟩
  · rw [← List.length_pos_iff, List.length_append]; omega
  · rcases List.mem_append.1 hd with hd | hd
    · rw [List.eq_of_mem_replicate hd]; decide
    · exact isDigit_toDecimal c d hd
  · have hlen : (List.replicate (places - (toDecimal c).length) 48 ++ toDecimal c).length = places := by
      rw [List.length_append, List.length_replicate]; omega
    have hzero : decimalValue [48] = 0 := rfl
    rw [hlen, decimalValue_append, decimalValue_append, decimalValue_zeros, decimalValue_toDecimal, hzero]
    simp

theorem readsPlain_behind {c : Nat} (hc : 0 < c) (zeros : Nat) :
    ReadsPlain (toDecimal c ++ List.replicate zeros 48 ++ [46, 48]) (reads c zeros) := by
  refine ⟨toDecimal c ++ List.replicate zeros 48, [48], rfl, ⟨?_, fun d hd => ?_, .inr ?_⟩, by decide,
    List.forall_mem_singleton.2 rfl, ?_⟩
  · exact List.append_ne_nil_of_left_ne_nil (List.length_pos_iff.1 (length_toDecimal_pos c)) _
  · rcases List.mem_append.1 hd with hd | hd
    · exact isDigit_toDecimal c d hd
    · rw [List.eq_of_mem_replicate hd]; decide
  · rw [List.head?_append_of_ne_nil _ (List.length_pos_iff.1 (length_toDecimal_pos c))]
    exact head_toDecimal hc
  · have hzero : decimalValue [48] = 0 := rfl
    have hvalue : decimalValue (toDecimal c ++ List.replicate zeros 48 ++ [48]) = c * 10 ^ (zeros + 1) := by
      rw [decimalValue_append, decimalValue_append, decimalValue_toDecimal, decimalValue_zeros, hzero,
        List.length_replicate, List.length_singleton]
      ring
    rw [hvalue, List.length_singleton, show (-((1 : Nat) : Int)) = (zeros : Int) - (zeros + 1 : Nat) by omega,
      reads_shift]

/-- Fixed notation reads back, with `.0` behind it where it has no point. -/
theorem readsPlain_fixedText {m : Nat} (h : m ≠ 0) :
    (46 ∉ fixedText m ∧ ReadsPlain (fixedText m ++ [46, 48]) m) ∨ (46 ∈ fixedText m ∧ ReadsPlain (fixedText m) m) := by
  have hr := reads_shortest m
  unfold fixedText
  simp only
  split
  · rename_i he
    left
    obtain ⟨n, hn⟩ := dvd_of_shortest he
    have hn0 : 0 < n := by
      refine Nat.pos_of_ne_zero fun h0 => h ?_
      rw [h0, Nat.mul_zero, ← scaled_zero] at hn
      exact scaled_strictMono.injective hn
    rw [hn, Nat.mul_div_cancel_left _ one_pos]
    refine ⟨fun hmem => absurd (isDigit_toDecimal n 46 hmem) (by decide), ?_⟩
    have hreads : reads n ((0 : Nat) : Int) = m := by
      rw [reads, if_pos (by decide)]
      exact nearest_scaled Nat.one_pos (by rw [hn]; simp [Nat.mul_comm])
    have := readsPlain_behind hn0 0
    rwa [hreads, List.replicate_zero, List.append_nil] at this
  · rename_i he
    right
    have hplaces : -((-(shortest m).2).toNat : Int) = (shortest m).2 := by omega
    split
    · rename_i hp
      have := readsPlain_inside (by omega) hp
      rw [hplaces, hr] at this
      exact ⟨List.mem_append_right _ List.mem_cons_self, this⟩
    · rename_i hp
      have := readsPlain_before (not_lt.1 hp)
      rw [hplaces, hr] at this
      exact ⟨List.mem_cons_of_mem _ List.mem_cons_self, this⟩

end Double

end Wnc.Lib
