/-
The canonical texts of numbers as the decoder reads them back. An integer always reads back; a real number
does when its plain decimal text fits a literal, apart from a sign that was left out.
-/
import Wnc.Core.JsonDecode

namespace Wnc

open Lib

/-! ## Canonical texts of real numbers -/

theorem readExponentDigits_eq {digits : Bytes} {acc n : Nat} (h : readExponentDigits digits acc = some n) :
    n = acc * 10 ^ digits.length + decimalValue digits := by
  induction digits generalizing acc with
  | nil => cases h; simp
  | cons c digits ih =>
    rw [readExponentDigits] at h
    split at h
    · cases h
    · split at h
      · cases h
      · rw [ih h, show c :: digits = [c] ++ digits from rfl, decimalValue_append, List.length_append,
          List.length_singleton, pow_add]
        simp only [decimalValue, List.foldl_cons, List.foldl_nil]
        ring

/-- The exponent of a scientific text, where it is read, is the one it was written for. -/
theorem readExponent_exponentText {x y : Int} (h : readExponent (Double.exponentText x) = some y) : y = x := by
  unfold Double.exponentText at h
  simp only at h
  generalize hpad : List.replicate (2 - (toDecimal x.natAbs).length) (48 : UInt8) ++ toDecimal x.natAbs = digits at h
  have hvalue : decimalValue digits = x.natAbs := by
    rw [← hpad, decimalValue_append, decimalValue_zeros, decimalValue_toDecimal, Nat.zero_mul, Nat.zero_add]
  have hnil : digits ≠ [] := by
    rw [← hpad]
    exact List.append_ne_nil_of_right_ne_nil _ (List.length_pos_iff.1 (length_toDecimal_pos _))
  have hdigits : readExponentDigits digits 0 = some y.natAbs ∧ (y < 0 → x < 0) ∧ (0 ≤ y → 0 ≤ x ∨ y = 0) := by
    unfold readExponent at h
    by_cases hx : x < 0
    · rw [if_pos hx] at h
      simp only [List.head?_cons, Option.some.injEq, List.drop_succ_cons, List.drop_zero, or_true,
        if_true, if_neg hnil] at h
      obtain ⟨n, hn, rfl⟩ := Option.map_eq_some_iff.1 h
      exact ⟨by rw [hn, Int.natAbs_neg, Int.natAbs_natCast], fun _ => hx, fun h0 => .inr (by omega)⟩
    · rw [if_neg hx] at h
      have h43 : ((43 : UInt8) = 45) = False := by simp
      simp only [List.head?_cons, Option.some.injEq, List.drop_succ_cons, List.drop_zero, true_or, if_true, h43,
        if_neg hnil, if_false] at h
      obtain ⟨n, hn, rfl⟩ := Option.map_eq_some_iff.1 h
      exact ⟨by rw [hn, Int.natAbs_natCast], fun h0 => by omega, fun _ => .inl (by omega)⟩
  have hn := readExponentDigits_eq hdigits.1
  rw [Nat.zero_mul, Nat.zero_add, hvalue] at hn
  obtain ⟨_, hneg, hpos⟩ := hdigits
  omega

theorem ne_point_of_isDigit {c : UInt8} (h : isDigit c = true) : (c != 46) = true := by
  rw [bne_iff_ne]
  rintro rfl
  exact absurd h (by decide)

/-- The digits of a mantissa before its point. -/
theorem takeWhile_mantissaText (c : Nat) :
    (Double.mantissaText (toDecimal c)).takeWhile (· != 46) = (toDecimal c).take 1 := by
  have hno : ∀ d ∈ toDecimal c, (d != 46) = true := fun d hd => ne_point_of_isDigit (isDigit_toDecimal c d hd)
  unfold Double.mantissaText
  split
  · rename_i h1
    rw [List.takeWhile_eq_self_iff.2 hno, List.take_of_length_le (by omega)]
  · rw [List.takeWhile_append_of_pos fun d hd => hno d (List.mem_of_mem_take hd), List.takeWhile_cons_of_neg (by decide),
      List.append_nil]

/-- And those behind it. -/
theorem dropWhile_mantissaText (c : Nat) :
    ((Double.mantissaText (toDecimal c)).dropWhile (· != 46)).filter (· != 46) = (toDecimal c).drop 1 := by
  have hno : ∀ d ∈ toDecimal c, (d != 46) = true := fun d hd => ne_point_of_isDigit (isDigit_toDecimal c d hd)
  unfold Double.mantissaText
  split
  · rename_i h1
    rw [List.dropWhile_eq_nil_iff.2 hno, List.drop_of_length_le (by omega)]
    rfl
  · rw [List.dropWhile_append_of_pos fun d hd => hno d (List.mem_of_mem_take hd), List.dropWhile_cons_of_neg (by decide),
      List.filter_cons_of_neg (by decide), List.filter_eq_self]
    exact fun d hd => hno d (List.mem_of_mem_drop hd)

/-- The digits of a decimal with the point where an exponent puts it. -/
def placePoint (digits : Bytes) (point : Int) : Bytes :=
  if point ≤ 0 then [48, 46] ++ List.replicate (-point).toNat 48 ++ digits
  else if point.toNat ≥ digits.length then digits ++ List.replicate (point.toNat - digits.length) 48 ++ [46, 48]
  else digits.take point.toNat ++ 46 :: digits.drop point.toNat

theorem readsPlain_placePoint {c : Nat} (hc : 0 < c) (e : Int) :
    Double.ReadsPlain (placePoint (toDecimal c) (e + (toDecimal c).length)) (Double.reads c e) := by
  have hlen := length_toDecimal_pos c
  unfold placePoint
  split
  · -- the point stands before the digits
    rename_i hp
    have hplaces : (toDecimal c).length ≤ (-e).toNat := by omega
    have hbefore := Double.readsPlain_before hplaces
    have he : -((-e).toNat : Int) = e := by omega
    have hzeros : (-(e + ((toDecimal c).length : Int))).toNat = (-e).toNat - (toDecimal c).length := by omega
    rw [he] at hbefore
    rw [hzeros]
    exact hbefore
  · rename_i hp
    split
    · -- or behind them
      rename_i hb
      have hbehind := Double.readsPlain_behind hc e.toNat
      have he : (e.toNat : Int) = e := by omega
      have hzeros : (e + ((toDecimal c).length : Int)).toNat - (toDecimal c).length = e.toNat := by omega
      rw [he] at hbehind
      rw [hzeros]
      exact hbehind
    · rename_i hb
      have h0 : 0 < (-e).toNat := by omega
      have h1 : (-e).toNat < (toDecimal c).length := by omega
      have hinside := Double.readsPlain_inside h0 h1
      have he : -((-e).toNat : Int) = e := by omega
      have hpoint : (e + ((toDecimal c).length : Int)).toNat = (toDecimal c).length - (-e).toNat := by omega
      rw [he] at hinside
      rw [hpoint]
      exact hinside

/-- As long as the digits before the point can be counted in an `int`, the point is where the exponent puts it. -/
theorem intPoint_eq {n : Nat} (hn : n < 2147483648) (exponent : Int) :
    intPoint n exponent =
      if -2147483648 < n + exponent ∧ n + exponent < 2147483648 then some (n + exponent) else none := by
  have hnarrow : (n : Int).bmod 4294967296 = n := Int.bmod_eq_of_le (by omega) (by omega)
  unfold intPoint
  rw [hnarrow]

/-- The digits of a mantissa. -/
def mantissaDigits (digits : Bytes) : Bytes :=
  digits.takeWhile (· != 46) ++ (digits.dropWhile (· != 46)).filter (· != 46)

theorem expandExponent_eq {digits : Bytes} {exponent : Int} (h : -400 ≤ exponent ∧ exponent ≤ 40) :
    expandExponent digits exponent = (intPoint (digits.takeWhile (· != 46)).length exponent).map fun point =>
      Double.stripZeros (placePoint (mantissaDigits digits) point) := by
  unfold expandExponent
  rw [if_neg (by omega)]
  rfl

theorem expandExponent_range {digits : Bytes} {exponent : Int} {text : Bytes} (h : expandExponent digits exponent = some text) :
    -400 ≤ exponent ∧ exponent ≤ 40 := by
  unfold expandExponent at h
  split at h
  · cases h
  · omega

/-- Plain notation of a scientific text reads as the same number. -/
theorem readsPlain_expandExponent {m : Nat} (hm : m ≠ 0) {text : Bytes}
    (h : expandExponent (Double.mantissaText (toDecimal (Double.shortest m).1)) (Double.leadingExponent m) = some text) :
    Double.ReadsPlain text m := by
  have hreads := readsPlain_placePoint (Double.shortest_pos hm) (Double.shortest m).2
  rw [Double.reads_shortest] at hreads
  have hlen := length_toDecimal_pos (Double.shortest m).1
  have hpoint : (((toDecimal (Double.shortest m).1).take 1).length : Int) + Double.leadingExponent m =
      (Double.shortest m).2 + (toDecimal (Double.shortest m).1).length := by
    rw [List.length_take, Double.leadingExponent]
    omega
  have hone : ((toDecimal (Double.shortest m).1).take 1).length < 2147483648 := by
    rw [List.length_take]
    omega
  rw [expandExponent_eq (expandExponent_range h), takeWhile_mantissaText, intPoint_eq hone, hpoint, mantissaDigits,
    takeWhile_mantissaText, dropWhile_mantissaText, List.take_append_drop] at h
  split at h
  · cases h
    exact hreads.strip
  · cases h

namespace Lib.Double

/-- The number that the canonical text of a number denotes: only a text in scientific notation keeps its sign. -/
def canonical (d : Double) : Double :=
  if d.magnitude = 0 then zero
  else ⟨d.negative && decide ((scientificText d.magnitude).length < (fixedText d.magnitude).length), d.magnitude, d.bound⟩

theorem canonical_magnitude (d : Double) : d.canonical.magnitude = d.magnitude := by
  unfold canonical
  split
  · rename_i h; exact h.symm
  · rfl

theorem canonical_isFinite (d : Double) : d.canonical.isFinite = d.isFinite := by
  rw [isFinite, isFinite, canonical_magnitude]

/-- Numbers that are equal to zero. -/
theorem eq_zero_iff {d : Double} (h : d.isFinite = true) : d.eq zero = true ↔ d.magnitude = 0 := by
  rw [eq_iff (not_isNan_of_isFinite h) (by decide)]
  have hzero : order zero = 0 := by decide
  have hscaled : scaled d.magnitude = 0 ↔ d.magnitude = 0 := by
    rw [← scaled_zero, scaled_strictMono.injective.eq_iff]
    simp only [scaled_zero]
  rw [hzero, order, ← hscaled]
  split <;> omega

/-- A number that is not below zero keeps its sign, but for the one of zero. -/
theorem canonical_of_not_lt {d : Double} (hf : d.isFinite = true) (h : d.lt zero = false) :
    d.canonical = if d.eq zero then zero else d := by
  unfold canonical
  by_cases h0 : d.magnitude = 0
  · rw [if_pos h0, if_pos ((eq_zero_iff hf).2 h0)]
  · rw [if_neg h0, if_neg fun he => h0 ((eq_zero_iff hf).1 he)]
    have hsign : d.negative = false := by
      rw [lt_eq_false_iff (not_isNan_of_isFinite hf) (by decide), le_iff (by decide) (not_isNan_of_isFinite hf)] at h
      have hzero : order zero = 0 := by decide
      rw [hzero, order] at h
      cases hn : d.negative with
      | false => rfl
      | true =>
        rw [hn, if_pos rfl] at h
        have hscaled : 0 < scaled d.magnitude := by
          rw [← scaled_zero]
          exact scaled_strictMono (Nat.pos_of_ne_zero h0)
        omega
    ext
    · rw [hsign]; rfl
    · rfl

/-- What the canonical text of a number denotes is not changed by reading it. -/
theorem canonical_eq_zero {d : Double} (h : d.magnitude = 0) : d.canonical = zero := if_pos h

theorem readsPlain_zero : ReadsPlain (utf8 "0.0") 0 :=
  ⟨[48], [48], rfl, ⟨by decide, List.forall_mem_singleton.2 rfl, .inl rfl⟩, by decide, List.forall_mem_singleton.2 rfl,
    reads_zero _⟩

end Lib.Double

/-- The scientific text apart. -/
theorem any_isExponent_scientificText (m : Nat) :
    (Double.scientificText m).any (fun c => c == 101 || c == 69) = true := by
  unfold Double.scientificText
  rw [List.any_append, List.any_cons]
  simp

theorem mantissaText_no_exponent (m : Nat) : ∀ c ∈ Double.mantissaText (toDecimal m), (c == 101 || c == 69) = false := by
  have hdigit : ∀ c : UInt8, isDigit c = true → (c == 101 || c == 69) = false := by
    intro c hc
    rw [Bool.or_eq_false_iff, beq_eq_false_iff_ne, beq_eq_false_iff_ne]
    constructor
    · rintro rfl; exact absurd hc (by decide)
    · rintro rfl; exact absurd hc (by decide)
  intro c hc
  unfold Double.mantissaText at hc
  split at hc
  · exact hdigit c (isDigit_toDecimal m c hc)
  · rcases List.mem_append.1 hc with hc | hc
    · exact hdigit c (isDigit_toDecimal m c (List.mem_of_mem_take hc))
    · rcases List.mem_cons.1 hc with rfl | hc
      · decide
      · exact hdigit c (isDigit_toDecimal m c (List.mem_of_mem_drop hc))

theorem head_scientificText (m : Nat) : ∃ c rest, Double.scientificText m = c :: rest ∧ isDigit c = true := by
  obtain ⟨c, rest, hcons⟩ := List.exists_cons_of_ne_nil (List.length_pos_iff.1 (length_toDecimal_pos (Double.shortest m).1))
  have hc : isDigit c = true := isDigit_toDecimal (Double.shortest m).1 c (by rw [hcons]; exact List.mem_cons_self)
  unfold Double.scientificText Double.mantissaText
  rw [hcons]
  split
  · exact ⟨c, _, rfl, hc⟩
  · exact ⟨c, _, rfl, hc⟩

/-- Fixed notation has no exponent and starts with a digit. -/
theorem fixedText_spec {m : Nat} (h : m ≠ 0) :
    (Double.fixedText m).any (fun c => c == 101 || c == 69) = false ∧
      ∃ c rest, Double.fixedText m = c :: rest ∧ isDigit c = true := by
  have hplain : (∀ c ∈ Double.fixedText m, isDigit c = true ∨ c = 46) ∧
      ∃ c rest, Double.fixedText m = c :: rest ∧ isDigit c = true := by
    rcases Double.readsPlain_fixedText h with ⟨_, hr⟩ | ⟨_, hr⟩
    · obtain ⟨hall, c, rest, hcons, hc⟩ := hr.digits
      refine ⟨fun b hb => hall b (List.mem_append_left _ hb), ?_⟩
      cases hf : Double.fixedText m with
      | nil => rw [hf] at hcons; cases hcons; exact absurd hc (by decide)
      | cons b bs => rw [hf] at hcons; cases hcons; exact ⟨c, bs, rfl, hc⟩
    · exact hr.digits
  refine ⟨?_, hplain.2⟩
  rw [List.any_eq_false]
  intro c hc
  rcases hplain.1 c hc with hd | rfl
  · intro he
    rw [Bool.or_eq_true, beq_iff_eq, beq_iff_eq] at he
    rcases he with rfl | rfl
    · exact absurd hd (by decide)
    · exact absurd hd (by decide)
  · decide

/-- The sign in front of a text that starts with a digit, and what is left without it. -/
theorem sign_spec {negative : Bool} {body : Bytes} (h : ∃ c rest, body = c :: rest ∧ isDigit c = true) :
    (((if negative then [45] else []) ++ body).head? = some 45 ↔ negative = true) ∧
      (if ((if negative then [45] else []) ++ body).head? = some 45 then ((if negative then [45] else []) ++ body).drop 1
        else (if negative then [45] else []) ++ body) = body := by
  obtain ⟨c, rest, rfl, hc⟩ := h
  have hne : c ≠ 45 := by
    rintro rfl
    exact absurd hc (by decide)
  cases negative <;> simp [hne]

/-- The canonical text of a number is a plain text, behind the sign of what it denotes. -/
theorem formatCanonicalReal_spec {d : Double} {text : Bytes} (h : formatCanonicalReal d = some text) :
    d.isFinite = true ∧ ∃ plain, Double.ReadsPlain plain d.magnitude ∧ (d.magnitude = 0 → plain = [48, 46, 48]) ∧
      text = (if d.canonical.negative then [45] else []) ++ plain := by
  unfold formatCanonicalReal at h
  split at h
  · cases h
  · rename_i hfinite
    have hf : d.isFinite = true := by simpa using hfinite
    refine ⟨hf, ?_⟩
    split at h
    · rename_i hzero
      have hm := (Double.eq_zero_iff hf).1 hzero
      cases h
      refine ⟨utf8 "0.0", by rw [hm]; exact Double.readsPlain_zero, fun _ => rfl, ?_⟩
      rw [Double.canonical, if_pos hm]
      rfl
    · rename_i hzero
      have hm : d.magnitude ≠ 0 := fun h0 => hzero ((Double.eq_zero_iff hf).2 h0)
      rw [Double.canonical, if_neg hm]
      simp only at h ⊢
      unfold Double.toChars at h
      rw [if_neg hm] at h
      by_cases hlen : (Double.fixedText d.magnitude).length ≤ (Double.scientificText d.magnitude).length
      · -- fixed notation, whose sign is lost
        obtain ⟨hno, hhead⟩ := fixedText_spec hm
        rw [if_pos hlen, (sign_spec hhead).2, hno, Bool.not_false, if_pos rfl] at h
        rw [decide_eq_false (not_lt.2 hlen), Bool.and_false]
        refine ⟨text, ?_, fun h0 => absurd h0 hm, rfl⟩
        rcases Double.readsPlain_fixedText hm with ⟨hpoint, hr⟩ | ⟨hpoint, hr⟩
        · rw [if_neg hpoint] at h
          cases h
          exact hr
        · rw [if_pos hpoint] at h
          cases h
          exact hr
      · -- scientific notation, expanded behind its sign
        obtain ⟨hsign, hbody⟩ := @sign_spec d.negative _ (head_scientificText d.magnitude)
        rw [if_neg hlen, hbody, any_isExponent_scientificText] at h
        have htake : (Double.scientificText d.magnitude).takeWhile (fun c => !(c == 101 || c == 69)) =
            Double.mantissaText (toDecimal (Double.shortest d.magnitude).1) := by
          unfold Double.scientificText
          rw [List.takeWhile_append_of_pos fun c hc => by rw [mantissaText_no_exponent _ c hc]; rfl,
            List.takeWhile_cons_of_neg (by decide), List.append_nil]
        have hdrop : ((Double.scientificText d.magnitude).dropWhile (fun c => !(c == 101 || c == 69))).drop 1 =
            Double.exponentText (Double.leadingExponent d.magnitude) := by
          unfold Double.scientificText
          rw [List.dropWhile_append_of_pos fun c hc => by rw [mantissaText_no_exponent _ c hc]; rfl,
            List.dropWhile_cons_of_neg (by decide)]
          rfl
        rw [htake, hdrop] at h
        simp only [Bool.not_true, Bool.false_eq_true, if_false] at h
        cases hexp : readExponent (Double.exponentText (Double.leadingExponent d.magnitude)) with
        | none => rw [hexp] at h; cases h
        | some x =>
          rw [hexp] at h
          simp only at h
          rw [readExponent_exponentText hexp] at h
          obtain ⟨expanded, hexpanded, htext⟩ := Option.map_eq_some_iff.1 h
          refine ⟨expanded, readsPlain_expandExponent hm hexpanded, fun h0 => absurd h0 hm, ?_⟩
          rw [decide_eq_true (not_le.1 hlen), Bool.and_true, ← htext]
          simp only [hsign]
          cases d.negative <;> rfl

theorem Json.ofReal_canonical {d : Double} (hf : d.isFinite = true) : Json.ofReal d.canonical = .real d.canonical := by
  unfold Json.ofReal
  split
  · rename_i h
    rw [Double.eq_zero_iff (by rw [Double.canonical_isFinite]; exact hf), Double.canonical_magnitude] at h
    rw [Double.canonical_eq_zero h]
  · rfl

/-! ## Literals -/

namespace Parser

/-- A parse that gives a value and leaves a rest exactly when a condition holds, and fails otherwise. -/
def Reads {α : Type} (x : Result α) (condition : Prop) (value : α) (rest : Bytes) : Prop :=
  (condition ∧ x = .ok (value, rest)) ∨ (¬condition ∧ ∃ e, x = .error e)

theorem Reads.ok {α : Type} {x : Result α} {condition : Prop} {value value' : α} {rest rest' : Bytes}
    (h : Reads x condition value rest) (hx : x = .ok (value', rest')) : condition ∧ value' = value ∧ rest' = rest := by
  rcases h with ⟨hc, he⟩ | ⟨_, e, he⟩
  · rw [he] at hx; cases hx; exact ⟨hc, rfl, rfl⟩
  · rw [he] at hx; cases hx

/-- What stands behind a value in canonical text: nothing, a comma or a closing bracket. -/
def Ends (rest : Bytes) : Prop := ∀ c ∈ rest.head?, c = 44 ∨ c = 93 ∨ c = 125

theorem ends_cons {c : UInt8} {rest : Bytes} : Ends (c :: rest) ↔ c = 44 ∨ c = 93 ∨ c = 125 := by
  simp [Ends]

theorem scanDigits_append {digits rest : Bytes} (hne : digits ≠ []) (hd : ∀ c ∈ digits, isDigit c = true)
    (hrest : ∀ c ∈ rest.head?, isDigit c = false) (message : String) :
    scanDigits (digits ++ rest) message = .ok (digits, rest) := by
  have hno : rest.takeWhile isDigit = [] ∧ rest.dropWhile isDigit = rest := by
    cases rest with
    | nil => exact ⟨rfl, rfl⟩
    | cons c rest =>
      have hc := hrest c rfl
      exact ⟨List.takeWhile_cons_of_neg (by rw [hc]; decide), List.dropWhile_cons_of_neg (by rw [hc]; decide)⟩
  obtain ⟨c, more, rfl⟩ := List.exists_cons_of_ne_nil hne
  unfold scanDigits
  rw [List.takeWhile_append_of_pos hd, List.dropWhile_append_of_pos hd, hno.1, hno.2, List.append_nil]

theorem scanInteger_append {digits rest : Bytes} (h : IsNumeral digits) (hrest : ∀ c ∈ rest.head?, isDigit c = false) :
    scanInteger (digits ++ rest) = .ok (digits, rest) := by
  unfold scanInteger
  rw [scanDigits_append h.nonempty h.digit hrest]
  rcases h.leading with rfl | hlead
  · rfl
  · split
    · rename_i heq; cases heq
    · rename_i heq; cases heq; exact absurd rfl hlead
    · rename_i heq; cases heq; rfl

def fractionText : Option Bytes → Bytes
  | none => []
  | some digits => 46 :: digits

/-- The text of a literal without an exponent. -/
def literalText (negative : Bool) (integer : Bytes) (fraction : Option Bytes) : Bytes :=
  (if negative then [45] else []) ++ integer ++ fractionText fraction

theorem Ends.spec {rest : Bytes} (h : Ends rest) : (∀ c ∈ rest.head?, isDigit c = false) ∧
    scanFraction rest = .ok (none, rest) ∧ scanExponent rest = .ok (none, rest) := by
  cases rest with
  | nil => exact ⟨fun _ hc => (nomatch hc), rfl, rfl⟩
  | cons c rest =>
    rcases ends_cons.1 h with rfl | rfl | rfl
    · exact ⟨fun _ hc => by cases hc; rfl, rfl, rfl⟩
    · exact ⟨fun _ hc => by cases hc; rfl, rfl, rfl⟩
    · exact ⟨fun _ hc => by cases hc; rfl, rfl, rfl⟩

/-- A literal reads back up to its end. -/
theorem scanNumber_literalText {negative : Bool} {integer rest : Bytes} {fraction : Option Bytes}
    (hi : IsNumeral integer) (hf : ∀ digits ∈ fraction, digits ≠ [] ∧ ∀ c ∈ digits, isDigit c = true)
    (hrest : Ends rest) :
    scanNumber (literalText negative integer fraction ++ rest) = .ok (⟨negative, integer, fraction, none⟩, rest) := by
  obtain ⟨hdigit, hnone, hexponent⟩ := hrest.spec
  obtain ⟨c, more, hcons⟩ := List.exists_cons_of_ne_nil hi.nonempty
  have hc : c ≠ 45 := by
    rintro rfl
    exact absurd (hi.digit 45 (by rw [hcons]; exact List.mem_cons_self)) (by decide)
  have hfraction : ∃ behind, fractionText fraction ++ rest = behind ∧
      (∀ c ∈ behind.head?, isDigit c = false) ∧ scanFraction behind = .ok (fraction, rest) := by
    cases fraction with
    | none => exact ⟨rest, rfl, hdigit, hnone⟩
    | some digits =>
      obtain ⟨hne, hd⟩ := hf digits rfl
      refine ⟨_, rfl, fun c hc => by cases hc; rfl, ?_⟩
      rw [fractionText, List.cons_append, scanFraction, scanDigits_append hne hd hdigit]
  obtain ⟨behind, hbehind, hstop, hscan⟩ := hfraction
  unfold literalText
  rw [List.append_assoc, List.append_assoc, hbehind]
  have hsign : (((if negative then [45] else []) ++ (integer ++ behind)).head? == some 45) = negative ∧
      (if negative then ((if negative then [45] else []) ++ (integer ++ behind)).drop 1
        else (if negative then [45] else []) ++ (integer ++ behind)) = integer ++ behind := by
    cases negative <;> simp [hcons, hc]
  unfold scanNumber
  simp only [hsign.1, hsign.2, scanInteger_append hi hstop, hscan, hexponent]

theorem readMagnitude_eq : ∀ {digits : Bytes} {magnitude : Nat}, (∀ c ∈ digits, isDigit c = true) →
    magnitude * 10 ^ digits.length + decimalValue digits < 2 ^ 64 →
    readMagnitude digits magnitude = some (magnitude * 10 ^ digits.length + decimalValue digits)
  | [], magnitude, _, _ => by simp [readMagnitude, decimalValue]
  | c :: digits, magnitude, hd, h => by
    have hvalue : magnitude * 10 ^ (c :: digits).length + decimalValue (c :: digits) =
        (magnitude * 10 + (c.toNat - 48)) * 10 ^ digits.length + decimalValue digits := by
      rw [show c :: digits = [c] ++ digits from rfl, decimalValue_append, List.length_append, List.length_singleton,
        pow_add]
      simp only [decimalValue, List.foldl_cons, List.foldl_nil]
      ring
    rw [hvalue] at h ⊢
    have hpos : 0 < 10 ^ digits.length := by positivity
    have hle : magnitude * 10 + (c.toNat - 48) < 2 ^ 64 :=
      lt_of_le_of_lt ((Nat.le_mul_of_pos_right _ hpos).trans (Nat.le_add_right _ _)) h
    rw [readMagnitude, if_neg (by omega)]
    exact readMagnitude_eq (fun b hb => hd b (List.mem_cons_of_mem _ hb)) h

/-- An integer reads back. -/
theorem parseNumber_formatInt (i : Int64) {rest : Bytes} (hrest : Ends rest) :
    parseNumber (formatInt i ++ rest) = .ok (.int i, rest) := by
  have hi := i.toInt_lt
  have hi' := i.le_toInt
  have htext : formatInt i = literalText (decide (i < 0)) (toDecimal i.toInt.natAbs) none := by
    unfold formatInt literalText fractionText
    by_cases hneg : i < 0
    · simp [hneg]
    · simp [hneg]
  have hneg : i < 0 ↔ i.toInt < 0 := Int64.lt_iff_toInt_lt
  have hlength : (toDecimal i.toInt.natAbs).length ≤ 19 := length_toDecimal_le (by decide) (by omega)
  have hmagnitude : readMagnitude (toDecimal i.toInt.natAbs) 0 = some i.toInt.natAbs := by
    rw [readMagnitude_eq (isDigit_toDecimal _) (by rw [decimalValue_toDecimal]; omega), decimalValue_toDecimal]
    simp
  have hnone : ∀ digits ∈ (none : Option Bytes), digits ≠ [] ∧ ∀ c ∈ digits, isDigit c = true := fun _ h => by cases h
  rw [htext, parseNumber, scanNumber_literalText (isNumeral_toDecimal _) hnone hrest]
  simp only
  unfold numberValue
  have hfits : ¬(Literal.length ⟨decide (i < 0), toDecimal i.toInt.natAbs, none, none⟩ > 64) := by
    unfold Literal.length
    simp only
    split <;> omega
  rw [if_neg hfits]
  simp only [Literal.isReal, Option.isSome_none, Bool.or_self, Bool.not_false, if_true, hmagnitude]
  by_cases h : i < 0
  · have h' := hneg.1 h
    rw [decide_eq_true h, if_pos rfl, if_neg (by omega), show -(i.toInt.natAbs : Int) = i.toInt by omega,
      Int64.ofInt_toInt]
  · have h' := (not_iff_not.2 hneg).1 h
    rw [decide_eq_false h, if_neg (by decide), if_neg (by omega), show (i.toInt.natAbs : Int) = i.toInt by omega,
      Int64.ofInt_toInt]

theorem eq_of_zeroText {integer fraction : Bytes} (h : IsNumeral integer)
    (heq : integer ++ 46 :: fraction = [48, 46, 48]) : integer = [48] ∧ fraction = [48] := by
  obtain ⟨c, more, rfl⟩ := List.exists_cons_of_ne_nil h.nonempty
  obtain ⟨rfl, hmore⟩ := List.cons.inj heq
  cases more with
  | nil => exact ⟨rfl, (List.cons.inj hmore).2⟩
  | cons b more =>
    obtain ⟨rfl, -⟩ := List.cons.inj hmore
    exact absurd (h.digit 46 (List.mem_cons_of_mem _ List.mem_cons_self)) (by decide)

/-- The canonical text of a real number reads as the number it denotes, when it fits a literal. -/
theorem parseNumber_formatCanonicalReal {d : Double} {text : Bytes} (h : formatCanonicalReal d = some text)
    {rest : Bytes} (hrest : Ends rest) : Reads (parseNumber (text ++ rest)) (text.length ≤ 64) (.real d.canonical) rest := by
  obtain ⟨hfinite, plain, ⟨integer, fraction, rfl, hinteger, hne, hfraction, hreads⟩, hzero, rfl⟩ := formatCanonicalReal_spec h
  have hcanonical : d.canonical.isFinite = true := by rw [Double.canonical_isFinite]; exact hfinite
  have htext : (if d.canonical.negative then [45] else []) ++ (integer ++ 46 :: fraction) =
      literalText d.canonical.negative integer (some fraction) := by
    rw [literalText, List.append_assoc]; rfl
  have hlength : ((if d.canonical.negative then [45] else []) ++ (integer ++ 46 :: fraction)).length =
      Literal.length ⟨d.canonical.negative, integer, some fraction, none⟩ := by
    unfold Literal.length
    cases d.canonical.negative <;> simp <;> omega
  rw [← Double.canonical_magnitude] at hreads
  have hvalue : Literal.fromChars ⟨d.canonical.negative, integer, some fraction, none⟩ = some d.canonical := by
    unfold Literal.fromChars
    simp only [Option.getD_some, Int.zero_sub]
    refine Double.ofDecimal_reads hcanonical hreads fun hm => ?_
    rw [Double.canonical_magnitude] at hm
    obtain ⟨rfl, rfl⟩ := eq_of_zeroText hinteger (hzero hm)
    rfl
  have hscan : parseNumber (literalText d.canonical.negative integer (some fraction) ++ rest) =
      (numberValue ⟨d.canonical.negative, integer, some fraction, none⟩ rest).map fun value => (value, rest) := by
    have hliteral : ∀ digits ∈ some fraction, digits ≠ [] ∧ ∀ c ∈ digits, isDigit c = true := fun _ h => by
      cases h; exact ⟨hne, hfraction⟩
    unfold parseNumber
    simp only [scanNumber_literalText hinteger hliteral hrest]
    cases numberValue ⟨d.canonical.negative, integer, some fraction, none⟩ rest <;> simp only [Except.map]
  rw [hlength, htext, hscan]
  unfold numberValue Reads
  by_cases hfits : Literal.length ⟨d.canonical.negative, integer, some fraction, none⟩ > 64
  · rw [if_pos hfits]
    exact .inr ⟨not_le.2 hfits, _, rfl⟩
  · rw [if_neg hfits]
    refine .inl ⟨not_lt.1 hfits, ?_⟩
    simp only [Literal.isReal, Option.isSome_some, Bool.true_or, Bool.not_true, Bool.false_eq_true, if_false, hvalue,
      hcanonical, Except.map]
    rw [Json.ofReal_canonical hfinite]

end Parser

end Wnc
