/-
Binary64 numbers: their encoding, the comparisons of the standard, and rounding to nearest. The lower
63 bits of an encoding number the magnitudes in ascending order, and every finite magnitude is a whole
multiple of `2 ^ (-1074)`; so values are compared as integers, and a ratio is rounded to the nearest
point of one strictly increasing sequence, ties going to the even index.
-/
import Mathlib.Order.Monotone.Basic
import Mathlib.Order.Lattice
import Mathlib.Tactic.Linarith
import Mathlib.Tactic.Positivity
import Mathlib.Tactic.Ring

namespace Wnc.Lib

/-- A binary64 number: its sign and the lower 63 bits of its encoding. -/
@[ext] structure Double where
  negative : Bool
  magnitude : Nat
  bound : magnitude < 2 ^ 63
deriving DecidableEq

namespace Double

/-! ## Magnitudes -/

/-- The magnitude behind the largest finite one. -/
def infinityMagnitude : Nat := 0x7FF0000000000000

/-- The number one in units of `2 ^ (-1074)`. -/
def one : Nat := 2 ^ 1074

theorem one_pos : 0 < one := by
  unfold one
  positivity

theorem two_pow_add_one (k : Nat) : 2 ^ (k + 1074) = 2 ^ k * one := pow_add 2 k 1074

/-- The value of a magnitude in units of `2 ^ (-1074)`. -/
def scaled (m : Nat) : Nat :=
  if m < 2 ^ 52 then m else (2 ^ 52 + m % 2 ^ 52) * 2 ^ (m / 2 ^ 52 - 1)

/-- The distance from a magnitude to the next. -/
def ulp (m : Nat) : Nat := 2 ^ (m / 2 ^ 52 - 1)

theorem scaled_of_lt {m : Nat} (h : m < 2 ^ 53) : scaled m = m := by
  unfold scaled
  split
  · rfl
  · have h1 : m / 2 ^ 52 = 1 := by omega
    have h2 : m % 2 ^ 52 + 2 ^ 52 = m := by omega
    rw [h1, Nat.sub_self, pow_zero, Nat.mul_one, Nat.add_comm, h2]

@[simp] theorem scaled_zero : scaled 0 = 0 := rfl

theorem scaled_succ (m : Nat) : scaled (m + 1) = scaled m + ulp m := by
  unfold ulp
  by_cases hm : m + 1 < 2 ^ 52
  · rw [scaled_of_lt (by omega), scaled_of_lt (by omega), Nat.div_eq_of_lt (by omega)]; rfl
  by_cases hm' : m < 2 ^ 52
  · rw [scaled_of_lt (by omega), scaled_of_lt (by omega), Nat.div_eq_of_lt hm']; rfl
  rw [scaled, scaled, if_neg (by omega), if_neg hm']
  by_cases hc : m % 2 ^ 52 + 1 < 2 ^ 52
  · have h1 : (m + 1) / 2 ^ 52 = m / 2 ^ 52 := by omega
    have h2 : (m + 1) % 2 ^ 52 = m % 2 ^ 52 + 1 := by omega
    rw [h1, h2]; ring
  · -- the fraction wraps and the exponent grows by one
    obtain ⟨k, hk⟩ : ∃ k, m / 2 ^ 52 = k + 1 := ⟨m / 2 ^ 52 - 1, by omega⟩
    have h1 : (m + 1) / 2 ^ 52 = k + 2 := by omega
    have h2 : (m + 1) % 2 ^ 52 = 0 := by omega
    have h3 : m % 2 ^ 52 = 2 ^ 52 - 1 := by omega
    have h4 : 2 ^ 52 + (2 ^ 52 - 1) + 1 = 2 ^ 53 := by decide
    rw [h1, h2, h3, hk, show k + 2 - 1 = k + 1 by omega, Nat.add_sub_cancel, pow_succ 2 k]
    calc (2 ^ 52 + 0) * (2 ^ k * 2) = (2 ^ 52 + (2 ^ 52 - 1) + 1) * 2 ^ k := by rw [h4]; ring
      _ = _ := by ring

theorem scaled_strictMono : StrictMono scaled :=
  strictMono_nat_of_lt_succ fun m => by
    rw [scaled_succ]
    exact Nat.lt_add_of_pos_right (Nat.two_pow_pos _)

/-- The largest magnitude whose scaled value does not exceed a number. -/
def index (q : Nat) : Nat :=
  let k := q.log2 - 52
  k * 2 ^ 52 + q / 2 ^ k

theorem index_of_lt {q : Nat} (h : q < 2 ^ 53) : index q = q := by
  have hk : q.log2 - 52 = 0 := by
    by_cases hq : q = 0
    · subst hq; rfl
    · have := (Nat.log2_lt hq).2 h
      omega
  rw [index, hk]; simp

/-- The scaled value of an index brackets the number: it is the last one that does not exceed it. -/
theorem scaled_index (q : Nat) : scaled (index q) ≤ q ∧ q < scaled (index q + 1) := by
  by_cases h : q < 2 ^ 53
  · rw [index_of_lt h, scaled_succ, scaled_of_lt h]
    exact ⟨le_rfl, Nat.lt_add_of_pos_right (Nat.two_pow_pos _)⟩
  · have hq : q ≠ 0 := by omega
    obtain ⟨k, hk⟩ : ∃ k, q.log2 = 53 + k := by
      refine Nat.exists_eq_add_of_le ?_
      by_contra hlt
      exact h ((Nat.log2_lt hq).1 (not_le.1 hlt))
    have hlow : 2 ^ (k + 1) * 2 ^ 52 ≤ q := by
      rw [← pow_add, show k + 1 + 52 = q.log2 by omega]; exact Nat.log2_self_le hq
    have hhigh : q < 2 ^ (k + 1) * 2 ^ 53 := by
      rw [← pow_add, show k + 1 + 53 = q.log2 + 1 by omega]; exact Nat.lt_log2_self
    have hpos : 0 < 2 ^ (k + 1) := Nat.two_pow_pos _
    have ht1 : 2 ^ 52 ≤ q / 2 ^ (k + 1) := (Nat.le_div_iff_mul_le hpos).2 (by rw [Nat.mul_comm]; exact hlow)
    have ht2 : q / 2 ^ (k + 1) < 2 ^ 53 := (Nat.div_lt_iff_lt_mul hpos).2 (by rw [Nat.mul_comm]; exact hhigh)
    have hindex : index q = (k + 1) * 2 ^ 52 + q / 2 ^ (k + 1) := by
      rw [index, hk, show 53 + k - 52 = k + 1 by omega]
    have hdiv := Nat.div_mul_le_self q (2 ^ (k + 1))
    have hmod := Nat.lt_div_mul_add hpos (a := q)
    generalize hvalue : q / 2 ^ (k + 1) = t at *
    have he : index q / 2 ^ 52 = k + 2 := by omega
    have hf : index q % 2 ^ 52 + 2 ^ 52 = t := by omega
    have hs : scaled (index q) = t * 2 ^ (k + 1) := by
      rw [scaled, if_neg (by omega), he, Nat.add_comm (2 ^ 52), hf]; rfl
    rw [scaled_succ, hs, ulp, he]
    exact ⟨hdiv, hmod⟩

theorem index_scaled (m : Nat) : index (scaled m) = m := by
  obtain ⟨h1, h2⟩ := scaled_index (scaled m)
  have := scaled_strictMono.le_iff_le.1 h1
  have := scaled_strictMono.lt_iff_lt.1 h2
  omega

theorem index_mono {p q : Nat} (h : p ≤ q) : index p ≤ index q := by
  have h1 := (scaled_index p).1
  have h2 := (scaled_index q).2
  have := scaled_strictMono.lt_iff_lt.1 (lt_of_le_of_lt (h1.trans h) h2)
  omega

/-! ## Rounding -/

/-- The magnitude nearest to `num / den`, the even one of two that are equally near. -/
def nearest (num den : Nat) : Nat :=
  let x := num * one
  let m := index (x / den)
  let middle := (scaled m + scaled (m + 1)) * den
  if 2 * x < middle then m
  else if middle < 2 * x then m + 1
  else m + m % 2

theorem nearest_zero_left (den : Nat) (h : 0 < den) : nearest 0 den = 0 := by
  unfold nearest
  simp only
  rw [Nat.zero_mul, Nat.zero_div, index_of_lt (by decide), if_pos]
  exact Nat.mul_pos (by decide) h

/-- A ratio that is a magnitude's value rounds to it. -/
theorem nearest_scaled {num den m : Nat} (hden : 0 < den) (h : num * one = scaled m * den) :
    nearest num den = m := by
  unfold nearest
  simp only
  rw [h, Nat.mul_div_cancel _ hden, index_scaled, if_pos]
  have hlt : scaled m * den < scaled (m + 1) * den :=
    Nat.mul_lt_mul_of_pos_right (scaled_strictMono (Nat.lt_succ_self m)) hden
  rw [Nat.add_mul]
  omega

theorem nearest_mul_right (num den : Nat) {a : Nat} (ha : 0 < a) : nearest (num * a) (den * a) = nearest num den := by
  have hx : num * a * one = num * one * a := by ring
  unfold nearest
  simp only
  rw [hx, Nat.mul_div_mul_right _ _ ha]
  generalize num * one = x
  generalize scaled (index (x / den)) + scaled (index (x / den) + 1) = s
  have h1 : 2 * (x * a) < s * (den * a) ↔ 2 * x < s * den := by
    rw [← Nat.mul_assoc, ← Nat.mul_assoc, Nat.mul_lt_mul_right ha]
  have h2 : s * (den * a) < 2 * (x * a) ↔ s * den < 2 * x := by
    rw [← Nat.mul_assoc, ← Nat.mul_assoc, Nat.mul_lt_mul_right ha]
  simp only [h1, h2]

/-- Rounding depends on the ratio alone. -/
theorem nearest_congr {num den num' den' : Nat} (hden : 0 < den) (hden' : 0 < den')
    (h : num * den' = num' * den) : nearest num den = nearest num' den' := by
  rw [← nearest_mul_right num den hden', ← nearest_mul_right num' den' hden, h, Nat.mul_comm den]

theorem index_le_nearest (num den : Nat) : index (num * one / den) ≤ nearest num den := by
  unfold nearest
  simp only
  split
  · exact le_rfl
  · split
    · exact Nat.le_succ _
    · exact Nat.le_add_right _ _

/-- A whole number below `2 ^ 53` is the value of a magnitude. -/
theorem exists_scaled_eq {n : Nat} (hn : n < 2 ^ 53) : ∃ m, scaled m = n * one := by
  by_cases h0 : n = 0
  · exact ⟨0, by rw [h0, scaled_zero, Nat.zero_mul]⟩
  have hself := Nat.log2_self_le h0
  have hnext : n < 2 ^ (n.log2 + 1) := Nat.lt_log2_self
  have hlog : (n * one).log2 = n.log2 + 1074 := by
    rw [Nat.log2_eq_iff (Nat.mul_ne_zero h0 one_pos.ne')]
    constructor
    · rw [two_pow_add_one]
      exact Nat.mul_le_mul_right one hself
    · rw [show n.log2 + 1074 + 1 = n.log2 + 1 + 1074 by omega, two_pow_add_one]
      exact Nat.mul_lt_mul_of_pos_right hnext one_pos
  obtain ⟨j, hj⟩ : ∃ j, 52 = n.log2 + j :=
    Nat.exists_eq_add_of_le (Nat.lt_succ_iff.1 ((Nat.log2_lt h0).2 hn))
  have hsplit : n * one = n * 2 ^ j * 2 ^ (1022 + n.log2) := by
    rw [one, Nat.mul_assoc, ← pow_add, show j + (1022 + n.log2) = 1074 by omega]
  have hindex : index (n * one) = (1022 + n.log2) * 2 ^ 52 + n * 2 ^ j := by
    rw [index, hlog, show n.log2 + 1074 - 52 = 1022 + n.log2 by omega, hsplit,
      Nat.mul_div_cancel _ (Nat.two_pow_pos _)]
  have hlow : 2 ^ 52 ≤ n * 2 ^ j := by
    rw [hj, pow_add]; exact Nat.mul_le_mul_right _ hself
  have hhigh : n * 2 ^ j < 2 ^ 53 := by
    rw [show 53 = n.log2 + 1 + j by omega, pow_add]
    exact Nat.mul_lt_mul_of_pos_right hnext (Nat.two_pow_pos _)
  refine ⟨index (n * one), ?_⟩
  generalize n * 2 ^ j = t at hsplit hindex hlow hhigh
  have he : index (n * one) / 2 ^ 52 = 1022 + n.log2 + 1 := by omega
  have hf : index (n * one) % 2 ^ 52 + 2 ^ 52 = t := by omega
  rw [scaled, if_neg (by omega), he, Nat.add_comm (2 ^ 52), hf, hsplit]; rfl

/-- A magnitude that a whole number rounds to is whole itself. -/
theorem dvd_scaled_nearest (n : Nat) : one ∣ scaled (nearest n 1) := by
  by_cases hn : n < 2 ^ 53
  · obtain ⟨m, hm⟩ := exists_scaled_eq hn
    rw [nearest_scaled Nat.one_pos (by rw [hm, Nat.mul_one]), hm]
    exact Nat.dvd_mul_left _ _
  · -- at and above `2 ^ 53` every magnitude is whole
    have hbig : index (2 ^ 53 * one) ≤ nearest n 1 :=
      (index_mono (by rw [Nat.div_one]; exact Nat.mul_le_mul_right one (by omega))).trans (index_le_nearest n 1)
    have hval : index (2 ^ 53 * one) = 1076 * 2 ^ 52 := by decide +kernel
    rw [hval] at hbig
    rw [scaled, if_neg (by omega)]
    refine Dvd.dvd.mul_left (pow_dvd_pow 2 ?_) _
    omega

/-! ## Numbers -/

/-- The number of a sign and a magnitude; magnitudes of 64 bits or more do not occur. -/
def ofMagnitude (negative : Bool) (m : Nat) : Double :=
  if h : m < 2 ^ 63 then ⟨negative, m, h⟩ else ⟨negative, 0, by decide⟩

def zero : Double := ⟨false, 0, by decide⟩

instance : Inhabited Double := ⟨zero⟩

def isNan (d : Double) : Bool := infinityMagnitude < d.magnitude

def isFinite (d : Double) : Bool := d.magnitude < infinityMagnitude

/-- The conversion of an integer, rounded to nearest. -/
def ofInt (i : Int) : Double := ofMagnitude (i < 0) (nearest i.natAbs 1)

/-- The finite number nearest to a ratio. `none` when it is too large, or not zero and too small. -/
def ofRatio (negative : Bool) (num den : Nat) : Option Double :=
  let m := nearest num den
  if infinityMagnitude ≤ m then none
  else if m = 0 ∧ num ≠ 0 then none
  else some (ofMagnitude negative m)

/-! ## Comparisons -/

/-- The value in units of `2 ^ (-1074)`; infinities lie behind all finite values. -/
def order (d : Double) : Int := if d.negative then -(scaled d.magnitude : Int) else scaled d.magnitude

/-- Equality of numbers: zeros of either sign are equal, and nothing equals what is not a number. -/
def eq (a b : Double) : Bool := !a.isNan && !b.isNan && a.order == b.order

def lt (a b : Double) : Bool := !a.isNan && !b.isNan && a.order < b.order

def le (a b : Double) : Bool := !a.isNan && !b.isNan && a.order ≤ b.order

theorem not_isNan_of_isFinite {d : Double} (h : d.isFinite = true) : d.isNan = false := by
  rw [isFinite, decide_eq_true_eq] at h
  rw [isNan, decide_eq_false_iff_not]
  omega

theorem eq_iff {a b : Double} (ha : a.isNan = false) (hb : b.isNan = false) :
    a.eq b = true ↔ a.order = b.order := by
  simp [eq, ha, hb]

theorem lt_iff {a b : Double} (ha : a.isNan = false) (hb : b.isNan = false) :
    a.lt b = true ↔ a.order < b.order := by
  simp [lt, ha, hb]

theorem le_iff {a b : Double} (ha : a.isNan = false) (hb : b.isNan = false) :
    a.le b = true ↔ a.order ≤ b.order := by
  simp [le, ha, hb]

theorem le_trans {a b c : Double} (hab : a.le b = true) (hbc : b.le c = true) : a.le c = true := by
  simp only [le, Bool.and_eq_true, Bool.not_eq_true', decide_eq_true_eq] at *
  exact ⟨⟨hab.1.1, hbc.1.2⟩, hab.2.trans hbc.2⟩

/-- A number stands in the order to itself unless it is not a number. -/
theorem le_refl {a : Double} (h : a.isNan = false) : a.le a = true := (le_iff h h).2 (Int.le_refl _)

theorem not_isNan_of_le {a b : Double} (h : a.le b = true) : a.isNan = false ∧ b.isNan = false := by
  simp only [le, Bool.and_eq_true, Bool.not_eq_true'] at h
  exact h.1

theorem not_isNan_of_lt {a b : Double} (h : a.lt b = true) : a.isNan = false ∧ b.isNan = false := by
  simp only [lt, Bool.and_eq_true, Bool.not_eq_true'] at h
  exact h.1

/-- The order of numbers is total. -/
theorem lt_eq_false_iff {a b : Double} (ha : a.isNan = false) (hb : b.isNan = false) :
    a.lt b = false ↔ b.le a = true := by
  rw [Bool.eq_false_iff, ne_eq, lt_iff ha hb, le_iff hb ha, not_lt]

end Double

end Wnc.Lib
