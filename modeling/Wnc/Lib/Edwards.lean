/-
The group of a twisted Edwards curve `-x² + y² = 1 + d x² y²` over a field in which `-1` is a square and `d` is none. The
addition law has no exceptions there, so the points are an abelian group under it.
-/
import Mathlib.Algebra.Field.Basic
import Mathlib.Algebra.Group.Even
import Mathlib.Tactic.FieldSimp
import Mathlib.Tactic.LinearCombination
import Mathlib.Tactic.Ring

namespace Wnc.Lib

/-- A curve: the coefficient and a square root of `-1`. -/
structure Edwards (K : Type) [Field K] where
  d : K
  root : K
  two_ne : (2 : K) ≠ 0
  root_sq : root ^ 2 = -1
  nonsquare : ¬ IsSquare d

namespace Edwards

variable {K : Type} [Field K] (E : Edwards K)

def OnCurve (x y : K) : Prop := y ^ 2 - x ^ 2 = 1 + E.d * x ^ 2 * y ^ 2

/-- The points of the curve. -/
@[ext] structure Pt where
  x : K
  y : K
  on : E.OnCurve x y

variable {E}

/-! ## The law is complete -/

/-- The coefficient is no quotient of squares. -/
theorem eq_zero_of_sq {u v : K} (h : E.d * u ^ 2 = v ^ 2) : u = 0 := by
  by_contra hu
  refine E.nonsquare ⟨v / u, ?_⟩
  field_simp
  linear_combination h

/-- No product of coordinates of two points is a sign. -/
theorem prod_ne_sign {x₁ y₁ x₂ y₂ ε : K} (h₁ : E.OnCurve x₁ y₁) (h₂ : E.OnCurve x₂ y₂) (hε : ε ^ 2 = 1) :
    E.d * x₁ * x₂ * y₁ * y₂ ≠ ε := by
  intro h
  unfold OnCurve at h₁ h₂
  have hne : ε ≠ 0 := fun h0 => by simp [h0] at hε
  have hx₁ : x₁ ≠ 0 := fun h0 => hne (by rw [← h, h0]; ring)
  have hy₁ : y₁ ≠ 0 := fun h0 => hne (by rw [← h, h0]; ring)
  have hy₂ : y₂ ≠ 0 := fun h0 => hne (by rw [← h, h0]; ring)
  -- for either square root of `-1` the coefficient times a square is a square
  have hroot : ∀ r : K, r ^ 2 = -1 → r * x₂ + y₂ = 0 := fun r hr => by
    have hsq : E.d * (x₁ * y₁ * (r * x₂ + y₂)) ^ 2 = (r * x₁ + ε * y₁) ^ 2 := by
      linear_combination (E.d * x₁ ^ 2 * y₁ ^ 2 * x₂ ^ 2 - x₁ ^ 2) * hr + E.d * x₁ ^ 2 * y₁ ^ 2 * h₂ +
        (E.d * x₁ * x₂ * y₁ * y₂ + ε + 2 * r * x₁ * y₁) * h - h₁ + (1 - y₁ ^ 2) * hε
    simpa [hx₁, hy₁] using eq_zero_of_sq hsq
  have hplus := hroot E.root E.root_sq
  have hminus := hroot (-E.root) (by rw [neg_sq, E.root_sq])
  have hy : 2 * y₂ = 0 := by linear_combination hplus + hminus
  exact mul_ne_zero E.two_ne hy₂ hy

/-- The product that both denominators are made of. -/
def mix (P Q : E.Pt) : K := E.d * P.x * Q.x * P.y * Q.y

theorem one_add_mix (P Q : E.Pt) : 1 + mix P Q ≠ 0 := fun h =>
  prod_ne_sign P.on Q.on (show (-1 : K) ^ 2 = 1 by ring) (by unfold mix at h; linear_combination h)

theorem one_sub_mix (P Q : E.Pt) : 1 - mix P Q ≠ 0 := fun h =>
  prod_ne_sign P.on Q.on (show (1 : K) ^ 2 = 1 by ring) (by unfold mix at h; linear_combination -h)

/-! ## The group -/

def addX (P Q : E.Pt) : K := (P.x * Q.y + P.y * Q.x) / (1 + mix P Q)

def addY (P Q : E.Pt) : K := (P.y * Q.y + P.x * Q.x) / (1 - mix P Q)

theorem onCurve_add (P Q : E.Pt) : E.OnCurve (addX P Q) (addY P Q) := by
  have hp := one_add_mix P Q
  have hm := one_sub_mix P Q
  have h₁ := P.on
  have h₂ := Q.on
  unfold OnCurve addX addY at *
  field_simp
  unfold mix at *
  grind

instance instAdd : Add E.Pt := ⟨fun P Q => ⟨addX P Q, addY P Q, onCurve_add P Q⟩⟩

instance instZero : Zero E.Pt := ⟨⟨0, 1, by simp [OnCurve]⟩⟩

instance instNeg : Neg E.Pt := ⟨fun P => ⟨-P.x, P.y, by simpa [OnCurve] using P.on⟩⟩

@[simp] theorem x_add (P Q : E.Pt) : (P + Q).x = (P.x * Q.y + P.y * Q.x) / (1 + mix P Q) := rfl

@[simp] theorem y_add (P Q : E.Pt) : (P + Q).y = (P.y * Q.y + P.x * Q.x) / (1 - mix P Q) := rfl

@[simp] theorem x_zero : (0 : E.Pt).x = 0 := rfl

@[simp] theorem y_zero : (0 : E.Pt).y = 1 := rfl

@[simp] theorem x_neg (P : E.Pt) : (-P).x = -P.x := rfl

@[simp] theorem y_neg (P : E.Pt) : (-P).y = P.y := rfl

theorem mix_comm (P Q : E.Pt) : mix P Q = mix Q P := by
  unfold mix
  ring

theorem add_comm' (P Q : E.Pt) : P + Q = Q + P := by
  ext
  · rw [x_add, x_add, mix_comm]
    ring
  · rw [y_add, y_add, mix_comm]
    ring

theorem zero_add' (P : E.Pt) : 0 + P = P := by
  ext
  · simp [mix]
  · simp [mix]

theorem neg_add' (P : E.Pt) : -P + P = 0 := by
  have h := P.on
  have hm := one_sub_mix (-P) P
  unfold OnCurve at h
  ext
  · simp [mul_comm]
  · rw [y_add, y_zero, div_eq_one_iff_eq hm, mix, x_neg, y_neg]
    linear_combination h

/-- The numerators of a sum of two points. -/
def sumX (P Q : E.Pt) : K := P.x * Q.y + P.y * Q.x

def sumY (P Q : E.Pt) : K := P.y * Q.y + P.x * Q.x

theorem mix_add (P Q R : E.Pt) :
    mix (P + Q) R * ((1 + mix P Q) * (1 - mix P Q)) = E.d * sumX P Q * R.x * sumY P Q * R.y := by
  have hp := one_add_mix P Q
  have hm := one_sub_mix P Q
  rw [mix, x_add, y_add, sumX, sumY]
  field_simp

/-- The denominator of a sum of three points. -/
def den (P Q R : E.Pt) : K := (1 + mix P Q) * (1 - mix P Q) + E.d * sumX P Q * R.x * sumY P Q * R.y

theorem den_eq (P Q R : E.Pt) : den P Q R = (1 + mix (P + Q) R) * ((1 + mix P Q) * (1 - mix P Q)) := by
  rw [den, ← mix_add]
  ring

theorem den_ne (P Q R : E.Pt) : den P Q R ≠ 0 := by
  rw [den_eq]
  exact mul_ne_zero (one_add_mix _ _) (mul_ne_zero (one_add_mix _ _) (one_sub_mix _ _))

theorem x_add_add (P Q R : E.Pt) :
    (P + Q + R).x = (sumX P Q * (1 - mix P Q) * R.y + sumY P Q * (1 + mix P Q) * R.x) / den P Q R := by
  have hp := one_add_mix P Q
  have hm := one_sub_mix P Q
  have h := one_add_mix (P + Q) R
  rw [x_add, den_eq, x_add P Q, y_add P Q, sumX, sumY]
  field_simp

/-- The identity behind associativity: it holds modulo the three equations of the curve. -/
theorem assoc_identity {x₁ y₁ x₂ y₂ x₃ y₃ : K} (h₁ : E.OnCurve x₁ y₁) (h₂ : E.OnCurve x₂ y₂) (h₃ : E.OnCurve x₃ y₃) :
    ((x₁ * y₂ + y₁ * x₂) * (1 - E.d * x₁ * x₂ * y₁ * y₂) * y₃ + (y₁ * y₂ + x₁ * x₂) * (1 + E.d * x₁ * x₂ * y₁ * y₂) * x₃) *
      ((1 + E.d * x₂ * x₃ * y₂ * y₃) * (1 - E.d * x₂ * x₃ * y₂ * y₃) +
        E.d * (x₂ * y₃ + y₂ * x₃) * x₁ * (y₂ * y₃ + x₂ * x₃) * y₁) =
    ((x₂ * y₃ + y₂ * x₃) * (1 - E.d * x₂ * x₃ * y₂ * y₃) * y₁ + (y₂ * y₃ + x₂ * x₃) * (1 + E.d * x₂ * x₃ * y₂ * y₃) * x₁) *
      ((1 + E.d * x₁ * x₂ * y₁ * y₂) * (1 - E.d * x₁ * x₂ * y₁ * y₂) +
        E.d * (x₁ * y₂ + y₁ * x₂) * x₃ * (y₁ * y₂ + x₁ * x₂) * y₃) := by
  unfold OnCurve at h₁ h₂ h₃
  linear_combination
    (E.d * x₂ * y₂) *
      (-E.d * x₁ * x₂ ^ 3 * y₂ ^ 2 * x₃ ^ 2 * y₃ - E.d * x₁ * x₂ ^ 2 * y₂ ^ 3 * x₃ * y₃ ^ 2 + E.d * y₁ * x₂ ^ 3 * y₂
       ^ 2 * x₃ * y₃ ^ 2 + E.d * y₁ * x₂ ^ 2 * y₂ ^ 3 * x₃ ^ 2 * y₃ - x₁ * x₂ ^ 3 * x₃ ^ 2 * y₃ - x₁ * x₂ ^ 2 * y₂ *
       x₃ ^ 3 - x₁ * x₂ ^ 2 * y₂ * x₃ + x₁ * x₂ * y₂ ^ 2 * y₃ ^ 3 - x₁ * x₂ * y₂ ^ 2 * y₃ + x₁ * y₂ ^ 3 * x₃ * y₃ ^
       2 + y₁ * x₂ ^ 3 * x₃ * y₃ ^ 2 + y₁ * x₂ ^ 2 * y₂ * y₃ ^ 3 - y₁ * x₂ ^ 2 * y₂ * y₃ - y₁ * x₂ * y₂ ^ 2 * x₃ ^ 3
       - y₁ * x₂ * y₂ ^ 2 * x₃ - y₁ * y₂ ^ 3 * x₃ ^ 2 * y₃) * h₁ +
    (E.d * x₂ * y₂) *
      (x₁ ^ 3 * x₂ * x₃ ^ 2 * y₃ + x₁ ^ 3 * y₂ * x₃ * y₃ ^ 2 - x₁ ^ 2 * y₁ * x₂ * x₃ ^ 3 - x₁ ^ 2 * y₁ * x₂ * x₃ -
       x₁ ^ 2 * y₁ * y₂ * y₃ ^ 3 + x₁ ^ 2 * y₁ * y₂ * y₃ - x₁ * y₁ ^ 2 * x₂ * y₃ ^ 3 + x₁ * y₁ ^ 2 * x₂ * y₃ - x₁ *
       y₁ ^ 2 * y₂ * x₃ ^ 3 - x₁ * y₁ ^ 2 * y₂ * x₃ + x₁ * x₂ * x₃ ^ 2 * y₃ + x₁ * y₂ * x₃ * y₃ ^ 2 + y₁ ^ 3 * x₂ *
       x₃ * y₃ ^ 2 + y₁ ^ 3 * y₂ * x₃ ^ 2 * y₃ - y₁ * x₂ * x₃ * y₃ ^ 2 - y₁ * y₂ * x₃ ^ 2 * y₃) * h₂ +
    (E.d * x₂ * y₂) *
      (E.d * x₁ ^ 2 * y₁ * x₂ ^ 3 * y₂ ^ 2 * x₃ - E.d * x₁ ^ 2 * y₁ * x₂ ^ 2 * y₂ ^ 3 * y₃ - E.d * x₁ * y₁ ^ 2 * x₂
       ^ 3 * y₂ ^ 2 * y₃ + E.d * x₁ * y₁ ^ 2 * x₂ ^ 2 * y₂ ^ 3 * x₃ + x₁ ^ 3 * x₂ ^ 2 * y₂ * x₃ + x₁ ^ 3 * x₂ * y₂ ^
       2 * y₃ + x₁ ^ 2 * y₁ * x₂ ^ 3 * x₃ + x₁ ^ 2 * y₁ * y₂ ^ 3 * y₃ - x₁ * y₁ ^ 2 * x₂ ^ 3 * y₃ - x₁ * y₁ ^ 2 * y₂
       ^ 3 * x₃ + x₁ * x₂ ^ 2 * y₂ * x₃ + x₁ * x₂ * y₂ ^ 2 * y₃ - y₁ ^ 3 * x₂ ^ 2 * y₂ * y₃ - y₁ ^ 3 * x₂ * y₂ ^ 2 *
       x₃ + y₁ * x₂ ^ 2 * y₂ * y₃ + y₁ * x₂ * y₂ ^ 2 * x₃) * h₃

theorem x_add_assoc (P Q R : E.Pt) : (P + Q + R).x = (P + (Q + R)).x := by
  rw [add_comm' P (Q + R), x_add_add, x_add_add, div_eq_div_iff (den_ne _ _ _) (den_ne _ _ _)]
  exact assoc_identity P.on Q.on R.on

/-- The curve turned by the root of `-1`: the coordinates change places. -/
def turn (P : E.Pt) : E.Pt := ⟨E.root * P.y, E.root * P.x, by
  have h := P.on
  have hr := E.root_sq
  unfold OnCurve at h ⊢
  linear_combination h + (P.x ^ 2 - P.y ^ 2 - E.d * P.x ^ 2 * P.y ^ 2 * (E.root ^ 2 - 1)) * hr⟩

@[simp] theorem x_turn (P : E.Pt) : (turn P).x = E.root * P.y := rfl

@[simp] theorem y_turn (P : E.Pt) : (turn P).y = E.root * P.x := rfl

theorem mix_turn (P Q : E.Pt) : mix P (turn Q) = -mix P Q := by
  have hr := E.root_sq
  rw [mix, mix, x_turn, y_turn]
  linear_combination E.d * P.x * Q.y * P.y * Q.x * hr

theorem add_turn (P Q : E.Pt) : P + turn Q = turn (P + Q) := by
  ext
  · rw [x_add, mix_turn, ← sub_eq_add_neg, x_turn, y_turn, x_turn, y_add]
    ring
  · rw [y_add, mix_turn, sub_neg_eq_add, x_turn, y_turn, y_turn, x_add]
    ring

theorem root_ne : E.root ≠ 0 := fun h => by
  have hr := E.root_sq
  simp [h] at hr

theorem add_assoc' (P Q R : E.Pt) : P + Q + R = P + (Q + R) := by
  ext
  · exact x_add_assoc P Q R
  · -- the second coordinate is the first one of the turned sum
    have h := x_add_assoc P Q (turn R)
    rw [add_turn, add_turn, add_turn] at h
    exact mul_left_cancel₀ root_ne h

instance instAddCommGroup : AddCommGroup E.Pt where
  add_assoc := add_assoc'
  zero_add := zero_add'
  add_zero P := by rw [add_comm', zero_add']
  nsmul := nsmulRec
  zsmul := zsmulRec
  neg_add_cancel := neg_add'
  add_comm := add_comm'

/-! ## Extended coordinates -/

/-- Projective coordinates with the product of the first two as a fourth one. -/
structure Extended (K : Type) where
  x : K
  y : K
  z : K
  t : K

/-- The coordinates of a point. -/
structure Represents (p : Extended K) (P : E.Pt) : Prop where
  z_ne : p.z ≠ 0
  x_eq : p.x = P.x * p.z
  y_eq : p.y = P.y * p.z
  t_eq : p.t * p.z = p.x * p.y

/-- The invariant of the coordinates, without a point. -/
structure Extended.Valid (E : Edwards K) (p : Extended K) : Prop where
  z_ne : p.z ≠ 0
  t_eq : p.t * p.z = p.x * p.y
  on : (p.y ^ 2 - p.x ^ 2) * p.z ^ 2 = p.z ^ 4 + E.d * p.x ^ 2 * p.y ^ 2

theorem Extended.valid_iff {p : Extended K} : p.Valid E ↔ ∃ P : E.Pt, Represents p P := by
  constructor
  · rintro ⟨hz, ht, hon⟩
    have h : E.OnCurve (p.x / p.z) (p.y / p.z) := by
      unfold OnCurve
      field_simp
      linear_combination hon
    exact ⟨⟨p.x / p.z, p.y / p.z, h⟩, hz, (div_mul_cancel₀ _ hz).symm, (div_mul_cancel₀ _ hz).symm, ht⟩
  · rintro ⟨P, hz, hx, hy, ht⟩
    have h := P.on
    unfold OnCurve at h
    refine ⟨hz, ht, ?_⟩
    rw [hx, hy]
    linear_combination p.z ^ 4 * h

/-- Coordinates represent one point only. -/
theorem Represents.unique {p : Extended K} {P Q : E.Pt} (hP : Represents p P) (hQ : Represents p Q) : P = Q := by
  ext
  · exact mul_right_cancel₀ hP.z_ne (hP.x_eq.symm.trans hQ.x_eq)
  · exact mul_right_cancel₀ hP.z_ne (hP.y_eq.symm.trans hQ.y_eq)

/-- Two representations are of one point exactly when the cross products agree. -/
theorem Represents.eq_iff {p q : Extended K} {P Q : E.Pt} (hP : Represents p P) (hQ : Represents q Q) :
    P = Q ↔ p.x * q.z = q.x * p.z ∧ p.y * q.z = q.y * p.z := by
  have hne := mul_ne_zero hP.z_ne hQ.z_ne
  rw [hP.x_eq, hP.y_eq, hQ.x_eq, hQ.y_eq, Pt.ext_iff]
  constructor
  · rintro ⟨hx, hy⟩
    rw [hx, hy]
    constructor <;> ring
  · rintro ⟨hx, hy⟩
    exact ⟨mul_right_cancel₀ hne (by linear_combination hx), mul_right_cancel₀ hne (by linear_combination hy)⟩

namespace Extended

def zero : Extended K := ⟨0, 1, 1, 0⟩

/-- The sum, `d₂` twice the coefficient. -/
def add (d₂ : K) (p q : Extended K) : Extended K :=
  let a := (p.y - p.x) * (q.y - q.x)
  let b := (p.y + p.x) * (q.y + q.x)
  let c := p.t * q.t * d₂
  let d := (p.z + p.z) * q.z
  ⟨(b - a) * (d - c), (d + c) * (b + a), (d - c) * (d + c), (b - a) * (b + a)⟩

def double (p : Extended K) : Extended K :=
  let a := p.x ^ 2
  let b := p.y ^ 2
  let c := p.z ^ 2 + p.z ^ 2
  let e := (p.x + p.y) ^ 2 - a - b
  ⟨e * (-a + b - c), (-a + b) * (-a - b), (-a + b - c) * (-a + b), e * (-a - b)⟩

end Extended

theorem represents_zero : Represents Extended.zero (0 : E.Pt) :=
  ⟨one_ne_zero, by simp [Extended.zero], by simp [Extended.zero], by simp [Extended.zero]⟩

/-- Four products of numerators and denominators represent the quotients. -/
theorem represents_of_quotients {P : E.Pt} {e f g h : K} (hf : f ≠ 0) (hg : g ≠ 0) (hx : P.x * g = e) (hy : P.y * f = h) :
    Represents ⟨e * f, g * h, f * g, e * h⟩ P :=
  ⟨mul_ne_zero hf hg, by rw [← hx]; ring, by rw [← hy]; ring, by ring⟩

theorem x_add_mul (P Q : E.Pt) : (P + Q).x * (1 + mix P Q) = P.x * Q.y + P.y * Q.x :=
  div_mul_cancel₀ _ (one_add_mix P Q)

theorem y_add_mul (P Q : E.Pt) : (P + Q).y * (1 - mix P Q) = P.y * Q.y + P.x * Q.x :=
  div_mul_cancel₀ _ (one_sub_mix P Q)

theorem Represents.add {p q : Extended K} {P Q : E.Pt} (hP : Represents p P) (hQ : Represents q Q) :
    Represents (Extended.add (2 * E.d) p q) (P + Q) := by
  have hs := mul_ne_zero E.two_ne (mul_ne_zero hP.z_ne hQ.z_ne)
  have htP : p.t = P.x * P.y * p.z := mul_right_cancel₀ hP.z_ne (by rw [hP.t_eq, hP.x_eq, hP.y_eq]; ring)
  have htQ : q.t = Q.x * Q.y * q.z := mul_right_cancel₀ hQ.z_ne (by rw [hQ.t_eq, hQ.x_eq, hQ.y_eq]; ring)
  have hf : (p.z + p.z) * q.z - p.t * q.t * (2 * E.d) = 2 * (p.z * q.z) * (1 - mix P Q) := by
    rw [htP, htQ, mix]; ring
  have hg : (p.z + p.z) * q.z + p.t * q.t * (2 * E.d) = 2 * (p.z * q.z) * (1 + mix P Q) := by
    rw [htP, htQ, mix]; ring
  refine represents_of_quotients ?_ ?_ ?_ ?_
  · rw [hf]
    exact mul_ne_zero hs (one_sub_mix P Q)
  · rw [hg]
    exact mul_ne_zero hs (one_add_mix P Q)
  · rw [hg, hP.x_eq, hP.y_eq, hQ.x_eq, hQ.y_eq]
    linear_combination 2 * (p.z * q.z) * x_add_mul P Q
  · rw [hf, hP.x_eq, hP.y_eq, hQ.x_eq, hQ.y_eq]
    linear_combination 2 * (p.z * q.z) * y_add_mul P Q

theorem Represents.double {p : Extended K} {P : E.Pt} (hP : Represents p P) :
    Represents p.double (P + P) := by
  have hs : p.z ^ 2 ≠ 0 := pow_ne_zero 2 hP.z_ne
  have hon := P.on
  unfold OnCurve at hon
  have hg : -p.x ^ 2 + p.y ^ 2 = p.z ^ 2 * (1 + mix P P) := by
    rw [hP.x_eq, hP.y_eq, mix]
    linear_combination p.z ^ 2 * hon
  have hf : -p.x ^ 2 + p.y ^ 2 - (p.z ^ 2 + p.z ^ 2) = -p.z ^ 2 * (1 - mix P P) := by
    rw [hg]
    ring
  refine represents_of_quotients ?_ ?_ ?_ ?_
  · rw [hf]
    exact mul_ne_zero (neg_ne_zero.2 hs) (one_sub_mix P P)
  · rw [hg]
    exact mul_ne_zero hs (one_add_mix P P)
  · rw [hg, hP.x_eq, hP.y_eq]
    linear_combination p.z ^ 2 * x_add_mul P P
  · rw [hf, hP.x_eq, hP.y_eq]
    linear_combination -p.z ^ 2 * y_add_mul P P

/-! ## Multiples -/

/-- A multiple by doubling and adding, the factor given by its number of bits. -/
def Extended.multiple (d₂ : K) (base : Extended K) : ℕ → ℕ → Extended K
  | 0, _ => Extended.zero
  | bits + 1, n =>
    if n % 2 = 1 then (multiple d₂ base bits (n / 2)).double.add d₂ base else (multiple d₂ base bits (n / 2)).double

theorem Represents.multiple {p : Extended K} {P : E.Pt} (hP : Represents p P) :
    ∀ {bits n : ℕ}, n < 2 ^ bits → Represents (Extended.multiple (2 * E.d) p bits n) (n • P)
  | 0, n, h => by
    have hn : n = 0 := by simpa using h
    rw [hn, zero_nsmul]
    exact represents_zero
  | bits + 1, n, h => by
    have ih := hP.multiple (show n / 2 < 2 ^ bits by rw [pow_succ] at h; omega)
    have htwice : Represents (Extended.multiple (2 * E.d) p bits (n / 2)).double ((2 * (n / 2)) • P) := by
      rw [mul_nsmul', two_nsmul]
      exact ih.double
    rw [Extended.multiple]
    split
    next hodd =>
      have hn : n • P = (2 * (n / 2)) • P + P := by
        rw [← succ_nsmul]
        congr 1
        omega
      rw [hn]
      exact htwice.add hP
    next heven =>
      have hn : 2 * (n / 2) = n := by omega
      rwa [hn] at htwice

end Edwards

end Wnc.Lib
