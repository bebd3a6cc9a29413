/-
The group of edwards25519. Points in extended coordinates denote points of the affine curve, additions and doublings denote
sums, and the windowed multiplication denotes a multiple.
-/
import Wnc.Ed25519.Field
import Wnc.Lib.Edwards
import Mathlib.NumberTheory.LegendreSymbol.Basic

namespace Wnc.Ed25519

open Lib

/-! ## The curve -/

theorem canonical_kD : Canonical kD := ⟨rfl, by decide⟩

theorem canonical_kD2 : Canonical kD2 := ⟨rfl, by decide⟩

theorem canonical_kSqrtM1 : Canonical kSqrtM1 := ⟨rfl, by decide⟩

/-- The coefficient is `-121665 / 121666`. -/
theorem toField_kD : toField kD * 121666 = -121665 := by
  have h : ((limbsValue kD * 121666 + 121665 : ℕ) : ZMod fieldPrime) = 0 :=
    (ZMod.natCast_eq_zero_iff _ _).2 (Nat.dvd_of_mod_eq_zero rfl)
  push_cast at h
  exact eq_neg_of_add_eq_zero_left h

theorem toField_kD2 : toField kD2 = 2 * toField kD := by
  rw [toField_of_mod (show limbsValue kD2 = (2 * limbsValue kD) % fieldPrime from rfl), Nat.cast_mul]
  rfl

theorem toField_kSqrtM1 : toField kSqrtM1 ^ 2 = -1 := by
  have h : ((limbsValue kSqrtM1 ^ 2 + 1 : ℕ) : ZMod fieldPrime) = 0 :=
    (ZMod.natCast_eq_zero_iff _ _).2 (Nat.dvd_of_mod_eq_zero rfl)
  push_cast at h
  exact eq_neg_of_add_eq_zero_left h

theorem two_lt_fieldPrime : 2 < fieldPrime := by decide

theorem two_ne_zero_field : (2 : ZMod fieldPrime) ≠ 0 := fun h => by
  have hdvd := (ZMod.natCast_eq_zero_iff 2 fieldPrime).1 (by exact_mod_cast h)
  exact absurd (Nat.le_of_dvd (by decide) hdvd) (not_le.2 two_lt_fieldPrime)

/-- Euler's criterion, evaluated. -/
theorem nonsquare_kD : ¬ IsSquare (toField kD) := by
  have hsize : fieldPrime / 2 < 2 ^ 255 := by decide
  have hpow : powMod fieldPrime (limbsValue kD) 255 (fieldPrime / 2) ≠ 1 := by decide +kernel
  intro hsquare
  -- of a square the power by half of `p - 1` would be one
  have hone := (ZMod.euler_criterion fieldPrime fun h => ?_).1 hsquare
  · rw [toField, ← cast_powMod hsize, cast_eq_one_iff prime_fieldPrime.one_lt
      (powMod_lt prime_fieldPrime.pos ..)] at hone
    exact hpow hone
  · have hzero := canonical_kD.eq canonical_kZero (by rw [← canonical_kD.val, h, ZMod.val_zero]; rfl)
    exact absurd hzero (by decide)

def edwards25519 : Edwards (ZMod fieldPrime) where
  d := toField kD
  root := toField kSqrtM1
  two_ne := two_ne_zero_field
  root_sq := toField_kSqrtM1
  nonsquare := nonsquare_kD

/-! ## Extended coordinates -/

/-- The field elements that the coordinates stand for. -/
def Point.coordinates (p : Point) : Edwards.Extended (ZMod fieldPrime) :=
  ⟨toField p.x, toField p.y, toField p.z, toField p.t⟩

structure Point.IsCanonical (p : Point) : Prop where
  x : Canonical p.x
  y : Canonical p.y
  z : Canonical p.z
  t : Canonical p.t

/-- The invariant of extended coordinates: the third one is not zero, the fourth one is the product of the first two over
it, and the quotients lie on the curve. -/
structure Point.Valid (p : Point) : Prop where
  canonical : p.IsCanonical
  extended : p.coordinates.Valid edwards25519

/-- The coordinates are those of an affine point. -/
structure Denotes (p : Point) (P : edwards25519.Pt) : Prop where
  canonical : p.IsCanonical
  represents : Edwards.Represents p.coordinates P

theorem Point.valid_iff {p : Point} : p.Valid ↔ ∃ P, Denotes p P := by
  constructor
  · rintro ⟨hcanonical, hextended⟩
    obtain ⟨P, hP⟩ := Edwards.Extended.valid_iff.1 hextended
    exact ⟨P, hcanonical, hP⟩
  · rintro ⟨P, hcanonical, hP⟩
    exact ⟨hcanonical, Edwards.Extended.valid_iff.2 ⟨P, hP⟩⟩

theorem Denotes.unique {p : Point} {P Q : edwards25519.Pt} (hP : Denotes p P) (hQ : Denotes p Q) : P = Q :=
  hP.represents.unique hQ.represents

theorem denotes_pointIdentity : Denotes pointIdentity 0 := by
  refine ⟨⟨canonical_kZero, canonical_kOne, canonical_kOne, canonical_kZero⟩, ?_⟩
  rw [Point.coordinates, pointIdentity, standsFor_kOne.value, standsFor_kZero.value]
  exact Edwards.represents_zero

/-- Sums and doublings end in the same four products. -/
theorem coordinates_products {e f g h : Fe} {e' f' g' h' : ZMod fieldPrime} (he : StandsFor e e') (hf : StandsFor f f')
    (hg : StandsFor g g') (hh : StandsFor h h') :
    Point.IsCanonical ⟨feMul e f, feMul g h, feMul f g, feMul e h⟩ ∧
      Point.coordinates ⟨feMul e f, feMul g h, feMul f g, feMul e h⟩ = ⟨e' * f', g' * h', f' * g', e' * h'⟩ := by
  have hx := he.mul hf
  have hy := hg.mul hh
  have hz := hf.mul hg
  have ht := he.mul hh
  refine ⟨⟨hx.canonical, hy.canonical, hz.canonical, ht.canonical⟩, ?_⟩
  rw [Point.coordinates, hx.value, hy.value, hz.value, ht.value]

theorem standsFor_kD2 : StandsFor kD2 (2 * edwards25519.d) := ⟨canonical_kD2, toField_kD2⟩

/-- The coordinates of a sum are computed by the formula of the curve. -/
theorem pointAdd_coordinates {p q : Point} (hp : p.IsCanonical) (hq : q.IsCanonical) : (pointAdd p q).IsCanonical ∧
    (pointAdd p q).coordinates = Edwards.Extended.add (2 * edwards25519.d) p.coordinates q.coordinates := by
  have ha := (hp.y.standsFor.sub hp.x.standsFor).mul (hq.y.standsFor.sub hq.x.standsFor)
  have hb := (hp.y.standsFor.add hp.x.standsFor).mul (hq.y.standsFor.add hq.x.standsFor)
  have hc := (hp.t.standsFor.mul hq.t.standsFor).mul standsFor_kD2
  have hd := (hp.z.standsFor.add hp.z.standsFor).mul hq.z.standsFor
  exact coordinates_products (hb.sub ha) (hd.sub hc) (hd.add hc) (hb.add ha)

theorem pointDouble_coordinates {p : Point} (hp : p.IsCanonical) :
    (pointDouble p).IsCanonical ∧ (pointDouble p).coordinates = p.coordinates.double := by
  have ha := hp.x.standsFor.sqr
  have hb := hp.y.standsFor.sqr
  have hc := hp.z.standsFor.sqr.add hp.z.standsFor.sqr
  have hd := ha.neg
  have he := ((hp.x.standsFor.add hp.y.standsFor).sqr.sub ha).sub hb
  have hg := hd.add hb
  exact coordinates_products he (hg.sub hc) hg (hd.sub hb)

theorem Denotes.add {p q : Point} {P Q : edwards25519.Pt} (hp : Denotes p P) (hq : Denotes q Q) :
    Denotes (pointAdd p q) (P + Q) := by
  obtain ⟨hcanonical, hcoordinates⟩ := pointAdd_coordinates hp.canonical hq.canonical
  refine ⟨hcanonical, ?_⟩
  rw [hcoordinates]
  exact hp.represents.add hq.represents

theorem Denotes.double {p : Point} {P : edwards25519.Pt} (hp : Denotes p P) : Denotes (pointDouble p) (2 • P) := by
  obtain ⟨hcanonical, hcoordinates⟩ := pointDouble_coordinates hp.canonical
  refine ⟨hcanonical, ?_⟩
  rw [hcoordinates, two_nsmul]
  exact hp.represents.double

/-! ## Multiples -/

theorem smallMultiples_succ (base : Point) (n : Nat) : smallMultiples base (n + 3) =
    smallMultiples base (n + 2) ++ [if (n + 2) % 2 = 0 then
        pointDouble ((smallMultiples base (n + 2)).getD ((n + 2) / 2) pointIdentity)
      else pointAdd ((smallMultiples base (n + 2)).getD (n + 1) pointIdentity) base] := rfl

/-- Every entry of the table denotes the multiple by its place. -/
theorem Denotes.smallMultiples {p : Point} {P : edwards25519.Pt} (hp : Denotes p P) :
    ∀ n, (smallMultiples p n).length = n ∧ ∀ i < n, Denotes ((smallMultiples p n).getD i pointIdentity) (i • P)
  | 0 => ⟨rfl, fun i hi => absurd hi (Nat.not_lt_zero i)⟩
  | 1 => by
    refine ⟨rfl, fun i hi => ?_⟩
    obtain rfl : i = 0 := by omega
    rw [zero_nsmul]
    exact denotes_pointIdentity
  | 2 => by
    refine ⟨rfl, fun i hi => ?_⟩
    obtain rfl | rfl : i = 0 ∨ i = 1 := by omega
    · rw [zero_nsmul]
      exact denotes_pointIdentity
    · rw [one_nsmul]
      exact hp
  | n + 3 => by
    obtain ⟨hlength, hentries⟩ := hp.smallMultiples (n + 2)
    rw [smallMultiples_succ]
    refine ⟨by rw [List.length_append, hlength]; rfl, fun i hi => ?_⟩
    rcases Nat.lt_or_ge i (n + 2) with hlt | hge
    · rw [List.getD_append _ _ _ _ (by omega)]
      exact hentries i hlt
    · -- the new entry
      obtain rfl : i = n + 2 := by omega
      rw [List.getD_append_right _ _ _ _ (by omega), hlength, Nat.sub_self, List.getD_cons_zero]
      split
      next heven =>
        -- an even entry doubles the one in the middle
        have htwice := (hentries ((n + 2) / 2) (by omega)).double
        rwa [← mul_nsmul', show 2 * ((n + 2) / 2) = n + 2 by omega] at htwice
      next hodd =>
        rw [succ_nsmul]
        exact (hentries (n + 1) (by omega)).add hp

/-- One digit: the result is shifted by four doublings and the multiple of the digit added. -/
theorem Denotes.addWindow {p acc : Point} {P : edwards25519.Pt} {n digit : Nat} (hp : Denotes p P) (hdigit : digit < 16)
    (hacc : Denotes acc (n • P)) : Denotes (addWindow (pointSmallMultiples p) acc digit) ((n + digit) • P) := by
  unfold Ed25519.addWindow
  split
  next hne =>
    rw [add_nsmul]
    exact hacc.add ((hp.smallMultiples 16).2 digit hdigit)
  next heq =>
    obtain rfl : digit = 0 := not_not.1 heq
    exact hacc

theorem Denotes.shiftWindow {acc : Point} {P : edwards25519.Pt} {n : Nat} (hacc : Denotes acc (n • P)) :
    Denotes (pointDouble (pointDouble (pointDouble (pointDouble acc)))) ((16 * n) • P) := by
  have h := hacc.double.double.double.double
  rwa [← mul_nsmul', ← mul_nsmul', ← mul_nsmul', ← mul_nsmul'] at h

/-- The number that four-bit digits spell behind another, most significant first. -/
def spelledDigits (n : Nat) (digits : List Nat) : Nat := digits.foldl (fun n digit => 16 * n + digit) n

/-- After any digits the result is the multiple by the number they spell. -/
theorem Denotes.foldl {p : Point} {P : edwards25519.Pt} (hp : Denotes p P) {digits : List Nat} :
    ∀ {acc : Point} {n : Nat}, (∀ d ∈ digits, d < 16) → Denotes acc (n • P) →
      Denotes (digits.foldl (fun result digit => Ed25519.addWindow (pointSmallMultiples p)
        (pointDouble (pointDouble (pointDouble (pointDouble result)))) digit) acc) (spelledDigits n digits • P) := by
  induction digits with
  | nil => exact fun _ hacc => hacc
  | cons digit digits ih =>
    intro acc n hdigits hacc
    obtain ⟨hdigit, hdigits⟩ := List.forall_mem_cons.1 hdigits
    exact ih hdigits (hp.addWindow hdigit hacc.shiftWindow)

theorem windows_lt (bytes : Bytes) : ∀ d ∈ windows bytes, d < 16 := by
  intro d hd
  obtain ⟨b, -, hmem⟩ := List.mem_flatMap.1 hd
  have hb := b.toNat_lt
  rcases List.mem_cons.1 hmem with rfl | hmem
  · omega
  · rw [List.mem_singleton.1 hmem]
    omega

/-- The digits of a byte string spell the number it denotes. -/
theorem spelledDigits_windows : ∀ bytes : Bytes, spelledDigits 0 (windows bytes) = readLe bytes
  | [] => rfl
  | b :: bytes => by
    have ih := spelledDigits_windows bytes
    unfold windows spelledDigits at ih ⊢
    rw [List.reverse_cons, List.flatMap_append, List.foldl_append, ih, readLe]
    simp only [List.flatMap_cons, List.flatMap_nil, List.append_nil, List.foldl_cons, List.foldl_nil]
    omega

theorem Denotes.pointWindowMul {p : Point} {P : edwards25519.Pt} (hp : Denotes p P) (k : Scalar) :
    Denotes (pointWindowMul k (pointSmallMultiples p)) (limbsValue k • P) := by
  have hspelled := spelledDigits_windows (bytesOfLimbs k)
  have hlt := windows_lt (bytesOfLimbs k)
  rw [readLe_bytesOfLimbs] at hspelled
  unfold Ed25519.pointWindowMul
  generalize windows (bytesOfLimbs k) = digits at hspelled hlt
  cases digits with
  | nil =>
    rw [← hspelled, spelledDigits, List.foldl_nil, zero_nsmul]
    exact denotes_pointIdentity
  | cons first rest =>
    -- the first digit is added to the identity, which no doubling would change
    obtain ⟨hfirst, hrest⟩ := List.forall_mem_cons.1 hlt
    have hstart := hp.addWindow (n := 0) hfirst (by rw [zero_nsmul]; exact denotes_pointIdentity)
    rw [← hspelled]
    exact hp.foldl hrest hstart

/-- The windowed multiplication denotes the multiple, and sums and doublings keep the invariant and denote sums. -/
theorem window_exact (k : Scalar) {p q : Point} (hp : p.Valid) (hq : q.Valid) :
    (∃ P, Denotes p P) ∧
    (∀ P, Denotes p P → Denotes (pointWindowMul k (pointSmallMultiples p)) (limbsValue k • P)) ∧
    (pointAdd p q).Valid ∧ (pointDouble p).Valid ∧
    ∀ P Q, Denotes p P → Denotes q Q → Denotes (pointAdd p q) (P + Q) ∧ Denotes (pointDouble p) (P + P) := by
  obtain ⟨P, hP⟩ := Point.valid_iff.1 hp
  obtain ⟨Q, hQ⟩ := Point.valid_iff.1 hq
  refine ⟨⟨P, hP⟩, fun P hP => hP.pointWindowMul k, Point.valid_iff.2 ⟨_, hP.add hQ⟩, Point.valid_iff.2 ⟨_, hP.double⟩,
    fun P Q hP hQ => ⟨hP.add hQ, ?_⟩⟩
  rw [← two_nsmul]
  exact hP.double

/-- The point of order two. -/
theorem valid_minus : Point.Valid ⟨kZero, feNeg kOne, kOne, kZero⟩ := by
  refine ⟨⟨canonical_kZero, standsFor_kOne.neg.canonical, canonical_kOne, canonical_kZero⟩, ?_⟩
  rw [Point.coordinates, standsFor_kOne.neg.value, standsFor_kOne.value, standsFor_kZero.value]
  constructor <;> simp

/-- Three times the point of order two. -/
theorem window_exact_minus : ∃ P, Denotes ⟨kZero, feNeg kOne, kOne, kZero⟩ P ∧
    Denotes (pointWindowMul [3, 0, 0, 0, 0, 0, 0, 0] (pointSmallMultiples ⟨kZero, feNeg kOne, kOne, kZero⟩)) (3 • P) := by
  obtain ⟨⟨P, hP⟩, hmul, -⟩ := window_exact [3, 0, 0, 0, 0, 0, 0, 0] valid_minus valid_minus
  exact ⟨P, hP, hmul P hP⟩

end Wnc.Ed25519
