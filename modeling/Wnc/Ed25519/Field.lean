/-
Field arithmetic. A field element is canonical when its eight limbs stand for a number below the prime; every operation
takes canonical elements to the canonical element of the exact result, and no accumulator leaves 64 bits on the way.
-/
import Wnc.Ed25519.Limbs
import Wnc.Ed25519.Primes
import Mathlib.FieldTheory.Finite.Basic

namespace Wnc.Ed25519

/-- Eight limbs of a number below the prime. -/
structure Canonical (a : Fe) : Prop where
  length : a.length = 8
  below : limbsValue a < fieldPrime

theorem Canonical.eq {a b : Fe} (ha : Canonical a) (hb : Canonical b) (h : limbsValue a = limbsValue b) : a = b :=
  limbsValue_injective (ha.length.trans hb.length.symm) h

theorem length_kP : kP.length = 8 := rfl

theorem limbsValue_kP : limbsValue kP = fieldPrime := rfl

theorem two_pow_eq : 2 ^ (32 * 8) = 2 * fieldPrime + 38 := rfl

/-! ## Reduction -/

theorem zipWith_snd : ∀ {a b : Limbs}, a.length = b.length → List.zipWith (fun _ r => r) a b = b
  | [], [], _ => rfl
  | _ :: _, _ :: _, h => congrArg (List.cons _) (zipWith_snd (Nat.succ.inj h))

theorem zipWith_fst : ∀ {a b : Limbs}, a.length = b.length → List.zipWith (fun x _ => x) a b = a
  | [], [], _ => rfl
  | _ :: _, _ :: _, h => congrArg (List.cons _) (zipWith_fst (Nat.succ.inj h))

/-- The mask takes the difference exactly when nothing was borrowed. -/
theorem feConditionalSubtractP_eq {a : Fe} (ha : a.length = 8) :
    feConditionalSubtractP a = if fieldPrime ≤ limbsValue a then (borrowChain a kP 0).1 else a := by
  have hlength : a.length = kP.length := ha
  have hreduced : (borrowChain a kP 0).1.length = a.length := length_borrowChain hlength
  by_cases h : fieldPrime ≤ limbsValue a
  · have hborrow := (borrowChain_of_le hlength (by rwa [limbsValue_kP])).2
    have hmask : (0 : UInt32) - (1 - (0 : UInt64).toUInt32) = -1 := by decide
    rw [if_pos h]
    simp only [feConditionalSubtractP, hborrow, hmask, UInt32.not_neg_one, UInt32.and_zero, UInt32.and_neg_one,
      UInt32.zero_or]
    exact zipWith_snd hreduced.symm
  · have hborrow := (borrowChain_of_lt hlength (by rw [limbsValue_kP]; omega)).2
    have hmask : (0 : UInt32) - (1 - (1 : UInt64).toUInt32) = 0 := by decide
    rw [if_neg h]
    simp only [feConditionalSubtractP, hborrow, hmask, UInt32.not_zero, UInt32.and_zero, UInt32.and_neg_one,
      UInt32.or_zero]
    exact zipWith_fst hreduced.symm

theorem length_feConditionalSubtractP {a : Fe} (ha : a.length = 8) : (feConditionalSubtractP a).length = 8 := by
  rw [feConditionalSubtractP_eq ha]
  split
  · rw [length_borrowChain (by exact ha), ha]
  · exact ha

theorem limbsValue_feConditionalSubtractP {a : Fe} (ha : a.length = 8) : limbsValue (feConditionalSubtractP a) =
    if fieldPrime ≤ limbsValue a then limbsValue a - fieldPrime else limbsValue a := by
  rw [feConditionalSubtractP_eq ha]
  split
  next h => rw [(borrowChain_of_le (by exact ha) (by rwa [limbsValue_kP])).1, limbsValue_kP]
  next h => rfl

theorem feBelowP_iff {a : Fe} (ha : a.length = 8) : feBelowP a = true ↔ limbsValue a < fieldPrime := by
  unfold feBelowP
  by_cases h : limbsValue a < fieldPrime
  · rw [(borrowChain_of_lt (by exact ha) (by rwa [limbsValue_kP])).2]
    exact iff_of_true (by decide) h
  · rw [(borrowChain_of_le (by exact ha) (by rw [limbsValue_kP]; omega)).2]
    exact iff_of_false (by decide) h

/-! ## Sums and differences -/

theorem feAdd_value {a b : Fe} (ha : Canonical a) (hb : Canonical b) :
    Canonical (feAdd a b) ∧ limbsValue (feAdd a b) = (limbsValue a + limbsValue b) % fieldPrime := by
  have hlength := ha.length.trans hb.length.symm
  have hbelow := ha.below
  have hbelow' := hb.below
  have hp := two_pow_eq
  have hsum : limbsValue (carryChain a b 0).1 = limbsValue a + limbsValue b :=
    carryChain_of_lt hlength (by rw [ha.length]; omega)
  have hlen : (carryChain a b 0).1.length = 8 := (length_carryChain hlength).trans ha.length
  have hvalue : limbsValue (feAdd a b) = (limbsValue a + limbsValue b) % fieldPrime := by
    rw [feAdd, limbsValue_feConditionalSubtractP hlen, hsum]
    split
    next h => rw [Nat.mod_eq_sub_mod h, Nat.mod_eq_of_lt (by omega)]
    next h => rw [Nat.mod_eq_of_lt (by omega)]
  refine ⟨⟨length_feConditionalSubtractP hlen, ?_⟩, hvalue⟩
  rw [hvalue]
  exact Nat.mod_lt _ prime_fieldPrime.pos

theorem feSub_value {a b : Fe} (ha : Canonical a) (hb : Canonical b) :
    Canonical (feSub a b) ∧ limbsValue (feSub a b) = (limbsValue a + (fieldPrime - limbsValue b)) % fieldPrime := by
  have hlength := ha.length.trans hb.length.symm
  have hbelow := ha.below
  have hbelow' := hb.below
  have hp := two_pow_eq
  have hout : (borrowChain a b 0).1.length = 8 := (length_borrowChain hlength).trans ha.length
  have hcases : (feSub a b).length = 8 ∧
      limbsValue (feSub a b) = (limbsValue a + (fieldPrime - limbsValue b)) % fieldPrime := by
    unfold feSub
    rcases Nat.lt_or_ge (limbsValue a) (limbsValue b) with hlt | hle
    · -- the prime that is added back carries the borrowed power of the base out again
      obtain ⟨hvalue, hborrow⟩ := borrowChain_of_lt hlength hlt
      rw [ha.length] at hvalue
      simp only [hborrow]
      rw [if_pos (by decide)]
      refine ⟨(length_carryChain (by exact hout)).trans hout, ?_⟩
      rw [carryChain_mod (by exact hout), hvalue, hout, limbsValue_kP, Nat.mod_eq_of_lt (by omega : _ < fieldPrime)]
      omega
    · obtain ⟨hvalue, hborrow⟩ := borrowChain_of_le hlength hle
      simp only [hborrow]
      rw [if_neg (by decide)]
      refine ⟨hout, ?_⟩
      rw [hvalue, Nat.mod_eq_sub_mod (by omega), Nat.mod_eq_of_lt (by omega)]
      omega
  refine ⟨⟨hcases.1, ?_⟩, hcases.2⟩
  rw [hcases.2]
  exact Nat.mod_lt _ prime_fieldPrime.pos

theorem canonical_kZero : Canonical kZero := ⟨rfl, prime_fieldPrime.pos⟩

theorem limbsValue_kZero : limbsValue kZero = 0 := rfl

theorem canonical_kOne : Canonical kOne := ⟨rfl, prime_fieldPrime.one_lt⟩

theorem limbsValue_kOne : limbsValue kOne = 1 := rfl

/-! ## Products -/

/-- The sums of the first fold, exactly: the upper limbs come in again, 38 times. -/
def foldSums (low high : List UInt64) : List Nat := List.zipWith (fun low high => low.toNat + 38 * high.toNat) low high

theorem fold_step {low high : UInt64} (hlow : low.toNat < 2 ^ 32) (hhigh : high.toNat < 2 ^ 32) :
    (low + 38 * high).toNat = low.toNat + 38 * high.toNat := by
  have h38 : (38 : UInt64).toNat = 38 := rfl
  rw [UInt64.toNat_add, UInt64.toNat_mul, h38]
  omega

theorem fold_value : ∀ {low high : List UInt64}, low.length = high.length → Narrow low → Narrow high →
    (List.zipWith (fun low high => low + 38 * high) low high).length = low.length ∧
      (∀ w ∈ List.zipWith (fun low high => low + 38 * high) low high, w.toNat < 2 ^ 63) ∧
      wideValue (List.zipWith (fun low high => low + 38 * high) low high) = wideValue low + 38 * wideValue high ∧
      ∀ s ∈ foldSums low high, s < 2 ^ 64
  | [], [], _, _, _ => ⟨rfl, List.forall_mem_nil _, rfl, List.forall_mem_nil _⟩
  | x :: low, y :: high, hlength, hlow, hhigh => by
    obtain ⟨hx, hlow⟩ := narrow_cons.1 hlow
    obtain ⟨hy, hhigh⟩ := narrow_cons.1 hhigh
    obtain ⟨hlen, hbound, hvalue, hsums⟩ := fold_value (Nat.succ.inj hlength) hlow hhigh
    have hstep := fold_step hx hy
    have hfits : x.toNat + 38 * y.toNat < 2 ^ 63 := by omega
    refine ⟨congrArg Nat.succ hlen, List.forall_mem_cons.2 ⟨hstep.trans_lt hfits, hbound⟩, ?_,
      List.forall_mem_cons.2 ⟨hfits.trans (by decide), hsums⟩⟩
    rw [List.zipWith_cons_cons, wideValue_cons, wideValue_cons, wideValue_cons, hstep, hvalue]
    ring

/-- A product with its upper half folded into its lower one: eight limbs and what is carried out of them. -/
def foldedOnce (a b : Fe) : List UInt64 × UInt64 :=
  normalize (List.zipWith (fun low high => low + 38 * high) ((schoolbook a b).take 8) ((schoolbook a b).drop 8)) 0

/-- The carry folded in as well. -/
def foldedTwice (a b : Fe) : List UInt64 × UInt64 :=
  normalize (addFirst (38 * (foldedOnce a b).2) (foldedOnce a b).1) 0

theorem feMul_eq (a b : Fe) : feMul a b = feConditionalSubtractP (feConditionalSubtractP
    ((addFirst (38 * (foldedTwice a b).2) (foldedTwice a b).1).map fun x => (x &&& 0xFFFFFFFF).toUInt32)) := rfl

/-- The sums of a product, exactly. -/
def feMulSums (a b : Fe) : List Nat :=
  let low := (schoolbook a b).take 8
  let high := (schoolbook a b).drop 8
  schoolbookSums a b ++ foldSums low high ++
    normalizeSums (List.zipWith (fun low high => low + 38 * high) low high) 0 ++
    firstSum 38 (foldedOnce a b).2 (foldedOnce a b).1 ++
    normalizeSums (addFirst (38 * (foldedOnce a b).2) (foldedOnce a b).1) 0 ++
    firstSum 38 (foldedTwice a b).2 (foldedTwice a b).1

/-- What is carried out of the eight limbs of an accumulator comes in again, 38 times. -/
theorem carry_again {ws : List UInt64} {carry : UInt64} (hlength : ws.length = 8) (hnarrow : Narrow ws)
    (hcarry : carry.toNat ≤ 38) :
    (addFirst (38 * carry) ws).length = 8 ∧ (∀ w ∈ addFirst (38 * carry) ws, w.toNat < 2 ^ 63) ∧
      wideValue (addFirst (38 * carry) ws) = wideValue ws + 38 * carry.toNat ∧
      (∀ s ∈ firstSum 38 carry ws, s < 2 ^ 64) ∧
      (wideValue ws + 38 * carry.toNat < 2 ^ 32 ∨ carry.toNat = 0 → Narrow (addFirst (38 * carry) ws)) := by
  obtain ⟨w, ws, rfl⟩ := List.exists_cons_of_length_eq_add_one hlength
  obtain ⟨hw, hws⟩ := narrow_cons.1 hnarrow
  have hproduct : (38 * carry).toNat = 38 * carry.toNat := by
    have h38 : (38 : UInt64).toNat = 38 := rfl
    rw [UInt64.toNat_mul, h38]
    omega
  have hsum : (w + 38 * carry).toNat = w.toNat + 38 * carry.toNat := by
    rw [UInt64.toNat_add, hproduct]
    omega
  refine ⟨hlength, List.forall_mem_cons.2 ⟨by omega, fun v hv => (hws v hv).trans (by decide)⟩, ?_,
    List.forall_mem_singleton.2 (by omega), fun h => narrow_cons.2 ⟨?_, hws⟩⟩
  · rw [addFirst_value ws (by omega), hproduct]
  · rw [hsum]
    rw [wideValue_cons] at h
    omega

/-- Two subtractions are enough below `2 ^ 256`. -/
theorem reduce_twice {a : Fe} (ha : a.length = 8) :
    Canonical (feConditionalSubtractP (feConditionalSubtractP a)) ∧
      limbsValue (feConditionalSubtractP (feConditionalSubtractP a)) = limbsValue a % fieldPrime := by
  have hlen := length_feConditionalSubtractP ha
  have hlt := limbsValue_lt a
  have hp := two_pow_eq
  have hlarge : 38 < fieldPrime := by decide
  rw [ha, hp] at hlt
  have hvalue : limbsValue (feConditionalSubtractP (feConditionalSubtractP a)) = limbsValue a % fieldPrime := by
    rw [limbsValue_feConditionalSubtractP hlen, limbsValue_feConditionalSubtractP ha]
    rcases Nat.lt_or_ge (limbsValue a) fieldPrime with h | h
    · rw [if_neg (not_le.2 h), if_neg (not_le.2 h), Nat.mod_eq_of_lt h]
    · rw [if_pos h, Nat.mod_eq_sub_mod h]
      rcases Nat.lt_or_ge (limbsValue a - fieldPrime) fieldPrime with h' | h'
      · rw [if_neg (not_le.2 h'), Nat.mod_eq_of_lt h']
      · rw [if_pos h', Nat.mod_eq_sub_mod h', Nat.mod_eq_of_lt (by omega)]
  refine ⟨⟨length_feConditionalSubtractP hlen, ?_⟩, hvalue⟩
  rw [hvalue]
  exact Nat.mod_lt _ prime_fieldPrime.pos

theorem map_low {ws : List UInt64} (h : Narrow ws) :
    (ws.map fun x => (x &&& 0xFFFFFFFF).toUInt32) = ws.map UInt64.toUInt32 := by
  refine List.map_congr_left fun w hw => ?_
  have hlow := toNat_low w
  rw [Nat.mod_eq_of_lt (h w hw)] at hlow
  rw [UInt64.toNat_inj.1 hlow]

/-- The first fold changes the value by a multiple of the prime and leaves at most 38 to carry. -/
theorem foldedOnce_value {a b : Fe} (ha : a.length = 8) (hb : b.length = 8) :
    (foldedOnce a b).1.length = 8 ∧ Narrow (foldedOnce a b).1 ∧ (foldedOnce a b).2.toNat ≤ 38 ∧
      (∃ k, limbsValue a * limbsValue b =
        wideValue (foldedOnce a b).1 + 38 * (foldedOnce a b).2.toNat + fieldPrime * k) ∧
      (∀ s ∈ foldSums ((schoolbook a b).take 8) ((schoolbook a b).drop 8), s < 2 ^ 64) ∧
      ∀ s ∈ normalizeSums (List.zipWith (fun low high => low + 38 * high) ((schoolbook a b).take 8)
        ((schoolbook a b).drop 8)) 0, s < 2 ^ 64 := by
  obtain ⟨hlen, hnarrow, hproduct, -⟩ := schoolbook_value ha hb
  unfold foldedOnce
  generalize schoolbook a b = t at hlen hnarrow hproduct
  have hp := two_pow_eq
  have htake : (t.take 8).length = 8 := by rw [List.length_take]; omega
  have hdrop : (t.drop 8).length = 8 := by rw [List.length_drop]; omega
  have hlow : Narrow (t.take 8) := fun w hw => hnarrow w (List.mem_of_mem_take hw)
  have hhigh : Narrow (t.drop 8) := fun w hw => hnarrow w (List.mem_of_mem_drop hw)
  have hlowlt := wideValue_lt hlow
  have hhighlt := wideValue_lt hhigh
  rw [← List.take_append_drop 8 t, wideValue_append, htake] at hproduct
  rw [htake] at hlowlt
  rw [hdrop] at hhighlt
  obtain ⟨hwlen, hwbound, hwvalue, hwsums⟩ := fold_value (htake.trans hdrop.symm) hlow hhigh
  obtain ⟨houtlen, hout, hvalue, hsums⟩ := normalize_value hwbound (show (0 : UInt64).toNat < 2 ^ 32 by decide)
  have hzero : (0 : UInt64).toNat = 0 := rfl
  rw [hwlen, htake] at houtlen hvalue
  rw [hwvalue, hzero, Nat.add_zero] at hvalue
  generalize normalize (List.zipWith (fun low high => low + 38 * high) (t.take 8) (t.drop 8)) 0 = once
    at houtlen hout hvalue ⊢
  refine ⟨houtlen, hout, by omega, ⟨2 * (wideValue (t.drop 8) + once.2.toNat), ?_⟩, hwsums, hsums⟩
  rw [hp] at hproduct hvalue
  linear_combination -hproduct - hvalue

/-- The second one leaves at most 1, and only of a small number, so the last carry stays in the first limb. -/
theorem foldedTwice_value {a b : Fe} (ha : a.length = 8) (hb : b.length = 8) :
    (foldedTwice a b).1.length = 8 ∧ Narrow (foldedTwice a b).1 ∧ (foldedTwice a b).2.toNat ≤ 38 ∧
      (wideValue (foldedTwice a b).1 + 38 * (foldedTwice a b).2.toNat < 2 ^ 32 ∨ (foldedTwice a b).2.toNat = 0) ∧
      (∃ k, limbsValue a * limbsValue b =
        wideValue (foldedTwice a b).1 + 38 * (foldedTwice a b).2.toNat + fieldPrime * k) ∧
      ∀ s ∈ normalizeSums (addFirst (38 * (foldedOnce a b).2) (foldedOnce a b).1) 0, s < 2 ^ 64 := by
  obtain ⟨hlen, hnarrow, hcarry, ⟨k, hk⟩, -, -⟩ := foldedOnce_value ha hb
  have hlt := wideValue_lt hnarrow
  obtain ⟨hlen', hbound', hvalue', -, -⟩ := carry_again hlen hnarrow hcarry
  unfold foldedTwice
  obtain ⟨houtlen, hout, hvalue, hsums⟩ := normalize_value hbound' (show (0 : UInt64).toNat < 2 ^ 32 by decide)
  have hzero : (0 : UInt64).toNat = 0 := rfl
  have hp := two_pow_eq
  rw [hlen] at hlt
  rw [hlen'] at houtlen hvalue
  rw [hvalue', hzero, Nat.add_zero] at hvalue
  generalize normalize (addFirst (38 * (foldedOnce a b).2) (foldedOnce a b).1) 0 = twice at houtlen hout hvalue ⊢
  refine ⟨houtlen, hout, by omega, by omega, ⟨k + 2 * twice.2.toNat, ?_⟩, hsums⟩
  rw [hp] at hvalue
  linear_combination hk - hvalue

theorem feMul_value {a b : Fe} (ha : a.length = 8) (hb : b.length = 8) :
    Canonical (feMul a b) ∧ limbsValue (feMul a b) = limbsValue a * limbsValue b % fieldPrime := by
  obtain ⟨hlen, hnarrow, hcarry, hsmall, ⟨k, hk⟩, -⟩ := foldedTwice_value ha hb
  obtain ⟨hlen', -, hvalue', -, hnarrow'⟩ := carry_again hlen hnarrow hcarry
  have hnarrow' := hnarrow' hsmall
  rw [feMul_eq, map_low hnarrow', hk, Nat.add_mul_mod_self_left, ← hvalue', ← limbsValue_map hnarrow']
  exact reduce_twice (by rw [List.length_map, hlen'])

theorem feMulSums_lt {a b : Fe} (ha : a.length = 8) (hb : b.length = 8) : ∀ s ∈ feMulSums a b, s < 2 ^ 64 := by
  obtain ⟨-, -, -, hproduct⟩ := schoolbook_value ha hb
  obtain ⟨hlen, hnarrow, hcarry, -, hfold, honce⟩ := foldedOnce_value ha hb
  obtain ⟨hlen', hnarrow', hcarry', -, -, htwice⟩ := foldedTwice_value ha hb
  obtain ⟨-, -, -, hfirst, -⟩ := carry_again hlen hnarrow hcarry
  obtain ⟨-, -, -, hfirst', -⟩ := carry_again hlen' hnarrow' hcarry'
  simp only [feMulSums, List.forall_mem_append]
  exact ⟨⟨⟨⟨⟨hproduct, hfold⟩, honce⟩, hfirst⟩, htwice⟩, hfirst'⟩

/-! ## The field -/

/-- The element of the field that limbs stand for. -/
def toField (a : Fe) : ZMod fieldPrime := limbsValue a

theorem Canonical.val {a : Fe} (ha : Canonical a) : (toField a).val = limbsValue a := ZMod.val_cast_of_lt ha.below

theorem Canonical.eq_iff {a b : Fe} (ha : Canonical a) (hb : Canonical b) : a = b ↔ toField a = toField b :=
  ⟨congrArg toField, fun h => ha.eq hb (by rw [← ha.val, ← hb.val, h])⟩

theorem toField_of_mod {a : Fe} {n : Nat} (h : limbsValue a = n % fieldPrime) : toField a = n := by
  rw [toField, h, ZMod.natCast_mod]

theorem Canonical.value_of {a : Fe} (ha : Canonical a) {n : Nat} (h : toField a = n) : limbsValue a = n % fieldPrime := by
  rw [← ha.val, h, ZMod.val_natCast]

theorem Canonical.value_of_int {a : Fe} (ha : Canonical a) {n : ℤ} (h : toField a = n) :
    (limbsValue a : ℤ) = n % fieldPrime := by
  have hmod := (ZMod.intCast_eq_intCast_iff' (limbsValue a) n fieldPrime).1 (by rw [← h, toField, Int.cast_natCast])
  have hbelow := ha.below
  rw [← hmod, Int.emod_eq_of_lt (by omega) (by omega)]

/-- A canonical element and the element of the field that it stands for. -/
structure StandsFor (a : Fe) (x : ZMod fieldPrime) : Prop where
  canonical : Canonical a
  value : toField a = x

theorem Canonical.standsFor {a : Fe} (ha : Canonical a) : StandsFor a (toField a) := ⟨ha, rfl⟩

theorem standsFor_of_mod {a : Fe} {n : Nat} (h : Canonical a ∧ limbsValue a = n % fieldPrime) : StandsFor a n :=
  ⟨h.1, toField_of_mod h.2⟩

theorem standsFor_kZero : StandsFor kZero 0 := ⟨canonical_kZero, by rw [toField, limbsValue_kZero, Nat.cast_zero]⟩

theorem standsFor_kOne : StandsFor kOne 1 := ⟨canonical_kOne, by rw [toField, limbsValue_kOne, Nat.cast_one]⟩

namespace StandsFor

variable {a b : Fe} {x y : ZMod fieldPrime}

theorem mul (ha : StandsFor a x) (hb : StandsFor b y) : StandsFor (feMul a b) (x * y) := by
  have h := standsFor_of_mod (feMul_value ha.canonical.length hb.canonical.length)
  rw [Nat.cast_mul] at h
  rwa [← ha.value, ← hb.value]

theorem add (ha : StandsFor a x) (hb : StandsFor b y) : StandsFor (feAdd a b) (x + y) := by
  have h := standsFor_of_mod (feAdd_value ha.canonical hb.canonical)
  rw [Nat.cast_add] at h
  rwa [← ha.value, ← hb.value]

theorem sub (ha : StandsFor a x) (hb : StandsFor b y) : StandsFor (feSub a b) (x - y) := by
  have h := standsFor_of_mod (feSub_value ha.canonical hb.canonical)
  rw [Nat.cast_add, Nat.cast_sub hb.canonical.below.le, ZMod.natCast_self, zero_sub, ← sub_eq_add_neg] at h
  rwa [← ha.value, ← hb.value]

theorem neg (ha : StandsFor a x) : StandsFor (feNeg a) (-x) := by
  have h := standsFor_kZero.sub ha
  rwa [zero_sub] at h

theorem sqr (ha : StandsFor a x) : StandsFor (feSqr a) (x ^ 2) := by
  rw [sq]
  exact ha.mul ha

theorem val (ha : StandsFor a x) : x.val = limbsValue a := by rw [← ha.value, ha.canonical.val]

end StandsFor

/-! ## Comparison -/

/-- Nothing is lost by disjunction: it is zero when everything is. -/
theorem foldl_or_eq_zero (ws : List UInt32) :
    ∀ acc : UInt32, ws.foldl (· ||| ·) acc = 0 ↔ acc = 0 ∧ ∀ w ∈ ws, w = 0 := by
  induction ws with
  | nil => simp
  | cons w ws ih =>
    intro acc
    rw [List.foldl_cons, ih, UInt32.or_eq_zero_iff, List.forall_mem_cons, and_assoc]

theorem feEqual_eq {a b : Fe} (hlength : a.length = b.length) : feEqual a b = true ↔ a = b := by
  unfold feEqual
  rw [beq_iff_eq, foldl_or_eq_zero, and_iff_right rfl]
  induction a generalizing b with
  | nil =>
    obtain rfl : b = [] := List.length_eq_zero_iff.1 hlength.symm
    simp
  | cons x xs ih =>
    obtain ⟨y, ys, rfl⟩ := List.exists_cons_of_length_eq_add_one hlength.symm
    rw [List.zipWith_cons_cons, List.forall_mem_cons, ih (Nat.succ.inj hlength), UInt32.xor_eq_zero_iff, List.cons.injEq]

theorem StandsFor.feEqual_iff {a b : Fe} {x y : ZMod fieldPrime} (ha : StandsFor a x) (hb : StandsFor b y) :
    feEqual a b = true ↔ x = y := by
  have hlength := ha.canonical.length.trans hb.canonical.length.symm
  rw [feEqual_eq hlength, ha.canonical.eq_iff hb.canonical, ha.value, hb.value]

theorem feIsZero_value (a : Fe) : feIsZero a = true ↔ limbsValue a = 0 := by
  unfold feIsZero
  rw [beq_iff_eq, foldl_or_eq_zero, and_iff_right rfl]
  induction a with
  | nil => simp
  | cons w ws ih =>
    rw [List.forall_mem_cons, ih, limbsValue_cons, ← UInt32.toNat_inj]
    show w.toNat = 0 ∧ _ ↔ _
    omega

theorem StandsFor.feIsZero_iff {a : Fe} {x : ZMod fieldPrime} (ha : StandsFor a x) : feIsZero a = true ↔ x = 0 := by
  rw [feIsZero_value, ← ha.val, ZMod.val_eq_zero]

/-- The lowest bit is the parity. -/
theorem toNat_lowBit (a : Fe) : (lowBit a).toNat = limbsValue a % 2 := by
  cases a with
  | nil => rfl
  | cons w ws =>
    have hlow : (lowBit (w :: ws)).toNat = w.toNat % 2 := by
      rw [lowBit, UInt32.toNat_and]
      exact Nat.and_one_is_mod _
    rw [hlow, limbsValue_cons]
    omega

/-! ## Powers -/

theorem StandsFor.squareTimes : ∀ {a : Fe} {x : ZMod fieldPrime} (count : Nat), StandsFor a x →
    StandsFor (feSquareTimes a count) (x ^ 2 ^ count)
  | _, _, 0, ha => by
    rw [pow_zero, pow_one]
    exact ha
  | _, _, count + 1, ha => by
    rw [pow_succ', pow_mul]
    exact squareTimes count ha.sqr

/-- A link of the addition chain: squarings of one power and a product with another. -/
theorem StandsFor.link {a b : Fe} {x : ZMod fieldPrime} {m n k : Nat} (ha : StandsFor a (x ^ m))
    (hb : StandsFor b (x ^ n)) (count : Nat) (hk : m * 2 ^ count + n = k) : StandsFor (feMul (feSquareTimes a count) b) (x ^ k) := by
  rw [← hk, pow_add, pow_mul]
  exact (ha.squareTimes count).mul hb

theorem StandsFor.p58 {a : Fe} {x : ZMod fieldPrime} (ha : StandsFor a x) :
    StandsFor (fePowP58 a) (x ^ (2 ^ 252 - 3)) := by
  have h1 : StandsFor a (x ^ 1) := by rwa [pow_one]
  have h2 := h1.link h1 1 (show _ = 2 ^ 2 - 1 by norm_num)
  have h4 := h2.link h2 2 (show _ = 2 ^ 4 - 1 by norm_num)
  have h8 := h4.link h4 4 (show _ = 2 ^ 8 - 1 by norm_num)
  have h16 := h8.link h8 8 (show _ = 2 ^ 16 - 1 by norm_num)
  have h32 := h16.link h16 16 (show _ = 2 ^ 32 - 1 by norm_num)
  have h18 := h16.link h2 2 (show _ = 2 ^ 18 - 1 by norm_num)
  have h50 := h32.link h18 18 (show _ = 2 ^ 50 - 1 by norm_num)
  have h100 := h50.link h50 50 (show _ = 2 ^ 100 - 1 by norm_num)
  have h200 := h100.link h100 100 (show _ = 2 ^ 200 - 1 by norm_num)
  have h250 := h200.link h50 50 (show _ = 2 ^ 250 - 1 by norm_num)
  exact h250.link h1 2 (by norm_num)

theorem StandsFor.invert {a : Fe} {x : ZMod fieldPrime} (ha : StandsFor a x) :
    StandsFor (feInvert a) (x ^ (fieldPrime - 2)) := by
  have h1 : StandsFor a (x ^ 1) := by rwa [pow_one]
  have h3 := h1.link h1 1 (show _ = 3 by norm_num)
  exact ha.p58.link h3 3 (by norm_num [fieldPrime])

/-- The power by `p - 2` is the inverse. -/
theorem pow_sub_two {x : ZMod fieldPrime} (hx : x ≠ 0) : x ^ (fieldPrime - 2) = x⁻¹ := by
  refine eq_inv_of_mul_eq_one_left ?_
  rw [← pow_succ]
  exact ZMod.pow_card_sub_one_eq_one hx

/-- The sums of each operation of the field. -/
def feAddSums (a b : Fe) : List Nat := carrySums a b 0

def feSubSums (a b : Fe) : List Nat := if (borrowChain a b 0).2 ≠ 0 then carrySums (borrowChain a b 0).1 kP 0 else []

def feNegSums (a : Fe) : List Nat := feSubSums kZero a

theorem feAddSums_lt {a b : Fe} (ha : a.length = 8) (hb : b.length = 8) : ∀ s ∈ feAddSums a b, s < 2 ^ 64 :=
  (carryChain_value (ha.trans hb.symm) (by decide)).2

theorem feSubSums_lt {a b : Fe} (ha : a.length = 8) (hb : b.length = 8) : ∀ s ∈ feSubSums a b, s < 2 ^ 64 := by
  unfold feSubSums
  split
  · exact (carryChain_value ((length_borrowChain (ha.trans hb.symm)).trans (ha.trans length_kP.symm)) (by decide)).2
  · exact List.forall_mem_nil _

/-- For canonical elements every operation returns the canonical element of the exact result, its sums all fit 64 bits, and
the two exponentiations are the powers by `2^252 - 3` and `p - 2`. -/
theorem field_exact {a b : Fe} (ha : Canonical a) (hb : Canonical b) :
    (Canonical (feAdd a b) ∧ limbsValue (feAdd a b) = (limbsValue a + limbsValue b) % fieldPrime) ∧
    (Canonical (feSub a b) ∧ (limbsValue (feSub a b) : ℤ) = ((limbsValue a : ℤ) - limbsValue b) % fieldPrime) ∧
    (Canonical (feNeg a) ∧ (limbsValue (feNeg a) : ℤ) = -(limbsValue a : ℤ) % fieldPrime) ∧
    (Canonical (feMul a b) ∧ limbsValue (feMul a b) = limbsValue a * limbsValue b % fieldPrime) ∧
    (∀ s ∈ feAddSums a b ++ feSubSums a b ++ feNegSums a ++ feMulSums a b, s < 2 ^ 64) ∧
    (Canonical (fePowP58 a) ∧ limbsValue (fePowP58 a) = limbsValue a ^ (2 ^ 252 - 3) % fieldPrime) ∧
    (Canonical (feInvert a) ∧ limbsValue (feInvert a) = limbsValue a ^ (fieldPrime - 2) % fieldPrime) := by
  have hsub := ha.standsFor.sub hb.standsFor
  have hneg := ha.standsFor.neg
  have hpow := ha.standsFor.p58
  have hinv := ha.standsFor.invert
  refine ⟨feAdd_value ha hb, ⟨hsub.canonical, ?_⟩, ⟨hneg.canonical, ?_⟩, feMul_value ha.length hb.length, ?_,
    ⟨hpow.canonical, hpow.canonical.value_of ?_⟩, ⟨hinv.canonical, hinv.canonical.value_of ?_⟩⟩
  · refine hsub.canonical.value_of_int ?_
    rw [hsub.value, Int.cast_sub, Int.cast_natCast, Int.cast_natCast, toField, toField]
  · refine hneg.canonical.value_of_int ?_
    rw [hneg.value, Int.cast_neg, Int.cast_natCast, toField]
  · simp only [List.forall_mem_append]
    exact ⟨⟨⟨feAddSums_lt ha.length hb.length, feSubSums_lt ha.length hb.length⟩, feSubSums_lt rfl ha.length⟩,
      feMulSums_lt ha.length hb.length⟩
  · rw [hpow.value, Nat.cast_pow, toField]
  · rw [hinv.value, Nat.cast_pow, toField]

/-- The largest element by itself. -/
theorem field_exact_largest : Canonical (feMul (feNeg kOne) (feNeg kOne)) ∧
    limbsValue (feMul (feNeg kOne) (feNeg kOne)) = limbsValue (feNeg kOne) * limbsValue (feNeg kOne) % fieldPrime :=
  (field_exact standsFor_kOne.neg.canonical standsFor_kOne.neg.canonical).2.2.2.1

end Wnc.Ed25519
