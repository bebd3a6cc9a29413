/-
Scalar arithmetic. The long division keeps a remainder below the group order, so no bit is lost when the next one is shifted
in; products are reduced from all 512 bits, and sums of reduced scalars by one subtraction.
-/
import Wnc.Ed25519.Limbs
import Wnc.Ed25519.Primes

namespace Wnc.Ed25519

theorem limbsValue_kL : limbsValue kL = groupOrder := rfl

theorem groupOrder_lt : 2 * groupOrder < 2 ^ (32 * 8) := by decide

/-! ## Comparison -/

theorem scalarCompare_cons (x y : UInt32) (xs ys : Limbs) : scalarCompare (x :: xs) (y :: ys) =
    match scalarCompare xs ys with
    | .eq => if x = y then .eq else if x < y then .lt else .gt
    | o => o := by
  unfold scalarCompare
  rw [List.zip_cons_cons, List.reverse_cons, List.find?_append]
  cases hfind : (List.zip xs ys).reverse.find? fun p => p.1 != p.2 with
  | none =>
    by_cases hxy : x = y
    · simp [hxy]
    · simp [hxy]
  | some p =>
    simp only [Option.some_or]
    split <;> rfl

/-- Limbs compare as the numbers they stand for. -/
theorem scalarCompare_eq : ∀ {a b : Limbs}, a.length = b.length → scalarCompare a b = compare (limbsValue a) (limbsValue b)
  | [], [], _ => rfl
  | x :: xs, y :: ys, hlength => by
    have hx := x.toNat_lt
    have hy := y.toNat_lt
    rw [scalarCompare_cons, scalarCompare_eq (Nat.succ.inj hlength), limbsValue_cons, limbsValue_cons]
    rcases Nat.lt_trichotomy (limbsValue xs) (limbsValue ys) with h | h | h
    · rw [Nat.compare_eq_lt.2 h, Nat.compare_eq_lt.2 (by omega)]
    · rw [Nat.compare_eq_eq.2 h]
      simp only
      split
      next hxy => rw [Nat.compare_eq_eq.2 (by rw [hxy, h])]
      next hxy =>
        have hne : x.toNat ≠ y.toNat := fun h0 => hxy (UInt32.toNat_inj.1 h0)
        split
        next hlt =>
          have := UInt32.lt_iff_toNat_lt.1 hlt
          rw [Nat.compare_eq_lt.2 (by omega)]
        next hlt =>
          have : ¬x.toNat < y.toNat := fun h0 => hlt (UInt32.lt_iff_toNat_lt.2 h0)
          rw [Nat.compare_eq_gt.2 (by omega)]
    · rw [Nat.compare_eq_gt.2 h, Nat.compare_eq_gt.2 (by omega)]

theorem scalarCompare_lt_iff {a b : Limbs} (h : a.length = b.length) :
    scalarCompare a b = .lt ↔ limbsValue a < limbsValue b := by
  rw [scalarCompare_eq h, Nat.compare_eq_lt]

/-- One subtraction of the group order brings what is below twice of it below it. -/
theorem subtract_once {a : Scalar} (ha : a.length = 8) (hlt : limbsValue a < 2 * groupOrder) :
    (if scalarCompare a kL ≠ .lt then scalarSub a kL else a).length = 8 ∧
      limbsValue (if scalarCompare a kL ≠ .lt then scalarSub a kL else a) = limbsValue a % groupOrder := by
  have hlength : a.length = kL.length := ha
  have hcompare := scalarCompare_lt_iff hlength
  rw [limbsValue_kL] at hcompare
  by_cases h : limbsValue a < groupOrder
  · rw [if_neg (not_not.2 (hcompare.2 h)), Nat.mod_eq_of_lt h]
    exact ⟨ha, rfl⟩
  · rw [if_pos fun h0 => h (hcompare.1 h0), scalarSub, length_borrowChain hlength,
      (borrowChain_of_le hlength (by rw [limbsValue_kL]; omega)).1, limbsValue_kL, Nat.mod_eq_sub_mod (by omega),
      Nat.mod_eq_of_lt (by omega)]
    exact ⟨ha, rfl⟩

/-! ## Long division -/

theorem shift_step (w carry : UInt32) (h : carry.toNat ≤ 1) :
    ((w.toUInt64 <<< 1) ||| carry.toUInt64).toNat = 2 * w.toNat + carry.toNat := by
  have hw := w.toNat_lt
  have hone : (1 : UInt64).toNat % 64 = 1 := rfl
  have hshift : w.toNat <<< 1 = 2 * w.toNat := by rw [Nat.shiftLeft_eq, pow_one, Nat.mul_comm]
  rw [UInt64.toNat_or, UInt64.toNat_shiftLeft, UInt32.toNat_toUInt64, UInt32.toNat_toUInt64, hone,
    Nat.mod_eq_of_lt (by omega), ← Nat.shiftLeft_add_eq_or_of_lt (by omega), hshift]

theorem length_shiftIn : ∀ (ws : Limbs) (carry : UInt32), (shiftIn ws carry).length = ws.length
  | [], _ => rfl
  | _ :: ws, _ => congrArg Nat.succ (length_shiftIn ws _)

/-- Shifting doubles and adds the bit, up to what is lost at the top. -/
theorem shiftIn_value : ∀ (ws : Limbs) {carry : UInt32}, carry.toNat ≤ 1 →
    limbsValue (shiftIn ws carry) = (2 * limbsValue ws + carry.toNat) % 2 ^ (32 * ws.length)
  | [], carry, _ => by simp [shiftIn, Nat.mod_one]
  | w :: ws, carry, h => by
    have hw := w.toNat_lt
    have hstep := shift_step w carry h
    have hlow : (w.toUInt64 <<< 1 ||| carry.toUInt64).toUInt32.toNat = (2 * w.toNat + carry.toNat) % 2 ^ 32 := by
      rw [UInt64.toNat_toUInt32, hstep]
    have hhigh : ((w.toUInt64 <<< 1 ||| carry.toUInt64) >>> 32).toUInt32.toNat = (2 * w.toNat + carry.toNat) / 2 ^ 32 := by
      rw [UInt64.toNat_toUInt32, toNat_high, hstep, Nat.mod_eq_of_lt (by omega)]
    simp only [shiftIn, limbsValue_cons, List.length_cons, two_pow_succ_limb]
    rw [shiftIn_value ws (by omega), hlow, hhigh]
    have hsplit : 2 * (w.toNat + 2 ^ 32 * limbsValue ws) + carry.toNat =
        (2 * w.toNat + carry.toNat) % 2 ^ 32 +
          2 ^ 32 * (2 * limbsValue ws + (2 * w.toNat + carry.toNat) / 2 ^ 32) := by omega
    rw [hsplit, Nat.mod_mul, Nat.add_mul_mod_self_left, Nat.mod_mod, Nat.add_mul_div_left _ _ (by decide),
      Nat.div_eq_of_lt (Nat.mod_lt _ (by decide)), Nat.zero_add]

/-- What the division keeps: a remainder below the group order. -/
structure Reduced (r : Scalar) : Prop where
  length : r.length = 8
  below : limbsValue r < groupOrder

theorem reduced_kZero : Reduced kZero := ⟨rfl, by decide⟩

/-- Nothing is lost when a bit is shifted in. -/
theorem Reduced.shiftIn {r : Scalar} (hr : Reduced r) {bit : UInt32} (hbit : bit.toNat ≤ 1) :
    limbsValue (shiftIn r bit) = 2 * limbsValue r + bit.toNat ∧ 2 * limbsValue r + bit.toNat < 2 ^ (32 * 8) := by
  have hbelow := hr.below
  have horder := groupOrder_lt
  have hlt : 2 * limbsValue r + bit.toNat < 2 ^ (32 * 8) := by omega
  exact ⟨by rw [shiftIn_value r hbit, hr.length, Nat.mod_eq_of_lt hlt], hlt⟩

theorem Reduced.reduceBit {r : Scalar} (hr : Reduced r) {bit : UInt32} (hbit : bit.toNat ≤ 1) :
    Reduced (reduceBit r bit) ∧ limbsValue (reduceBit r bit) = (2 * limbsValue r + bit.toNat) % groupOrder := by
  have hbelow := hr.below
  obtain ⟨hshift, -⟩ := hr.shiftIn hbit
  obtain ⟨hlength, hvalue⟩ := subtract_once ((length_shiftIn r bit).trans hr.length) (by rw [hshift]; omega)
  rw [hshift] at hvalue
  refine ⟨⟨hlength, ?_⟩, hvalue⟩
  rw [Ed25519.reduceBit, hvalue]
  exact Nat.mod_lt _ prime_groupOrder.pos

/-- The number that bits spell, most significant first. -/
def spelled (bits : List UInt32) : Nat := bits.foldl (fun n b => 2 * n + b.toNat) 0

theorem foldl_bits (bits : List UInt32) (n : Nat) :
    bits.foldl (fun n b => 2 * n + b.toNat) n = 2 ^ bits.length * n + spelled bits := by
  unfold spelled
  induction bits generalizing n with
  | nil => simp
  | cons b bits ih =>
    rw [List.foldl_cons, List.foldl_cons, ih, ih (2 * 0 + b.toNat), List.length_cons, pow_succ]
    ring

theorem spelled_cons (b : UInt32) (bits : List UInt32) :
    spelled (b :: bits) = 2 ^ bits.length * b.toNat + spelled bits := by
  rw [spelled, List.foldl_cons, Nat.mul_zero, Nat.zero_add, foldl_bits]

theorem spelled_append (a b : List UInt32) : spelled (a ++ b) = 2 ^ b.length * spelled a + spelled b := by
  unfold spelled
  rw [List.foldl_append, foldl_bits b]
  rfl

/-- After any bits the remainder is that of the number they spell. -/
theorem Reduced.foldl {bits : List UInt32} : ∀ {r : Scalar}, Reduced r → (∀ b ∈ bits, b.toNat ≤ 1) →
    Reduced (bits.foldl Ed25519.reduceBit r) ∧ limbsValue (bits.foldl Ed25519.reduceBit r) =
      (2 ^ bits.length * limbsValue r + spelled bits) % groupOrder := by
  induction bits with
  | nil =>
    intro r hr _
    refine ⟨hr, ?_⟩
    rw [List.foldl_nil, List.length_nil, pow_zero, Nat.one_mul, spelled, List.foldl_nil, Nat.add_zero,
      Nat.mod_eq_of_lt hr.below]
  | cons bit bits ih =>
    intro r hr hbits
    obtain ⟨hbit, hbits⟩ := List.forall_mem_cons.1 hbits
    obtain ⟨hstep, hvalue⟩ := hr.reduceBit hbit
    obtain ⟨hreduced, hrest⟩ := ih hstep hbits
    refine ⟨hreduced, ?_⟩
    rw [List.foldl_cons, hrest, hvalue, Nat.add_mod, Nat.mul_mod_mod, ← Nat.add_mod, spelled_cons, List.length_cons,
      pow_succ]
    congr 1
    ring

/-- The lowest bits of a limb. -/
theorem spelled_low (w : UInt32) : ∀ {k : Nat}, k ≤ 32 →
    spelled ((List.range k).reverse.map fun i => (w >>> UInt32.ofNat i) &&& 1) = w.toNat % 2 ^ k
  | 0, _ => by simp [spelled, Nat.mod_one]
  | k + 1, hk => by
    have hshift : (UInt32.ofNat k).toNat % 32 = k := by
      rw [UInt32.toNat_ofNat_of_lt' (by show k < 4294967296; omega), Nat.mod_eq_of_lt (by omega)]
    have hbit : ((w >>> UInt32.ofNat k) &&& 1).toNat = w.toNat / 2 ^ k % 2 := by
      rw [UInt32.toNat_and, UInt32.toNat_shiftRight, hshift, Nat.shiftRight_eq_div_pow]
      exact Nat.and_one_is_mod _
    rw [List.range_succ, List.reverse_append, List.reverse_singleton, List.singleton_append, List.map_cons, spelled_cons,
      spelled_low w (by omega), hbit, List.length_map, List.length_reverse, List.length_range, Nat.mod_pow_succ]
    omega

theorem length_limbBits (w : UInt32) : (limbBits w).length = 32 := by
  rw [limbBits, List.length_map, List.length_reverse, List.length_range]

theorem limbBits_le {w b : UInt32} (h : b ∈ limbBits w) : b.toNat ≤ 1 := by
  obtain ⟨i, -, rfl⟩ := List.mem_map.1 h
  have hlow : ((w >>> UInt32.ofNat i) &&& 1).toNat = (w >>> UInt32.ofNat i).toNat % 2 := by
    rw [UInt32.toNat_and]
    exact Nat.and_one_is_mod _
  omega

theorem spelled_limbBits (w : UInt32) : spelled (limbBits w) = w.toNat := by
  rw [limbBits, spelled_low w le_rfl, Nat.mod_eq_of_lt w.toNat_lt]

/-- The bits of a wide number. -/
def wideBits (wide : Limbs) : List UInt32 := wide.reverse.flatMap limbBits

theorem wideBits_le (wide : Limbs) : ∀ b ∈ wideBits wide, b.toNat ≤ 1 := by
  intro b hb
  obtain ⟨w, -, hw⟩ := List.mem_flatMap.1 hb
  exact limbBits_le hw

theorem spelled_wideBits : ∀ wide : Limbs, spelled (wideBits wide) = limbsValue wide
  | [] => rfl
  | w :: ws => by
    have ih := spelled_wideBits ws
    unfold wideBits at ih ⊢
    rw [List.reverse_cons, List.flatMap_append, List.flatMap_singleton, spelled_append, ih, spelled_limbBits,
      length_limbBits, limbsValue_cons]
    omega

/-- The long division returns the remainder. -/
theorem scalarReduce_value (wide : Limbs) :
    Reduced (scalarReduce wide) ∧ limbsValue (scalarReduce wide) = limbsValue wide % groupOrder := by
  obtain ⟨hreduced, hvalue⟩ := reduced_kZero.foldl (wideBits_le wide)
  have hzero : limbsValue kZero = 0 := rfl
  rw [hzero, Nat.mul_zero, Nat.zero_add, spelled_wideBits] at hvalue
  exact ⟨hreduced, hvalue⟩

/-! ## Products and sums -/

theorem scalarMul_value {a b : Scalar} (ha : a.length = 8) (hb : b.length = 8) :
    Reduced (scalarMul a b) ∧ limbsValue (scalarMul a b) = limbsValue a * limbsValue b % groupOrder := by
  obtain ⟨-, hnarrow, hproduct, -⟩ := schoolbook_value hb ha
  obtain ⟨hreduced, hvalue⟩ := scalarReduce_value ((schoolbook b a).map UInt64.toUInt32)
  rw [limbsValue_map hnarrow, hproduct, Nat.mul_comm] at hvalue
  exact ⟨hreduced, hvalue⟩

theorem scalarAdd_value {a b : Scalar} (ha : Reduced a) (hb : Reduced b) :
    Reduced (scalarAdd a b) ∧ limbsValue (scalarAdd a b) = (limbsValue a + limbsValue b) % groupOrder := by
  have hlength := ha.length.trans hb.length.symm
  have hbelow := ha.below
  have hbelow' := hb.below
  have horder := groupOrder_lt
  have hsum := carryChain_of_lt hlength (by rw [ha.length]; omega)
  obtain ⟨hlen, hvalue⟩ := subtract_once ((length_carryChain hlength).trans ha.length) (by rw [hsum]; omega)
  rw [hsum] at hvalue
  refine ⟨⟨hlen, ?_⟩, hvalue⟩
  rw [scalarAdd, hvalue]
  exact Nat.mod_lt _ prime_groupOrder.pos

/-- Before every bit of a division the remainder is below the group order and the bit fits under it; the quotient's
remainder, products of any scalars and sums of reduced ones are exact, and no sum of theirs leaves 64 bits. -/
theorem scalar_exact (wide a b : Limbs) :
    (∀ before bit after, wideBits wide = before ++ bit :: after →
      Reduced (before.foldl reduceBit kZero) ∧
      limbsValue (shiftIn (before.foldl reduceBit kZero) bit) =
        2 * limbsValue (before.foldl reduceBit kZero) + bit.toNat ∧
      2 * limbsValue (before.foldl reduceBit kZero) + bit.toNat < 2 ^ 256) ∧
    (Reduced (scalarReduce wide) ∧ limbsValue (scalarReduce wide) = limbsValue wide % groupOrder) ∧
    (a.length = 8 → b.length = 8 →
      (Reduced (scalarMul a b) ∧ limbsValue (scalarMul a b) = limbsValue a * limbsValue b % groupOrder) ∧
      ∀ s ∈ schoolbookSums b a, s < 2 ^ 64) ∧
    (Reduced a → Reduced b →
      (Reduced (scalarAdd a b) ∧ limbsValue (scalarAdd a b) = (limbsValue a + limbsValue b) % groupOrder) ∧
      ∀ s ∈ carrySums a b 0, s < 2 ^ 64) := by
  refine ⟨fun before bit after h => ?_, scalarReduce_value wide, fun ha hb => ?_, fun ha hb => ?_⟩
  · -- the remainder before a bit is that of the bits before it
    have hbits := wideBits_le wide
    rw [h] at hbits
    obtain ⟨hreduced, -⟩ := reduced_kZero.foldl fun b hb => hbits b (List.mem_append_left _ hb)
    exact ⟨hreduced, hreduced.shiftIn (hbits bit (List.mem_append_right _ List.mem_cons_self))⟩
  · exact ⟨scalarMul_value ha hb, (schoolbook_value hb ha).2.2.2⟩
  · exact ⟨scalarAdd_value ha hb, (carryChain_value (ha.length.trans hb.length.symm) (by decide)).2⟩

/-- The largest reduced scalar. -/
def largestScalar : Scalar := kL.set 0 0x5CF5D3EC

theorem limbsValue_largestScalar : limbsValue largestScalar = groupOrder - 1 := by decide +kernel

theorem scalar_exact_largest :
    limbsValue (scalarMul largestScalar largestScalar) = (groupOrder - 1) * (groupOrder - 1) % groupOrder ∧
      limbsValue (scalarAdd largestScalar largestScalar) = (groupOrder - 1 + (groupOrder - 1)) % groupOrder ∧
      ∀ s ∈ carrySums largestScalar largestScalar 0, s < 2 ^ 64 := by
  have hreduced : Reduced largestScalar := ⟨rfl, by rw [limbsValue_largestScalar]; decide⟩
  obtain ⟨-, -, hmul, hadd⟩ := scalar_exact (List.replicate 16 0xFFFFFFFF) largestScalar largestScalar
  obtain ⟨⟨-, hproduct⟩, -⟩ := hmul rfl rfl
  obtain ⟨⟨-, hsum⟩, hsums⟩ := hadd hreduced hreduced
  rw [limbsValue_largestScalar] at hproduct hsum
  exact ⟨hproduct, hsum, hsums⟩

end Wnc.Ed25519
