/-
Primality by Lucas's test: a number is prime when some element has order one less, which is checked at the prime factors
of that order. The powers are taken by squaring, so the kernel evaluates the test on numbers of any size.
-/
import Mathlib.NumberTheory.LucasPrimality
import Mathlib.Data.List.Prime

namespace Wnc.Lib

/-! ## Powers by squaring -/

/-- A power modulo `m`, the exponent given by its number of bits. -/
def powMod (m a : ℕ) : ℕ → ℕ → ℕ
  | 0, _ => 1 % m
  | bits + 1, n => powMod m a bits (n / 2) ^ 2 * a ^ (n % 2) % m

theorem powMod_eq (m a : ℕ) : ∀ {bits n : ℕ}, n < 2 ^ bits → powMod m a bits n = a ^ n % m
  | 0, n, h => by
    have hn : n = 0 := by simpa using h
    rw [powMod, hn, pow_zero]
  | bits + 1, n, h => by
    have hhalf : n / 2 < 2 ^ bits := by rw [pow_succ] at h; omega
    calc powMod m a bits (n / 2) ^ 2 * a ^ (n % 2) % m
        = (a ^ (n / 2) % m) ^ 2 * a ^ (n % 2) % m := by rw [powMod_eq m a hhalf]
      _ = (a ^ (n / 2)) ^ 2 * a ^ (n % 2) % m := by rw [Nat.mul_mod, ← Nat.pow_mod, ← Nat.mul_mod]
      _ = a ^ n % m := by rw [← pow_mul, ← pow_add, Nat.mul_comm, Nat.div_add_mod]

theorem cast_powMod {m a bits n : ℕ} (h : n < 2 ^ bits) : (powMod m a bits n : ZMod m) = (a : ZMod m) ^ n := by
  rw [powMod_eq m a h, ZMod.natCast_mod, Nat.cast_pow]

/-! ## Lucas's test -/

/-- The test of `p` with the element `a`, the factors of `p - 1` listed with repetitions. -/
def lucasTest (p a : ℕ) (factors : List ℕ) : Bool :=
  factors.prod + 1 == p && powMod p a (p.log2 + 1) (p - 1) == 1 &&
    factors.all fun q => powMod p a (p.log2 + 1) ((p - 1) / q) != 1

theorem cast_eq_one_iff {p r : ℕ} (hp : 1 < p) (hr : r < p) : (r : ZMod p) = 1 ↔ r = 1 := by
  rw [← Nat.cast_one, ZMod.natCast_eq_natCast_iff', Nat.mod_eq_of_lt hr, Nat.mod_eq_of_lt hp]

theorem powMod_lt {m : ℕ} (hm : 0 < m) (a : ℕ) : ∀ bits n, powMod m a bits n < m
  | 0, _ => Nat.mod_lt _ hm
  | _ + 1, _ => Nat.mod_lt _ hm

/-- A number that passes the test is prime when the listed factors are. -/
theorem prime_of_lucasTest {p : ℕ} (a : ℕ) (factors : List ℕ) (hp : 1 < p) (hfactors : ∀ q ∈ factors, q.Prime)
    (h : lucasTest p a factors = true) : p.Prime := by
  simp only [lucasTest, Bool.and_eq_true, beq_iff_eq, List.all_eq_true, bne_iff_ne] at h
  obtain ⟨⟨hprod, hfull⟩, hpart⟩ := h
  have hsize : ∀ n, n ≤ p → n < 2 ^ (p.log2 + 1) := fun n hn => hn.trans_lt Nat.lt_log2_self
  have hone : ∀ n, n ≤ p → ((a : ZMod p) ^ n = 1 ↔ powMod p a (p.log2 + 1) n = 1) := fun n hn => by
    rw [← cast_powMod (hsize n hn), cast_eq_one_iff hp (powMod_lt (by omega) ..)]
  refine lucas_primality p a ((hone _ (by omega)).2 hfull) fun q hq hdvd => ?_
  -- a prime that divides the product is one of the factors
  have hmem : q ∈ factors :=
    mem_list_primes_of_dvd_prod hq.prime (fun r hr => (hfactors r hr).prime) (by rwa [← hprod, Nat.add_sub_cancel] at hdvd)
  rw [ne_eq, hone _ ((Nat.div_le_self ..).trans (by omega))]
  exact hpart q hmem

end Wnc.Lib
