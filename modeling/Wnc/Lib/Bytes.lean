/-
Byte strings and the fixed-width integer codecs over them: the low `k` bytes of a natural number,
least or most significant byte first, the number a byte string denotes, and slices of a byte
string at fixed offsets.
-/
import Mathlib.Data.List.Lex
import Mathlib.Order.Lattice
import Mathlib.Tactic.IntervalCases
import Mathlib.Tactic.Linarith
import Mathlib.Tactic.Ring

namespace Wnc.Lib

/-- Bytes in numeric order; byte strings are then ordered lexicographically. -/
instance byteLinearOrder : LinearOrder UInt8 where
  le_refl := UInt8.le_refl
  le_trans _ _ _ := UInt8.le_trans
  le_antisymm _ _ := UInt8.le_antisymm
  le_total := UInt8.le_total
  lt_iff_le_not_ge a b := by
    rw [UInt8.lt_iff_toNat_lt, UInt8.le_iff_toNat_le, UInt8.le_iff_toNat_le]
    omega
  toDecidableLE := inferInstance
  toDecidableLT := inferInstance
  toDecidableEq := inferInstance

/-- A byte string. -/
abbrev Bytes := List UInt8

/-- The UTF-8 bytes of a string. -/
def utf8 (s : String) : Bytes := s.toByteArray.data.toList

/-! ## Little- and big-endian integers -/

/-- The low `k` bytes of `n`, least significant first. -/
def writeLe : Nat → Nat → Bytes
  | 0, _ => []
  | k + 1, n => UInt8.ofNat (n % 256) :: writeLe k (n / 256)

/-- The number a byte string denotes, least significant byte first. -/
def readLe : Bytes → Nat
  | [] => 0
  | b :: bs => b.toNat + 256 * readLe bs

/-- The low `k` bytes of `n`, most significant first. -/
def writeBe (k n : Nat) : Bytes := (writeLe k n).reverse

/-- The number a byte string denotes, most significant byte first. -/
def readBe (bs : Bytes) : Nat := readLe bs.reverse

@[simp] theorem length_writeLe : ∀ k n, (writeLe k n).length = k
  | 0, _ => rfl
  | k + 1, n => by rw [writeLe, List.length_cons, length_writeLe k]

@[simp] theorem length_writeBe (k n : Nat) : (writeBe k n).length = k := by
  rw [writeBe, List.length_reverse, length_writeLe]

theorem writeLe_append_replicate (j : Nat) : ∀ {k n : Nat}, n < 256 ^ k →
    writeLe k n ++ List.replicate j 0 = writeLe (k + j) n
  | 0, n, h => by
    obtain rfl : n = 0 := by omega
    rw [Nat.zero_add, writeLe, List.nil_append]
    induction j with
    | zero => rfl
    | succ j ih => rw [List.replicate_succ, writeLe, ih]; rfl
  | k + 1, n, h => by
    rw [pow_succ] at h
    rw [Nat.add_right_comm, writeLe, writeLe, List.cons_append, writeLe_append_replicate j (by omega)]

/-- A number in a wider field has zeros before it. -/
theorem replicate_append_writeBe (j : Nat) {k n : Nat} (h : n < 256 ^ k) :
    List.replicate j 0 ++ writeBe k n = writeBe (k + j) n := by
  rw [writeBe, writeBe, ← writeLe_append_replicate j h, List.reverse_append, List.reverse_replicate]

theorem readLe_writeLe : ∀ k n, readLe (writeLe k n) = n % 256 ^ k
  | 0, n => by rw [writeLe, readLe, pow_zero, Nat.mod_one]
  | k + 1, n => by
    have hb : (UInt8.ofNat (n % 256)).toNat = n % 256 :=
      UInt8.toNat_ofNat_of_lt' (Nat.mod_lt _ (by decide))
    rw [writeLe, readLe, hb, readLe_writeLe k, pow_succ', Nat.mod_mul]

theorem readLe_lt : ∀ bs : Bytes, readLe bs < 256 ^ bs.length
  | [] => by decide
  | b :: bs => by
    have h := readLe_lt bs
    have hb := b.toNat_lt
    rw [readLe, List.length_cons, pow_succ']
    omega

theorem writeLe_readLe : ∀ bs : Bytes, writeLe bs.length (readLe bs) = bs
  | [] => rfl
  | b :: bs => by
    have hb : b.toNat < 256 := b.toNat_lt
    have hm : (b.toNat + 256 * readLe bs) % 256 = b.toNat := by omega
    have hd : (b.toNat + 256 * readLe bs) / 256 = readLe bs := by omega
    rw [List.length_cons, readLe, writeLe, hm, hd, writeLe_readLe bs, UInt8.ofNat_toNat]

/-- Reading back a number that fits its `k` bytes. -/
theorem readLe_writeLe_of_lt {k n : Nat} (h : n < 256 ^ k) : readLe (writeLe k n) = n := by
  rw [readLe_writeLe, Nat.mod_eq_of_lt h]

theorem readLe_append (a b : Bytes) : readLe (a ++ b) = readLe a + 256 ^ a.length * readLe b := by
  induction a with
  | nil => simp [readLe]
  | cons x xs ih =>
    rw [List.cons_append, readLe, readLe, ih, List.length_cons, pow_succ]
    ring

/-! ## Slices -/

/-- The `k` bytes at offset `o`. -/
def slice (o k : Nat) (bs : Bytes) : Bytes := (bs.drop o).take k

/-- The slice that a prefix of its length is. -/
theorem slice_left {k : Nat} {a : Bytes} (b : Bytes) (h : a.length = k) : slice 0 k (a ++ b) = a := by
  subst h
  rw [slice, List.drop_zero, List.take_left]

/-- A slice behind a prefix. -/
theorem slice_append_right {o k : Nat} {a : Bytes} (b : Bytes) (h : a.length ≤ o) :
    slice o k (a ++ b) = slice (o - a.length) k b := by
  obtain ⟨d, rfl⟩ := Nat.exists_eq_add_of_le h
  rw [slice, slice, List.drop_append, Nat.add_sub_cancel_left, List.drop_eq_nil_of_le (by omega), List.nil_append]

theorem length_slice {o k : Nat} {bs : Bytes} (h : o + k ≤ bs.length) : (slice o k bs).length = k := by
  rw [slice, List.length_take, List.length_drop]
  omega

/-- A slice that lies inside a prefix does not see what follows the prefix. -/
theorem slice_append_left {o k : Nat} {a : Bytes} (b : Bytes) (h : o + k ≤ a.length) :
    slice o k (a ++ b) = slice o k a := by
  rw [slice, slice, List.drop_append_of_le_length (by omega),
    List.take_append_of_le_length (by rw [List.length_drop]; omega)]

theorem slice_add (o k m : Nat) (bs : Bytes) : slice o (k + m) bs = slice o k bs ++ slice (o + k) m bs := by
  rw [slice, slice, slice, List.take_add, List.drop_drop]

/-- Writing back the number a slice denotes gives the slice. -/
theorem writeLe_readLe_slice {o k : Nat} {bs : Bytes} (h : o + k ≤ bs.length) :
    writeLe k (readLe (slice o k bs)) = slice o k bs := by
  have hw := writeLe_readLe (slice o k bs)
  rwa [length_slice h] at hw

theorem readLe_slice_lt {o k : Nat} {bs : Bytes} (h : o + k ≤ bs.length) : readLe (slice o k bs) < 256 ^ k := by
  have hl := readLe_lt (slice o k bs)
  rwa [length_slice h] at hl

end Wnc.Lib
