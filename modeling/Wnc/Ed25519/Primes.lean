/-
The two moduli of edwards25519 are prime. Each number is tested over the factors of the number before it; a large factor is
tested in its turn.
-/
import Wnc.Lib.Lucas
import Mathlib.Tactic.NormNum.Prime

namespace Wnc.Ed25519

open Lib

/-- The field has `2^255 - 19` elements. -/
def fieldPrime : ℕ := 2 ^ 255 - 19

/-- The order of the base point. -/
def groupOrder : ℕ := 2 ^ 252 + 27742317777372353535851937790883648493

theorem prime_fieldPrime : fieldPrime.Prime := by
  have h17 : Nat.Prime 31757755568855353 :=
    prime_of_lucasTest 10 [2, 2, 2, 3, 31, 107, 223, 4153, 430751] (by norm_num) (by norm_num) (by decide +kernel)
  have h10 : Nat.Prime 2773320623 :=
    prime_of_lucasTest 5 [2, 2437, 569003] (by norm_num) (by norm_num) (by decide +kernel)
  have h11 : Nat.Prime 72106336199 :=
    prime_of_lucasTest 7 [2, 13, 2773320623] (by norm_num)
      (by simp only [List.forall_mem_cons, h10]; norm_num) (by decide +kernel)
  have h16 : Nat.Prime 1919519569386763 :=
    prime_of_lucasTest 2 [2, 3, 7, 19, 47, 47, 127, 8574133] (by norm_num) (by norm_num) (by decide +kernel)
  have h35 : Nat.Prime 75445702479781427272750846543864801 :=
    prime_of_lucasTest 7 [2, 2, 2, 2, 2, 3, 3, 5, 5, 75707, 72106336199, 1919519569386763] (by norm_num)
      (by simp only [List.forall_mem_cons, h11, h16]; norm_num) (by decide +kernel)
  have h71 : Nat.Prime 74058212732561358302231226437062788676166966415465897661863160754340907 :=
    prime_of_lucasTest 2 [2, 3, 353, 57467, 132049, 1923133, 31757755568855353, 75445702479781427272750846543864801]
      (by norm_num) (by simp only [List.forall_mem_cons, h17, h35]; norm_num) (by decide +kernel)
  exact prime_of_lucasTest 2 [2, 2, 3, 65147, 74058212732561358302231226437062788676166966415465897661863160754340907]
    (by norm_num [fieldPrime]) (by simp only [List.forall_mem_cons, h71]; norm_num) (by decide +kernel)

theorem prime_groupOrder : groupOrder.Prime := by
  have h8 : Nat.Prime 58964693 := prime_of_lucasTest 2 [2, 2, 14741173] (by norm_num) (by norm_num) (by decide +kernel)
  have h22 : Nat.Prime 3044861653679985063343 :=
    prime_of_lucasTest 5 [2, 3, 11, 30703, 82163, 132667, 137849] (by norm_num) (by norm_num) (by decide +kernel)
  have h33 : Nat.Prime 198211423230930754013084525763697 :=
    prime_of_lucasTest 5 [2, 2, 2, 2, 3, 23, 58964693, 3044861653679985063343] (by norm_num)
      (by simp only [List.forall_mem_cons, h8, h22]; norm_num) (by decide +kernel)
  have h9 : Nat.Prime 292386187 :=
    prime_of_lucasTest 2 [2, 3, 3, 3, 3, 307, 5879] (by norm_num) (by norm_num) (by decide +kernel)
  have h12 : Nat.Prime 213441916511 :=
    prime_of_lucasTest 13 [2, 5, 73, 292386187] (by norm_num)
      (by simp only [List.forall_mem_cons, h9]; norm_num) (by decide +kernel)
  have h16 : Nat.Prime 1257559732178653 :=
    prime_of_lucasTest 2 [2, 2, 3, 7, 23, 531581, 1224481] (by norm_num) (by norm_num) (by decide +kernel)
  have h19 : Nat.Prime 4434155615661930479 :=
    prime_of_lucasTest 17 [2, 41, 43, 1257559732178653] (by norm_num)
      (by simp only [List.forall_mem_cons, h16]; norm_num) (by decide +kernel)
  have h27 : Nat.Prime 172054593956031949258510691 :=
    prime_of_lucasTest 2 [2, 5, 1361, 2851, 4434155615661930479] (by norm_num)
      (by simp only [List.forall_mem_cons, h19]; norm_num) (by decide +kernel)
  have h41 : Nat.Prime 19757330305831588566944191468367130476339 :=
    prime_of_lucasTest 2 [2, 269, 213441916511, 172054593956031949258510691] (by norm_num)
      (by simp only [List.forall_mem_cons, h12, h27]; norm_num) (by decide +kernel)
  have h42 : Nat.Prime 276602624281642239937218680557139826668747 :=
    prime_of_lucasTest 2 [2, 7, 19757330305831588566944191468367130476339] (by norm_num)
      (by simp only [List.forall_mem_cons, h41]; norm_num) (by decide +kernel)
  exact prime_of_lucasTest 2
    [2, 2, 3, 11, 198211423230930754013084525763697, 276602624281642239937218680557139826668747]
    (by norm_num [groupOrder]) (by simp only [List.forall_mem_cons, h33, h42]; norm_num) (by decide +kernel)

instance fact_prime_fieldPrime : Fact fieldPrime.Prime := ⟨prime_fieldPrime⟩

end Wnc.Ed25519
