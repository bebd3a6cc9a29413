/-
Sorting by a strict comparison that compares keys in a linear order. What is sorted is determined by its elements
when no two of them have one key, and sorting it once more changes nothing. A sorted list from which the neighbours of
one key are removed has every key once.
-/
import Mathlib.Data.List.Destutter
import Mathlib.Data.List.Sort
import Mathlib.Data.Prod.Lex

namespace Wnc.Lib

variable {α κ : Type} [LinearOrder κ] {precedes : α → α → Bool} {key : α → κ}

/-- A comparison that compares keys. -/
def ComparesBy (precedes : α → α → Bool) (key : α → κ) : Prop := ∀ a b, precedes a b = true ↔ key a < key b

namespace ComparesBy

theorem not_precedes (h : ComparesBy precedes key) (a b : α) : (!precedes b a) = true ↔ key a ≤ key b := by
  rw [Bool.not_eq_true', Bool.eq_false_iff, ne_eq, h, not_lt]

/-- The sorted list is ordered by its keys. -/
theorem sorted (h : ComparesBy precedes key) (l : List α) :
    (l.insertionSort fun a b => !precedes b a).Pairwise fun a b => key a ≤ key b := by
  have htotal : Std.Total fun a b : α => (!precedes b a) = true := ⟨fun a b => by
    rw [h.not_precedes, h.not_precedes]
    exact le_total _ _⟩
  have htrans : IsTrans α fun a b => (!precedes b a) = true := ⟨fun a b c hab hbc => by
    rw [h.not_precedes] at *
    exact le_trans hab hbc⟩
  exact (List.pairwise_insertionSort (fun a b : α => (!precedes b a) = true) l).imp (h.not_precedes _ _).1

/-- Lists with the same elements, no two of which have one key, are sorted to the same list. -/
theorem sort_congr (h : ComparesBy precedes key) {l m : List α} (hperm : l.Perm m)
    (hkey : ∀ a ∈ l, ∀ b ∈ l, key a = key b → a = b) :
    (l.insertionSort fun a b => !precedes b a) = m.insertionSort fun a b => !precedes b a := by
  have hl := List.perm_insertionSort (fun a b : α => (!precedes b a) = true) l
  have hm := List.perm_insertionSort (fun a b : α => (!precedes b a) = true) m
  refine List.Perm.eq_of_pairwise ?_ (h.sorted l) (h.sorted m) (hl.trans (hperm.trans hm.symm))
  intro a b ha hb hab hba
  exact hkey a (hl.mem_iff.1 ha) b (hperm.mem_iff.2 (hm.mem_iff.1 hb)) (le_antisymm hab hba)

/-- A list in order stays as it is. -/
theorem sort_of_sorted (h : ComparesBy precedes key) {l : List α} (hl : l.Pairwise fun a b => key a ≤ key b) :
    (l.insertionSort fun a b => !precedes b a) = l :=
  List.Pairwise.insertionSort_eq (hl.imp (h.not_precedes _ _).2)

end ComparesBy

/-! ## Neighbours of one key -/

section Neighbours

variable {same : α → α → Bool}

omit [LinearOrder κ] in
/-- Every key stays where the neighbours of one key are removed. -/
theorem exists_destutter' (hsame : ∀ a b, same a b = true ↔ key a = key b) (l : List α) (a : α) :
    ∀ x ∈ a :: l, ∃ y ∈ l.destutter' (fun a b => !same a b) a, key y = key x := by
  induction l generalizing a with
  | nil =>
    intro x hx
    exact ⟨x, hx, rfl⟩
  | cons b l ih =>
    intro x hx
    cases hab : same a b with
    | true =>
      rw [List.destutter'_cons_neg _ (by rw [hab]; decide)]
      rcases List.mem_cons.1 hx with rfl | hx
      · exact ih x x List.mem_cons_self
      · rcases List.mem_cons.1 hx with rfl | hx
        · obtain ⟨y, hy, hkey⟩ := ih a a List.mem_cons_self
          exact ⟨y, hy, hkey.trans ((hsame a x).1 hab)⟩
        · exact ih a x (List.mem_cons_of_mem _ hx)
    | false =>
      rw [List.destutter'_cons_pos _ (by rw [hab]; decide)]
      rcases List.mem_cons.1 hx with rfl | hx
      · exact ⟨x, List.mem_cons_self, rfl⟩
      · obtain ⟨y, hy, hkey⟩ := ih b x hx
        exact ⟨y, List.mem_cons_of_mem _ hy, hkey⟩

omit [LinearOrder κ] in
theorem exists_destutter (hsame : ∀ a b, same a b = true ↔ key a = key b) {l : List α} {x : α} (hx : x ∈ l) :
    ∃ y ∈ l.destutter (fun a b => !same a b), key y = key x := by
  cases l with
  | nil => cases hx
  | cons a l => exact exists_destutter' hsame l a x hx

theorem isChain_lt (hsame : ∀ a b, same a b = true ↔ key a = key b) : ∀ {l : List α},
    l.IsChain (fun a b => (!same a b) = true) → (l.Pairwise fun a b => key a ≤ key b) → l.IsChain fun a b => key a < key b
  | [], _, _ => .nil
  | [_], _, _ => .singleton _
  | a :: b :: l, hchain, hle => by
    obtain ⟨hab, hchain⟩ := List.isChain_cons_cons.1 hchain
    obtain ⟨ha, hle⟩ := List.pairwise_cons.1 hle
    refine List.isChain_cons_cons.2 ⟨lt_of_le_of_ne (ha b List.mem_cons_self) fun heq => ?_, isChain_lt hsame hchain hle⟩
    rw [(hsame a b).2 heq] at hab
    cases hab

/-- In a list that is ordered by its keys no key is left twice. -/
theorem pairwise_destutter (hsame : ∀ a b, same a b = true ↔ key a = key b) {l : List α}
    (hl : l.Pairwise fun a b => key a ≤ key b) :
    (l.destutter fun a b => !same a b).Pairwise fun a b => key a < key b := by
  have hle := hl.sublist (List.destutter_sublist (fun a b => (!same a b) = true) l)
  have hlt := isChain_lt hsame (List.isChain_destutter (fun a b => (!same a b) = true) l) hle
  have htrans : IsTrans α fun a b => key a < key b := ⟨fun _ _ _ => lt_trans⟩
  exact hlt.pairwise

omit [LinearOrder κ] in
/-- Nothing is lost where no two elements have one key. -/
theorem mem_destutter_sort (hsame : ∀ a b, same a b = true ↔ key a = key b) {l : List α}
    (hkey : ∀ a ∈ l, ∀ b ∈ l, key a = key b → a = b) {x : α} :
    x ∈ (l.insertionSort fun a b => !precedes b a).destutter (fun a b => !same a b) ↔ x ∈ l := by
  have hperm := List.perm_insertionSort (fun a b : α => (!precedes b a) = true) l
  constructor
  · intro hx
    exact hperm.mem_iff.1 ((List.destutter_sublist _ _).mem hx)
  · intro hx
    obtain ⟨y, hy, hyx⟩ := exists_destutter hsame (hperm.mem_iff.2 hx)
    rwa [← hkey y (hperm.mem_iff.1 ((List.destutter_sublist _ _).mem hy)) x hx hyx]

/-- Lists in strict order of their keys with the same elements are the same. -/
theorem eq_of_pairwise_lt {l m : List α} (hl : l.Pairwise fun a b => key a < key b)
    (hm : m.Pairwise fun a b => key a < key b) (hmem : ∀ x, x ∈ l ↔ x ∈ m) : l = m := by
  have hne : ∀ {l : List α}, l.Pairwise (fun a b => key a < key b) → l.Nodup := fun hl =>
    hl.imp fun hab heq => hab.ne (congrArg key heq)
  refine List.Perm.eq_of_pairwise ?_ hl hm ((List.perm_ext_iff_of_nodup (hne hl) (hne hm)).2 hmem)
  exact fun a b _ _ hab hba => absurd hab (lt_asymm hba)

end Neighbours

end Wnc.Lib
