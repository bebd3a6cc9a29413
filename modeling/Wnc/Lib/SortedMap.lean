/-
Finite maps kept as lists of entries in strictly ascending order of keys. The operations are defined
on the bare lists, so that an inductive type may hold such a list; `SortedMap` bundles a list with
its order.
-/
import Mathlib.Data.List.Basic
import Mathlib.Order.Lattice
import Mathlib.Algebra.GroupWithZero.Nat

namespace Wnc.Lib.Assoc

variable {κ ν : Type} [LinearOrder κ]

/-! ## Entry lists -/

/-- The value of the first entry with the key. -/
def find (k : κ) : List (κ × ν) → Option ν
  | [] => none
  | (k', v) :: rest => if k' = k then some v else find k rest

@[simp] theorem find_nil (k : κ) : find k ([] : List (κ × ν)) = none := rfl

theorem find_cons (k k' : κ) (v : ν) (l : List (κ × ν)) :
    find k ((k', v) :: l) = if k' = k then some v else find k l := rfl

theorem mem_of_find {k : κ} {v : ν} {l : List (κ × ν)} (h : find k l = some v) : (k, v) ∈ l := by
  induction l with
  | nil => cases h
  | cons e l ih =>
    obtain ⟨k', v'⟩ := e
    rw [find_cons] at h
    split at h
    · rename_i hk
      cases h; subst hk
      exact List.mem_cons_self
    · exact List.mem_cons_of_mem _ (ih h)

theorem find_eq_none_iff {k : κ} {l : List (κ × ν)} : find k l = none ↔ ∀ e ∈ l, e.1 ≠ k := by
  induction l with
  | nil => simp
  | cons e l ih =>
    obtain ⟨k', v'⟩ := e
    rw [find_cons]
    split
    · rename_i hk; simp [hk]
    · rename_i hk; simp [hk, ih]

theorem find_map {μ : Type} (f : ν → μ) (k : κ) (l : List (κ × ν)) :
    find k (l.map fun e => (e.1, f e.2)) = (find k l).map f := by
  induction l with
  | nil => rfl
  | cons e l ih =>
    rw [List.map_cons, find_cons, ih, find_cons]
    split <;> rfl

theorem find_filter (p : κ → Bool) (k : κ) (l : List (κ × ν)) :
    find k (l.filter fun e => p e.1) = if p k then find k l else none := by
  induction l with
  | nil => simp
  | cons e l ih =>
    obtain ⟨k', v'⟩ := e
    rw [List.filter_cons, find_cons]
    by_cases hk : k' = k
    · subst hk
      by_cases hp : p k' = true
      · rw [if_pos hp, find_cons, if_pos rfl, if_pos hp, if_pos rfl]
      · rw [if_neg hp, ih, if_neg hp, if_neg hp]
    · rw [if_neg hk]
      split
      · rw [find_cons, if_neg hk, ih]
      · exact ih

/-- Inserts an entry at its place; an entry with the same key is replaced. -/
def set (k : κ) (v : ν) : List (κ × ν) → List (κ × ν)
  | [] => [(k, v)]
  | (k', v') :: rest =>
    if k < k' then (k, v) :: (k', v') :: rest
    else if k = k' then (k, v) :: rest
    else (k', v') :: set k v rest

/-- Strictly ascending keys. -/
def Sorted (l : List (κ × ν)) : Prop := l.Pairwise fun a b => a.1 < b.1

instance (l : List (κ × ν)) : Decidable (Sorted l) := inferInstanceAs (Decidable (l.Pairwise _))

theorem sorted_nil : Sorted ([] : List (κ × ν)) := List.Pairwise.nil

theorem sorted_cons {e : κ × ν} {l : List (κ × ν)} :
    Sorted (e :: l) ↔ (∀ b ∈ l, e.1 < b.1) ∧ Sorted l := List.pairwise_cons

theorem mem_set {k : κ} {v : ν} {l : List (κ × ν)} {e : κ × ν} (h : e ∈ set k v l) :
    e = (k, v) ∨ e ∈ l := by
  induction l with
  | nil => exact .inl (List.mem_singleton.1 h)
  | cons e' l ih =>
    obtain ⟨k', v'⟩ := e'
    rw [set] at h
    split at h
    · exact List.mem_cons.1 h
    · split at h
      · exact (List.mem_cons.1 h).imp_right (List.mem_cons_of_mem _)
      · rcases List.mem_cons.1 h with rfl | h
        · exact .inr List.mem_cons_self
        · exact (ih h).imp_right (List.mem_cons_of_mem _)

theorem Sorted.set {k : κ} {v : ν} {l : List (κ × ν)} (h : Sorted l) : Sorted (set k v l) := by
  induction l with
  | nil => exact List.pairwise_singleton _ _
  | cons e l ih =>
    obtain ⟨k', v'⟩ := e
    obtain ⟨hlt, hl⟩ := sorted_cons.1 h
    rw [Assoc.set]
    split
    · rename_i hk
      refine sorted_cons.2 ⟨fun b hb => ?_, h⟩
      rcases List.mem_cons.1 hb with rfl | hb
      · exact hk
      · exact hk.trans (hlt b hb)
    · rename_i hk
      split
      · rename_i he
        subst he
        exact sorted_cons.2 ⟨hlt, hl⟩
      · rename_i he
        refine sorted_cons.2 ⟨fun b hb => ?_, ih hl⟩
        rcases mem_set hb with rfl | hb
        · exact lt_of_le_of_ne (not_lt.1 hk) (Ne.symm he)
        · exact hlt b hb

@[simp] theorem find_set_self (k : κ) (v : ν) (l : List (κ × ν)) : find k (set k v l) = some v := by
  induction l with
  | nil => rw [set, find_cons, if_pos rfl]
  | cons e l ih =>
    obtain ⟨k', v'⟩ := e
    rw [set]
    split
    · rw [find_cons, if_pos rfl]
    · split
      · rw [find_cons, if_pos rfl]
      · rename_i he
        rw [find_cons, if_neg (Ne.symm he), ih]

theorem find_set_ne {k k' : κ} (h : k ≠ k') (v : ν) (l : List (κ × ν)) :
    find k' (set k v l) = find k' l := by
  induction l with
  | nil => rw [set, find_cons, if_neg h]
  | cons e l ih =>
    obtain ⟨k'', v''⟩ := e
    rw [set]
    split
    · rw [find_cons, if_neg h]
    · split
      · rename_i he
        subst he
        rw [find_cons, if_neg h, find_cons, if_neg h]
      · rw [find_cons, find_cons, ih]

theorem find_set (k k' : κ) (v : ν) (l : List (κ × ν)) :
    find k' (set k v l) = if k = k' then some v else find k' l := by
  split
  · rename_i h; rw [← h, find_set_self]
  · rename_i h; exact find_set_ne h v l

/-- A sorted list holds what it finds, and nothing else. -/
theorem Sorted.find_eq_some_iff {k : κ} {v : ν} {l : List (κ × ν)} (h : Sorted l) :
    find k l = some v ↔ (k, v) ∈ l := by
  refine ⟨mem_of_find, fun hm => ?_⟩
  induction l with
  | nil => cases hm
  | cons e l ih =>
    obtain ⟨hlt, hl⟩ := sorted_cons.1 h
    rcases List.mem_cons.1 hm with rfl | hm
    · rw [find_cons, if_pos rfl]
    · rw [find_cons, if_neg (hlt _ hm).ne, ih hl hm]

/-- Two sorted lists with the same lookups are the same list. -/
theorem Sorted.ext {l m : List (κ × ν)} (hl : Sorted l) (hm : Sorted m)
    (h : ∀ k, find k l = find k m) : l = m := by
  induction l generalizing m with
  | nil =>
    cases m with
    | nil => rfl
    | cons e m =>
      have := h e.1
      rw [find_nil, find_cons, if_pos rfl] at this
      cases this
  | cons e l ih =>
    cases m with
    | nil =>
      have := h e.1
      rw [find_nil, find_cons, if_pos rfl] at this
      cases this
    | cons e' m =>
      obtain ⟨hlt, hl'⟩ := sorted_cons.1 hl
      obtain ⟨hlt', hm'⟩ := sorted_cons.1 hm
      have he : (e.1, e.2) ∈ e' :: m := hm.find_eq_some_iff.1
        (by rw [← h]; exact hl.find_eq_some_iff.2 List.mem_cons_self)
      have he' : (e'.1, e'.2) ∈ e :: l := hl.find_eq_some_iff.1
        (by rw [h]; exact hm.find_eq_some_iff.2 List.mem_cons_self)
      -- each head is in the other list; were they different, each would be below the other
      have hee : e = e' := by
        rcases List.mem_cons.1 he with heq | hin
        · exact heq
        · rcases List.mem_cons.1 he' with heq' | hin'
          · exact heq'.symm
          · exact absurd (hlt _ hin') (hlt' _ hin).asymm
      subst hee
      congr 1
      refine ih hl' hm' fun k => ?_
      have hk := h k
      obtain ⟨k', v'⟩ := e
      rw [find_cons, find_cons] at hk
      by_cases hkk : k' = k
      · subst hkk
        rw [find_eq_none_iff.2 fun b hb => (hlt b hb).ne', find_eq_none_iff.2 fun b hb => (hlt' b hb).ne']
      · rwa [if_neg hkk, if_neg hkk] at hk

/-- A key above all others goes to the end. -/
theorem set_append_of_lt {k : κ} {v : ν} {l : List (κ × ν)} (h : ∀ e ∈ l, e.1 < k) :
    set k v l = l ++ [(k, v)] := by
  induction l with
  | nil => rfl
  | cons e l ih =>
    have he := h e List.mem_cons_self
    rw [set, if_neg he.not_gt, if_neg he.ne', ih fun b hb => h b (List.mem_cons_of_mem _ hb)]
    rfl

/-- Replacing an entry between others. -/
theorem set_append_cons {k : κ} {v w : ν} {l : List (κ × ν)} (h : ∀ e ∈ l, e.1 < k) (m : List (κ × ν)) :
    set k v (l ++ (k, w) :: m) = l ++ (k, v) :: m := by
  induction l with
  | nil => rw [List.nil_append, set, if_neg (lt_irrefl k), if_pos rfl]; rfl
  | cons e l ih =>
    have he := h e List.mem_cons_self
    rw [List.cons_append, set, if_neg he.not_gt, if_neg he.ne', ih fun b hb => h b (List.mem_cons_of_mem _ hb)]
    rfl

theorem find_append_last {k : κ} {w : ν} {l : List (κ × ν)} (h : ∀ e ∈ l, e.1 < k) :
    find k (l ++ [(k, w)]) = some w := by
  induction l with
  | nil => rw [List.nil_append, find_cons, if_pos rfl]
  | cons e l ih =>
    rw [List.cons_append, find_cons, if_neg (h e List.mem_cons_self).ne,
      ih fun b hb => h b (List.mem_cons_of_mem _ hb)]

theorem total_set (f : ν → Nat) {l : List (κ × ν)} (h : Sorted l) (k : κ) (v : ν) :
    ((set k v l).map fun e => f e.2).sum + ((find k l).map f).getD 0 = (l.map fun e => f e.2).sum + f v := by
  induction l with
  | nil => simp [set]
  | cons e l ih =>
    obtain ⟨k', v'⟩ := e
    obtain ⟨hlt, hl⟩ := sorted_cons.1 h
    rw [set, find_cons]
    split
    · rename_i hk
      have hnone : find k l = none := find_eq_none_iff.2 fun b hb => (hk.trans (hlt b hb)).ne'
      rw [if_neg hk.ne', hnone]
      simp only [List.map_cons, List.sum_cons, Option.map_none, Option.getD_none]
      omega
    · split
      · rename_i he
        rw [if_pos he.symm]
        simp only [List.map_cons, List.sum_cons, Option.map_some, Option.getD_some]
        omega
      · rename_i he
        have := ih hl
        rw [if_neg (Ne.symm he)]
        simp only [List.map_cons, List.sum_cons]
        omega

end Wnc.Lib.Assoc

namespace Wnc.Lib

/-- A finite map: its entries in strictly ascending order of keys. -/
@[ext] structure SortedMap (κ ν : Type) [LinearOrder κ] where
  entries : List (κ × ν)
  sorted : Assoc.Sorted entries

namespace SortedMap

variable {κ ν : Type} [LinearOrder κ]

def empty : SortedMap κ ν := ⟨[], Assoc.sorted_nil⟩

def find? (m : SortedMap κ ν) (k : κ) : Option ν := Assoc.find k m.entries

def set (m : SortedMap κ ν) (k : κ) (v : ν) : SortedMap κ ν := ⟨Assoc.set k v m.entries, m.sorted.set⟩

/-- Keeps the entries whose key and value pass the test. -/
def filter (m : SortedMap κ ν) (p : κ → ν → Bool) : SortedMap κ ν :=
  ⟨m.entries.filter fun e => p e.1 e.2, m.sorted.filter _⟩

/-- Applies a function to every value. -/
def mapVal {μ : Type} (f : κ → ν → μ) (m : SortedMap κ ν) : SortedMap κ μ where
  entries := m.entries.map fun e => (e.1, f e.1 e.2)
  sorted := by
    unfold Assoc.Sorted
    rw [List.pairwise_map]
    exact m.sorted

instance [DecidableEq ν] : DecidableEq (SortedMap κ ν) := fun a b =>
  decidable_of_iff (a.entries = b.entries) SortedMap.ext_iff.symm

theorem find?_eq (m : SortedMap κ ν) (k : κ) : m.find? k = Assoc.find k m.entries := rfl

theorem entries_set (m : SortedMap κ ν) (k : κ) (v : ν) : (m.set k v).entries = Assoc.set k v m.entries := rfl

theorem find?_set (m : SortedMap κ ν) (k k' : κ) (v : ν) :
    (m.set k v).find? k' = if k = k' then some v else m.find? k' :=
  Assoc.find_set k k' v m.entries

@[simp] theorem find?_set_self (m : SortedMap κ ν) (k : κ) (v : ν) : (m.set k v).find? k = some v :=
  Assoc.find_set_self k v m.entries

theorem find?_mapVal {μ : Type} (f : ν → μ) (m : SortedMap κ ν) (k : κ) :
    (m.mapVal fun _ v => f v).find? k = (m.find? k).map f :=
  Assoc.find_map f k m.entries

@[simp] theorem find?_empty (k : κ) : (empty : SortedMap κ ν).find? k = none := rfl

theorem find?_filter (p : κ → Bool) (m : SortedMap κ ν) (k : κ) :
    (m.filter fun k _ => p k).find? k = if p k then m.find? k else none :=
  Assoc.find_filter p k m.entries

/-- Every value has a property. -/
def All (P : ν → Prop) (m : SortedMap κ ν) : Prop := ∀ k v, m.find? k = some v → P v

theorem All.empty (P : ν → Prop) : (SortedMap.empty : SortedMap κ ν).All P := fun _ _ h => nomatch h

theorem All.set {P : ν → Prop} {m : SortedMap κ ν} (h : m.All P) {v : ν} (hv : P v) (k : κ) : (m.set k v).All P := by
  intro k' v' hk
  rw [find?_set] at hk
  split at hk
  · cases hk; exact hv
  · exact h k' v' hk

theorem All.mapVal {μ : Type} {P : ν → Prop} {Q : μ → Prop} {m : SortedMap κ ν} (h : m.All P) {f : ν → μ}
    (hf : ∀ v, P v → Q (f v)) : (m.mapVal fun _ v => f v).All Q := by
  intro k v hk
  rw [find?_mapVal] at hk
  obtain ⟨u, hu, rfl⟩ := Option.map_eq_some_iff.1 hk
  exact hf u (h k u hu)

/-- Maps with the same lookups are equal. -/
theorem ext_find? {m n : SortedMap κ ν} (h : ∀ k, m.find? k = n.find? k) : m = n :=
  SortedMap.ext (m.sorted.ext n.sorted h)

/-- Writing what is there changes nothing. -/
theorem set_eq_self {m : SortedMap κ ν} {k : κ} {v : ν} (h : m.find? k = some v) : m.set k v = m := by
  refine ext_find? fun k' => ?_
  rw [find?_set]
  split
  · rename_i hk; rw [← hk, h]
  · rfl

/-- The total of a measure over the values. -/
def total (f : ν → Nat) (m : SortedMap κ ν) : Nat := (m.entries.map fun e => f e.2).sum

@[simp] theorem total_empty (f : ν → Nat) : (empty : SortedMap κ ν).total f = 0 := rfl

/-- A write adds the measure of its value and takes that of the value it replaces. -/
theorem total_set (f : ν → Nat) (m : SortedMap κ ν) (k : κ) (v : ν) :
    (m.set k v).total f + ((m.find? k).map f).getD 0 = m.total f + f v :=
  Assoc.total_set f m.sorted k v

theorem total_mapVal {μ : Type} (f : μ → Nat) (g : κ → ν → μ) (m : SortedMap κ ν) :
    (m.mapVal g).total f = (m.entries.map fun e => f (g e.1 e.2)).sum := by
  rw [total, mapVal, List.map_map]
  rfl

/-- The later of two writes counts. -/
theorem set_set (m : SortedMap κ ν) (k : κ) (v w : ν) : (m.set k v).set k w = m.set k w := by
  refine ext_find? fun k' => ?_
  rw [find?_set, find?_set, find?_set]
  split <;> rfl

end SortedMap

end Wnc.Lib
