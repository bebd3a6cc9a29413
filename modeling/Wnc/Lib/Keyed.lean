/-
Lists whose elements carry a key each, no key twice, under writes that replace the element of a key in
place or add one at the end; runs of writes each of which stands in a given relation to the element it
replaces; and runs of writes that only add, where the first of a key stays.
-/
import Mathlib.Data.List.Nodup

namespace Wnc.Lib.Keyed

variable {α κ : Type} [DecidableEq κ] (key : α → κ)

/-! ## One write -/

/-- The first element of a key. -/
def get (k : κ) (l : List α) : Option α := l.find? fun a => key a = k

/-- Replaces the first element of the key of `a`, or adds `a` at the end. -/
def put (a : α) : List α → List α
  | [] => [a]
  | b :: rest => if key b = key a then a :: rest else b :: put a rest

theorem get_cons (k : κ) (a : α) (l : List α) : get key k (a :: l) = if key a = k then some a else get key k l := by
  unfold get
  by_cases h : key a = k <;> simp [h]

variable {key}

theorem key_of_get {k : κ} {l : List α} {a : α} (h : get key k l = some a) : key a = k := by
  simpa using List.find?_some h

theorem mem_of_get {k : κ} {l : List α} {a : α} (h : get key k l = some a) : a ∈ l := List.mem_of_find?_eq_some h

theorem get_eq_none_iff {k : κ} {l : List α} : get key k l = none ↔ k ∉ l.map key := by
  simp [get]

/-- Without a repeated key every element is what its key finds. -/
theorem get_of_mem {l : List α} (h : (l.map key).Nodup) {a : α} (ha : a ∈ l) : get key (key a) l = some a := by
  induction l with
  | nil => cases ha
  | cons b l ih =>
    rw [List.map_cons, List.nodup_cons] at h
    rw [get_cons]
    rcases List.mem_cons.1 ha with rfl | ha
    · rw [if_pos rfl]
    · have hne : key b ≠ key a := fun he => h.1 (he ▸ List.mem_map_of_mem ha)
      rw [if_neg hne, ih h.2 ha]

/-- Without a repeated key the order of the elements does not matter. -/
theorem get_perm {l m : List α} (h : l.Perm m) (hnodup : (l.map key).Nodup) (k : κ) : get key k l = get key k m := by
  cases hm : get key k m with
  | none =>
    rw [get_eq_none_iff] at hm ⊢
    exact fun hk => hm ((h.map key).mem_iff.1 hk)
  | some a =>
    rw [← key_of_get hm]
    exact get_of_mem hnodup (h.mem_iff.2 (mem_of_get hm))

theorem get_put (k : κ) (a : α) (l : List α) : get key k (put key a l) = if key a = k then some a else get key k l := by
  induction l with
  | nil => rw [put, get_cons]
  | cons b l ih =>
    rw [put]
    split
    · rename_i hb
      rw [get_cons, get_cons, hb]
      split <;> rfl
    · rename_i hb
      rw [get_cons, get_cons, ih]
      split
      · rename_i hk
        rw [if_neg (fun ha => hb (hk.trans ha.symm))]
      · rfl

/-- A write keeps the keys in their places; a new key comes last. -/
theorem map_key_put (a : α) (l : List α) :
    (put key a l).map key = if key a ∈ l.map key then l.map key else l.map key ++ [key a] := by
  induction l with
  | nil => simp [put]
  | cons b l ih =>
    rw [put]
    split
    · rename_i hb
      simp [hb]
    · rename_i hb
      rw [List.map_cons, ih, List.map_cons]
      by_cases hm : key a ∈ l.map key
      · rw [if_pos hm, if_pos (List.mem_cons_of_mem _ hm)]
      · rw [if_neg hm, if_neg (by rw [List.mem_cons]; exact not_or.2 ⟨fun h => hb h.symm, hm⟩), List.cons_append]

theorem nodup_put {a : α} {l : List α} (h : (l.map key).Nodup) : ((put key a l).map key).Nodup := by
  rw [map_key_put]
  split
  · exact h
  · rename_i hm
    exact List.Nodup.append h (List.nodup_singleton _) (List.disjoint_singleton.2 hm)

/-- What keeps the keys goes through a write. -/
theorem map_put {f : α → α} (hf : ∀ a, key (f a) = key a) (a : α) (l : List α) :
    (put key a l).map f = put key (f a) (l.map f) := by
  induction l with
  | nil => rfl
  | cons b l ih =>
    rw [put, List.map_cons, put, hf, hf]
    split
    · rfl
    · rw [List.map_cons, ih]

theorem get_map {f : α → α} (hf : ∀ a, key (f a) = key a) (k : κ) (l : List α) :
    get key k (l.map f) = (get key k l).map f := by
  induction l with
  | nil => rfl
  | cons b l ih =>
    rw [List.map_cons, get_cons, get_cons, hf, ih]
    split <;> rfl

/-- Without a repeated key a write leaves the elements of other keys and one of its own. -/
theorem mem_put {a b : α} {l : List α} (h : (l.map key).Nodup) : b ∈ put key a l ↔ b = a ∨ b ∈ l ∧ key b ≠ key a := by
  constructor
  · intro hb
    have hget := get_of_mem (nodup_put h) hb
    rw [get_put] at hget
    split at hget
    · cases hget
      exact .inl rfl
    · rename_i hne
      exact .inr ⟨mem_of_get hget, fun he => hne he.symm⟩
  · rintro (rfl | ⟨hb, hne⟩)
    · exact mem_of_get (by rw [get_put, if_pos rfl])
    · have hget : get key (key b) (put key a l) = some b := by
        rw [get_put, if_neg (fun he => hne he.symm)]
        exact get_of_mem h hb
      exact mem_of_get hget

/-- Without a repeated key the order does not matter to a write. -/
theorem put_perm {l m : List α} (h : l.Perm m) (hnodup : (l.map key).Nodup) (a : α) :
    (put key a l).Perm (put key a m) := by
  have hm := (h.map key).nodup_iff.1 hnodup
  refine (List.perm_ext_iff_of_nodup (nodup_put hnodup).of_map (nodup_put hm).of_map).2 fun b => ?_
  rw [mem_put hnodup, mem_put hm, h.mem_iff]

/-! ## Runs of writes -/

variable (key)

/-- The list after the writes of `as`, one after another. -/
def putAll (l as : List α) : List α := as.foldl (fun l a => put key a l) l

/-- Every write of a run stands in the relation to the element it replaces, if it replaces one. -/
def Admits (R : α → α → Prop) : List α → List α → Prop
  | _, [] => True
  | l, a :: as => (∀ b, get key (key a) l = some b → R a b) ∧ Admits R (put key a l) as

variable {key}

@[simp] theorem putAll_nil (l : List α) : putAll key l [] = l := rfl

@[simp] theorem putAll_cons (l : List α) (a : α) (as : List α) :
    putAll key l (a :: as) = putAll key (put key a l) as := rfl

theorem putAll_append (l as bs : List α) : putAll key l (as ++ bs) = putAll key (putAll key l as) bs :=
  List.foldl_append

theorem Admits.append {R : α → α → Prop} {l as bs : List α} (ha : Admits key R l as)
    (hb : Admits key R (putAll key l as) bs) : Admits key R l (as ++ bs) := by
  induction as generalizing l with
  | nil => exact hb
  | cons a as ih => exact ⟨ha.1, ih ha.2 hb⟩

theorem nodup_putAll {l : List α} (h : (l.map key).Nodup) (as : List α) : ((putAll key l as).map key).Nodup := by
  induction as generalizing l with
  | nil => exact h
  | cons a as ih => exact ih (nodup_put h)

/-- What a key finds after a run is the last write of it, if there was one. -/
theorem get_putAll (k : κ) (l as : List α) : get key k (putAll key l as) = (get key k as.reverse).or (get key k l) := by
  induction as generalizing l with
  | nil => rfl
  | cons a as ih =>
    rw [putAll_cons, ih, get_put, List.reverse_cons]
    simp only [get, List.find?_append, List.find?_singleton]
    cases List.find? (fun b => decide (key b = k)) as.reverse with
    | some b => rfl
    | none => by_cases h : key a = k <;> simp [h]

/-- A run keeps the keys of the list and adds those it writes. -/
theorem mem_map_putAll {k : κ} {l as : List α} : k ∈ (putAll key l as).map key ↔ k ∈ l.map key ∨ k ∈ as.map key := by
  have hget : ∀ m : List α, k ∈ m.map key ↔ get key k m ≠ none := fun m => by rw [ne_eq, get_eq_none_iff, not_not]
  rw [hget, get_putAll, hget l, ne_eq, Option.or_eq_none_iff, not_and_or, ← ne_eq, ← ne_eq, ← hget, List.map_reverse,
    List.mem_reverse]
  exact or_comm

/-- A run whose writes each stand in a transitive relation to what they replace ends with elements that
stand in it to the ones the run began with. -/
theorem Admits.related {R : α → α → Prop} (htrans : ∀ a b c, R a b → R b c → R a c) {l as : List α}
    (h : Admits key R l as) {k : κ} {b : α} (hb : get key k l = some b) (hrefl : R b b) :
    ∃ a, get key k (putAll key l as) = some a ∧ R a b := by
  suffices ∀ c, get key k l = some c → R c b → ∃ a, get key k (putAll key l as) = some a ∧ R a b from
    this b hb hrefl
  clear hb hrefl
  induction as generalizing l with
  | nil => exact fun c hc hcb => ⟨c, hc, hcb⟩
  | cons a as ih =>
    intro c hc hcb
    refine ih h.2 (if key a = k then a else c) ?_ ?_
    · rw [get_put, hc]
      split <;> rfl
    · split
      · rename_i hk
        exact htrans a c b (h.1 c (hk ▸ hc)) hcb
      · exact hcb

/-! ## Runs that only add -/

variable (key)

/-- Adds `a` at the end unless its key is taken. -/
def putNew (a : α) (l : List α) : List α := if key a ∈ l.map key then l else l ++ [a]

/-- The list after the additions of `as`, one after another. -/
def putNewAll (l as : List α) : List α := as.foldl (fun l a => putNew key a l) l

variable {key}

@[simp] theorem putNewAll_nil (l : List α) : putNewAll key l [] = l := rfl

@[simp] theorem putNewAll_cons (l : List α) (a : α) (as : List α) :
    putNewAll key l (a :: as) = putNewAll key (putNew key a l) as := rfl

theorem putNewAll_append (l as bs : List α) : putNewAll key l (as ++ bs) = putNewAll key (putNewAll key l as) bs :=
  List.foldl_append

variable (key) in
/-- A run that only adds keeps the list, and adds of each new key the first element. -/
theorem putNewAll_eq_append (l as : List α) :
    ∃ added, putNewAll key l as = l ++ added ∧ (added.map key).Nodup ∧
      ∀ a, a ∈ added ↔ key a ∉ l.map key ∧ get key (key a) as = some a := by
  induction as generalizing l with
  | nil => exact ⟨[], by simp, List.nodup_nil, fun a => by simp [get]⟩
  | cons b as ih =>
    rw [putNewAll_cons, putNew]
    split
    · rename_i hb
      obtain ⟨added, heq, hnodup, hmem⟩ := ih l
      refine ⟨added, heq, hnodup, fun a => ?_⟩
      rw [hmem, get_cons]
      refine and_congr_right fun ha => ?_
      have hne : key b ≠ key a := fun he => ha (he ▸ hb)
      rw [if_neg hne]
    · rename_i hb
      obtain ⟨added, heq, hnodup, hmem⟩ := ih (l ++ [b])
      refine ⟨b :: added, by rw [heq, List.append_assoc, List.singleton_append], ?_, fun a => ?_⟩
      · rw [List.map_cons, List.nodup_cons]
        refine ⟨fun hin => ?_, hnodup⟩
        obtain ⟨a, ha, hkey⟩ := List.mem_map.1 hin
        refine ((hmem a).1 ha).1 ?_
        rw [hkey, List.map_append]
        exact List.mem_append_right _ (List.mem_singleton_self _)
      · rw [List.mem_cons, hmem, get_cons, List.map_append, List.mem_append, List.map_singleton, List.mem_singleton]
        by_cases he : key b = key a
        · rw [if_pos he, Option.some_inj]
          constructor
          · rintro (rfl | ⟨hnot, -⟩)
            · exact ⟨hb, rfl⟩
            · exact absurd (.inr he.symm) hnot
          · rintro ⟨-, rfl⟩
            exact .inl rfl
        · rw [if_neg he]
          constructor
          · rintro (rfl | ⟨hnot, hget⟩)
            · exact absurd rfl he
            · exact ⟨fun ha => hnot (.inl ha), hget⟩
          · rintro ⟨ha, hget⟩
            exact .inr ⟨fun hor => hor.elim ha fun h => he h.symm, hget⟩

theorem nodup_putNewAll {l : List α} (h : (l.map key).Nodup) (as : List α) : ((putNewAll key l as).map key).Nodup := by
  obtain ⟨added, heq, hnodup, hmem⟩ := putNewAll_eq_append key l as
  rw [heq, List.map_append]
  refine h.append hnodup (List.disjoint_left.2 fun k hk hk' => ?_)
  obtain ⟨a, ha, rfl⟩ := List.mem_map.1 hk'
  exact ((hmem a).1 ha).1 hk

theorem putNewAll_perm {l m : List α} (h : l.Perm m) (as : List α) : (putNewAll key l as).Perm (putNewAll key m as) := by
  induction as generalizing l m with
  | nil => exact h
  | cons a as ih =>
    rw [putNewAll_cons, putNewAll_cons, putNew, putNew]
    refine ih ?_
    simp only [(h.map key).mem_iff]
    split
    · exact h
    · exact h.append_right [a]

end Wnc.Lib.Keyed
