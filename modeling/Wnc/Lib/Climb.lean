/-
Climbing a partial parent function: the element a number of steps above another, the chains of steps that
this makes, and the pigeonhole over finitely many elements. A climb of as many steps as there are elements
meets one of them twice, and one that meets an element twice goes on for ever.
-/
import Mathlib.Logic.Relation
import Mathlib.Data.Fintype.Basic
import Mathlib.Data.Finset.Card
import Mathlib.Data.Fintype.Card

namespace Wnc.Lib

section

variable {α : Type} (f : α → Option α)

/-- The element a number of steps above another. -/
def climb : Nat → α → Option α
  | 0, a => some a
  | n + 1, a => (f a).bind (climb n)

/-- One step up. -/
def Above (a b : α) : Prop := f a = some b

/-- No element is above itself. -/
def Acyclic (r : α → α → Prop) : Prop := ∀ a, ¬ Relation.TransGen r a a

theorem climb_add (m n : Nat) (a : α) : climb f (m + n) a = (climb f m a).bind (climb f n) := by
  induction m generalizing a with
  | zero => rw [Nat.zero_add]; rfl
  | succ m ih =>
    rw [Nat.succ_add, climb, climb]
    cases f a with
    | none => rfl
    | some b => exact ih b

/-- A climb that is long enough has its shorter ones. -/
theorem climb_isSome_of_le {m n : Nat} {a : α} (hmn : m ≤ n) (h : (climb f n a).isSome) : (climb f m a).isSome := by
  obtain ⟨k, rfl⟩ := Nat.exists_eq_add_of_le hmn
  rw [climb_add] at h
  cases hm : climb f m a with
  | none => rw [hm] at h; cases h
  | some b => rfl

theorem transGen_of_climb {n : Nat} {a b : α} (h : climb f (n + 1) a = some b) : Relation.TransGen (Above f) a b := by
  induction n generalizing a with
  | zero =>
    rw [climb] at h
    obtain ⟨c, hc, hb⟩ := Option.bind_eq_some_iff.1 h
    cases hb
    exact .single hc
  | succ n ih =>
    rw [climb] at h
    obtain ⟨c, hc, hb⟩ := Option.bind_eq_some_iff.1 h
    exact .head hc (ih hb)

theorem climb_of_transGen {a b : α} (h : Relation.TransGen (Above f) a b) : ∃ n, climb f (n + 1) a = some b := by
  induction h with
  | single h => exact ⟨0, by rw [climb, h]; rfl⟩
  | tail _ hbc ih =>
    obtain ⟨n, hn⟩ := ih
    exact ⟨n + 1, by rw [climb_add f (n + 1) 1, hn, Option.bind_some, climb, hbc]; rfl⟩

/-- Above an element of a cycle the climb never ends. -/
theorem climb_of_cycle {a : α} (h : Relation.TransGen (Above f) a a) (n : Nat) : (climb f n a).isSome := by
  obtain ⟨k, hk⟩ := climb_of_transGen f h
  have hround : ∀ rounds, climb f (rounds * (k + 1)) a = some a := by
    intro rounds
    induction rounds with
    | zero => rw [Nat.zero_mul]; rfl
    | succ rounds ih => rw [Nat.succ_mul, climb_add, ih]; exact hk
  refine climb_isSome_of_le f (Nat.le_mul_of_pos_right n (Nat.succ_pos k)) ?_
  rw [hround n]
  rfl

/-- A climb stays among elements that steps do not leave. -/
theorem climb_mem {nodes : List α} (hclosed : ∀ a ∈ nodes, ∀ b, f a = some b → b ∈ nodes) {a : α} (ha : a ∈ nodes)
    {n : Nat} {b : α} (h : climb f n a = some b) : b ∈ nodes := by
  induction n generalizing a with
  | zero => cases h; exact ha
  | succ n ih =>
    obtain ⟨c, hc, hb⟩ := Option.bind_eq_some_iff.1 h
    exact ih (hclosed a ha c hc) hb

/-- Among finitely many elements, a climb of as many steps as they are has met one of them twice. -/
theorem cycle_of_climb {nodes : List α} (hclosed : ∀ a ∈ nodes, ∀ b, f a = some b → b ∈ nodes) {a : α} (ha : a ∈ nodes)
    (h : (climb f nodes.length a).isSome) : ∃ b, Relation.TransGen (Above f) b b := by
  classical
  -- what the climb has met after each of its steps, the start with them: one more than there are elements
  have hmet : ∀ i : Fin (nodes.length + 1), (climb f i a).isSome := fun i =>
    climb_isSome_of_le f (Nat.le_of_lt_succ i.isLt) h
  let met : Fin (nodes.length + 1) → α := fun i => (climb f i a).get (hmet i)
  have hcard : nodes.toFinset.card < (Finset.univ : Finset (Fin (nodes.length + 1))).card := by
    rw [Finset.card_univ, Fintype.card_fin]
    exact Nat.lt_succ_of_le (List.toFinset_card_le nodes)
  obtain ⟨i, -, j, -, hne, hij⟩ := Finset.exists_ne_map_eq_of_card_lt_of_maps_to hcard
    (f := met) fun i _ => List.mem_toFinset.2 (climb_mem f hclosed ha (Option.some_get (hmet i)).symm)
  wlog hlt : i < j generalizing i j with hsymm
  · exact hsymm j i hne.symm hij.symm (lt_of_le_of_ne (not_lt.1 hlt) hne.symm)
  obtain ⟨k, hk⟩ := Nat.exists_eq_add_of_lt hlt
  have hi : climb f i a = some (met i) := (Option.some_get _).symm
  have hj : climb f j a = some (met i) := hij ▸ (Option.some_get _).symm
  rw [hk, Nat.add_assoc, climb_add, hi] at hj
  exact ⟨met i, transGen_of_climb f hj⟩

/-- A climb of as many steps as there are elements starts somewhere exactly when the elements have a cycle. -/
theorem exists_climb_iff {nodes : List α} (hclosed : ∀ a b, f a = some b → b ∈ nodes) :
    (∃ a ∈ nodes, (climb f nodes.length a).isSome) ↔ ¬ Acyclic (Above f) := by
  simp only [Acyclic, not_forall, not_not]
  constructor
  · rintro ⟨a, ha, h⟩
    exact cycle_of_climb f (fun a _ => hclosed a) ha h
  · rintro ⟨a, h⟩
    obtain ⟨b, -, hba⟩ := Relation.TransGen.tail'_iff.1 h
    exact ⟨a, hclosed b a hba, climb_of_cycle f h _⟩

end

end Wnc.Lib
