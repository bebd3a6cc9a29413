/-
Lists read entry by entry by a function that may fail: the list is read when every entry is, and what is read of it is
what its entries are read as.
-/
import Mathlib.Data.List.Forall2

namespace Wnc.Lib

variable {ε α β γ δ : Type}

theorem bind_eq_ok {x : Except ε α} {f : α → Except ε β} {b : β} :
    (x >>= f) = .ok b ↔ ∃ a, x = .ok a ∧ f a = .ok b := by
  cases x with
  | error e => exact ⟨fun h => (nomatch h), fun ⟨_, h, _⟩ => (nomatch h)⟩
  | ok a => exact ⟨fun h => ⟨a, rfl, h⟩, fun ⟨_, h, hf⟩ => by cases h; exact hf⟩

/-- What is read of a list, entry by entry. -/
theorem mapM_eq_ok {f : α → Except ε β} : ∀ {l : List α} {vs : List β},
    l.mapM f = .ok vs ↔ List.Forall₂ (fun a v => f a = .ok v) l vs
  | [], vs => by
    rw [List.forall₂_nil_left_iff, List.mapM_nil]
    exact ⟨fun h => by cases h; rfl, fun h => by rw [h]; rfl⟩
  | a :: l, vs => by
    rw [List.mapM_cons, List.forall₂_cons_left_iff]
    simp only [bind_eq_ok, mapM_eq_ok]
    constructor
    · rintro ⟨v, hv, vs', hvs, hout⟩
      cases hout
      exact ⟨v, vs', hv, hvs, rfl⟩
    · rintro ⟨v, vs', hv, hvs, rfl⟩
      exact ⟨v, hv, vs', hvs, rfl⟩

/-- A list is read from the texts of its entries when every entry is. -/
theorem mapM_map_eq_ok {f : α → Except ε β} {g : β → α} {vs : List β} :
    (vs.map g).mapM f = .ok vs ↔ ∀ v ∈ vs, f (g v) = .ok v := by
  rw [mapM_eq_ok, List.forall₂_map_left_iff, List.forall₂_same]

theorem mem_of_mapM {f : α → Except ε β} {l : List α} {vs : List β} (h : l.mapM f = .ok vs) {v : β} (hv : v ∈ vs) :
    ∃ a ∈ l, f a = .ok v := by
  have hall := mapM_eq_ok.1 h
  induction hall with
  | nil => cases hv
  | cons ha hall ih =>
    rcases List.mem_cons.1 hv with rfl | hv
    · exact ⟨_, List.mem_cons_self, ha⟩
    · obtain ⟨a, hmem, ha⟩ := ih (mapM_eq_ok.2 hall) hv
      exact ⟨a, List.mem_cons_of_mem _ hmem, ha⟩

/-- What a reader keeps of every entry, it keeps of the list. -/
theorem map_mapM_ok {f : α → Except ε β} {m : δ → α} {g : β → γ} {k : δ → γ} {l : List δ} {vs : List β}
    (hall : ∀ a v, f (m a) = .ok v → g v = k a) (h : (l.map m).mapM f = .ok vs) : vs.map g = l.map k := by
  rw [mapM_eq_ok, List.forall₂_map_left_iff] at h
  induction h with
  | nil => rfl
  | cons ha _ ih => rw [List.map_cons, List.map_cons, hall _ _ ha, ih]

theorem length_mapM_option {f : α → Option β} : ∀ {l : List α} {vs : List β}, l.mapM f = some vs → vs.length = l.length
  | [], vs, h => by cases h; rfl
  | a :: l, vs, h => by
    rw [List.mapM_cons] at h
    obtain ⟨v, _, h⟩ := Option.bind_eq_some_iff.1 h
    obtain ⟨more, hmore, h⟩ := Option.bind_eq_some_iff.1 h
    cases h
    rw [List.length_cons, List.length_cons, length_mapM_option hmore]

end Wnc.Lib
