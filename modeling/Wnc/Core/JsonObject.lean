/-
Objects built member by member: what is found in them, and what becomes of them when they are read back.
-/
import Wnc.Core.JsonReread

namespace Wnc

open Lib

theorem utf8_injective {s t : String} (h : utf8 s = utf8 t) : s = t := by
  unfold utf8 at h
  have hdata := Array.ext' h
  cases s
  cases t
  congr
  exact ByteArray.ext hdata

namespace Json

/-! ## Members -/

/-- What is found under one literal key after another was set. -/
theorem find_put (value member : Json) (key key' : String) :
    (value.put key member).find (utf8 key') = if key = key' then some member else value.find (utf8 key') := by
  unfold put
  split
  · rename_i h
    rw [h, find_set_self]
  · rename_i h
    exact find_set_ne (fun he => h (utf8_injective he)) value member

theorem find_null (key : Bytes) : null.find key = none := rfl

theorem isReal_put (value member : Json) (key : String) : (value.put key member).isReal = false := by
  cases value <;> rfl

/-! ## Reading back -/

theorem rereadItems_eq : ∀ items : List Json, rereadItems items = items.map reread
  | [] => rfl
  | v :: rest => by rw [rereadItems, rereadItems_eq rest, List.map_cons]

theorem rereadMembers_eq : ∀ members : List (Bytes × Json), rereadMembers members = members.map fun e => (e.1, e.2.reread)
  | [] => rfl
  | (key, v) :: rest => by rw [rereadMembers, rereadMembers_eq rest, List.map_cons]

theorem map_assocSet (f : Json → Json) (key : Bytes) (member : Json) (l : List (Bytes × Json)) :
    (Assoc.set key member l).map (fun e => (e.1, f e.2)) = Assoc.set key (f member) (l.map fun e => (e.1, f e.2)) := by
  induction l with
  | nil => rfl
  | cons e l ih =>
    obtain ⟨key', v⟩ := e
    rw [Assoc.set, List.map_cons, Assoc.set]
    split
    · rfl
    · split
      · rfl
      · rw [List.map_cons, ih]

@[simp] theorem reread_put (value member : Json) (key : String) :
    (value.put key member).reread = value.reread.put key member.reread := by
  cases value with
  | object members =>
    show Json.object (rereadMembers (Assoc.set (utf8 key) member members)) =
      .object (Assoc.set (utf8 key) member.reread (rereadMembers members))
    rw [rereadMembers_eq, rereadMembers_eq, map_assocSet]
  | _ => rfl

@[simp] theorem reread_null : null.reread = null := rfl
@[simp] theorem reread_int (i : Int64) : (int i).reread = int i := rfl
@[simp] theorem reread_string (s : Bytes) : (string s).reread = string s := rfl
@[simp] theorem reread_array (items : List Json) : (array items).reread = array (items.map reread) := by
  rw [reread, rereadItems_eq]

/-- A finite number that is not below zero reads back. -/
theorem reread_ofReal {d : Double} (hf : d.isFinite = true) (h : d.lt .zero = false) : (ofReal d).reread = ofReal d := by
  have hc := Double.canonical_of_not_lt hf h
  have hz : Double.zero.canonical = .zero := by decide
  unfold ofReal reread
  split
  · rw [hz]
  · rename_i hne
    rw [hc, if_neg hne]

/-! ## Proper values -/

theorem properMembers_iff : ∀ {members : List (Bytes × Json)}, ProperMembers members ↔ ∀ e ∈ members, e.2.Proper
  | [] => by simp [ProperMembers]
  | (key, v) :: rest => by rw [ProperMembers, properMembers_iff, List.forall_mem_cons]

theorem properItems_iff : ∀ {items : List Json}, ProperItems items ↔ ∀ v ∈ items, v.isReal = false ∧ v.Proper
  | [] => by simp [ProperItems]
  | v :: rest => by rw [ProperItems, properItems_iff, List.forall_mem_cons, and_assoc]

theorem Proper.put {value member : Json} (hv : value.Proper) (hm : member.Proper) (key : String) :
    (value.put key member).Proper := by
  cases value with
  | object members =>
    refine ⟨hv.1.set, properMembers_iff.2 fun e he => ?_⟩
    rcases Assoc.mem_set he with rfl | he
    · exact hm
    · exact properMembers_iff.1 hv.2 e he
  | _ => exact ⟨List.pairwise_singleton _ _, hm, trivial⟩

theorem proper_null : null.Proper := trivial
theorem proper_int (i : Int64) : (int i).Proper := trivial
theorem proper_bool (b : Bool) : (bool b).Proper := trivial
theorem proper_string (s : Bytes) : (string s).Proper := trivial
theorem proper_ofReal (d : Double) : (ofReal d).Proper := trivial

theorem proper_array {α : Type} {f : α → Json} {l : List α} (h : ∀ a ∈ l, (f a).isReal = false ∧ (f a).Proper) :
    (array (l.map f)).Proper := by
  refine properItems_iff.2 fun v hv => ?_
  obtain ⟨a, ha, rfl⟩ := List.mem_map.1 hv
  exact h a ha

theorem Proper.ite {condition : Prop} [Decidable condition] {a b : Json} (ha : a.Proper) (hb : b.Proper) :
    (if condition then a else b).Proper := by
  split
  · exact ha
  · exact hb

end Json

end Wnc
