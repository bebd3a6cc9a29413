/-
Values as the constructors of a document leave them: no real number is a zero with a sign, however deep it stands.
Everything that is decoded is such a value, and so is everything that is put together of them.
-/
import Wnc.Core.JsonObject
import Wnc.Core.JsonRoundTrip

namespace Wnc

open Lib

namespace Json

mutual

/-- No zero in a value has a sign. -/
def Constructed : Json → Prop
  | .real d => d.magnitude = 0 → d = .zero
  | .array items => ConstructedItems items
  | .object members => ConstructedMembers members
  | _ => True

def ConstructedItems : List Json → Prop
  | [] => True
  | v :: rest => Constructed v ∧ ConstructedItems rest

def ConstructedMembers : List (Bytes × Json) → Prop
  | [] => True
  | (_, v) :: rest => Constructed v ∧ ConstructedMembers rest

end

theorem constructedItems_iff {items : List Json} : ConstructedItems items ↔ ∀ v ∈ items, v.Constructed := by
  induction items with
  | nil => simp [ConstructedItems]
  | cons v items ih => rw [ConstructedItems, ih, List.forall_mem_cons]

theorem constructedMembers_iff {members : List (Bytes × Json)} :
    ConstructedMembers members ↔ ∀ e ∈ members, e.2.Constructed := by
  induction members with
  | nil => simp [ConstructedMembers]
  | cons e members ih =>
    obtain ⟨key, v⟩ := e
    rw [ConstructedMembers, ih, List.forall_mem_cons]

theorem Constructed.find {v w : Json} {key : Bytes} (h : v.Constructed) (hf : v.find key = some w) : w.Constructed := by
  cases v with
  | object members => exact constructedMembers_iff.1 h _ (Assoc.mem_of_find hf)
  | _ => cases hf

theorem constructed_ofReal (d : Double) (hf : d.isFinite = true) : (ofReal d).Constructed := by
  unfold ofReal
  split
  · exact fun _ => rfl
  · rename_i hne
    exact fun h0 => absurd ((Double.eq_zero_iff hf).2 h0) hne

theorem Constructed.put {v member : Json} (h : v.Constructed) (hm : member.Constructed) (key : String) :
    (v.put key member).Constructed := by
  have hset : ∀ members : List (Bytes × Json), ConstructedMembers members →
      ConstructedMembers (Assoc.set (utf8 key) member members) := by
    intro members hmembers
    rw [constructedMembers_iff] at hmembers ⊢
    intro e he
    rcases Assoc.mem_set he with rfl | he
    · exact hm
    · exact hmembers e he
  cases v with
  | object members => exact hset members h
  | _ => exact hset [] trivial

theorem Constructed.null : Json.null.Constructed := trivial

theorem Constructed.string (s : Bytes) : (Json.string s).Constructed := trivial

theorem Constructed.ite {condition : Prop} [Decidable condition] {v w : Json} (hv : v.Constructed) (hw : w.Constructed) :
    (if condition then v else w).Constructed := by
  split
  · exact hv
  · exact hw

theorem constructed_array {α : Type} {l : List α} {f : α → Json} (h : ∀ a ∈ l, (f a).Constructed) :
    (array (l.map f)).Constructed := by
  refine constructedItems_iff.2 fun v hv => ?_
  obtain ⟨a, ha, rfl⟩ := List.mem_map.1 hv
  exact h a ha

mutual

/-- What is decoded is such a value. -/
theorem Decoded.constructed {o : JsonDecodeOptions} : ∀ {depth : Nat} {v : Json}, v.Decoded o depth → v.Constructed
  | _, .real _, h => h.2.2
  | _, .array _, h => decodedItems_constructed h.2
  | _, .object _, h => decodedMembers_constructed h.2.2
  | _, .null, _ => trivial
  | _, .bool _, _ => trivial
  | _, .int _, _ => trivial
  | _, .string _, _ => trivial

theorem decodedItems_constructed {o : JsonDecodeOptions} : ∀ {depth : Nat} {items : List Json},
    DecodedItems o depth items → ConstructedItems items
  | _, [], _ => trivial
  | _, _ :: _, h => ⟨h.1.constructed, decodedItems_constructed h.2⟩

theorem decodedMembers_constructed {o : JsonDecodeOptions} : ∀ {depth : Nat} {members : List (Bytes × Json)},
    DecodedMembers o depth members → ConstructedMembers members
  | _, [], _ => trivial
  | _, (_, _) :: _, h => ⟨h.2.1.constructed, decodedMembers_constructed h.2.2⟩

end

end Json

end Wnc
