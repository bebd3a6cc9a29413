/-
Texts that a decoder reads. The bounds of a decoder hold for every part of a value that it reads, and a document put
together of texts and of numbers whose text fits a literal is within them.
-/
import Wnc.Contract.Digest

namespace Wnc

open Lib

/-! ## Numbers -/

/-- What equals zero has no magnitude. -/
theorem Lib.Double.isFinite_of_eq_zero {d : Double} (h : d.eq .zero = true) : d.isFinite = true := by
  have hnan : d.isNan = false := by
    simp only [Double.eq, Bool.and_eq_true, Bool.not_eq_true'] at h
    exact h.1.1
  have hzero : d.order = 0 := (Double.eq_iff hnan (by decide)).1 h
  have hscaled : Double.scaled d.magnitude = 0 := by
    unfold Double.order at hzero
    split at hzero <;> omega
  have hmagnitude : d.magnitude = 0 := Double.scaled_strictMono.injective (hscaled.trans Double.scaled_zero.symm)
  rw [Double.isFinite, hmagnitude]
  decide

/-- The canonical text of a number fits a number literal. -/
def Lib.Double.Fits (d : Double) : Prop := ∃ text, formatCanonicalReal d = some text ∧ text.length ≤ 64

theorem Lib.Double.Fits.isFinite {d : Double} (h : d.Fits) : d.isFinite = true := by
  obtain ⟨text, htext, -⟩ := h
  unfold formatCanonicalReal at htext
  split at htext
  · cases htext
  · rename_i hfinite
    simpa using hfinite

theorem formatCanonicalReal_zero : formatCanonicalReal .zero = some (utf8 "0.0") := rfl

theorem fits_zero : Double.zero.Fits := ⟨_, formatCanonicalReal_zero, by decide⟩

namespace Json

variable {o : JsonDecodeOptions} {depth : Nat}

/-- A zero has the same text whatever its sign is. -/
theorem readable_ofReal_iff {d : Double} : (ofReal d).Readable o depth ↔ depth ≤ o.depthBound ∧ d.Fits := by
  unfold ofReal Readable
  refine and_congr_right fun _ => ?_
  split
  · rename_i hzero
    refine iff_of_true fits_zero ?_
    refine ⟨utf8 "0.0", ?_, by decide⟩
    have hfinite : d.isFinite = true := Double.isFinite_of_eq_zero hzero
    unfold formatCanonicalReal
    rw [if_neg (by rw [hfinite]; decide), if_pos hzero]
  · exact Iff.rfl

/-- What the text of a number reads back as, whatever its sign is. -/
theorem reread_ofReal_canonical {d : Double} (h : d.isFinite = true) : (ofReal d).reread = ofReal d.canonical := by
  rw [ofReal_canonical h]
  unfold ofReal
  split
  · rename_i hzero
    have hz : Double.zero.canonical = .zero := by decide
    rw [Double.canonical_eq_zero ((Double.eq_zero_iff h).1 hzero), reread, hz]
  · rfl

/-! ## Parts of a value that is read -/

theorem readableMembers_iff {members : List (Bytes × Json)} : ReadableMembers o depth members ↔
    ∀ e ∈ members, (Parser.ValidUtf8 e.1 ∧ e.1.length ≤ o.maxStringBytes) ∧ e.2.Readable o (depth + 1) := by
  induction members with
  | nil => simp [ReadableMembers]
  | cons e members ih =>
    obtain ⟨key, v⟩ := e
    rw [ReadableMembers, ih, List.forall_mem_cons, and_assoc, and_assoc, and_assoc]

theorem readableItems_iff {items : List Json} : ReadableItems o depth items ↔ ∀ v ∈ items, v.Readable o (depth + 1) := by
  induction items with
  | nil => simp [ReadableItems]
  | cons v items ih => rw [ReadableItems, ih, List.forall_mem_cons]

theorem Readable.find {v w : Json} {key : Bytes} (h : v.Readable o depth) (hf : v.find key = some w) :
    w.Readable o (depth + 1) := by
  cases v with
  | object members => exact (readableMembers_iff.1 h.2 _ (Assoc.mem_of_find hf)).2
  | _ => cases hf

theorem Readable.items {items : List Json} (h : (array items).Readable o depth) {v : Json} (hv : v ∈ items) :
    v.Readable o (depth + 1) := readableItems_iff.1 h.2 v hv

theorem Readable.ite {condition : Prop} [Decidable condition] {v w : Json} (hv : condition → v.Readable o depth)
    (hw : ¬condition → w.Readable o depth) : (if condition then v else w).Readable o depth := by
  split
  · rename_i h
    exact hv h
  · rename_i h
    exact hw h

/-- The members of a value that is read are read. -/
theorem Decoded.find {v w : Json} {key : Bytes} (h : v.Decoded o depth) (hf : v.find key = some w) :
    w.Decoded o (depth + 1) := by
  cases v with
  | object members => exact (decodedMembers_iff.1 h.2.2 _ (Assoc.mem_of_find hf)).2
  | _ => cases hf

theorem Decoded.items {v w : Json} {items : List Json} (h : v.Decoded o depth) (hi : v.items? = some items)
    (hw : w ∈ items) : w.Decoded o (depth + 1) := by
  cases v with
  | array items' =>
    cases hi
    exact decodedItems_iff.1 h.2 w hw
  | _ => cases hi

/-- A text that is read is valid. -/
theorem Decoded.text {v : Json} {s key : Bytes} (h : v.Decoded o depth) (hf : v.find key = some (.string s)) :
    Parser.ValidUtf8 s := (h.find hf).2.1

end Json

/-! ## Texts within the bound of a string -/

/-- A valid text that fits a string. -/
structure IsText (s : Bytes) : Prop where
  valid : Parser.ValidUtf8 s
  length_le : s.length ≤ maxStringBytes

theorem isText_nil : IsText [] := ⟨.nil, Nat.zero_le _⟩

theorem isText_ascii {s : Bytes} (h : s.all (· < 0x80) = true) (hlen : s.length ≤ maxStringBytes) : IsText s :=
  ⟨validUtf8_ascii h, hlen⟩

/-- Lower case hexadecimal digits are characters of a text. -/
theorem isText_view {tag : Tag} (id : Id tag) : IsText id.view := by
  refine isText_ascii ?_ ((Id.length_view id).le.trans (by decide))
  have hdigit : ∀ v : Fin 16, lowerHexDigit v < 0x80 := by decide
  rw [Id.view, List.all_map, List.all_eq_true]
  exact fun v _ => decide_eq_true (hdigit v)

theorem isText_hex (d : Digest) : IsText d.hex := by
  refine isText_ascii ?_ ((Digest.length_hex d).le.trans (by decide))
  have hdigit : ∀ v : Fin 16, lowerHexDigit v < 0x80 := by decide
  rw [Digest.hex, hexEncode, List.all_map, List.all_eq_true]
  exact fun v _ => decide_eq_true (hdigit v)

namespace JsonDecodeOptions.Roomy

variable {o : JsonDecodeOptions} {depth : Nat}

theorem text (ho : o.Roomy) (h : depth ≤ 8) {s : Bytes} (hs : IsText s) : (Json.string s).Readable o depth :=
  ⟨ho.within h, hs.valid, hs.length_le.trans ho.strings⟩

theorem number (ho : o.Roomy) (h : depth ≤ 8) {d : Double} (hd : d.Fits) : (Json.ofReal d).Readable o depth :=
  Json.readable_ofReal_iff.2 ⟨ho.within h, hd⟩

theorem uint (ho : o.Roomy) (h : depth ≤ 8) {n : UInt64} : (jsonUint n).Readable o depth := ho.within h

theorem mapped (ho : o.Roomy) (h : depth ≤ 8) {α : Type} {l : List α} {f : α → Json}
    (hf : ∀ a ∈ l, (f a).Readable o (depth + 1)) : (Json.array (l.map f)).Readable o depth := by
  refine ⟨ho.within h, Json.readable_items fun v hv => ?_⟩
  obtain ⟨a, ha, rfl⟩ := List.mem_map.1 hv
  exact hf a ha

end JsonDecodeOptions.Roomy

end Wnc
