/-
The bytes that a list of parts is hashed as. They give the list back, but for one slip: the mark of a part too long for its
length prefix is also the length of the longest part that fits, so such a part can spell out the digest of a longer one
and the parts behind it.
-/
import Wnc.Core.HashStream

namespace Wnc

open Lib

/-! ## Short parts -/

/-- A part that is short is fed as its length and itself. -/
theorem partInput_short {part : Bytes} (h : part.length ≤ 0xFFFFFFFF) : partInput part = writeBe 4 part.length ++ part := by
  rw [partInput, if_neg (not_lt.2 h)]

/-- Short parts can be told from the bytes they are fed as, whatever stands behind them. -/
theorem partInput_append_inj {x y xs ys : Bytes} (hx : x.length ≤ 0xFFFFFFFF) (hy : y.length ≤ 0xFFFFFFFF)
    (h : partInput x ++ xs = partInput y ++ ys) : x = y ∧ xs = ys := by
  rw [partInput_short hx, partInput_short hy, List.append_assoc, List.append_assoc] at h
  obtain ⟨hlength, hrest⟩ := List.append_inj h (by rw [length_writeBe, length_writeBe])
  have hvalue := congrArg readBe hlength
  rw [readBe_writeBe (by omega), readBe_writeBe (by omega)] at hvalue
  exact List.append_inj hrest hvalue

/-- So can lists of them. -/
theorem flatMap_partInput_inj : ∀ {xs ys : List Bytes}, (∀ x ∈ xs, x.length ≤ 0xFFFFFFFF) →
    (∀ y ∈ ys, y.length ≤ 0xFFFFFFFF) → xs.flatMap partInput = ys.flatMap partInput → xs = ys
  | [], [], _, _, _ => rfl
  | [], y :: ys, _, hy, h => by
    rw [List.flatMap_nil, List.flatMap_cons, partInput_short (hy y List.mem_cons_self)] at h
    have hlength := congrArg List.length h
    simp only [List.length_nil, List.length_append, length_writeBe] at hlength
    omega
  | x :: xs, [], hx, _, h => by
    rw [List.flatMap_nil, List.flatMap_cons, partInput_short (hx x List.mem_cons_self)] at h
    have hlength := congrArg List.length h
    simp only [List.length_nil, List.length_append, length_writeBe] at hlength
    omega
  | x :: xs, y :: ys, hx, hy, h => by
    obtain ⟨hxs, hx⟩ := And.intro (List.forall_mem_of_forall_mem_cons hx) (hx x List.mem_cons_self)
    obtain ⟨hys, hy⟩ := And.intro (List.forall_mem_of_forall_mem_cons hy) (hy y List.mem_cons_self)
    rw [List.flatMap_cons, List.flatMap_cons] at h
    obtain ⟨rfl, hrest⟩ := partInput_append_inj hx hy h
    rw [flatMap_partInput_inj hxs hys hrest]

/-! ## Lists of any parts -/

/-- A part too long for a length prefix is fed as a mark and its digest. -/
theorem partInput_long {part : Bytes} (h : 0xFFFFFFFF < part.length) :
    partInput part = [0xFF, 0xFF, 0xFF, 0xFF] ++ (sha256 part).bytes := by
  rw [partInput, if_pos h]

theorem length_partInput_pos (part : Bytes) : 0 < (partInput part).length := by
  unfold partInput
  split
  · simp
  · simp

/-- The longest part that fits its prefix, spelling out a longer part by its digest and the parts behind that one. -/
structure Mistaken (part : Bytes) (parts : List Bytes) (long : Bytes) (parts' : List Bytes) : Prop where
  fits : part.length = 0xFFFFFFFF
  exceeds : 0xFFFFFFFF < long.length
  spelled : ∃ rest, part = (sha256 long).bytes ++ rest ∧
    rest ++ parts.flatMap partInput = parts'.flatMap partInput

/-- Two lists that go apart with such a part. -/
def Ambiguous (xs ys : List Bytes) : Prop :=
  ∃ common part parts long parts', Mistaken part parts long parts' ∧
    (xs = common ++ part :: parts ∧ ys = common ++ long :: parts' ∨
      ys = common ++ part :: parts ∧ xs = common ++ long :: parts')

theorem Ambiguous.symm {xs ys : List Bytes} (h : Ambiguous xs ys) : Ambiguous ys xs := by
  obtain ⟨common, part, parts, long, parts', hm, h⟩ := h
  exact ⟨common, part, parts, long, parts', hm, h.symm⟩

theorem Ambiguous.cons {xs ys : List Bytes} (x : Bytes) (h : Ambiguous xs ys) : Ambiguous (x :: xs) (x :: ys) := by
  obtain ⟨common, part, parts, long, parts', hm, h⟩ := h
  refine ⟨x :: common, part, parts, long, parts', hm, ?_⟩
  rcases h with ⟨rfl, rfl⟩ | ⟨rfl, rfl⟩
  · exact .inl ⟨rfl, rfl⟩
  · exact .inr ⟨rfl, rfl⟩

/-- A part that fits and one that does not are fed alike only when the first spells the other out. -/
theorem mistaken_of_input {x y : Bytes} {xs ys : List Bytes} (hx : x.length ≤ 0xFFFFFFFF) (hy : 0xFFFFFFFF < y.length)
    (h : (x :: xs).flatMap partInput = (y :: ys).flatMap partInput) : Mistaken x xs y ys := by
  rw [List.flatMap_cons, List.flatMap_cons, partInput_short hx, partInput_long hy, List.append_assoc,
    List.append_assoc] at h
  obtain ⟨hlength, hrest⟩ := List.append_inj h (by rw [length_writeBe]; rfl)
  have hvalue := congrArg readBe hlength
  have hmark : readBe [0xFF, 0xFF, 0xFF, 0xFF] = 0xFFFFFFFF := by decide
  rw [readBe_writeBe (by omega), hmark] at hvalue
  have hdigest := (sha256 y).length_eq
  have hprefix : (sha256 y).bytes <+: x :=
    List.prefix_of_prefix_length_le ⟨_, hrest.symm⟩ ⟨_, rfl⟩ (by omega)
  obtain ⟨rest, rfl⟩ := hprefix
  rw [List.append_assoc] at hrest
  exact ⟨hvalue, hy, rest, rfl, List.append_cancel_left hrest⟩

theorem Mistaken.input {part long : Bytes} {parts parts' : List Bytes} (h : Mistaken part parts long parts') :
    (part :: parts).flatMap partInput = (long :: parts').flatMap partInput := by
  obtain ⟨hfits, hexceeds, rest, hpart, hrest⟩ := h
  have hmark : writeBe 4 0xFFFFFFFF = [0xFF, 0xFF, 0xFF, 0xFF] := by decide
  rw [List.flatMap_cons, List.flatMap_cons, partInput_short (by omega), partInput_long hexceeds, hfits, hmark,
    List.append_assoc, List.append_assoc, ← hrest, hpart, List.append_assoc]

theorem eq_of_input : ∀ {xs ys : List Bytes},
    (∀ x ∈ xs, ∀ y ∈ ys, 0xFFFFFFFF < x.length → 0xFFFFFFFF < y.length → sha256 x = sha256 y → x = y) →
      ¬Ambiguous xs ys → xs.flatMap partInput = ys.flatMap partInput → xs = ys
  | [], [], _, _, _ => rfl
  | [], y :: ys, _, _, h => by
    have hpos := length_partInput_pos y
    have hlength := congrArg List.length h
    rw [List.flatMap_cons, List.length_append, List.flatMap_nil, List.length_nil] at hlength
    omega
  | x :: xs, [], _, _, h => by
    have hpos := length_partInput_pos x
    have hlength := congrArg List.length h
    rw [List.flatMap_cons, List.length_append, List.flatMap_nil, List.length_nil] at hlength
    omega
  | x :: xs, y :: ys, hfree, hclear, h => by
    -- the tails are equal when the heads are
    have htail : x = y → xs.flatMap partInput = ys.flatMap partInput → x :: xs = y :: ys := by
      rintro rfl htails
      rw [eq_of_input (fun a ha b hb => hfree a (List.mem_cons_of_mem _ ha) b (List.mem_cons_of_mem _ hb))
        (fun hambiguous => hclear (hambiguous.cons x)) htails]
    by_cases hx : 0xFFFFFFFF < x.length
    · by_cases hy : 0xFFFFFFFF < y.length
      · rw [List.flatMap_cons, List.flatMap_cons, partInput_long hx, partInput_long hy, List.append_assoc,
          List.append_assoc] at h
        obtain ⟨hdigest, hrest⟩ := List.append_inj (List.append_cancel_left h)
          ((sha256 x).length_eq.trans (sha256 y).length_eq.symm)
        exact htail (hfree x List.mem_cons_self y List.mem_cons_self hx hy (Digest.ext hdigest)) hrest
      · exact absurd ⟨[], y, ys, x, xs, mistaken_of_input (by omega) hx h.symm, .inr ⟨rfl, rfl⟩⟩ hclear
    · by_cases hy : 0xFFFFFFFF < y.length
      · exact absurd ⟨[], x, xs, y, ys, mistaken_of_input (by omega) hy h, .inl ⟨rfl, rfl⟩⟩ hclear
      · rw [List.flatMap_cons, List.flatMap_cons] at h
        obtain ⟨heq, hrest⟩ := partInput_append_inj (by omega) (by omega) h
        exact htail heq hrest

/-- Apart from collisions of long parts, lists that are fed alike are equal exactly when they are not ambiguous. -/
theorem parts_bound_iff {xs ys : List Bytes}
    (hfree : ∀ x ∈ xs, ∀ y ∈ ys, 0xFFFFFFFF < x.length → 0xFFFFFFFF < y.length → sha256 x = sha256 y → x = y) :
    (xs.flatMap partInput = ys.flatMap partInput → xs = ys) ↔ ¬Ambiguous xs ys := by
  constructor
  · rintro h ⟨common, part, parts, long, parts', hm, happ⟩
    have hne : part :: parts ≠ long :: parts' := by
      intro heq
      have hlength := hm.fits
      rw [(List.cons.inj heq).1] at hlength
      exact absurd hm.exceeds (by omega)
    rcases happ with ⟨rfl, rfl⟩ | ⟨rfl, rfl⟩
    · exact hne (List.append_cancel_left (h (by rw [List.flatMap_append, List.flatMap_append, hm.input])))
    · exact hne (List.append_cancel_left (h (by rw [List.flatMap_append, List.flatMap_append, hm.input]))).symm
  · exact eq_of_input hfree

/-- Lists that share 4 GiB of zeros. -/
theorem parts_bound_iff_zeros :
    (([List.replicate 4294967296 0, [1]] : List Bytes).flatMap partInput =
      ([List.replicate 4294967296 0, [2]] : List Bytes).flatMap partInput →
        ([List.replicate 4294967296 0, [1]] : List Bytes) = [List.replicate 4294967296 0, [2]]) ↔
      ¬Ambiguous [List.replicate 4294967296 0, [1]] [List.replicate 4294967296 0, [2]] := by
  refine parts_bound_iff fun x hx y hy hxlong hylong _ => ?_
  generalize List.replicate 4294967296 (0 : UInt8) = zeros at hx hy
  have hone : ∀ c : UInt8, ¬0xFFFFFFFF < [c].length := fun c => by rw [List.length_singleton]; omega
  rcases List.mem_pair.1 hx with rfl | rfl
  · rcases List.mem_pair.1 hy with rfl | rfl
    · rfl
    · exact absurd hylong (hone 2)
  · exact absurd hxlong (hone 1)

/-- The longest part that fits can spell out a longer part and one behind it. -/
theorem mistaken_of_length (long fill : Bytes) (hlong : 0xFFFFFFFF < long.length) (hfill : fill.length + 36 = 0xFFFFFFFF) :
    Mistaken ((sha256 long).bytes ++ partInput fill) [] long [fill] := by
  have hdigest := (sha256 long).length_eq
  refine ⟨?_, hlong, partInput fill, rfl, ?_⟩
  · rw [List.length_append, partInput_short (by omega), List.length_append, length_writeBe]
    omega
  · rw [List.flatMap_nil, List.flatMap_cons, List.flatMap_nil]

/-- 4 GiB of zeros, and the zeros that fill up the part that spells them out. -/
theorem parts_ambiguous : ¬∀ xs ys : List Bytes,
    (∀ x ∈ xs, ∀ y ∈ ys, 0xFFFFFFFF < x.length → 0xFFFFFFFF < y.length → sha256 x = sha256 y → x = y) →
      xs.flatMap partInput = ys.flatMap partInput → xs = ys := by
  intro h
  have hm := mistaken_of_length (List.replicate 4294967296 0) (List.replicate 4294967259 0)
    (by rw [List.length_replicate]; omega) (by rw [List.length_replicate])
  generalize List.replicate 4294967296 (0 : UInt8) = long at hm
  generalize List.replicate 4294967259 (0 : UInt8) = fill at hm
  have heq := h _ _ (fun x hx _ _ hlong => ?_) hm.input
  · cases (List.cons.inj heq).2
  · rw [List.mem_singleton.1 hx, hm.fits] at hlong
    omega

end Wnc
