/-
What the digest of a body tells of it: every field but the identity of the contract, as long as its canonical text is
not cut by the budget of a dump. Of a longer text only what stands before the cut is hashed.
-/
import Wnc.Contract.Canonical
import Wnc.Core.HashStream
import Wnc.Core.JsonConstructed
import Wnc.Core.JsonDistinct
import Wnc.Ledger.Chain
import Wnc.Runtime.Record

namespace Wnc

open Lib

/-! ## Bodies as they are decoded -/

theorem Json.Constructed.items {v : Json} {items : List Json} (h : v.Constructed) (hi : v.items? = some items) :
    ∀ w ∈ items, w.Constructed := by
  cases v with
  | array items' =>
    cases hi
    exact Json.constructedItems_iff.1 h
  | _ => cases hi

/-- A number as it is decoded from a document: finite, not below zero, with no sign when it is zero, and with a
canonical text. -/
structure Lib.Double.Declared (d : Double) : Prop where
  finite : d.isFinite = true
  notBelow : d.lt .zero = false
  unsigned : d.magnitude = 0 → d = .zero
  written : (formatCanonicalReal d).isSome

theorem declared_zero : Double.zero.Declared := ⟨by decide, by decide, fun _ => rfl, rfl⟩

/-- A requirement as it is decoded: its bounds are declared, and are zero when there are none. -/
structure Requirement.Declared (r : Requirement) : Prop where
  target : r.target.Declared
  minimum : r.minimum.Declared
  none : r.hasNumeric = false → r.target = .zero ∧ r.minimum = .zero

/-- A body as it is decoded: a scope without a rank has the rank zero. -/
structure ContractBody.Declared (b : ContractBody) : Prop where
  scopes : ∀ s ∈ b.scopes, s.hasRank = false → s.rank = 0
  requirements : ∀ r ∈ b.requirements, r.Declared

theorem Lib.Double.nearest_le_index (num den : Nat) : Double.nearest num den ≤ Double.index (num * Double.one / den) + 1 := by
  unfold Double.nearest
  simp only
  split
  · exact Nat.le_succ _
  · split
    · exact le_rfl
    · have := Nat.mod_lt (Double.index (num * Double.one / den)) (show 0 < 2 by decide)
      omega

/-- An integer of 64 bits that is not zero is converted to a number that is not zero. -/
theorem magnitude_ofInt {i : Int} (hi : i ≠ 0) (hbound : i.natAbs ≤ 2 ^ 63) : (Double.ofInt i).magnitude ≠ 0 := by
  have hone : 1 ≤ i.natAbs := by omega
  have hlow : Double.index Double.one ≤ Double.index (i.natAbs * Double.one / 1) :=
    Double.index_mono (by rw [Nat.div_one]; exact Nat.le_mul_of_pos_left _ hone)
  have hhigh : Double.index (i.natAbs * Double.one / 1) ≤ Double.index (2 ^ 63 * Double.one) :=
    Double.index_mono (by rw [Nat.div_one]; exact Nat.mul_le_mul_right _ hbound)
  have hpos : 0 < Double.index Double.one := by decide +kernel
  have hfits : Double.index (2 ^ 63 * Double.one) + 1 < 2 ^ 63 := by decide +kernel
  have hnearest := Double.index_le_nearest i.natAbs 1
  have hnearest' := Double.nearest_le_index i.natAbs 1
  unfold Double.ofInt Double.ofMagnitude
  rw [dif_pos (by omega)]
  show Double.nearest i.natAbs 1 ≠ 0
  omega

theorem asReal_unsigned {v : Json} {d : Double} (hv : v.Constructed) (h : v.asReal = some d) : d.magnitude = 0 → d = .zero := by
  cases v with
  | int i =>
    cases h
    intro h0
    have hi : i.toInt = 0 := by
      by_contra hi
      exact magnitude_ofInt hi (by have := i.toInt_lt; have := i.le_toInt; omega) h0
    rw [hi, Double.ofInt, Int.natAbs_zero, Double.nearest_zero_left 1 Nat.one_pos]
    rfl
  | real e =>
    cases h
    exact hv
  | _ => cases h

/-- A number between zero and the largest parameter has a canonical text. -/
theorem written_of_range {d : Double} (hf : d.isFinite = true) (hzero : d.lt .zero = false)
    (hmax : (Double.ofInt maxNumericParameter).lt d = false) : (formatCanonicalReal d).isSome := by
  have hnan := Double.not_isNan_of_isFinite hf
  have hlarge : (Double.ofInt maxNumericParameter).isNan = false ∧
      (Double.ofInt maxNumericParameter).order =
        Double.scaled (Double.ofInt maxNumericParameter).magnitude ∧
      (Double.ofInt maxNumericParameter).magnitude ≤ Double.index (10 ^ 16 * Double.one) := by decide +kernel
  have hscaled : (Double.scaled d.magnitude : Int) ≤ Double.scaled (Double.ofInt maxNumericParameter).magnitude := by
    rw [Double.lt_eq_false_iff hlarge.1 hnan, Double.le_iff hnan hlarge.1, hlarge.2.1] at hmax
    rw [Double.lt_eq_false_iff hnan (by decide), Double.le_iff (by decide) hnan] at hzero
    have horder : Double.zero.order = 0 := by decide
    unfold Double.order at hmax hzero
    split at hmax
    · rename_i hnegative
      rw [if_pos hnegative] at hzero
      unfold Double.order at horder
      omega
    · exact hmax
  refine isSome_formatCanonicalReal hf (le_trans ?_ hlarge.2.2)
  exact Double.scaled_strictMono.le_iff_le.1 (Int.ofNat_le.1 hscaled)

theorem readReal_declared {object : Json} {field : String} {path : Bytes} {d : Double}
    (hobject : object.Constructed) (h : readReal object field path maxNumericParameter = .ok (some d)) :
    d.Declared := by
  unfold readReal at h
  split at h
  · cases h
  · rename_i value hfind
    split at h
    · cases h
    · rename_i raw hraw
      split at h
      · cases h
      · rename_i hrange
        cases h
        simp only [Bool.or_eq_true, Bool.not_eq_true', not_or, Bool.not_eq_false, Bool.not_eq_true] at hrange
        obtain ⟨⟨hfinite, hbelow⟩, hmax⟩ := hrange
        exact ⟨hfinite, hbelow, asReal_unsigned (hobject.find hfind) hraw, written_of_range hfinite hbelow hmax⟩

theorem decodeBounds_declared {value : Json} {path : Bytes} {kind : RequirementKind}
    {target minimum : Double} (hvalue : value.Constructed)
    (h : decodeBounds value path kind = .ok (some (target, minimum))) : target.Declared ∧ minimum.Declared := by
  unfold decodeBounds at h
  simp only [bind_eq_ok] at h
  obtain ⟨target', ht, minimum', hm, h⟩ := h
  cases target' with
  | none =>
    cases minimum' with
    | none => cases h
    | some m => cases h
  | some t =>
    cases minimum' with
    | none => cases h
    | some m =>
      simp only [bind_eq_ok] at h
      obtain ⟨_, -, h⟩ := h
      cases h
      exact ⟨readReal_declared hvalue ht, readReal_declared hvalue hm⟩

theorem decodeRequirement_declared {index : Nat} {value : Json} {r : Requirement}
    (hvalue : value.Constructed) (h : decodeRequirement value index = .ok r) : r.Declared := by
  unfold decodeRequirement at h
  simp only [bind_eq_ok] at h
  obtain ⟨_, -, scope, -, kind, -, strength, -, key, -, text, -, preferred, -, bounds, hbounds, members, -, attributes, -,
    id, -, h⟩ := h
  cases h
  cases bounds with
  | none => exact ⟨declared_zero, declared_zero, fun _ => ⟨rfl, rfl⟩⟩
  | some bounds =>
    obtain ⟨htarget, hminimum⟩ := decodeBounds_declared hvalue hbounds
    exact ⟨htarget, hminimum, fun h => by cases h⟩

theorem decodeScope_declared {index : Nat} {value : Json} {s : Scope} (h : decodeScope value index = .ok s) :
    s.hasRank = false → s.rank = 0 := by
  unfold decodeScope at h
  simp only [bind_eq_ok] at h
  obtain ⟨_, -, name, -, _, -, parent, -, rank, hrank, h⟩ := h
  cases h
  intro hnone
  unfold readUint at hrank
  rw [Option.isSome_eq_false_iff, Option.isNone_iff_eq_none] at hnone
  rw [hnone] at hrank
  cases hrank
  rfl

/-- What every item decodes to, all decoded items have. -/
theorem decodeEach_all {α : Type} {decode : Json → Nat → Except Failure α} {P : α → Prop} :
    ∀ {items : List Json} {index : Nat} {vs : List α}, (∀ item ∈ items, ∀ i v, decode item i = .ok v → P v) →
      decodeEach decode items index = .ok vs → ∀ v ∈ vs, P v
  | [], _, _, _, h => by cases h; exact fun _ hv => nomatch hv
  | item :: items, index, vs, hall, h => by
    rw [decodeEach] at h
    simp only [bind_eq_ok] at h
    obtain ⟨v, hv, vs', hvs, hout⟩ := h
    cases hout
    rw [List.forall_mem_cons]
    exact ⟨hall item List.mem_cons_self index v hv, decodeEach_all (fun b hb => hall b (List.mem_cons_of_mem _ hb)) hvs⟩

theorem decodeBounded_all {α : Type} {body : Json} {field : String} {bound : Nat} {missing exceeded : String} {code : Code}
    {decode : Json → Nat → Except Failure α} {vs : List α} {P : α → Prop}
    (hall : ∀ items, (body.find (utf8 field)).bind Json.items? = some items → ∀ item ∈ items, ∀ i v,
      decode item i = .ok v → P v) (h : decodeBounded body field bound missing code exceeded decode = .ok vs) :
    ∀ v ∈ vs, P v := by
  unfold decodeBounded at h
  split at h
  · cases h
  · rename_i items hitems
    simp only [bind_eq_ok] at h
    obtain ⟨_, -, h⟩ := h
    exact decodeEach_all (hall items hitems) h

theorem decodeBody_declared {value : Json} {b : ContractBody} (hvalue : value.Constructed) (h : decodeBody value = .ok b) : b.Declared := by
  unfold decodeBody at h
  simp only [bind_eq_ok] at h
  obtain ⟨version, -, _, -, _, -, _, -, workload, -, contractId, -, generation, -, policyGeneration, -,
    ⟨major, minor, patch⟩, -, description, -, scopes, hscopes, requirements, hrequirements, h⟩ := h
  cases h
  constructor
  · exact decodeBounded_all (fun _ _ _ _ _ _ hs => decodeScope_declared hs) hscopes
  · refine decodeBounded_all (fun items hitems item hitem _ _ hr => ?_) hrequirements
    obtain ⟨array, hfind, harray⟩ := Option.bind_eq_some_iff.1 hitems
    exact decodeRequirement_declared ((hvalue.find hfind).items harray item hitem) hr

theorem contractFromJson_declared {value : Json} {c : Contract} (hvalue : value.Constructed)
    (h : contractFromJson value = .ok c) : c.body.Declared := by
  unfold contractFromJson at h
  rw [bind_eq_ok] at h
  obtain ⟨_, -, h⟩ := h
  split at h
  · rename_i members hfind
    simp only [bind_eq_ok] at h
    obtain ⟨body, hbody, envelope, -, supersedes, -, supersedesDigest, -, digest, -, h⟩ := h
    cases h
    exact decodeBody_declared (hvalue.find hfind) hbody
  · cases h

theorem contractFromText_declared {text : Bytes} {o : JsonDecodeOptions} {c : Contract}
    (h : contractFromText text o = .ok c) : c.body.Declared := by
  unfold contractFromText at h
  split at h
  · cases h
  · rename_i value hvalue
    exact contractFromJson_declared (jsonDecode_decoded hvalue).constructed h

/-! ## Canonical bodies -/

theorem canonicalize_declared {c : Contract} (h : c.body.Declared) : (canonicalize c).body.Declared := by
  constructor
  · intro s hs
    exact h.scopes s (mem_sortBy.1 hs)
  · intro r hr
    obtain ⟨q, hq, rfl⟩ := List.mem_map.1 (mem_sortBy.1 hr)
    have hdeclared := h.requirements q hq
    exact ⟨hdeclared.target, hdeclared.minimum, hdeclared.none⟩

/-! ## What is printed of a body -/

/-- Two bodies that are the same but for the identity of the contract. -/
def ContractBody.SameContent (a b : ContractBody) : Prop := b = { a with contractId := b.contractId }

namespace Json

@[simp] theorem printed_string (s : Bytes) : (string s).printed = string s := rfl
@[simp] theorem printed_int (i : Int64) : (int i).printed = int i := rfl
@[simp] theorem printed_array (items : List Json) : (array items).printed = array (items.map printed) := by
  rw [printed, printedItems_eq]

@[simp] theorem printed_put (value member : Json) (key : String) :
    (value.put key member).printed = value.printed.put key member.printed := by
  cases value with
  | object members =>
    show Json.object (printedMembers (Assoc.set (utf8 key) member members)) =
      .object (Assoc.set (utf8 key) member.printed (printedMembers members))
    rw [printedMembers_eq, printedMembers_eq, map_assocSet]
  | _ => rfl

/-- A text that is left out when it is empty. -/
theorem optional_string {s t : Bytes}
    (h : (if s ≠ [] then some (string s) else none).map printed = (if t ≠ [] then some (string t) else none).map printed) :
    s = t := by
  by_cases hs : s = []
  · by_cases ht : t = []
    · rw [hs, ht]
    · rw [if_neg (fun hne => hne hs), if_pos ht] at h
      cases h
  · by_cases ht : t = []
    · rw [if_pos hs, if_neg (fun hne => hne ht)] at h
      cases h
    · rw [if_pos hs, if_pos ht] at h
      cases h
      rfl

/-- A list that is left out when it is empty. -/
theorem optional_list {α : Type} {l m : List α} {f : List α → Json}
    (hf : (f l).printed = (f m).printed → l = m)
    (h : (if l ≠ [] then some (f l) else none).map printed = (if m ≠ [] then some (f m) else none).map printed) :
    l = m := by
  by_cases hl : l = []
  · by_cases hm : m = []
    · rw [hl, hm]
    · rw [if_neg (fun hne => hne hl), if_pos hm] at h
      cases h
  · by_cases hm : m = []
    · rw [if_pos hl, if_neg (fun hne => hne hm)] at h
      cases h
    · rw [if_pos hl, if_pos hm] at h
      exact hf (Option.some.inj h)

end Json

/-! ## Numbers, requirements and scopes -/

theorem ofReal_declared {d : Double} (h : d.Declared) : Json.ofReal d = .real d := by
  unfold Json.ofReal
  split
  · rename_i hzero
    rw [← h.unsigned ((Double.eq_zero_iff h.finite).1 hzero)]
  · rfl

/-- A declared number is told by its text. -/
theorem printed_declared {d : Double} (h : d.Declared) : d.printed = d := by
  unfold Double.printed
  rw [if_pos h.written, Double.canonical_of_not_lt h.finite h.notBelow]
  split
  · rename_i hzero
    rw [h.unsigned ((Double.eq_zero_iff h.finite).1 hzero)]
  · rfl

/-- A function that tells the elements of two lists apart tells the lists apart. -/
theorem eq_of_map_eq {α β : Type} {f : α → β} : ∀ {l m : List α}, (∀ a ∈ l, ∀ b ∈ m, f a = f b → a = b) →
    l.map f = m.map f → l = m
  | [], [], _, _ => rfl
  | a :: l, b :: m, hf, h => by
    obtain ⟨hhead, htail⟩ := List.cons.inj h
    rw [hf a List.mem_cons_self b List.mem_cons_self hhead,
      eq_of_map_eq (fun x hx y hy => hf x (List.mem_cons_of_mem _ hx) y (List.mem_cons_of_mem _ hy)) htail]

theorem printed_membersToJson {l m : List RequirementId} (h : (membersToJson l).printed = (membersToJson m).printed) :
    l = m := by
  unfold membersToJson at h
  rw [Json.printed_array, Json.printed_array, List.map_map, List.map_map] at h
  refine eq_of_map_eq (fun a _ b _ hab => ?_) (Json.array.inj h)
  exact Id.view_injective (Json.string.inj hab)

theorem printed_attributesToJson {l m : List (Bytes × Bytes)}
    (h : (attributesToJson l).printed = (attributesToJson m).printed) : l = m := by
  unfold attributesToJson at h
  rw [Json.printed_array, Json.printed_array, List.map_map, List.map_map] at h
  refine eq_of_map_eq (fun a _ b _ hab => ?_) (Json.array.inj h)
  have hname := Json.found_printed hab "name"
  have hvalue := Json.found_printed hab "value"
  simp [Json.find_put] at hname hvalue
  exact Prod.ext hname hvalue

theorem printed_requirementToJson {r q : Requirement} (hr : r.Declared) (hq : q.Declared)
    (h : (requirementToJson r).printed = (requirementToJson q).printed) : r = q := by
  have found := Json.found_printed h
  have hid : r.id = q.id := by
    have := found "id"
    simp [requirementToJson, Json.find_put, find_ite] at this
    exact Id.view_injective this
  have hscope : r.scope = q.scope := by
    simpa [requirementToJson, Json.find_put, find_ite] using found "scope"
  have hkind : r.kind = q.kind := by
    have := found "kind"
    simp [requirementToJson, Json.find_put, find_ite] at this
    exact Option.some.inj (by rw [← parseRequirementKind_token, this, parseRequirementKind_token])
  have hstrength : r.strength = q.strength := by
    have := found "strength"
    simp [requirementToJson, Json.find_put, find_ite] at this
    exact Option.some.inj (by rw [← parseRequirementStrength_token, this, parseRequirementStrength_token])
  have hkey : r.key = q.key := by
    simpa [requirementToJson, Json.find_put] using found "key"
  have hvalue : r.value = q.value := by
    refine Json.optional_string ?_
    simpa [requirementToJson, Json.find_put, find_ite, Json.find_null] using found "value"
  have hpreferred : r.preferredValue = q.preferredValue := by
    refine Json.optional_string ?_
    simpa [requirementToJson, Json.find_put, find_ite, Json.find_null] using found "preferred_value"
  have hmembers : r.members = q.members := by
    refine Json.optional_list printed_membersToJson ?_
    simpa [requirementToJson, Json.find_put, find_ite, Json.find_null] using found "members"
  have hattributes : r.attributes = q.attributes := by
    refine Json.optional_list printed_attributesToJson ?_
    simpa [requirementToJson, Json.find_put, find_ite, Json.find_null] using found "attributes"
  -- the bounds are written when there are any
  have htargets := found "target"
  have hminima := found "minimum"
  have htarget : ∀ r : Requirement, (requirementToJson r).find (utf8 "target") =
      if r.hasNumeric then some (.ofReal r.target) else none := fun r => by
    simp [requirementToJson, Json.find_put, find_ite, Json.find_null]
  have hminimum : ∀ r : Requirement, (requirementToJson r).find (utf8 "minimum") =
      if r.hasNumeric then some (.ofReal r.minimum) else none := fun r => by
    simp [requirementToJson, Json.find_put, find_ite, Json.find_null]
  rw [htarget, htarget] at htargets
  rw [hminimum, hminimum] at hminima
  have hbounds : r.hasNumeric = q.hasNumeric ∧ r.target = q.target ∧ r.minimum = q.minimum := by
    cases hn : r.hasNumeric with
    | false =>
      cases hn' : q.hasNumeric with
      | false =>
        obtain ⟨ht, hm⟩ := hr.none hn
        obtain ⟨ht', hm'⟩ := hq.none hn'
        rw [ht, ht', hm, hm']
        exact ⟨rfl, rfl, rfl⟩
      | true =>
        rw [hn, hn'] at htargets
        cases htargets
    | true =>
      cases hn' : q.hasNumeric with
      | false =>
        rw [hn, hn'] at htargets
        cases htargets
      | true =>
        rw [hn, hn', if_pos rfl, if_pos rfl, ofReal_declared hr.target, ofReal_declared hq.target] at htargets
        rw [hn, hn', if_pos rfl, if_pos rfl, ofReal_declared hr.minimum, ofReal_declared hq.minimum] at hminima
        have htarget := Json.real.inj (Option.some.inj htargets)
        have hminimum := Json.real.inj (Option.some.inj hminima)
        rw [printed_declared hr.target, printed_declared hq.target] at htarget
        rw [printed_declared hr.minimum, printed_declared hq.minimum] at hminimum
        exact ⟨rfl, htarget, hminimum⟩
  obtain ⟨hnumeric, htarget, hminimum⟩ := hbounds
  cases r
  cases q
  simp only at hid hscope hkind hstrength hkey hvalue hpreferred hmembers hattributes hnumeric htarget hminimum
  rw [hid, hscope, hkind, hstrength, hkey, hvalue, hpreferred, hmembers, hattributes, hnumeric, htarget, hminimum]

theorem printed_scopeToJson {s t : Scope} (hs : s.hasRank = false → s.rank = 0) (ht : t.hasRank = false → t.rank = 0)
    (h : (scopeToJson s).printed = (scopeToJson t).printed) : s = t := by
  have found := Json.found_printed h
  have hname : s.name = t.name := by
    simpa [scopeToJson, Json.find_put, find_ite] using found "name"
  have hparent : s.parent = t.parent := by
    refine Json.optional_string ?_
    simpa [scopeToJson, Json.find_put, find_ite, Json.find_null] using found "parent"
  have hranks := found "rank"
  have hrank : ∀ s : Scope, (scopeToJson s).find (utf8 "rank") = if s.hasRank then some (jsonUint s.rank.toUInt64) else none :=
    fun s => by simp [scopeToJson, Json.find_put, find_ite, Json.find_null]
  rw [hrank, hrank] at hranks
  have hsame : s.hasRank = t.hasRank ∧ s.rank = t.rank := by
    cases hn : s.hasRank with
    | false =>
      cases hn' : t.hasRank with
      | false => exact ⟨rfl, by rw [hs hn, ht hn']⟩
      | true =>
        rw [hn, hn'] at hranks
        cases hranks
    | true =>
      cases hn' : t.hasRank with
      | false =>
        rw [hn, hn'] at hranks
        cases hranks
      | true =>
        rw [hn, hn', if_pos rfl, if_pos rfl] at hranks
        have hvalue := Json.int.inj (Option.some.inj hranks)
        have h64 : s.rank.toUInt64 = t.rank.toUInt64 := by
          rw [← toUInt64_jsonUint s.rank.toUInt64, hvalue, toUInt64_jsonUint]
        exact ⟨rfl, by rw [← UInt32.toUInt32_toUInt64 s.rank, h64, UInt32.toUInt32_toUInt64]⟩
  cases s
  cases t
  simp only at hname hparent hsame
  obtain ⟨hhas, hrank⟩ := hsame
  rw [hname, hparent, hhas, hrank]

/-! ## Bodies -/

theorem jsonUint_injective {m n : UInt64} (h : jsonUint m = jsonUint n) : m = n := by
  rw [← toUInt64_jsonUint m, Json.int.inj h, toUInt64_jsonUint]

theorem jsonUint32_injective {m n : UInt32} (h : jsonUint m.toUInt64 = jsonUint n.toUInt64) : m = n := by
  rw [← UInt32.toUInt32_toUInt64 m, jsonUint_injective h, UInt32.toUInt32_toUInt64]

theorem printed_workloadToJson {w w' : Workload} (h : (workloadToJson w).printed = (workloadToJson w').printed) : w = w' := by
  have found := Json.found_printed h
  have hid := found "id"
  have hname := found "name"
  have hgeneration := found "generation"
  simp only [workloadToJson, Json.find_put, String.reduceEq, reduceIte] at hid hname hgeneration
  have hid := Id.view_injective (Json.string.inj (Option.some.inj hid))
  have hname := Json.string.inj (Option.some.inj hname)
  have hgeneration := jsonUint_injective (Option.some.inj hgeneration)
  cases w
  cases w'
  simp only at hid hname hgeneration
  rw [hid, hname, hgeneration]

theorem printed_bodyDigestMaterial {a b : ContractBody} (ha : a.Declared) (hb : b.Declared)
    (h : (bodyDigestMaterial a).printed = (bodyDigestMaterial b).printed) : a.SameContent b := by
  have found := Json.found_printed h
  have hschema := found "schema_version"
  have hworkload := found "workload"
  have hgeneration := found "contract_generation"
  have hpolicy := found "policy_generation"
  have hversion := found "version"
  have hdescription := found "description"
  have hscopes := found "scopes"
  have hrequirements := found "requirements"
  simp only [bodyDigestMaterial, contractBodyToJson, Json.find_put, String.reduceEq, reduceIte] at hschema hworkload hgeneration
  simp only [bodyDigestMaterial, contractBodyToJson, Json.find_put, String.reduceEq, reduceIte] at hpolicy hversion hdescription
  simp only [bodyDigestMaterial, contractBodyToJson, Json.find_put, String.reduceEq, reduceIte] at hscopes hrequirements
  have hschema := jsonUint32_injective (Option.some.inj hschema)
  have hworkload := printed_workloadToJson (Option.some.inj hworkload)
  have hgeneration := jsonUint_injective (Option.some.inj hgeneration)
  have hpolicy := jsonUint_injective (Option.some.inj hpolicy)
  have hdescription := Json.string.inj (Option.some.inj hdescription)
  have hmajor := Json.found_printed (Option.some.inj hversion) "major"
  have hminor := Json.found_printed (Option.some.inj hversion) "minor"
  have hpatch := Json.found_printed (Option.some.inj hversion) "patch"
  simp only [Json.find_put, String.reduceEq, reduceIte] at hmajor hminor hpatch
  have hmajor := jsonUint32_injective (Option.some.inj hmajor)
  have hminor := jsonUint32_injective (Option.some.inj hminor)
  have hpatch := jsonUint32_injective (Option.some.inj hpatch)
  have hscopes : a.scopes = b.scopes := by
    have hitems := Json.array.inj (Option.some.inj hscopes)
    rw [Json.printedItems_eq, Json.printedItems_eq, List.map_map, List.map_map] at hitems
    exact eq_of_map_eq (fun s hs t ht hst => printed_scopeToJson (ha.scopes s hs) (hb.scopes t ht) hst) hitems
  have hrequirements : a.requirements = b.requirements := by
    have hitems := Json.array.inj (Option.some.inj hrequirements)
    rw [Json.printedItems_eq, Json.printedItems_eq, List.map_map, List.map_map] at hitems
    exact eq_of_map_eq (fun r hr q hq hrq =>
      printed_requirementToJson (ha.requirements r hr) (hb.requirements q hq) hrq) hitems
  unfold ContractBody.SameContent
  cases a
  cases b
  simp only at hschema hworkload hgeneration hpolicy hdescription hmajor hminor hpatch hscopes hrequirements ⊢
  rw [hschema, hworkload, hgeneration, hpolicy, hdescription, hmajor, hminor, hpatch, hscopes, hrequirements]

theorem proper_bodyDigestMaterial (b : ContractBody) : (bodyDigestMaterial b).Proper :=
  (proper_contractBodyToJson b).put (Json.proper_string _) "contract_id"

/-- The bytes hashed for a body. -/
def bodyInput (b : ContractBody) : Bytes := domainInput (utf8 "wnc/v1/contract-body") (bodyDigestMaterial b).dump

/-- A body whose canonical text is longer than the budget of a dump. -/
def ContractBody.Oversized (b : ContractBody) : Prop := maxDocumentBytes * 2 < (bodyDigestMaterial b).text.length

/-- No collision comes between the digests of two bodies: neither of the bytes that are hashed for them nor of their
dumps, which stand for themselves by their digests when they are too long for a part. -/
structure CollisionFreeBodies (a b : ContractBody) : Prop where
  inputs : Ledger.CollisionFree [bodyInput a, bodyInput b]
  dumps : Ledger.CollisionFree [(bodyDigestMaterial a).dump, (bodyDigestMaterial b).dump]

theorem bodyDigest_eq_iff {a b : ContractBody} (hfree : CollisionFreeBodies a b) :
    bodyDigest a = bodyDigest b ↔ (bodyDigestMaterial a).dump = (bodyDigestMaterial b).dump := by
  unfold bodyDigest
  constructor
  · intro h
    rw [digestDomain_eq, digestDomain_eq] at h
    have hinput : bodyInput a = bodyInput b := hfree.inputs _ (by simp) _ (by simp) h
    exact domainInput_injective (hfree.dumps _ (by simp) _ (by simp)) hinput
  · intro h
    rw [h]

/-- Equal dumps are equal texts when one of these is not cut. -/
theorem Json.text_eq_of_dump {v w : Json} (hfits : v.text.length ≤ maxDocumentBytes * 2) (h : v.dump = w.dump) :
    v.text = w.text := by
  have hdump : v.dump = v.text := dumpImpl_of_text _ _ 0 (by rw [Nat.zero_add]; exact hfits)
  rw [← hdump, h, Json.dump_eq_text (by rw [← h, hdump]; exact hfits)]

/-- A text that is not cut tells the content of a body. -/
theorem sameContent_of_dump {a b : ContractBody} (ha : a.Declared) (hb : b.Declared) (hfits : ¬a.Oversized)
    (h : (bodyDigestMaterial a).dump = (bodyDigestMaterial b).dump) : a.SameContent b :=
  printed_bodyDigestMaterial ha hb
    ((Json.text_eq_iff (proper_bodyDigestMaterial a) (proper_bodyDigestMaterial b)).1
      (Json.text_eq_of_dump (not_lt.1 hfits) h))

theorem ContractBody.SameContent.symm {a b : ContractBody} (h : a.SameContent b) : b.SameContent a := by
  unfold SameContent at h ⊢
  rw [h]

/-! ## Bodies that are cut -/

namespace Json

theorem length_string (s : Bytes) : s.length + 2 ≤ (string s).text.length := by
  have hflat : s.length ≤ (s.flatMap escapeChar).length := by
    induction s with
    | nil => exact le_rfl
    | cons c s ih =>
      have := Parser.length_escapeChar_pos c
      rw [List.flatMap_cons, List.length_append, List.length_cons]
      omega
  rw [text, escapedString, List.length_cons, List.length_append, List.length_singleton]
  omega

theorem length_member : ∀ {members : List (Bytes × Json)} {key : Bytes} {v : Json} (first : Bool), (key, v) ∈ members →
    v.text.length ≤ (textMembers members first).length
  | (key', w) :: rest, key, v, first, h => by
    rw [textMembers]
    simp only [List.length_append]
    rcases List.mem_cons.1 h with heq | hrest
    · cases heq
      omega
    · have := length_member false hrest
      omega

/-- What is found in an object is part of its text. -/
theorem length_find {v w : Json} {key : Bytes} (h : v.find key = some w) : w.text.length ≤ v.text.length := by
  cases v with
  | object members =>
    have := length_member true (Assoc.mem_of_find h)
    rw [text, List.length_cons]
    omega
  | _ => cases h

theorem length_items {k : Nat} : ∀ {items : List Json} (first : Bool), (∀ v ∈ items, k ≤ v.text.length) →
    items.length * k ≤ (textItems items first).length
  | [], _, _ => by simp
  | v :: rest, first, h => by
    rw [List.forall_mem_cons] at h
    have := length_items false h.2
    rw [textItems, List.length_cons, Nat.succ_mul]
    simp only [List.length_append]
    omega

/-- Behind a member that takes a dump over its budget nothing is written. -/
theorem dumpMembers_cut {budget : Nat} {key : Bytes} {v : Json} (rest rest' : List (Bytes × Json)) :
    ∀ (before : List (Bytes × Json)) (first : Bool) (size : Nat),
      budget < size + (before.map fun e => e.2.text.length).sum + v.text.length →
      dumpMembers budget (before ++ (key, v) :: rest) first size =
        dumpMembers budget (before ++ (key, v) :: rest') first size
  | [], first, size, h => by
    rw [List.map_nil, List.sum_nil] at h
    rw [List.nil_append, List.nil_append]
    simp only [dumpMembers]
    generalize (if first = true then ([] : Bytes) else [44]) ++ escapedString key ++ [58] = opening
    have hover : size + (opening ++ dumpImpl budget v (size + opening.length)).length > budget := by
      by_contra hwithin
      rw [List.length_append] at hwithin
      have htext := dumpImpl_eq_text budget v (size + opening.length) (by omega)
      rw [htext] at hwithin
      omega
    rw [if_pos hover, if_pos hover]
  | (key', w) :: before, first, size, h => by
    simp only [List.map_cons, List.sum_cons] at h
    rw [List.cons_append, List.cons_append]
    simp only [dumpMembers]
    generalize (if first = true then ([] : Bytes) else [44]) ++ escapedString key' ++ [58] = opening
    by_cases hover : size + (opening ++ dumpImpl budget w (size + opening.length)).length > budget
    · rw [if_pos hover, if_pos hover]
    · rw [List.length_append] at hover
      have htext := dumpImpl_eq_text budget w (size + opening.length) (by omega)
      rw [htext] at hover ⊢
      rw [dumpMembers_cut rest rest' before]
      rw [List.length_append]
      omega

theorem dump_cut {key : Bytes} {v : Json} {before : List (Bytes × Json)}
    (h : maxDocumentBytes * 2 < (before.map fun e => e.2.text.length).sum + v.text.length)
    (rest rest' : List (Bytes × Json)) :
    (object (before ++ (key, v) :: rest)).dump = (object (before ++ (key, v) :: rest')).dump := by
  unfold dump
  rw [dumpImpl, dumpImpl, dumpMembers_cut rest rest' before true (0 + 1) (by omega)]

theorem Readable.put {o : JsonDecodeOptions} {depth : Nat} {value member : Json} {key : String}
    (hv : value.Readable o depth) (hkey : Parser.ValidUtf8 (utf8 key) ∧ (utf8 key).length ≤ o.maxStringBytes)
    (hm : member.Readable o (depth + 1)) : (value.put key member).Readable o depth := by
  have hset : ∀ {members : List (Bytes × Json)}, ReadableMembers o depth members →
      ReadableMembers o depth (Assoc.set (utf8 key) member members) := by
    intro members h
    induction members with
    | nil => exact ⟨hkey, hm, trivial⟩
    | cons e members ih =>
      obtain ⟨key', v⟩ := e
      rw [Assoc.set]
      split
      · exact ⟨hkey, hm, h⟩
      · split
        · exact ⟨hkey, hm, h.2.2⟩
        · exact ⟨h.1, h.2.1, ih h.2.2⟩
  have hdepth := hv.depth
  cases value with
  | object members => exact ⟨hdepth, hset hv.2⟩
  | _ => exact ⟨hdepth, hkey, hm, trivial⟩

theorem readable_items {o : JsonDecodeOptions} {depth : Nat} : ∀ {items : List Json},
    (∀ v ∈ items, v.Readable o (depth + 1)) → ReadableItems o depth items
  | [], _ => trivial
  | v :: rest, h => by
    rw [List.forall_mem_cons] at h
    exact ⟨h.1, readable_items h.2⟩

end Json

theorem validUtf8_ascii : ∀ {s : Bytes}, s.all (· < 0x80) = true → Parser.ValidUtf8 s
  | [], _ => .nil
  | c :: s, h => by
    rw [List.all_cons, Bool.and_eq_true, decide_eq_true_eq] at h
    exact @Parser.ValidUtf8.cons [c] s c.toNat (Parser.decodeUtf8_ascii h.1 []) (validUtf8_ascii h.2)

/-- Options that leave room for the depth and the strings of the documents below. -/
structure JsonDecodeOptions.Roomy (o : JsonDecodeOptions) : Prop where
  depth : 8 ≤ o.depthBound
  strings : 4096 ≤ o.maxStringBytes

namespace JsonDecodeOptions.Roomy

variable {o : JsonDecodeOptions} {depth : Nat}

theorem within (ho : o.Roomy) (h : depth ≤ 8) : depth ≤ o.depthBound := h.trans ho.depth

theorem null (ho : o.Roomy) (h : depth ≤ 8) : Json.null.Readable o depth := ho.within h

theorem int (ho : o.Roomy) (h : depth ≤ 8) {i : Int64} : (Json.int i).Readable o depth := ho.within h

theorem string (ho : o.Roomy) (h : depth ≤ 8) {s : Bytes} (hascii : s.all (· < 0x80) = true) (hlength : s.length ≤ 4096) :
    (Json.string s).Readable o depth :=
  ⟨ho.within h, validUtf8_ascii hascii, hlength.trans ho.strings⟩

theorem repeated (ho : o.Roomy) (h : depth ≤ 8) {m : Nat} {b : UInt8} (hb : b < 0x80) (hm : m ≤ 4096) :
    (Json.string (List.replicate m b)).Readable o depth := by
  refine ho.string h (List.all_eq_true.2 fun a ha => ?_) (by rw [List.length_replicate]; exact hm)
  rw [List.eq_of_mem_replicate ha]
  exact decide_eq_true hb

theorem put (ho : o.Roomy) {value member : Json} {key : String} (hvalue : value.Readable o depth)
    (hkey : (utf8 key).all (· < 0x80) = true ∧ (utf8 key).length ≤ 4096) (hmember : member.Readable o (depth + 1)) :
    (value.put key member).Readable o depth :=
  hvalue.put ⟨validUtf8_ascii hkey.1, hkey.2.trans ho.strings⟩ hmember

end JsonDecodeOptions.Roomy

/-! ### A document that is cut -/

/-- A requirement with a value of 300 characters. -/
def longRequirement : Json :=
  Json.null
    |>.put "scope" (.string (utf8 "s"))
    |>.put "kind" (.string (utf8 "locality"))
    |>.put "strength" (.string (utf8 "required"))
    |>.put "value" (.string (List.replicate 300 97))

def longWorkload (c : UInt8) : Json :=
  Json.null
    |>.put "id" (.string (List.replicate 64 97))
    |>.put "name" (.string [c])
    |>.put "generation" (.int 1)

def longBody (c : UInt8) (n : Nat) : Json :=
  Json.null
    |>.put "schema_version" (.int 1)
    |>.put "workload" (longWorkload c)
    |>.put "contract_id" (.string (List.replicate 64 48))
    |>.put "contract_generation" (.int 1)
    |>.put "scopes" (.array [])
    |>.put "requirements" (.array (List.replicate n longRequirement))

/-- A document with one requirement over and over, for a workload of a given name. -/
def longDocument (c : UInt8) (n : Nat) : Json := Json.null.put "body" (longBody c n)

/-- What the repeated requirement decodes to. -/
def repeatedRequirement : Requirement :=
  { scope := utf8 "s", kind := .locality, strength := .required, value := List.replicate 300 97 }

set_option maxRecDepth 4000 in
theorem decodeRequirement_long (i : Nat) : decodeRequirement longRequirement i = .ok repeatedRequirement := rfl

/-- What decodes item by item decodes as a list. -/
theorem decodeEach_map {α : Type} {decode : Json → Nat → Except Failure α} {f : α → Json} : ∀ {l : List α} {i : Nat},
    (∀ a ∈ l, ∀ i, decode (f a) i = .ok a) → decodeEach decode (l.map f) i = .ok l
  | [], _, _ => rfl
  | a :: l, i, h => by
    rw [List.forall_mem_cons] at h
    rw [List.map_cons, decodeEach, h.1 i]
    show (decodeEach decode (l.map f) (i + 1) >>= fun values => .ok (a :: values)) = _
    rw [decodeEach_map h.2]
    rfl

theorem decodeEach_long (n i : Nat) :
    decodeEach decodeRequirement (List.replicate n longRequirement) i = .ok (List.replicate n repeatedRequirement) := by
  have heach := @decodeEach_map _ decodeRequirement (fun _ => longRequirement) (List.replicate n repeatedRequirement) i
    fun r hr i => by
      rw [List.eq_of_mem_replicate hr]
      exact decodeRequirement_long i
  rwa [List.map_replicate] at heach

def longDecoded (c : UInt8) (n : Nat) : ContractBody :=
  { workload := { id := (Id.parse (List.replicate 64 97)).getD .zero, name := [c], generation := 1 }
    generation := 1
    requirements := List.replicate n repeatedRequirement }

theorem find_longBody (c : UInt8) (n : Nat) :
    ((longBody c n).find (utf8 "requirements")).bind Json.items? = some (List.replicate n longRequirement) := rfl

theorem decodeBody_long {n : Nat} (hn : n ≤ maxRequirementsPerContract) (c : UInt8) :
    decodeBody (longBody c n) = .ok (longDecoded c n) := by
  have hlength : (List.replicate n longRequirement).length ≤ maxRequirementsPerContract := by
    rw [List.length_replicate]
    exact hn
  have hrequire : ∀ code message, require (decide ((List.replicate n longRequirement).length ≤ maxRequirementsPerContract))
      code message = .ok () := fun _ _ => if_pos (decide_eq_true hlength)
  have hdeclared : checkDeclared (longBody c n) "requirements" maxRequirementsPerContract .tooManyRequirements
      "body.requirements exceeds the requirement bound" = .ok () := by
    unfold checkDeclared
    rw [find_longBody]
    exact hrequire _ _
  have hrequirements : decodeBounded (longBody c n) "requirements" maxRequirementsPerContract
      "body.requirements must be an array" .tooManyRequirements "body.requirements exceeds the requirement bound"
      decodeRequirement = .ok (List.replicate n repeatedRequirement) := by
    unfold decodeBounded
    rw [find_longBody]
    simp only [hrequire]
    exact decodeEach_long n 0
  unfold decodeBody
  rw [hdeclared, hrequirements]
  rfl

/-- What the long document decodes to. -/
def longContract (c : UInt8) (n : Nat) : Contract := { body := longDecoded c n, digest := bodyDigest (longDecoded c n) }

theorem contractFromJson_long {n : Nat} (hn : n ≤ maxRequirementsPerContract) (c : UInt8) :
    contractFromJson (longDocument c n) = .ok (longContract c n) := by
  have hdocument : contractFromJson (longDocument c n) =
      (decodeBody (longBody c n) >>= fun body => .ok { body := body, digest := bodyDigest body }) := rfl
  rw [hdocument, decodeBody_long hn]
  rfl

def longOptions (c : UInt8) (n : Nat) : JsonDecodeOptions := { maxBytes := (longDocument c n).text.length }

theorem proper_longDocument (c : UInt8) (n : Nat) : (longDocument c n).Proper := by
  have hitems : ∀ v ∈ List.replicate n longRequirement, v.isReal = false ∧ v.Proper := fun v hv => by
    rw [List.eq_of_mem_replicate hv]
    exact ⟨rfl, (((Json.proper_null.put (Json.proper_string _) _).put (Json.proper_string _) _).put
      (Json.proper_string _) _).put (Json.proper_string _) _⟩
  have hrequirements : (Json.array (List.replicate n longRequirement)).Proper := Json.properItems_iff.2 hitems
  have hscopes : (Json.array []).Proper := trivial
  have hworkload : (longWorkload c).Proper :=
    ((Json.proper_null.put (Json.proper_string _) _).put (Json.proper_string _) _).put (Json.proper_int _) _
  exact Json.proper_null.put ((((((Json.proper_null.put (Json.proper_int _) _).put hworkload _).put
    (Json.proper_string _) _).put (Json.proper_int _) _).put hscopes _).put hrequirements _) _

theorem reread_longDocument (c : UInt8) (n : Nat) : (longDocument c n).reread = longDocument c n := by
  have hitem : longRequirement.reread = longRequirement := rfl
  unfold longDocument longBody longWorkload
  simp only [Json.reread_put, Json.reread_null, Json.reread_int, Json.reread_string, Json.reread_array,
    List.map_replicate, List.map_nil, hitem]

theorem readable_longDocument {c : UInt8} (hc : c < 0x80) (n : Nat) : (longDocument c n).Readable (longOptions c n) 0 := by
  have ho : (longOptions c n).Roomy := ⟨Nat.le_of_ble_eq_true rfl, le_refl 4096⟩
  have hname : (Json.string [c]).Readable (longOptions c n) 3 :=
    ho.string (by decide) (by rw [List.all_cons, decide_eq_true hc]; rfl) (by rw [List.length_singleton]; decide)
  have hitem : longRequirement.Readable (longOptions c n) 3 := by
    refine ho.put (ho.put (ho.put (ho.put (ho.null (by decide)) (by decide) (ho.string (by decide) (by decide) (by decide)))
      (by decide) (ho.string (by decide) (by decide) (by decide)))
      (by decide) (ho.string (by decide) (by decide) (by decide))) (by decide) ?_
    exact ho.repeated (by decide) (by decide) (by decide)
  have hrequirements : (Json.array (List.replicate n longRequirement)).Readable (longOptions c n) 2 :=
    ⟨ho.within (by decide), Json.readable_items fun v hv => by rw [List.eq_of_mem_replicate hv]; exact hitem⟩
  have hscopes : (Json.array []).Readable (longOptions c n) 2 := ⟨ho.within (by decide), trivial⟩
  have hworkload : (longWorkload c).Readable (longOptions c n) 2 :=
    ho.put (ho.put (ho.put (ho.null (by decide)) (by decide) (ho.repeated (by decide) (by decide) (by decide)))
      (by decide) hname) (by decide) (ho.int (by decide))
  exact ho.put (ho.null (by decide)) (by decide) (ho.put (ho.put (ho.put (ho.put (ho.put (ho.put (ho.null (by decide))
    (by decide) (ho.int (by decide))) (by decide) hworkload) (by decide) (ho.repeated (by decide) (by decide) (by decide)))
    (by decide) (ho.int (by decide))) (by decide) hscopes) (by decide) hrequirements)

theorem contractFromText_long {c : UInt8} (hc : c < 0x80) {n : Nat} (hn : n ≤ maxRequirementsPerContract) :
    contractFromText (longDocument c n).text (longOptions c n) = .ok (longContract c n) := by
  rcases jsonDecode_text (proper_longDocument c n) (le_refl (longOptions c n).maxBytes) (fun h => by cases h) with
    ⟨-, hdecode⟩ | ⟨hnot, -⟩
  · unfold contractFromText
    rw [hdecode, reread_longDocument]
    exact contractFromJson_long hn c
  · exact absurd (readable_longDocument hc n) hnot

theorem sortBy_replicate {α : Type} (precedes : α → α → Bool) (n : Nat) (a : α) :
    sortBy precedes (List.replicate n a) = List.replicate n a :=
  List.perm_replicate.1 (perm_sortBy precedes _)

theorem dump_canonicalize_long (c d : UInt8) {n : Nat} (hn : maxDocumentBytes * 2 < n * 300) :
    (bodyDigestMaterial (canonicalize (longContract c n)).body).dump =
      (bodyDigestMaterial (canonicalize (longContract d n)).body).dump := by
  have hrequirements : ∀ c, (canonicalize (longContract c n)).body.requirements =
      List.replicate n (canonicalizeRequirement repeatedRequirement) := fun c => by
    show sortBy _ ((List.replicate n repeatedRequirement).map canonicalizeRequirement) = _
    rw [List.map_replicate, sortBy_replicate]
  have hvalue : 300 ≤ (requirementToJson (canonicalizeRequirement repeatedRequirement)).text.length := by
    have hfind : (requirementToJson (canonicalizeRequirement repeatedRequirement)).find (utf8 "value") =
        some (.string (List.replicate 300 97)) := rfl
    refine le_trans ?_ (Json.length_find hfind)
    have := Json.length_string (List.replicate 300 97)
    rw [List.length_replicate] at this
    omega
  have htext : maxDocumentBytes * 2 < (Json.array ((List.replicate n (canonicalizeRequirement repeatedRequirement)).map
      requirementToJson)).text.length := by
    have hitems := @Json.length_items 300 (List.replicate n
      (requirementToJson (canonicalizeRequirement repeatedRequirement))) true fun v hv => by
        rw [List.eq_of_mem_replicate hv]
        exact hvalue
    rw [List.length_replicate] at hitems
    rw [List.map_replicate, Json.text, List.length_cons]
    omega
  have hmembers : ∀ c, bodyDigestMaterial (canonicalize (longContract c n)).body = .object (
      [(utf8 "contract_generation", jsonUint 1), (utf8 "contract_id", .string (List.replicate 64 48)),
        (utf8 "description", .string []), (utf8 "policy_generation", jsonUint 0)] ++
      (utf8 "requirements", .array ((List.replicate n (canonicalizeRequirement repeatedRequirement)).map requirementToJson)) ::
        [(utf8 "schema_version", jsonUint 1), (utf8 "scopes", .array []),
          (utf8 "version", Json.null.put "major" (jsonUint 1) |>.put "minor" (jsonUint 0) |>.put "patch" (jsonUint 0)),
          (utf8 "workload", workloadToJson (longDecoded c n).workload)]) := fun c => by
    rw [← hrequirements c]
    rfl
  rw [hmembers, hmembers, Json.dump_cut (by omega)]

theorem collisionFree_of_eq {m m' : Bytes} (h : m = m') : Ledger.CollisionFree [m, m'] := by
  intro a ha b hb _
  rw [h] at ha
  rw [h] at hb
  simp only [List.mem_cons, List.not_mem_nil, or_false, or_self] at ha hb
  rw [ha, hb]

theorem collisionFreeBodies_long (c d : UInt8) {n : Nat} (hn : maxDocumentBytes * 2 < n * 300) :
    CollisionFreeBodies (canonicalize (longContract c n)).body (canonicalize (longContract d n)).body := by
  have hdump := dump_canonicalize_long c d hn
  constructor
  · exact collisionFree_of_eq (by unfold bodyInput; rw [hdump])
  · exact collisionFree_of_eq hdump

/-! ## The digest and the body -/

/-- Two contracts that are decoded and made canonical: their digests tell their bodies apart exactly when one of the
canonical texts is within the budget or the two differ before they are cut, as far as the bodies are not the same. -/
theorem bodyDigest_identifies_iff {text text' : Bytes} {o o' : JsonDecodeOptions} {c d : Contract}
    (hc : contractFromText text o = .ok c) (hd : contractFromText text' o' = .ok d)
    (hfree : CollisionFreeBodies (canonicalize c).body (canonicalize d).body) :
    (bodyDigest (canonicalize c).body = bodyDigest (canonicalize d).body →
        (canonicalize c).body.SameContent (canonicalize d).body) ↔
      ((canonicalize c).body.Oversized → (canonicalize d).body.Oversized →
        (bodyDigestMaterial (canonicalize c).body).dump = (bodyDigestMaterial (canonicalize d).body).dump →
        (canonicalize c).body.SameContent (canonicalize d).body) := by
  have ha := canonicalize_declared (contractFromText_declared hc)
  have hb := canonicalize_declared (contractFromText_declared hd)
  rw [bodyDigest_eq_iff hfree]
  constructor
  · intro h _ _
    exact h
  · intro h hdump
    by_cases hover : (canonicalize c).body.Oversized
    · by_cases hover' : (canonicalize d).body.Oversized
      · exact h hover hover' hdump
      · exact (sameContent_of_dump hb ha hover' hdump.symm).symm
    · exact sameContent_of_dump ha hb hover hdump

theorem bodyDigest_identifies_iff_long :
    (bodyDigest (canonicalize (longContract 119 4000)).body = bodyDigest (canonicalize (longContract 120 4000)).body →
        (canonicalize (longContract 119 4000)).body.SameContent (canonicalize (longContract 120 4000)).body) ↔
      ((canonicalize (longContract 119 4000)).body.Oversized → (canonicalize (longContract 120 4000)).body.Oversized →
        (bodyDigestMaterial (canonicalize (longContract 119 4000)).body).dump =
          (bodyDigestMaterial (canonicalize (longContract 120 4000)).body).dump →
        (canonicalize (longContract 119 4000)).body.SameContent (canonicalize (longContract 120 4000)).body) :=
  bodyDigest_identifies_iff (contractFromText_long (by decide) (by decide))
    (contractFromText_long (by decide) (by decide)) (collisionFreeBodies_long 119 120 (by decide))

/-- Two workloads with 4000 requirements each that differ in their name, which is behind the cut. -/
theorem bodyDigest_conflates :
    contractFromText (longDocument 119 4000).text (longOptions 119 4000) = .ok (longContract 119 4000) ∧
      contractFromText (longDocument 120 4000).text (longOptions 120 4000) = .ok (longContract 120 4000) ∧
      CollisionFreeBodies (canonicalize (longContract 119 4000)).body (canonicalize (longContract 120 4000)).body ∧
      ¬(bodyDigest (canonicalize (longContract 119 4000)).body = bodyDigest (canonicalize (longContract 120 4000)).body →
        (canonicalize (longContract 119 4000)).body.SameContent (canonicalize (longContract 120 4000)).body) := by
  refine ⟨contractFromText_long (by decide) (by decide), contractFromText_long (by decide) (by decide),
    collisionFreeBodies_long 119 120 (by decide), fun h => ?_⟩
  have hdigest : bodyDigest (canonicalize (longContract 119 4000)).body =
      bodyDigest (canonicalize (longContract 120 4000)).body := by
    unfold bodyDigest
    rw [dump_canonicalize_long 119 120 (by decide)]
  have hname : (canonicalize (longContract 120 4000)).body.workload.name =
      (canonicalize (longContract 119 4000)).body.workload.name := by
    rw [h hdigest]
  exact absurd (show [(120 : UInt8)] = [119] from hname) (by decide)

end Wnc
