/-
The canonical form of a contract does not depend on the order in which its scopes, requirements, members and
attributes are given, and it is its own canonical form.
-/
import Wnc.Contract.Model
import Wnc.Lib.Sorting

namespace Wnc

open Lib

/-! ## What the comparisons compare -/

/-- The name of a scope, then its rank. -/
def Scope.order (s : Scope) : Bytes ×ₗ Nat := toLex (s.name, s.rank.toNat)

def Requirement.order (r : Requirement) : Bytes ×ₗ Nat ×ₗ Bytes ×ₗ RequirementId :=
  toLex (r.scope, toLex (r.kind.value, toLex (r.key, r.id)))

theorem comparesBy_scope :
    ComparesBy (fun a b : Scope => if a.name ≠ b.name then a.name < b.name else a.rank < b.rank) Scope.order := by
  intro a b
  unfold Scope.order
  rw [Prod.Lex.toLex_lt_toLex]
  by_cases h : a.name = b.name
  · simp [h, UInt32.lt_iff_toNat_lt]
  · simp [h]

theorem comparesBy_requirement : ComparesBy requirementPrecedes Requirement.order := by
  intro a b
  unfold requirementPrecedes Requirement.order
  rw [Prod.Lex.toLex_lt_toLex, Prod.Lex.toLex_lt_toLex, Prod.Lex.toLex_lt_toLex]
  have hvalue : a.kind.value = b.kind.value ↔ a.kind = b.kind := by
    constructor
    · cases a.kind <;> cases b.kind <;> decide
    · rintro h
      rw [h]
  by_cases hscope : a.scope = b.scope
  · by_cases hkind : a.kind = b.kind
    · by_cases hkey : a.key = b.key <;> simp [hscope, hkind, hkey]
    · simp [hscope, hkind, hvalue]
  · simp [hscope]

theorem comparesBy_attribute : ComparesBy (fun a b : Bytes × Bytes => a.1 < b.1) Prod.fst := fun a b => by simp

theorem comparesBy_member : ComparesBy (fun a b : RequirementId => a < b) id := fun a b => by simp

/-! ## Requirements -/

/-- A requirement with its members and its attributes in another order. -/
structure Requirement.Rearranged (r q : Requirement) : Prop where
  members : r.members.Perm q.members
  attributes : r.attributes.Perm q.attributes
  same : q = { r with
    members := q.members
    attributes := q.attributes }

theorem Requirement.Rearranged.compositeKey {r q : Requirement} (h : r.Rearranged q) :
    q.compositeKey = r.compositeKey := by
  rw [h.same]
  rfl

theorem canonicalizeRequirement_congr {r q : Requirement} (h : r.Rearranged q) (hnames : (r.attributes.map Prod.fst).Nodup) :
    canonicalizeRequirement r = canonicalizeRequirement q := by
  have hattributes : sortBy (fun a b => a.1 < b.1) r.attributes = sortBy (fun a b => a.1 < b.1) q.attributes :=
    comparesBy_attribute.sort_congr h.attributes fun a ha b hb he => List.inj_on_of_nodup_map hnames ha hb he
  have hmembers : sortBy (fun a b => a < b) r.members = sortBy (fun a b => a < b) q.members :=
    comparesBy_member.sort_congr h.members fun _ _ _ _ he => he
  unfold canonicalizeRequirement
  rw [hattributes, hmembers, h.same]

theorem canonicalizeRequirement_idem (r : Requirement) :
    canonicalizeRequirement (canonicalizeRequirement r) = canonicalizeRequirement r := by
  have hattributes : sortBy (fun a b => a.1 < b.1) (sortBy (fun a b => a.1 < b.1) r.attributes) =
      sortBy (fun a b => a.1 < b.1) r.attributes :=
    comparesBy_attribute.sort_of_sorted (comparesBy_attribute.sorted r.attributes)
  have hmembers : sortBy (fun a b => a < b) (sortBy (fun a b => a < b) r.members) = sortBy (fun a b => a < b) r.members :=
    comparesBy_member.sort_of_sorted (comparesBy_member.sorted r.members)
  unfold canonicalizeRequirement
  simp only [hattributes, hmembers]
  rfl

/-! ## Contracts -/

/-- A contract with its scopes and its requirements in another order, and each requirement rearranged. -/
structure Contract.Rearranged (c d : Contract) : Prop where
  scopes : c.body.scopes.Perm d.body.scopes
  requirements : ∃ requirements, List.Forall₂ Requirement.Rearranged c.body.requirements requirements ∧
    requirements.Perm d.body.requirements
  same : d = { c with
    body := { c.body with
      scopes := d.body.scopes
      requirements := d.body.requirements } }

/-- A contract whose scopes are told apart by their names, its requirements by their keys, and the attributes of each
by theirs. -/
structure Contract.Distinct (c : Contract) : Prop where
  scopes : (c.body.scopes.map Scope.name).Nodup
  requirements : (c.body.requirements.map Requirement.compositeKey).Nodup
  attributes : ∀ r ∈ c.body.requirements, (r.attributes.map Prod.fst).Nodup

theorem bodyDigestMaterial_withContractId (b : ContractBody) (id : ContractId) :
    bodyDigestMaterial { b with contractId := id } = bodyDigestMaterial b := by
  unfold bodyDigestMaterial contractBodyToJson
  simp only
  rfl

/-- The digest does not cover the identity of the contract. -/
theorem bodyDigest_withContractId (b : ContractBody) (id : ContractId) :
    bodyDigest { b with contractId := id } = bodyDigest b := by
  rw [bodyDigest, bodyDigestMaterial_withContractId, bodyDigest]

theorem map_canonicalize_congr {rs qs : List Requirement} (h : List.Forall₂ Requirement.Rearranged rs qs)
    (hnames : ∀ r ∈ rs, (r.attributes.map Prod.fst).Nodup) :
    rs.map canonicalizeRequirement = qs.map canonicalizeRequirement := by
  induction h with
  | nil => rfl
  | cons hr _ ih =>
    rw [List.forall_mem_cons] at hnames
    rw [List.map_cons, List.map_cons, canonicalizeRequirement_congr hr hnames.1, ih hnames.2]

/-- Requirements with one place in the order have one key. -/
theorem Requirement.compositeKey_of_order {r q : Requirement} (h : r.order = q.order) : r.compositeKey = q.compositeKey := by
  unfold Requirement.order at h
  simp only [toLex_inj, Prod.mk.injEq] at h
  obtain ⟨hscope, hkind, hkey, -⟩ := h
  have hkind' : r.kind = q.kind := by
    revert hkind
    cases r.kind <;> cases q.kind <;> decide
  unfold compositeKey
  rw [hscope, hkind', hkey]

/-- Requirements with distinct keys are sorted to one list, whatever their order. -/
theorem sort_requirements_congr {l m : List Requirement} (h : l.Perm m) (hkeys : (l.map Requirement.compositeKey).Nodup) :
    sortBy requirementPrecedes l = sortBy requirementPrecedes m :=
  comparesBy_requirement.sort_congr h fun _ ha _ hb he =>
    List.inj_on_of_nodup_map hkeys ha hb (Requirement.compositeKey_of_order he)

theorem canonicalize_congr {c d : Contract} (hc : c.Distinct) (h : c.Rearranged d) : canonicalize c = canonicalize d := by
  have hscopes : sortBy (fun a b : Scope => if a.name ≠ b.name then a.name < b.name else a.rank < b.rank) c.body.scopes =
      sortBy (fun a b : Scope => if a.name ≠ b.name then a.name < b.name else a.rank < b.rank) d.body.scopes := by
    refine comparesBy_scope.sort_congr h.scopes fun a ha b hb he => List.inj_on_of_nodup_map hc.scopes ha hb ?_
    exact congrArg Prod.fst (toLex_inj.1 he)
  obtain ⟨requirements, hrearranged, hperm⟩ := h.requirements
  have hmap := map_canonicalize_congr hrearranged hc.attributes
  have hnodup : ((c.body.requirements.map canonicalizeRequirement).map Requirement.compositeKey).Nodup := by
    rw [List.map_map]
    exact hc.requirements
  have hrequirements : sortBy requirementPrecedes (c.body.requirements.map canonicalizeRequirement) =
      sortBy requirementPrecedes (d.body.requirements.map canonicalizeRequirement) := by
    rw [hmap] at hnodup ⊢
    exact sort_requirements_congr (hperm.map _) hnodup
  unfold canonicalize
  simp only [hscopes, hrequirements]
  rw [h.same]

/-- A body in canonical order. -/
def ContractBody.inOrder (b : ContractBody) : ContractBody :=
  { b with
    scopes := sortBy (fun a b => if a.name ≠ b.name then a.name < b.name else a.rank < b.rank) b.scopes
    requirements := sortBy requirementPrecedes (b.requirements.map canonicalizeRequirement) }

/-- Requirements in canonical form keep it, in whatever order. -/
theorem map_canonicalize_sorted (rs : List Requirement) :
    (sortBy requirementPrecedes (rs.map canonicalizeRequirement)).map canonicalizeRequirement =
      sortBy requirementPrecedes (rs.map canonicalizeRequirement) := by
  conv_rhs => rw [← List.map_id (sortBy requirementPrecedes (rs.map canonicalizeRequirement))]
  refine List.map_congr_left fun r hr => ?_
  obtain ⟨q, -, rfl⟩ := List.mem_map.1 (mem_sortBy.1 hr)
  exact canonicalizeRequirement_idem q

theorem ContractBody.inOrder_idem (b : ContractBody) : b.inOrder.inOrder = b.inOrder := by
  have hmap := map_canonicalize_sorted b.requirements
  have hscopes := comparesBy_scope.sort_of_sorted (comparesBy_scope.sorted b.scopes)
  have hrequirements := comparesBy_requirement.sort_of_sorted
    (comparesBy_requirement.sorted (b.requirements.map canonicalizeRequirement))
  unfold inOrder
  simp only [hmap]
  unfold sortBy
  rw [hscopes, hrequirements]

theorem ContractBody.inOrder_withContractId (b : ContractBody) (id : ContractId) :
    { b with contractId := id }.inOrder = { b.inOrder with contractId := id } := rfl

/-- The canonical form: the body in order, its digest, and the identity derived from that. -/
theorem canonicalize_eq (c : Contract) : canonicalize c =
    { c with
      body := { c.body.inOrder with contractId := deriveContractId c.body.workload.id (bodyDigest c.body.inOrder) }
      digest := bodyDigest c.body.inOrder } := by
  have hdigest := bodyDigest_withContractId c.body.inOrder (deriveContractId c.body.workload.id (bodyDigest c.body.inOrder))
  conv_rhs => rw [← hdigest]
  rfl

theorem canonicalize_idem (c : Contract) : canonicalize (canonicalize c) = canonicalize c := by
  have horder : (canonicalize c).body.inOrder =
      { c.body.inOrder with contractId := deriveContractId c.body.workload.id (bodyDigest c.body.inOrder) } := by
    rw [canonicalize_eq]
    refine (ContractBody.inOrder_withContractId _ _).trans ?_
    rw [ContractBody.inOrder_idem]
  rw [canonicalize_eq (canonicalize c), horder, bodyDigest_withContractId, canonicalize_eq]
  rfl

/-- The canonical form does not depend on the order of scopes, requirements, members and attributes, and is reached in
one step. -/
theorem canonicalize_canonical {c : Contract} (hc : c.Distinct) :
    (∀ d : Contract, c.Rearranged d → canonicalize d = canonicalize c) ∧
      canonicalize (canonicalize c) = canonicalize c :=
  ⟨fun _ h => (canonicalize_congr hc h).symm, canonicalize_idem c⟩

/-- A contract that gives its requirements out of order. -/
def twoScopes : Contract where
  body :=
    { scopes := [{ name := utf8 "s" }, { name := utf8 "t" }]
      requirements := [
        { scope := utf8 "t", kind := .locality, value := utf8 "rack" },
        { scope := utf8 "s", kind := .attribute, key := utf8 "k", value := utf8 "v",
          attributes := [(utf8 "b", utf8 "2"), (utf8 "a", utf8 "1")] }] }

theorem canonicalize_canonical_twoScopes :
    (∀ d : Contract, twoScopes.Rearranged d → canonicalize d = canonicalize twoScopes) ∧
      canonicalize (canonicalize twoScopes) = canonicalize twoScopes :=
  canonicalize_canonical ⟨by decide, by decide, by decide⟩

end Wnc
