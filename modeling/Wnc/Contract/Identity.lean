/-
What the identity of a contract is a function of. It is derived from the workload and the digest of the body, and
that digest leaves out the identity alone: the generation is in it like every other field.
-/
import Wnc.Contract.Digest
import Wnc.Contract.Publishing

namespace Wnc

open Lib

/-- Two bodies that are the same in canonical order, but for the identity and the generation of the contract. -/
def ContractBody.SameButGeneration (a b : ContractBody) : Prop :=
  a.inOrder.SameContent { b.inOrder with generation := a.generation }

/-- What is said of the identities of two canonical contracts: bodies that are the same but for the generation get one,
and bodies of one workload that differ in anything else get two. -/
structure Contract.IdentifiedByContent (c d : Contract) : Prop where
  same : c.body.SameButGeneration d.body → (canonicalize c).body.contractId = (canonicalize d).body.contractId
  other : c.body.workload.id = d.body.workload.id → ¬c.body.SameButGeneration d.body →
    (canonicalize c).body.contractId ≠ (canonicalize d).body.contractId

/-- No collision comes between the identities of two contracts, nor between the digests of their bodies. -/
structure CollisionFreeIdentities (c d : Contract) : Prop where
  bodies : CollisionFreeBodies c.body.inOrder d.body.inOrder
  inputs : Ledger.CollisionFree [c.identityInput, d.identityInput]

/-! ## What is hashed for an identity -/

/-- A part of a known small length is fed as its length and itself. -/
theorem partInput_of_length {part : Bytes} (h : part.length = 64) : partInput part = writeBe 4 64 ++ part := by
  unfold partInput
  rw [h, if_neg (by decide)]

/-- The bytes hashed for an identity tell the workload and the digest of the body. -/
theorem identityInput_eq_iff {c d : Contract} : c.identityInput = d.identityInput ↔
    c.body.workload.id = d.body.workload.id ∧ bodyDigest c.body.inOrder = bodyDigest d.body.inOrder := by
  unfold Contract.identityInput
  simp only [List.flatMap_cons, List.flatMap_nil, List.append_nil]
  rw [partInput_of_length (Id.length_view _), partInput_of_length (Id.length_view _),
    partInput_of_length (Digest.length_hex _), partInput_of_length (Digest.length_hex _)]
  constructor
  · intro h
    obtain ⟨hview, hhex⟩ := List.append_inj (List.append_cancel_left h) (by
      rw [List.length_append, List.length_append, Id.length_view, Id.length_view])
    exact ⟨Id.view_injective (List.append_cancel_left hview), Digest.hex_injective (List.append_cancel_left hhex)⟩
  · rintro ⟨hworkload, hdigest⟩
    rw [hworkload, hdigest]

theorem contractId_eq_iff {c d : Contract} (hfree : CollisionFreeIdentities c d) :
    (canonicalize c).body.contractId = (canonicalize d).body.contractId ↔
      c.body.workload.id = d.body.workload.id ∧ bodyDigest c.body.inOrder = bodyDigest d.body.inOrder := by
  rw [contractId_canonicalize, contractId_canonicalize, ← identityInput_eq_iff]
  constructor
  · intro h
    exact hfree.inputs _ (by simp) _ (by simp) (Id.fromDigest_injective h)
  · intro h
    rw [h]

/-! ## The identity and the generation -/

theorem ContractBody.inOrder_declared {b : ContractBody} (h : b.Declared) : b.inOrder.Declared := by
  have hcanonical := canonicalize_declared (c := { body := b }) h
  exact ⟨hcanonical.scopes, hcanonical.requirements⟩

theorem dump_of_sameContent {a b : ContractBody} (h : a.SameContent b) :
    (bodyDigestMaterial a).dump = (bodyDigestMaterial b).dump := by
  have hmaterial := bodyDigestMaterial_withContractId a b.contractId
  rw [h]
  exact congrArg Json.dump hmaterial.symm

/-- Canonical contracts whose texts are not cut have one identity exactly when their bodies are the same. -/
theorem contractId_eq_iff_sameContent {c d : Contract} (hc : c.body.Declared) (hd : d.body.Declared)
    (hfits : ¬c.body.inOrder.Oversized) (hfree : CollisionFreeIdentities c d) :
    (canonicalize c).body.contractId = (canonicalize d).body.contractId ↔ c.body.inOrder.SameContent d.body.inOrder := by
  rw [contractId_eq_iff hfree, bodyDigest_eq_iff hfree.bodies]
  constructor
  · rintro ⟨-, hdump⟩
    exact sameContent_of_dump (ContractBody.inOrder_declared hc) (ContractBody.inOrder_declared hd) hfits hdump
  · intro h
    exact ⟨congrArg (fun b => b.workload.id) h.symm, dump_of_sameContent h⟩

theorem sameContent_iff {a b : ContractBody} :
    a.inOrder.SameContent b.inOrder ↔ a.SameButGeneration b ∧ a.generation = b.generation := by
  unfold ContractBody.SameButGeneration ContractBody.SameContent
  constructor
  · intro h
    have hgeneration := congrArg ContractBody.generation h
    have hgeneration : b.generation = a.generation := hgeneration
    refine ⟨?_, hgeneration.symm⟩
    rw [← hgeneration]
    exact h
  · rintro ⟨h, hgeneration⟩
    rw [hgeneration] at h
    exact h

/-- Of two contracts as they are decoded, whose canonical texts are not cut, the identities are those of their content
exactly when they do not differ in their generation alone. -/
theorem identifiedByContent_iff {c d : Contract} (hc : c.body.Declared) (hd : d.body.Declared)
    (hfits : ¬c.body.inOrder.Oversized) (hfree : CollisionFreeIdentities c d) :
    c.IdentifiedByContent d ↔ (c.body.SameButGeneration d.body → c.body.generation = d.body.generation) := by
  have hid := contractId_eq_iff_sameContent hc hd hfits hfree
  rw [sameContent_iff] at hid
  constructor
  · intro h hsame
    exact (hid.1 (h.same hsame)).2
  · intro h
    refine ⟨fun hsame => hid.2 ⟨hsame, h hsame⟩, fun _ hother hsame => hother (hid.1 hsame).1⟩

/-- A contract of one workload, with one scope and a requirement in it, at a generation. -/
def generationContract (generation : UInt64) : Contract :=
  { body := singleRequirement generation { kind := .locality, strength := .required, value := utf8 "rack" } }

theorem generationContract_declared (generation : UInt64) : (generationContract generation).body.Declared := by
  refine ⟨fun s hs _ => ?_, fun r hr => ?_⟩
  · obtain rfl := List.mem_singleton.1 hs
    rfl
  · obtain rfl := List.mem_singleton.1 hr
    exact ⟨declared_zero, declared_zero, fun _ => ⟨rfl, rfl⟩⟩

set_option maxRecDepth 100000 in
theorem collisionFree_generationContract : CollisionFreeIdentities (generationContract 1) (generationContract 2) := by
  refine ⟨⟨.of_nodup ?_, .of_nodup ?_⟩, .of_nodup ?_⟩ <;> decide +kernel

set_option maxRecDepth 100000 in
theorem fits_generationContract : ∀ generation ∈ [(1 : UInt64), 2],
    ¬(generationContract generation).body.inOrder.Oversized := by
  -- one generation at a time: a bounded quantifier over words may be decided over all of them
  rw [List.forall_mem_cons, List.forall_mem_singleton]
  unfold ContractBody.Oversized
  decide +kernel

theorem identifiedByContent_iff_generations : (generationContract 1).IdentifiedByContent (generationContract 2) ↔
    ((generationContract 1).body.SameButGeneration (generationContract 2).body → (1 : UInt64) = 2) :=
  identifiedByContent_iff (generationContract_declared 1) (generationContract_declared 2)
    (fits_generationContract 1 (by decide)) collisionFree_generationContract

/-- Two generations of one body have two identities. -/
theorem generation_identified : ¬∀ c d : Contract, c.body.Declared → d.body.Declared → ¬c.body.inOrder.Oversized →
    ¬d.body.inOrder.Oversized → CollisionFreeIdentities c d → c.IdentifiedByContent d := by
  intro hall
  have hid := (hall (generationContract 1) (generationContract 2) (generationContract_declared 1)
    (generationContract_declared 2) (fits_generationContract 1 (by decide)) (fits_generationContract 2 (by decide))
    collisionFree_generationContract).same rfl
  rw [contractId_eq_iff_sameContent (generationContract_declared 1) (generationContract_declared 2)
    (fits_generationContract 1 (by decide)) collisionFree_generationContract, sameContent_iff] at hid
  exact absurd hid.2 (by decide)

end Wnc
