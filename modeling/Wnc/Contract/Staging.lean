/-
What a composition is made of, and composition in stages. The layers add their scopes and write their requirements,
and the result is put in order and identified once at the end. Composing some layers and then the others goes through
bodies that differ from those of one composition only in order and identity, which no decision looks at.
-/
import Wnc.Contract.Canonical
import Wnc.Contract.Compose
import Wnc.Lib.Lockstep

namespace Wnc

open Lib

/-! ## What the layers write -/

theorem addScope_body (layer : OverlayLayer) (c : Composing) (s : Scope) :
    (addScope layer c s).body = { c.body with scopes := Keyed.putNew Scope.name s c.body.scopes } := by
  have hany : (c.body.scopes.any fun existing => existing.name == s.name) = true ↔ s.name ∈ c.body.scopes.map Scope.name := by
    simp
  unfold addScope Keyed.putNew
  simp only [hany]
  split <;> rfl

theorem foldl_addScope_body (layer : OverlayLayer) (scopes : List Scope) (c : Composing) :
    (scopes.foldl (addScope layer) c).body =
      { c.body with scopes := Keyed.putNewAll Scope.name c.body.scopes scopes } := by
  induction scopes generalizing c with
  | nil => rfl
  | cons s scopes ih => rw [List.foldl_cons, ih, addScope_body, Keyed.putNewAll_cons]

theorem mergeRequirement_body {layer : OverlayLayer} {c c' : Composing} {incoming : Requirement}
    (h : mergeRequirement layer c incoming = .ok c') :
    c'.body = { c.body with requirements := Keyed.put Requirement.compositeKey incoming c.body.requirements } := by
  unfold mergeRequirement at h
  split at h
  · cases h
    rfl
  · simp only at h
    split at h
    · cases h
    · split at h
      · cases h
        rfl
      · cases h

theorem mergeRequirements_body {layer : OverlayLayer} {rs : List Requirement} {c c' : Composing}
    (h : rs.foldlM (mergeRequirement layer) c = .ok c') :
    c'.body = { c.body with requirements := Keyed.putAll Requirement.compositeKey c.body.requirements rs } := by
  induction rs generalizing c with
  | nil => cases h; rfl
  | cons r rs ih =>
    rw [List.foldlM_cons] at h
    cases hm : mergeRequirement layer c r with
    | error e => rw [hm] at h; cases h
    | ok c₁ =>
      rw [hm] at h
      rw [ih h, mergeRequirement_body hm, Keyed.putAll_cons]

/-- The layers add their scopes, write their requirements, and touch nothing else. -/
theorem applyLayers_body {layers : List OverlayLayer} {c c' : Composing} (h : layers.foldlM applyLayer c = .ok c') :
    c'.body =
      { c.body with
        scopes := Keyed.putNewAll Scope.name c.body.scopes (layers.flatMap OverlayLayer.scopes)
        requirements :=
          Keyed.putAll Requirement.compositeKey c.body.requirements (layers.flatMap OverlayLayer.requirements) } := by
  induction layers generalizing c with
  | nil => cases h; rfl
  | cons layer layers ih =>
    rw [List.foldlM_cons] at h
    cases hl : applyLayer c layer with
    | error e => rw [hl] at h; cases h
    | ok c₁ =>
      rw [hl] at h
      unfold applyLayer at hl
      split at hl
      · cases hl
      · rw [ih h, mergeRequirements_body hl, foldl_addScope_body, List.flatMap_cons, List.flatMap_cons,
          Keyed.putNewAll_append, Keyed.putAll_append]

/-! ## The structure of a composition -/

/-- What the layers declare first under the name of a scope. -/
def firstDeclared (layers : List OverlayLayer) (name : Bytes) : Option Scope :=
  Keyed.get Scope.name name (layers.flatMap OverlayLayer.scopes)

/-- A body made of a base and layers. -/
structure ComposedOf (base : ContractBody) (layers : List OverlayLayer) (body : ContractBody) : Prop where
  keys : ∀ k, k ∈ body.requirements.map Requirement.compositeKey ↔
    k ∈ base.requirements.map Requirement.compositeKey ∨
      ∃ layer ∈ layers, k ∈ layer.requirements.map Requirement.compositeKey
  once : (body.requirements.map Requirement.compositeKey).Nodup
  ordered : body.requirements.Pairwise fun a b => requirementPrecedes a b = true
  /-- The scopes are those of the base and, under each new name, the one declared first. -/
  scopes : ∃ added, body.scopes.Perm (base.scopes ++ added) ∧ (added.map Scope.name).Nodup ∧
    ∀ s, s ∈ added ↔ s.name ∉ base.scopes.map Scope.name ∧ firstDeclared layers s.name = some s
  requirementIds : ∀ r ∈ body.requirements, r.id = deriveRequirementId r
  contractId : body.contractId = deriveContractId body.workload.id (bodyDigest body)
  /-- With distinct names for the scopes it is its own canonical form. -/
  canonical : (body.scopes.map Scope.name).Nodup → ∀ c : Contract, c.body = body →
    canonicalize c = { c with digest := bodyDigest body }

theorem comparesBy_name : ComparesBy (fun a b : Scope => a.name < b.name) Scope.name := fun a b => by simp

theorem map_key_canonicalize (rs : List Requirement) :
    (rs.map canonicalizeRequirement).map Requirement.compositeKey = rs.map Requirement.compositeKey := by
  rw [List.map_map]
  rfl

/-- Requirements with distinct keys stand in strict order once sorted. -/
theorem precedes_sorted {rs : List Requirement} (h : (rs.map Requirement.compositeKey).Nodup) :
    (sortBy requirementPrecedes rs).Pairwise fun a b => requirementPrecedes a b = true := by
  have hsorted : (sortBy requirementPrecedes rs).Pairwise fun a b => a.order ≤ b.order := comparesBy_requirement.sorted rs
  have hkeys : (sortBy requirementPrecedes rs).Pairwise fun a b => a.compositeKey ≠ b.compositeKey :=
    List.pairwise_map.1 (((perm_sortBy requirementPrecedes rs).map _).nodup_iff.2 h)
  refine (hsorted.and hkeys).imp fun {a b} hab => (comparesBy_requirement a b).2 ?_
  exact lt_of_le_of_ne hab.1 fun he => hab.2 (Requirement.compositeKey_of_order he)

/-- The identity of a finished composition is that of its content. -/
theorem contractId_finishComposition (b : ContractBody) :
    (finishComposition b).contractId =
      deriveContractId (finishComposition b).workload.id (bodyDigest (finishComposition b)) := by
  conv_rhs => rw [finishComposition, bodyDigest_withContractId]
  rfl

/-- A finished composition with distinct names for its scopes is in canonical order. -/
theorem inOrder_finishComposition {b : ContractBody} (h : ((finishComposition b).scopes.map Scope.name).Nodup) :
    (finishComposition b).inOrder = finishComposition b := by
  have hscopes : sortBy (fun a b : Scope => if a.name ≠ b.name then a.name < b.name else a.rank < b.rank)
      (finishComposition b).scopes = (finishComposition b).scopes := by
    have hsorted : (finishComposition b).scopes.Pairwise fun a b => a.name ≤ b.name := comparesBy_name.sorted b.scopes
    refine comparesBy_scope.sort_of_sorted ((hsorted.and (List.pairwise_map.1 h)).imp fun {a b} hab => ?_)
    exact (Prod.Lex.toLex_lt_toLex.2 (.inl (lt_of_le_of_ne hab.1 hab.2))).le
  have hrequirements : sortBy requirementPrecedes ((finishComposition b).requirements.map canonicalizeRequirement) =
      (finishComposition b).requirements := by
    show sortBy requirementPrecedes ((sortBy requirementPrecedes (b.requirements.map canonicalizeRequirement)).map
      canonicalizeRequirement) = sortBy requirementPrecedes (b.requirements.map canonicalizeRequirement)
    rw [map_canonicalize_sorted]
    exact comparesBy_requirement.sort_of_sorted (comparesBy_requirement.sorted (b.requirements.map canonicalizeRequirement))
  unfold ContractBody.inOrder
  rw [hscopes, hrequirements]

/-- What a composition that succeeds is made of. -/
theorem compose_structure {base : ContractBody} {layers : List OverlayLayer} {maxLayers : Nat}
    (h : (compose base layers maxLayers).ok = true) :
    ComposedOf base layers (compose base layers maxLayers).body := by
  obtain ⟨c, hlayers, hnodup, hbody⟩ := compose_ok h
  have hwritten := applyLayers_body hlayers
  have hrequirements : c.body.requirements = _ := congrArg ContractBody.requirements hwritten
  have hscopes : c.body.scopes = _ := congrArg ContractBody.scopes hwritten
  have hkeys : (c.body.requirements.map Requirement.compositeKey).Nodup := hrequirements ▸ Keyed.nodup_putAll hnodup _
  have hperm := (perm_sortBy requirementPrecedes (c.body.requirements.map canonicalizeRequirement)).map
    Requirement.compositeKey
  rw [map_key_canonicalize] at hperm
  rw [hbody]
  constructor
  · intro k
    rw [show (finishComposition c.body).requirements = sortBy requirementPrecedes _ from rfl, hperm.mem_iff, hrequirements,
      Keyed.mem_map_putAll, List.map_flatMap, List.mem_flatMap]
  · exact hperm.nodup_iff.2 hkeys
  · exact precedes_sorted (map_key_canonicalize c.body.requirements ▸ hkeys)
  · obtain ⟨added, heq, hnames, hmem⟩ := Keyed.putNewAll_eq_append Scope.name base.scopes
      (layers.flatMap OverlayLayer.scopes)
    exact ⟨added, (perm_sortBy _ _).trans (by rw [hscopes, heq]), hnames, hmem⟩
  · intro r hr
    obtain ⟨q, -, rfl⟩ := List.mem_map.1 (mem_sortBy.1 hr)
    rfl
  · exact contractId_finishComposition c.body
  · rintro hnames d hd
    rw [canonicalize_eq, hd, inOrder_finishComposition hnames, ← contractId_finishComposition, ← hd]

set_option maxRecDepth 100000 in
theorem compose_structure_latency :
    ComposedOf latencyBase [latencyLayer 150] (compose latencyBase [latencyLayer 150] 16).body :=
  compose_structure (by decide +kernel)

/-! ## Composition in stages -/

/-- Bodies that differ in nothing but order and identity: with distinct names the same scopes, and with distinct keys the
same requirements up to their canonical form. -/
structure ContractBody.Alike (b d : ContractBody) : Prop where
  scopes : b.scopes.Perm d.scopes
  names : (b.scopes.map Scope.name).Nodup
  requirements : (b.requirements.map canonicalizeRequirement).Perm (d.requirements.map canonicalizeRequirement)
  keys : (b.requirements.map Requirement.compositeKey).Nodup
  same : d = { b with
    contractId := d.contractId
    scopes := d.scopes
    requirements := d.requirements }

/-- Refusals for the same reason. -/
def CompositionRefusal.SameCode (e e' : CompositionRefusal) : Prop := e.code = e'.code

/-- Compositions that reach alike bodies or are refused with one code. -/
def Together : Except CompositionRefusal Composing → Except CompositionRefusal Composing → Prop :=
  Lockstep CompositionRefusal.SameCode fun c d => c.body.Alike d.body

namespace ContractBody.Alike

variable {b d : ContractBody}

/-- Under one key alike bodies have requirements with one canonical form, or none. -/
theorem get (h : b.Alike d) (k : RequirementKey) :
    (Keyed.get Requirement.compositeKey k b.requirements).map canonicalizeRequirement =
      (Keyed.get Requirement.compositeKey k d.requirements).map canonicalizeRequirement := by
  rw [← Keyed.get_map canonicalizeRequirement_compositeKey, ← Keyed.get_map canonicalizeRequirement_compositeKey]
  exact Keyed.get_perm h.requirements (by rw [map_key_canonicalize]; exact h.keys) k

/-- A requirement written to both leaves them alike. -/
theorem put (h : b.Alike d) (r : Requirement) :
    Alike { b with requirements := Keyed.put Requirement.compositeKey r b.requirements }
      { d with requirements := Keyed.put Requirement.compositeKey r d.requirements } := by
  refine ⟨h.scopes, h.names, ?_, Keyed.nodup_put h.keys, by rw [h.same]⟩
  rw [Keyed.map_put canonicalizeRequirement_compositeKey, Keyed.map_put canonicalizeRequirement_compositeKey]
  exact Keyed.put_perm h.requirements (by rw [map_key_canonicalize]; exact h.keys) _

/-- Scopes added to both leave them alike. -/
theorem putNewAll (h : b.Alike d) (scopes : List Scope) :
    Alike { b with scopes := Keyed.putNewAll Scope.name b.scopes scopes }
      { d with scopes := Keyed.putNewAll Scope.name d.scopes scopes } :=
  ⟨Keyed.putNewAll_perm h.scopes scopes, Keyed.nodup_putNewAll h.names scopes, h.requirements, h.keys, by rw [h.same]⟩

end ContractBody.Alike

/-- Order and identity play no part in the merge rule. -/
theorem compareRequirementStrength_congr {a b : Requirement} (h : canonicalizeRequirement a = canonicalizeRequirement b)
    (r : Requirement) : compareRequirementStrength r a = compareRequirementStrength r b := by
  have hcanonical : ∀ q, compareRequirementStrength r (canonicalizeRequirement q) = compareRequirementStrength r q :=
    fun _ => rfl
  rw [← hcanonical a, h, hcanonical]

theorem strength_congr {a b : Requirement} (h : canonicalizeRequirement a = canonicalizeRequirement b) :
    a.strength = b.strength := by
  show (canonicalizeRequirement a).strength = (canonicalizeRequirement b).strength
  rw [h]

/-- A merge into alike bodies leaves them alike, or is refused by both with one code. -/
theorem mergeRequirement_together (layer : OverlayLayer) (r : Requirement) {c d : Composing} (h : c.body.Alike d.body) :
    Together (mergeRequirement layer c r) (mergeRequirement layer d r) := by
  have hget := h.get r.compositeKey
  unfold mergeRequirement
  cases hc : Keyed.get Requirement.compositeKey r.compositeKey c.body.requirements with
  | none =>
    rw [hc, Option.map_none] at hget
    rw [Option.map_eq_none_iff.1 hget.symm]
    exact .ok (h.put r)
  | some a =>
    -- what stands under the key has one canonical form in both, so both take the same branch
    rw [hc, Option.map_some] at hget
    obtain ⟨b, hd, hab⟩ := Option.map_eq_some_iff.1 hget.symm
    rw [hd]
    simp only [compareRequirementStrength_congr hab, strength_congr hab]
    split
    · exact .error rfl
    · split
      · exact .ok (h.put r)
      · exact .error rfl

theorem applyLayer_together (layer : OverlayLayer) {c d : Composing} (h : c.body.Alike d.body) :
    Together (applyLayer c layer) (applyLayer d layer) := by
  unfold applyLayer
  split
  · exact .error rfl
  · refine Lockstep.foldlM (fun c d r h => mergeRequirement_together layer r h) ?_ layer.requirements
    rw [foldl_addScope_body, foldl_addScope_body]
    exact h.putNewAll layer.scopes

/-- Finishing a body leaves one that is alike. -/
theorem alike_finishComposition {b : ContractBody} (hnames : (b.scopes.map Scope.name).Nodup)
    (hkeys : (b.requirements.map Requirement.compositeKey).Nodup) : b.Alike (finishComposition b) := by
  refine ⟨(perm_sortBy _ _).symm, hnames, ?_, hkeys, rfl⟩
  show (b.requirements.map canonicalizeRequirement).Perm ((sortBy requirementPrecedes
    (b.requirements.map canonicalizeRequirement)).map canonicalizeRequirement)
  rw [map_canonicalize_sorted]
  exact (perm_sortBy _ _).symm

/-- Alike bodies are finished to one body. -/
theorem finishComposition_congr {b d : ContractBody} (h : b.Alike d) : finishComposition b = finishComposition d := by
  have hscopes : sortBy (fun a b : Scope => a.name < b.name) b.scopes = sortBy (fun a b : Scope => a.name < b.name) d.scopes :=
    comparesBy_name.sort_congr h.scopes fun _ ha _ hb he => List.inj_on_of_nodup_map h.names ha hb he
  have hrequirements : sortBy requirementPrecedes (b.requirements.map canonicalizeRequirement) =
      sortBy requirementPrecedes (d.requirements.map canonicalizeRequirement) :=
    sort_requirements_congr h.requirements (by rw [map_key_canonicalize]; exact h.keys)
  -- sorted, the bodies differ in their old identities alone, and those the digest leaves out
  have hdigest := bodyDigest_withContractId
    { b with
      scopes := sortBy (fun a b : Scope => a.name < b.name) b.scopes
      requirements := sortBy requirementPrecedes (b.requirements.map canonicalizeRequirement) } d.contractId
  unfold finishComposition
  rw [h.same]
  simp only [← hscopes, ← hrequirements, hdigest]

/-- What a composition answers when its base repeats no key and its layers are not too many. -/
theorem compose_eq {base : ContractBody} {layers : List OverlayLayer} {maxLayers : Nat}
    (hlen : layers.length ≤ maxLayers) (hkeys : (base.requirements.map Requirement.compositeKey).Nodup) :
    composeBody base layers maxLayers = (layers.foldlM applyLayer ⟨base, []⟩).bind fun c =>
      checkComposition { c with body := finishComposition c.body } := by
  unfold composeBody composeLayers
  rw [if_neg (not_lt.2 hlen), if_neg (not_not.2 hkeys)]
  cases layers.foldlM applyLayer ⟨base, []⟩ <;> rfl

/-- Finishing alike bodies and checking what comes out leads to one body, or to refusals with one code. -/
theorem finish_together {c d : Composing} (h : c.body.Alike d.body) :
    Lockstep CompositionRefusal.SameCode (fun c d : Composing => c.body = d.body)
      (checkComposition { c with body := finishComposition c.body })
      (checkComposition { d with body := finishComposition d.body }) := by
  rw [finishComposition_congr h]
  unfold checkComposition
  dsimp only
  split
  · exact .error rfl
  · split
    · exact .error rfl
    · exact .ok rfl

theorem compose_of_lockstep {base base' : ContractBody} {layers layers' : List OverlayLayer} {maxLayers : Nat}
    (h : Lockstep CompositionRefusal.SameCode (fun c d : Composing => c.body = d.body)
      (composeBody base layers maxLayers) (composeBody base' layers' maxLayers)) :
    (compose base layers maxLayers).ok = (compose base' layers' maxLayers).ok ∧
      (compose base layers maxLayers).code = (compose base' layers' maxLayers).code ∧
      (compose base layers maxLayers).body = (compose base' layers' maxLayers).body := by
  unfold compose
  generalize composeBody base layers maxLayers = x, composeBody base' layers' maxLayers = y at h
  cases h with
  | error he => exact ⟨rfl, he, rfl⟩
  | ok hbody => exact ⟨rfl, rfl, hbody⟩

/-- Composing all layers at once, or some of them and then the others onto the result, gives one body or is refused with
one code. -/
theorem compose_staged {base : ContractBody} {first rest : List OverlayLayer} {maxLayers : Nat}
    (hscopes : (base.scopes.map Scope.name).Nodup) (hlen : first.length + rest.length ≤ maxLayers)
    (hok : (compose base first maxLayers).ok = true) :
    let middle := (compose base first maxLayers).body
    let whole := compose base (first ++ rest) maxLayers
    let staged := compose middle rest maxLayers
    whole.ok = staged.ok ∧ whole.code = staged.code ∧ whole.body = staged.body := by
  obtain ⟨c, hlayers, hkeys, hbody⟩ := compose_ok hok
  have hmiddle := compose_structure hok
  have hwritten := applyLayers_body hlayers
  have halike : c.body.Alike (finishComposition c.body) := by
    refine alike_finishComposition ?_ ?_
    · rw [hwritten]
      exact Keyed.nodup_putNewAll hscopes _
    · rw [hwritten]
      exact Keyed.nodup_putAll hkeys _
  refine compose_of_lockstep ?_
  rw [compose_eq (by rw [List.length_append]; exact hlen) hkeys, compose_eq (by omega) hmiddle.once, hbody,
    List.foldlM_append, hlayers]
  -- the second stage starts from the finished body, the one-shot run from the accumulated one
  exact (Lockstep.foldlM (R := fun c d : Composing => c.body.Alike d.body) (fun _ _ layer h => applyLayer_together layer h)
    halike rest).bind fun _ _ h => finish_together h

set_option maxRecDepth 100000 in
theorem compose_staged_latency :
    let middle := (compose latencyBase [latencyLayer 150] 16).body
    let whole := compose latencyBase [latencyLayer 150, latencyLayer 120] 16
    let staged := compose middle [latencyLayer 120] 16
    whole.ok = staged.ok ∧ whole.code = staged.code ∧ whole.body = staged.body := by
  have hscopes : (latencyBase.scopes.map Scope.name).Nodup := by decide
  have hok : (compose latencyBase [latencyLayer 150] 16).ok = true := by decide +kernel
  exact compose_staged hscopes (by decide) hok

end Wnc
