/-
Composition of a base body with overlay layers: the merge rule, the layers applied in their order, and what
a composition keeps of its base. A layer's requirement takes the place of the one accumulated under its
key when it outranks it in strength, or has the same strength and states the same or a tighter constraint.
-/
import Wnc.Evaluation.Decide
import Wnc.Lib.Keyed

namespace Wnc

open Lib

def maxCompositionLayers : Nat := 16

structure OverlayLayer where
  name : Bytes := []
  scopes : List Scope := []
  requirements : List Requirement := []
deriving DecidableEq

inductive CompositionDecisionKind
  | added
  | strengthened
  | kept
  | conflict
  | rejected
deriving DecidableEq

structure CompositionDecision where
  kind : CompositionDecisionKind
  layer : Bytes
  scope : Bytes
  requirementKind : RequirementKind
  key : Bytes
  reason : Bytes
deriving DecidableEq

structure CompositionResult where
  ok : Bool
  code : Code
  message : Bytes
  body : ContractBody := {}
  diagnostics : DiagnosticLog := .new
  decisions : List CompositionDecision

/-! ## The merge rule -/

def requirementLabel (r : Requirement) : Bytes :=
  requirementKindToken r.kind ++ utf8 "/" ++ r.key ++ utf8 " in scope '" ++ r.scope ++ utf8 "'"

/-- Whether two requirements state exactly the same constraint. -/
def sameConstraint (a b : Requirement) : Bool :=
  if a.hasNumeric ≠ b.hasNumeric then false
  else if !a.hasNumeric then a.value == b.value && a.preferredValue == b.preferredValue
  else a.target.eq b.target && a.minimum.eq b.minimum

/-- Whether the bounds of `a` are at least as tight as those of `b`, for the kind of `a`. -/
def dominates (kind : RequirementKind) (a b : Requirement) : Bool :=
  if kindIsFloor kind then b.target.le a.target && b.minimum.le a.minimum
  else a.target.le b.target && a.minimum.le b.minimum

/-- Positive when the first is stronger, negative when the second is, zero when they are incomparable. -/
def compareRequirementStrength (a b : Requirement) : Int :=
  if a.strength ≠ b.strength then (if a.strength.value > b.strength.value then 1 else -1)
  else if a.hasNumeric && b.hasNumeric then
    if dominates a.kind a b && !dominates a.kind b a then 1
    else if dominates a.kind b a && !dominates a.kind a b then -1
    else if dominates a.kind a b && dominates a.kind b a then 1
    else 0
  else if !a.hasNumeric && !b.hasNumeric then (if sameConstraint a b then 1 else 0)
  else 0

def describeRequirementConflict (a b : Requirement) : Bytes :=
  if sameConstraint a b then []
  else
    utf8 "requirements disagree on " ++ requirementLabel a ++ utf8 ": " ++
      (if a.hasNumeric && b.hasNumeric then
        utf8 "target " ++ a.target.toFixedSix ++ utf8 " versus " ++ b.target.toFixedSix ++ utf8 ", minimum " ++
          a.minimum.toFixedSix ++ utf8 " versus " ++ b.minimum.toFixedSix
      else utf8 "value '" ++ a.value ++ utf8 "' versus '" ++ b.value ++ utf8 "'")

/-! ## Layers -/

/-- A body under composition and the decisions made so far. -/
structure Composing where
  body : ContractBody
  decisions : List CompositionDecision

/-- Why a composition is refused, the requirement it is about, and the decisions made so far. -/
structure CompositionRefusal where
  code : Code
  message : Bytes
  requirement : RequirementId := .zero
  decisions : List CompositionDecision

/-- Adds a scope that is new; one that exists is not redefined. -/
def addScope (layer : OverlayLayer) (c : Composing) (scope : Scope) : Composing :=
  if c.body.scopes.any fun existing => existing.name == scope.name then c
  else
    { body := { c.body with scopes := c.body.scopes ++ [scope] }
      decisions := c.decisions ++ [⟨.added, layer.name, scope.name, .attribute, [],
        utf8 "scope '" ++ scope.name ++ utf8 "' added"⟩] }

/-- Merges a requirement of a layer: a new key is added at the end, and what outranks the requirement
accumulated under its key takes its place. -/
def mergeRequirement (layer : OverlayLayer) (c : Composing) (incoming : Requirement) :
    Except CompositionRefusal Composing :=
  let decide (kind : CompositionDecisionKind) (reason : Bytes) : List CompositionDecision :=
    c.decisions ++ [⟨kind, layer.name, incoming.scope, incoming.kind, incoming.key, reason⟩]
  let written : ContractBody :=
    { c.body with requirements := Keyed.put Requirement.compositeKey incoming c.body.requirements }
  match Keyed.get Requirement.compositeKey incoming.compositeKey c.body.requirements with
  | none => .ok ⟨written, decide .added (utf8 "requirement added by the layer")⟩
  | some accumulated =>
    let order := compareRequirementStrength incoming accumulated
    if incoming.strength.value < accumulated.strength.value ∨ order < 0 then
      let message := utf8 "layer '" ++ layer.name ++ utf8 "' would weaken " ++ requirementLabel accumulated
      .error ⟨.weakeningDenied, message, accumulated.id, decide .rejected message⟩
    else if order > 0 then .ok ⟨written, decide .strengthened (utf8 "the layer's requirement is stronger")⟩
    else
      let detail := describeRequirementConflict accumulated incoming
      .error ⟨.compositionConflict, utf8 "layer '" ++ layer.name ++ utf8 "' conflicts with the composed contract: " ++
        detail, accumulated.id, decide .conflict detail⟩

def applyLayer (c : Composing) (layer : OverlayLayer) : Except CompositionRefusal Composing :=
  if layer.name = [] then .error ⟨.overlayInvalid, utf8 "a composition layer must be named", .zero, c.decisions⟩
  else layer.requirements.foldlM (mergeRequirement layer) (layer.scopes.foldl (addScope layer) c)

/-- The base with every layer applied, in order. -/
def composeLayers (base : ContractBody) (layers : List OverlayLayer) (maxLayers : Nat) :
    Except CompositionRefusal Composing :=
  if layers.length > maxLayers then
    .error ⟨.tooManyLayers, utf8 "composition received " ++ toDecimal layers.length ++ utf8 " layers, above the bound " ++
      toDecimal maxLayers, .zero, []⟩
  else if ¬(base.requirements.map Requirement.compositeKey).Nodup then
    .error ⟨.duplicateRequirement, utf8 "the base contract repeats a requirement key", .zero, []⟩
  else layers.foldlM applyLayer ⟨base, []⟩

/-- Canonical order, and the identities of the content. -/
def finishComposition (body : ContractBody) : ContractBody :=
  let body := { body with
    scopes := sortBy (fun a b => a.name < b.name) body.scopes
    requirements := sortBy requirementPrecedes (body.requirements.map canonicalizeRequirement) }
  { body with contractId := deriveContractId body.workload.id (bodyDigest body) }

/-- What must still hold of a finished composition: something remains and no key is repeated. -/
def checkComposition (c : Composing) : Except CompositionRefusal Composing :=
  if c.body.requirements = [] then
    .error ⟨.emptyRequirementSet, utf8 "the composed contract declares no requirements", .zero, c.decisions⟩
  else if ¬c.body.requirements.IsChain fun a b => b.compositeKey ≠ a.compositeKey then
    .error ⟨.compositionConflict, utf8 "the composed contract repeats a requirement key", .zero, c.decisions⟩
  else .ok c

def composeBody (base : ContractBody) (layers : List OverlayLayer) (maxLayers : Nat) :
    Except CompositionRefusal Composing :=
  match composeLayers base layers maxLayers with
  | .error refusal => .error refusal
  | .ok c => checkComposition { c with body := finishComposition c.body }

def compose (base : ContractBody) (layers : List OverlayLayer) (maxLayers : Nat) : CompositionResult :=
  match composeBody base layers maxLayers with
  | .error refusal =>
    { ok := false
      code := refusal.code
      message := refusal.message
      diagnostics := .ofList [⟨refusal.code, refusal.message, .zero, refusal.requirement⟩]
      decisions := refusal.decisions }
  | .ok c =>
    { ok := true
      code := .ok
      message := utf8 "composed " ++ toDecimal layers.length ++ utf8 " layers"
      body := c.body
      decisions := c.decisions }

/-! ## What a merge puts in place of a requirement -/

/-- What is known of a requirement that took the place of another: it is stronger, or of the same strength
with bounds at least as tight or with the same texts. -/
def Outranks (a b : Requirement) : Prop :=
  a.kind = b.kind ∧
    (b.strength.value < a.strength.value ∨
      a.strength = b.strength ∧
        (a.hasNumeric = true ∧ b.hasNumeric = true ∧ dominates a.kind a b = true ∨
          a.hasNumeric = false ∧ b.hasNumeric = false ∧ a.value = b.value ∧ a.preferredValue = b.preferredValue))

theorem dominates_trans {kind : RequirementKind} {a b c : Requirement} (hab : dominates kind a b = true)
    (hbc : dominates kind b c = true) : dominates kind a c = true := by
  unfold dominates at *
  split at hab
  · rename_i hf
    rw [if_pos hf, Bool.and_eq_true] at hbc
    rw [Bool.and_eq_true] at hab
    rw [if_pos hf, Bool.and_eq_true]
    exact ⟨Double.le_trans hbc.1 hab.1, Double.le_trans hbc.2 hab.2⟩
  · rename_i hf
    rw [if_neg hf, Bool.and_eq_true] at hbc
    rw [Bool.and_eq_true] at hab
    rw [if_neg hf, Bool.and_eq_true]
    exact ⟨Double.le_trans hab.1 hbc.1, Double.le_trans hab.2 hbc.2⟩

theorem outranks_refl {r : Requirement} (h : RequirementFits r) : Outranks r r := by
  refine ⟨rfl, .inr ⟨rfl, ?_⟩⟩
  by_cases hn : r.hasNumeric = true
  · obtain ⟨ht, hm⟩ := h.finite hn
    have ht' := Double.le_refl (Double.not_isNan_of_isFinite ht)
    have hm' := Double.le_refl (Double.not_isNan_of_isFinite hm)
    exact .inl ⟨hn, hn, by unfold dominates; split <;> rw [ht', hm'] <;> rfl⟩
  · rw [Bool.not_eq_true] at hn
    exact .inr ⟨hn, hn, rfl, rfl⟩

theorem outranks_trans (a b c : Requirement) (hab : Outranks a b) (hbc : Outranks b c) : Outranks a c := by
  obtain ⟨hk, hab⟩ := hab
  obtain ⟨hk', hbc⟩ := hbc
  refine ⟨hk.trans hk', ?_⟩
  rcases hab with hlt | ⟨hs, hab⟩
  · rcases hbc with hlt' | ⟨hs', -⟩
    · exact .inl (hlt'.trans hlt)
    · exact .inl (hs' ▸ hlt)
  · rcases hbc with hlt' | ⟨hs', hbc⟩
    · exact .inl (hs ▸ hlt')
    · refine .inr ⟨hs.trans hs', ?_⟩
      rcases hab with ⟨ha, hb, hd⟩ | ⟨ha, hb, hv, hp⟩ <;> rcases hbc with ⟨hb', hc, hd'⟩ | ⟨hb', hc, hv', hp'⟩
      · exact .inl ⟨ha, hc, dominates_trans hd (hk ▸ hd')⟩
      · rw [hb] at hb'; cases hb'
      · rw [hb] at hb'; cases hb'
      · exact .inr ⟨ha, hc, hv.trans hv', hp.trans hp'⟩

/-- A requirement that compares as stronger outranks. -/
theorem outranks_of_compare {a b : Requirement} (hk : a.kind = b.kind) (hs : ¬a.strength.value < b.strength.value)
    (h : compareRequirementStrength a b > 0) : Outranks a b := by
  refine ⟨hk, ?_⟩
  unfold compareRequirementStrength at h
  by_cases he : a.strength = b.strength
  · refine .inr ⟨he, ?_⟩
    rw [if_neg (not_not.2 he)] at h
    split at h
    · rename_i hn
      rw [Bool.and_eq_true] at hn
      refine .inl ⟨hn.1, hn.2, ?_⟩
      by_contra hd
      rw [Bool.not_eq_true] at hd
      simp only [hd, Bool.false_and, Bool.false_eq_true, if_false] at h
      split at h <;> omega
    · split at h
      · rename_i hn
        rw [Bool.and_eq_true, Bool.not_eq_true', Bool.not_eq_true'] at hn
        split at h
        · rename_i hc
          simp only [sameConstraint, hn.1, hn.2, ne_eq, not_true_eq_false, if_false, Bool.not_false, if_true,
            Bool.and_eq_true, beq_iff_eq] at hc
          exact .inr ⟨hn.1, hn.2, hc.1, hc.2⟩
        · omega
      · omega
  · refine .inl (lt_of_le_of_ne (not_lt.1 hs) fun hv => he ?_)
    revert hv
    cases a.strength <;> cases b.strength <;> decide

theorem mergeRequirement_ok {layer : OverlayLayer} {c c' : Composing} {incoming : Requirement}
    (h : mergeRequirement layer c incoming = .ok c') :
    c'.body.requirements = Keyed.put Requirement.compositeKey incoming c.body.requirements ∧
      ∀ b, Keyed.get Requirement.compositeKey incoming.compositeKey c.body.requirements = some b →
        Outranks incoming b := by
  unfold mergeRequirement at h
  split at h
  · rename_i hnone
    cases h
    exact ⟨rfl, fun b hb => by rw [hnone] at hb; cases hb⟩
  · rename_i accumulated hsome
    simp only at h
    split at h
    · cases h
    · rename_i hw
      split at h
      · rename_i hpos
        cases h
        refine ⟨rfl, fun b hb => ?_⟩
        rw [hsome] at hb
        cases hb
        have hkey := congrArg RequirementKey.kind (Keyed.key_of_get hsome)
        exact outranks_of_compare hkey.symm (fun hlt => hw (.inl hlt)) hpos
      · cases h

theorem mergeRequirements_ok {layer : OverlayLayer} {rs : List Requirement} {c c' : Composing}
    (h : rs.foldlM (mergeRequirement layer) c = .ok c') :
    c'.body.requirements = Keyed.putAll Requirement.compositeKey c.body.requirements rs ∧
      Keyed.Admits Requirement.compositeKey Outranks c.body.requirements rs := by
  induction rs generalizing c with
  | nil => cases h; exact ⟨rfl, trivial⟩
  | cons r rs ih =>
    rw [List.foldlM_cons] at h
    cases hm : mergeRequirement layer c r with
    | error e => rw [hm] at h; cases h
    | ok c₁ =>
      rw [hm] at h
      obtain ⟨hput, hout⟩ := mergeRequirement_ok hm
      obtain ⟨hall, hadmits⟩ := ih h
      rw [hput] at hall hadmits
      exact ⟨hall, hout, hadmits⟩

theorem foldl_addScope_requirements (layer : OverlayLayer) (scopes : List Scope) (c : Composing) :
    (scopes.foldl (addScope layer) c).body.requirements = c.body.requirements := by
  induction scopes generalizing c with
  | nil => rfl
  | cons s scopes ih =>
    rw [List.foldl_cons, ih, addScope]
    split <;> rfl

/-- The layers write all their requirements, each outranking what it replaces. -/
theorem applyLayers_ok {layers : List OverlayLayer} {c c' : Composing} (h : layers.foldlM applyLayer c = .ok c') :
    c'.body.requirements =
        Keyed.putAll Requirement.compositeKey c.body.requirements (layers.flatMap OverlayLayer.requirements) ∧
      Keyed.Admits Requirement.compositeKey Outranks c.body.requirements
        (layers.flatMap OverlayLayer.requirements) := by
  induction layers generalizing c with
  | nil => cases h; exact ⟨rfl, trivial⟩
  | cons layer layers ih =>
    rw [List.foldlM_cons] at h
    cases hl : applyLayer c layer with
    | error e => rw [hl] at h; cases h
    | ok c₁ =>
      rw [hl] at h
      unfold applyLayer at hl
      split at hl
      · cases hl
      · obtain ⟨hput, hadmits⟩ := mergeRequirements_ok hl
        rw [foldl_addScope_requirements] at hput hadmits
        obtain ⟨hall, hrest⟩ := ih h
        rw [hput] at hall hrest
        rw [List.flatMap_cons, Keyed.putAll_append]
        exact ⟨hall, hadmits.append hrest⟩

/-! ## What a composition keeps -/

/-- What the layers declare last under the key of a requirement; the requirement itself if they declare nothing. -/
def lastDeclared (layers : List OverlayLayer) (r : Requirement) : Requirement :=
  (Keyed.get Requirement.compositeKey r.compositeKey (layers.flatMap OverlayLayer.requirements).reverse).getD r

theorem canonicalizeRequirement_compositeKey (q : Requirement) :
    (canonicalizeRequirement q).compositeKey = q.compositeKey := rfl

/-- Order and identity play no part in what satisfies a requirement. -/
theorem observes_canonicalizeRequirement (q : Requirement) (c : Candidate) :
    Observes (canonicalizeRequirement q) c ↔ Observes q c := by
  have hm : ∀ m, m ∈ (canonicalizeRequirement q).members ↔ m ∈ q.members := fun _ => mem_sortBy
  have hk : (canonicalizeRequirement q).kind = q.kind := rfl
  unfold Observes
  rw [hk]
  cases kindClass q.kind <;> first | exact Iff.rfl | skip
  simp only [hm]
  exact Iff.rfl

theorem entails_canonicalizeRequirement (q r : Requirement) : Entails (canonicalizeRequirement q) r ↔ Entails q r :=
  forall_congr' fun c => by rw [observes_canonicalizeRequirement]

/-- A composition that succeeds applies its layers, each of them, to a base that repeats no key. -/
theorem compose_ok {base : ContractBody} {layers : List OverlayLayer} {maxLayers : Nat}
    (h : (compose base layers maxLayers).ok = true) :
    ∃ c, layers.foldlM applyLayer ⟨base, []⟩ = .ok c ∧ (base.requirements.map Requirement.compositeKey).Nodup ∧
      (compose base layers maxLayers).body = finishComposition c.body := by
  unfold compose at h ⊢
  cases hb : composeBody base layers maxLayers with
  | error refusal => rw [hb] at h; cases h
  | ok c =>
    unfold composeBody at hb
    split at hb
    · cases hb
    · rename_i c₀ hlayers
      unfold checkComposition at hb
      split at hb
      · cases hb
      · split at hb
        · cases hb
        · cases hb
          unfold composeLayers at hlayers
          split at hlayers
          · cases hlayers
          · split at hlayers
            · cases hlayers
            · rename_i hnodup
              exact ⟨c₀, hlayers, not_not.1 hnodup, rfl⟩

/-- The requirement a composition has under the key of a requirement of its base, which is the only one there:
the one declared last, in canonical form. -/
theorem compose_requirement {base : ContractBody} {layers : List OverlayLayer} {maxLayers : Nat}
    (h : (compose base layers maxLayers).ok = true) {r : Requirement} (hr : r ∈ base.requirements)
    (hfits : RequirementFits r) :
    Outranks (lastDeclared layers r) r ∧ (lastDeclared layers r).compositeKey = r.compositeKey ∧
      ∀ r', r' ∈ (compose base layers maxLayers).body.requirements ∧ r'.compositeKey = r.compositeKey ↔
        r' = canonicalizeRequirement (lastDeclared layers r) := by
  obtain ⟨c, hlayers, hnodup, hbody⟩ := compose_ok h
  obtain ⟨hput, hadmits⟩ := applyLayers_ok hlayers
  have hget := Keyed.get_of_mem hnodup hr
  have hlast : Keyed.get Requirement.compositeKey r.compositeKey c.body.requirements = some (lastDeclared layers r) := by
    rw [hput, Keyed.get_putAll, hget, lastDeclared]
    cases Keyed.get Requirement.compositeKey r.compositeKey (layers.flatMap OverlayLayer.requirements).reverse <;> rfl
  obtain ⟨a, ha, hout⟩ := hadmits.related outranks_trans hget (outranks_refl hfits)
  rw [← hput, hlast] at ha
  cases ha
  refine ⟨hout, Keyed.key_of_get hlast, fun r' => ?_⟩
  rw [hbody]
  show r' ∈ sortBy requirementPrecedes (c.body.requirements.map canonicalizeRequirement) ∧ _ ↔ _
  rw [mem_sortBy, List.mem_map]
  constructor
  · rintro ⟨⟨q, hq, rfl⟩, hkey⟩
    have hgq := Keyed.get_of_mem (hput ▸ Keyed.nodup_putAll hnodup _) hq
    rw [canonicalizeRequirement_compositeKey] at hkey
    rw [hkey, hlast] at hgq
    cases hgq
    rfl
  · rintro rfl
    have hkey := Keyed.key_of_get hlast
    exact ⟨⟨_, Keyed.mem_of_get hlast, rfl⟩, hkey⟩

/-! ## When nothing is weakened -/

/-- What the requirement `q` in place of `r` must keep: for a stronger one, bounds at least as tight as the
weakest acceptable one or one of the accepted texts; the same reading of isolation and of an attribute; and for
a collective the same sense and at least the members. -/
def upholds (q r : Requirement) : Bool :=
  match kindClass r.kind with
  | .numeric => q.strength == r.strength || !looser r.kind q.target r.minimum
  | .textual => q.strength == r.strength || q.value == [] || q.value == r.value || q.value == r.preferredValue
  | .isolation => wantsIsolation q.value == wantsIsolation r.value
  | .labelled => q.value == r.value
  | .collective =>
    if r.value = utf8 "unsupported" then q.value == utf8 "unsupported"
    else q.value != utf8 "unsupported" && r.members.all (· ∈ q.members)

/-- A requirement that outranks another, and is not of the same strength, is required and the other preferred. -/
theorem outranks_strength {q r : Requirement} (h : r.strength.value < q.strength.value)
    (hs : r.strength ≠ .informational) : q.strength = .required ∧ r.strength = .preferred := by
  revert h hs
  cases q.strength <;> cases r.strength <;> decide

theorem entails_iff_upholds_numeric {q r : Requirement} (hr : RequirementFits r) (ho : Outranks q r)
    (hs : r.strength ≠ .informational) (hc : kindClass r.kind = .numeric) :
    Entails q r ↔ upholds q r = true := by
  obtain ⟨hk, ho⟩ := ho
  have hn : r.hasNumeric = true := by rw [hr.numeric, kindIsNumeric_iff, hc]
  rw [entails_numeric hk hc, upholds, hc]
  rcases ho with hlt | ⟨he, ⟨-, -, hd⟩ | ⟨-, hn', -⟩⟩
  · obtain ⟨hq, hp⟩ := outranks_strength hlt hs
    have hm := Double.not_isNan_of_isFinite (hr.finite hn).2
    simp only [acceptsNumber_required hq, acceptsNumber_preferred hr hn hp, hk, hq, hp]
    rw [forall_meets_iff hm]
    simp
  · -- at the same strength both bounds are at least as tight
    have hmeets : meets r.kind r.target q.target = true ∧ meets r.kind r.minimum q.minimum = true := by
      rw [hk] at hd
      unfold dominates at hd
      unfold meets
      split at hd
      · rename_i hf
        rw [if_pos hf, if_pos hf]
        exact Bool.and_eq_true _ _ ▸ hd
      · rename_i hf
        rw [if_neg hf, if_neg hf]
        exact Bool.and_eq_true _ _ ▸ hd
    refine iff_of_true (fun v hv => ?_) (by simp [he])
    rcases hv with ht | ⟨hp, hm⟩
    · exact .inl (meets_trans hmeets.1 (hk ▸ ht))
    · exact .inr ⟨he ▸ hp, meets_trans hmeets.2 (hk ▸ hm)⟩
  · rw [hn] at hn'; cases hn'

theorem entails_iff_upholds_textual {q r : Requirement} (hr : RequirementFits r) (ho : Outranks q r)
    (hs : r.strength ≠ .informational) (hc : kindClass r.kind = .textual) :
    Entails q r ↔ upholds q r = true := by
  obtain ⟨hk, ho⟩ := ho
  rw [entails_textual hk hc, upholds, hc]
  rcases ho with hlt | ⟨he, ⟨-, hn, -⟩ | ⟨-, -, hv, hp⟩⟩
  · obtain ⟨hq, hp⟩ := outranks_strength hlt hs
    simp only [AcceptsText, hq, hp, ne_eq, not_true_eq_false, false_and, or_false, reduceCtorEq, not_false_eq_true,
      true_and, Bool.or_eq_true, beq_iff_eq]
    constructor
    · intro h
      by_cases hv : q.value = []
      · exact .inl (.inl (.inr hv))
      · rcases (h q.value ⟨hv, rfl⟩).2 with h | ⟨-, h⟩
        · exact .inl (.inr h)
        · exact .inr h
    · rintro h t ⟨ht, rfl⟩
      refine ⟨ht, ?_⟩
      rcases h with ((h | h) | h) | h
      · cases h
      · exact absurd h ht
      · exact .inl h
      · exact .inr ⟨h ▸ ht, h⟩
  · have hnum := hr.numeric
    rw [hn] at hnum
    rw [kindIsNumeric_iff.1 hnum.symm] at hc
    cases hc
  · refine iff_of_true (fun t ht => ?_) (by simp [he])
    rw [AcceptsText, ← he, ← hv, ← hp]
    exact ht

theorem entails_iff_upholds {q r : Requirement} (hr : RequirementFits r) (ho : Outranks q r)
    (hkey : q.compositeKey = r.compositeKey) (hs : r.strength ≠ .informational) :
    Entails q r ↔ upholds q r = true := by
  have hk : q.kind = r.kind := ho.1
  cases hc : kindClass r.kind with
  | numeric => exact entails_iff_upholds_numeric hr ho hs hc
  | textual => exact entails_iff_upholds_textual hr ho hs hc
  | isolation => rw [entails_isolation hk hc, upholds, hc, beq_iff_eq]
  | labelled => rw [entails_labelled hk hc (congrArg RequirementKey.key hkey), upholds, hc, beq_iff_eq]
  | collective =>
    rw [entails_collective hk hc, upholds, hc]
    by_cases hv : r.value = utf8 "unsupported"
    · simp [hv]
    · simp [hv, List.subset_def]

/-- What a composition promises for a requirement of its base: a requirement of the same key, at least as
strong, and whatever satisfies that satisfies the base's unless the base's is not evaluated. -/
def Strengthens (body : ContractBody) (r : Requirement) : Prop :=
  ∃ r' ∈ body.requirements, r'.compositeKey = r.compositeKey ∧ r.strength.value ≤ r'.strength.value ∧
    ∀ entry current now age, (decideRequirement r' entry current now age).satisfaction = .satisfied →
      (decideRequirement r entry current now age).satisfaction = .satisfied ∨
        (decideRequirement r entry current now age).satisfaction = .notApplicable

theorem outranks_value {q r : Requirement} (h : Outranks q r) : r.strength.value ≤ q.strength.value := by
  rcases h.2 with h | ⟨h, -⟩
  · exact h.le
  · rw [h]

/-- A composition strengthens its whole base exactly when the last declaration under the key of each evaluated
requirement of the base upholds it. -/
theorem compose_strengthens_iff {base : ContractBody} {layers : List OverlayLayer} {maxLayers : Nat}
    (hbase : (validateContractBody base).ok = true) (hok : (compose base layers maxLayers).ok = true) :
    (∀ r ∈ base.requirements, Strengthens (compose base layers maxLayers).body r) ↔
      ∀ r ∈ base.requirements, r.strength = .informational ∨ upholds (lastDeclared layers r) r = true := by
  refine forall₂_congr fun r hr => ?_
  have hfits := requirementFits_of_valid hbase hr
  obtain ⟨hout, hkey, hunique⟩ := compose_requirement hok hr hfits
  by_cases hs : r.strength = .informational
  · refine iff_of_true ?_ (.inl hs)
    obtain ⟨hmem, hk⟩ := (hunique _).2 rfl
    exact ⟨_, hmem, hk, outranks_value hout, fun _ _ _ _ _ => .inr (decideRequirement_informational hs ..)⟩
  · have hq : (canonicalizeRequirement (lastDeclared layers r)).strength ≠ .informational := by
      intro hq
      have hle := outranks_value hout
      have hq' : (lastDeclared layers r).strength = .informational := hq
      rw [hq'] at hle
      revert hle hs
      cases r.strength <;> decide
    rw [or_iff_right hs, ← entails_iff_upholds hfits hout hkey hs, ← entails_canonicalizeRequirement,
      entails_iff_decide hq hs]
    constructor
    · rintro ⟨r', hmem, hk, -, hsat⟩ entry current now age h
      rw [(hunique r').1 ⟨hmem, hk⟩] at hsat
      exact (hsat entry current now age h).resolve_right (decideRequirement_ne_notApplicable hs _ _ _ _)
    · intro h
      obtain ⟨hmem, hk⟩ := (hunique _).2 rfl
      exact ⟨_, hmem, hk, outranks_value hout, fun entry current now age hsat => .inl (h entry current now age hsat)⟩

/-! ## An overlay that loosens a bound -/

/-- A latency of 100 preferred and of 200 accepted. -/
def latencyBase : ContractBody :=
  singleRequirement 1
    { kind := .maxLatency, strength := .preferred, target := .ofInt 100, minimum := .ofInt 200, hasNumeric := true }

/-- A layer that requires a latency bound. -/
def latencyLayer (bound : Int) : OverlayLayer where
  name := utf8 "overlay"
  requirements :=
    [{ scope := utf8 "s", kind := .maxLatency, strength := .required, target := .ofInt bound, minimum := .ofInt bound,
        hasNumeric := true }]

set_option maxRecDepth 100000 in
theorem compose_strengthens_iff_latency :
    (∀ r ∈ latencyBase.requirements, Strengthens (compose latencyBase [latencyLayer 150] 16).body r) ↔
      ∀ r ∈ latencyBase.requirements,
        r.strength = .informational ∨ upholds (lastDeclared [latencyLayer 150] r) r = true :=
  compose_strengthens_iff (by decide +kernel) (by decide +kernel)

/-- The requirement of the base. -/
def preferredLatency : Requirement := latencyBase.requirements.headD {}

/-- A scope with a latency of 300. -/
def slowEntry : EvidenceEntry := { scope := utf8 "s", candidate := { maxLatency := some (.ofInt 300) } }

set_option maxRecDepth 100000 in
/-- A required latency of 500 takes the place of the preferred one of 100: a latency of 300 then satisfies the
composition and not its base. -/
theorem compose_weakens :
    (validateContractBody latencyBase).ok = true ∧ (compose latencyBase [latencyLayer 500] 16).ok = true ∧
      ¬∀ r ∈ latencyBase.requirements, Strengthens (compose latencyBase [latencyLayer 500] 16).body r := by
  have hmem : preferredLatency ∈ latencyBase.requirements := List.mem_cons_self
  have hbad : ∀ r' ∈ (compose latencyBase [latencyLayer 500] 16).body.requirements,
      (decideRequirement r' (some slowEntry) .zero 0 0).satisfaction = .satisfied ∧
        (decideRequirement preferredLatency (some slowEntry) .zero 0 0).satisfaction = .unsatisfied := by
    decide +kernel
  refine ⟨by decide +kernel, by decide +kernel, fun h => ?_⟩
  obtain ⟨r', hr', -, -, hsat⟩ := h _ hmem
  obtain ⟨hyes, hno⟩ := hbad r' hr'
  rcases hsat _ _ _ _ hyes with hs | hs <;> rw [hno] at hs <;> cases hs

end Wnc
