/-
When a contract whose body passes every check but those of derived identities becomes valid by being made canonical: when
no two of its requirements are cut alike before their identities are derived.
-/
import Wnc.Contract.Digest

namespace Wnc

open Lib

/-! ## Checks of identities -/

/-- The texts of the diagnostics about the identities of the contract and of its requirements. -/
def identityMessages : List Bytes :=
  [utf8 "contract identity is the zero identity", utf8 "requirement identity is the zero identity",
    utf8 "requirement identity is repeated"]

/-- Diagnostics that are all about identities. -/
def OnlyIdentities (ds : List Diagnostic) : Prop := ∀ d ∈ ds, d.message ∈ identityMessages

instance (ds : List Diagnostic) : Decidable (OnlyIdentities ds) :=
  inferInstanceAs (Decidable (∀ d ∈ ds, d.message ∈ identityMessages))

/-- The start of a text that is not about identities. -/
def Foreign (start : Bytes) : Prop := ∀ m ∈ identityMessages, ¬start <+: m

instance instDecidableForeign (start : Bytes) : Decidable (Foreign start) :=
  inferInstanceAs (Decidable (∀ m ∈ identityMessages, ¬start <+: m))

theorem Foreign.append {start : Bytes} (h : Foreign start) (rest : Bytes) : Foreign (start ++ rest) :=
  fun m hm hle => h m hm ((List.prefix_append start rest).trans hle)

theorem Foreign.not_mem {text : Bytes} (h : Foreign text) : text ∉ identityMessages :=
  fun hm => h text hm (List.prefix_refl text)

/-- Diagnostics none of which is about identities. -/
def Unrelated (ds : List Diagnostic) : Prop := ∀ d ∈ ds, Foreign d.message

theorem Unrelated.eq_nil {ds : List Diagnostic} (h : Unrelated ds) (hds : OnlyIdentities ds) : ds = [] :=
  List.eq_nil_iff_forall_not_mem.2 fun d hd => (h d hd).not_mem (hds d hd)

theorem unrelated_nil : Unrelated [] := fun _ h => nomatch h

theorem unrelated_single {code : Code} {message : Bytes} {scope : ScopeId} {requirement : RequirementId}
    (h : Foreign message) : Unrelated [⟨code, message, scope, requirement⟩] := List.forall_mem_singleton.2 h

theorem unrelated_diagnose {condition : Bool} {code : Code} {message : Bytes} {scope : ScopeId}
    {requirement : RequirementId} (h : Foreign message) :
    Unrelated (diagnose condition ⟨code, message, scope, requirement⟩) := by
  cases condition with
  | false => exact unrelated_nil
  | true => exact unrelated_single h

theorem unrelated_append {ds ds' : List Diagnostic} : Unrelated (ds ++ ds') ↔ Unrelated ds ∧ Unrelated ds' :=
  List.forall_mem_append

theorem onlyIdentities_append {ds ds' : List Diagnostic} :
    OnlyIdentities (ds ++ ds') ↔ OnlyIdentities ds ∧ OnlyIdentities ds' := List.forall_mem_append

theorem onlyIdentities_flatMap {α : Type} {l : List α} {f : α → List Diagnostic} :
    OnlyIdentities (l.flatMap f) ↔ ∀ a ∈ l, OnlyIdentities (f a) := by
  unfold OnlyIdentities
  simp only [List.mem_flatMap, forall_exists_index, and_imp]
  exact ⟨fun h a ha d hd => h d a ha hd, fun h d a ha hd => h a ha d hd⟩

/-! ## Scopes -/

theorem unrelated_scopeDiagnostics : ∀ (scopes : List Scope) (seen : List Bytes), Unrelated (scopeDiagnostics seen scopes)
  | [], _ => unrelated_nil
  | scope :: rest, seen => by
    rw [scopeDiagnostics]
    split
    · exact List.forall_mem_cons.2 ⟨by decide, unrelated_scopeDiagnostics rest seen⟩
    · exact unrelated_append.2 ⟨unrelated_diagnose (((by decide : Foreign (utf8 "scope '")).append _).append _),
        unrelated_scopeDiagnostics rest _⟩

theorem findScope_eq (scopes : List Scope) (name : Bytes) : findScope scopes name = Keyed.get Scope.name name scopes := by
  unfold findScope Keyed.get
  congr 1
  funext s
  exact beq_eq_decide s.name name

/-- Scopes with distinct names are found by them in any order. -/
theorem findScope_perm {l m : List Scope} (h : l.Perm m) (hnodup : (l.map Scope.name).Nodup) (name : Bytes) :
    findScope l name = findScope m name := by
  rw [findScope_eq, findScope_eq, Keyed.get_perm h hnodup]

theorem parentDiagnostics_congr {l m : List Scope} (h : ∀ name, findScope l name = findScope m name) (s : Scope) :
    parentDiagnostics l s = parentDiagnostics m s := by
  unfold parentDiagnostics
  rw [h]

theorem unrelated_parentDiagnostics (scopes : List Scope) (s : Scope) : Unrelated (parentDiagnostics scopes s) := by
  have hscope : Foreign (utf8 "scope '") := by decide
  unfold parentDiagnostics
  split
  · exact unrelated_nil
  · split
    · exact unrelated_single ((((hscope.append _).append _).append _).append _)
    · split
      · exact unrelated_single ((hscope.append _).append _)
      · exact unrelated_diagnose ((((hscope.append _).append _).append _).append _)

theorem climbs_congr {l m : List Scope} (h : ∀ name, findScope l name = findScope m name) :
    ∀ steps current, climbs l steps current = climbs m steps current
  | 0, _ => rfl
  | steps + 1, current => by
    rw [climbs, climbs, h]
    simp only [climbs_congr h steps]

theorem unrelated_cycleDiagnostics (b : ContractBody) : Unrelated (cycleDiagnostics b) := by
  unfold cycleDiagnostics
  split
  · exact unrelated_nil
  · exact unrelated_single (((by decide : Foreign (utf8 "scope '")).append _).append _)

/-! ## Requirements -/

theorem unrelated_boundDiagnostics (r : Requirement) : Unrelated (boundDiagnostics r) := by
  unfold boundDiagnostics
  split
  · exact unrelated_single (by decide)
  · split
    · exact unrelated_single (by decide)
    · exact unrelated_append.2 ⟨unrelated_append.2 ⟨unrelated_diagnose (by decide), unrelated_diagnose (by decide)⟩,
        unrelated_diagnose (by decide)⟩

theorem unrelated_valueDiagnostics (r : Requirement) : Unrelated (valueDiagnostics r) := by
  unfold valueDiagnostics
  refine unrelated_append.2 ⟨unrelated_append.2 ⟨unrelated_diagnose ?_, ?_⟩, unrelated_diagnose (by decide)⟩
  · exact ((by decide : Foreign (utf8 "requirement of kind ")).append _).append _
  · split
    · exact unrelated_nil
    · exact unrelated_append.2 ⟨unrelated_diagnose (by decide), unrelated_diagnose (by decide)⟩

theorem unrelated_attributeDiagnostics (r : Requirement) : ∀ (attributes : List (Bytes × Bytes)) (seen : List Bytes),
    Unrelated (attributeDiagnostics r seen attributes)
  | [], _ => unrelated_nil
  | (_, _) :: rest, seen => by
    rw [attributeDiagnostics]
    exact unrelated_append.2 ⟨unrelated_append.2
      ⟨unrelated_diagnose (((by decide : Foreign (utf8 "requirement repeats attribute '")).append _).append _),
        unrelated_diagnose (by decide)⟩, unrelated_attributeDiagnostics r rest _⟩

theorem unrelated_memberDiagnostics (r : Requirement) : ∀ members seen, Unrelated (memberDiagnostics r seen members)
  | [], _ => unrelated_nil
  | _ :: rest, seen => by
    rw [memberDiagnostics]
    exact unrelated_append.2 ⟨unrelated_append.2 ⟨unrelated_diagnose (by decide),
      unrelated_diagnose (((by decide : Foreign (utf8 "collective names member ")).append _).append _)⟩,
      unrelated_memberDiagnostics r rest _⟩

theorem attributeDiagnostics_eq_nil {r : Requirement} : ∀ {attributes : List (Bytes × Bytes)} {seen : List Bytes},
    attributeDiagnostics r seen attributes = [] ↔
      (∀ a ∈ attributes, a.1 ∉ seen ∧ (a.1.length > maxNameBytes || a.2.length > maxStringBytes) = false) ∧
        (attributes.map Prod.fst).Nodup
  | [], _ => by simp [attributeDiagnostics]
  | (name, value) :: rest, seen => by
    rw [attributeDiagnostics, List.append_eq_nil_iff, List.append_eq_nil_iff, diagnose_eq_nil, diagnose_eq_nil,
      attributeDiagnostics_eq_nil, List.forall_mem_cons]
    simp only [List.map_cons, List.nodup_cons, List.mem_cons, not_or, decide_eq_false_iff_not, List.mem_map, not_exists,
      not_and]
    constructor
    · rintro ⟨⟨hseen, hbound⟩, hrest, hnodup⟩
      exact ⟨⟨⟨hseen, hbound⟩, fun a ha => ⟨(hrest a ha).1.2, (hrest a ha).2⟩⟩, fun a ha => (hrest a ha).1.1, hnodup⟩
    · rintro ⟨⟨⟨hseen, hbound⟩, hrest⟩, hdistinct, hnodup⟩
      exact ⟨⟨hseen, hbound⟩, fun a ha => ⟨⟨hdistinct a ha, (hrest a ha).1⟩, (hrest a ha).2⟩, hnodup⟩

theorem memberDiagnostics_eq_nil {r : Requirement} : ∀ {members seen : List RequirementId},
    memberDiagnostics r seen members = [] ↔ (∀ m ∈ members, m ∉ seen ∧ m.isZero = false) ∧ members.Nodup
  | [], _ => by simp [memberDiagnostics]
  | member :: rest, seen => by
    rw [memberDiagnostics, List.append_eq_nil_iff, List.append_eq_nil_iff, diagnose_eq_nil, diagnose_eq_nil,
      memberDiagnostics_eq_nil, List.forall_mem_cons]
    simp only [List.nodup_cons, List.mem_cons, not_or, decide_eq_false_iff_not]
    constructor
    · rintro ⟨⟨hzero, hseen⟩, hrest, hnodup⟩
      exact ⟨⟨⟨hseen, hzero⟩, fun m hm => ⟨(hrest m hm).1.2, (hrest m hm).2⟩⟩,
        fun hm => (hrest member hm).1.1 rfl, hnodup⟩
    · rintro ⟨⟨⟨hseen, hzero⟩, hrest⟩, hdistinct, hnodup⟩
      refine ⟨⟨hzero, hseen⟩, fun m hm => ⟨⟨?_, (hrest m hm).1⟩, (hrest m hm).2⟩, hnodup⟩
      rintro rfl
      exact hdistinct hm

theorem boundDiagnostics_canonicalize {r : Requirement} (h : boundDiagnostics r = []) :
    boundDiagnostics (canonicalizeRequirement r) = [] := by
  unfold boundDiagnostics at h
  split at h
  · cases h
  · rename_i hfinite
    split at h
    · cases h
    · rename_i hnegative
      simp only [List.append_eq_nil_iff, diagnose_eq_nil] at h
      refine (if_neg hfinite).trans ((if_neg hnegative).trans ?_)
      simp only [List.append_eq_nil_iff, diagnose_eq_nil]
      exact h

theorem valueDiagnostics_canonicalize {r : Requirement} (h : valueDiagnostics r = []) :
    valueDiagnostics (canonicalizeRequirement r) = [] := by
  unfold valueDiagnostics at h ⊢
  simp only [List.append_eq_nil_iff, diagnose_eq_nil] at h ⊢
  refine ⟨⟨h.1.1, ?_⟩, h.2⟩
  by_cases hpreferred : r.preferredValue = []
  · exact if_pos hpreferred
  · have hdiagnostics := h.1.2
    rw [if_neg hpreferred, List.append_eq_nil_iff, diagnose_eq_nil, diagnose_eq_nil] at hdiagnostics
    refine (if_neg hpreferred).trans (List.append_eq_nil_iff.2 ?_)
    rw [diagnose_eq_nil, diagnose_eq_nil]
    exact hdiagnostics

theorem sortBy_eq_nil {α : Type} (precedes : α → α → Bool) {l : List α} : sortBy precedes l = [] ↔ l = [] := by
  constructor
  · intro h
    have hperm := (perm_sortBy precedes l).symm
    rw [h] at hperm
    exact hperm.eq_nil
  · rintro rfl
    rfl

theorem sortBy_beq_nil {α : Type} [BEq α] [LawfulBEq α] (precedes : α → α → Bool) (l : List α) :
    (sortBy precedes l == []) = (l == []) := by
  rw [Bool.eq_iff_iff, beq_iff_eq, beq_iff_eq, sortBy_eq_nil]

/-- A requirement that passes its own checks does so in canonical form, when its derived identity and its key are new. -/
theorem requirementDiagnostics_canonicalize {scopes scopes' : List Scope} {seen seen' : List Requirement} {r : Requirement}
    (hfind : ∀ name, findScope scopes' name = findScope scopes name)
    (h : OnlyIdentities (requirementDiagnostics scopes seen r)) (hzero : (canonicalizeRequirement r).id.isZero = false)
    (hid : (canonicalizeRequirement r).id ∉ seen'.map Requirement.id)
    (hkey : (canonicalizeRequirement r).compositeKey ∉ seen'.map Requirement.compositeKey) :
    requirementDiagnostics scopes' seen' (canonicalizeRequirement r) = [] := by
  have hkind : Foreign (utf8 "requirement of kind ") := by decide
  unfold requirementDiagnostics at h
  simp only [onlyIdentities_append] at h
  obtain ⟨⟨⟨⟨⟨⟨⟨⟨⟨⟨hscope, -⟩, -⟩, -⟩, hmissing⟩, hextra⟩, hbound⟩, hvalue⟩, hcount⟩, hattributes⟩, hmembers⟩ := h
  replace hscope := (unrelated_diagnose (((by decide : Foreign (utf8 "requirement references undeclared scope '")).append
    _).append _)).eq_nil hscope
  replace hmissing := (unrelated_diagnose (((by decide : Foreign (utf8 "numeric requirement of kind ")).append
    _).append _)).eq_nil hmissing
  replace hextra := (unrelated_diagnose ((hkind.append _).append _)).eq_nil hextra
  replace hvalue := (unrelated_valueDiagnostics r).eq_nil hvalue
  replace hcount := (unrelated_diagnose (by decide)).eq_nil hcount
  replace hattributes := (unrelated_attributeDiagnostics r _ _).eq_nil hattributes
  rw [diagnose_eq_nil] at hscope hmissing hextra hcount
  unfold requirementDiagnostics
  simp only [List.append_eq_nil_iff]
  refine ⟨⟨⟨⟨⟨⟨⟨⟨⟨⟨?_, diagnose_eq_nil.2 hzero⟩, ?_⟩, ?_⟩, diagnose_eq_nil.2 hmissing⟩, diagnose_eq_nil.2 hextra⟩, ?_⟩,
    valueDiagnostics_canonicalize hvalue⟩, ?_⟩, ?_⟩, ?_⟩
  · rw [diagnose_eq_nil, hfind]
    exact hscope
  · exact diagnose_eq_nil.2 (decide_eq_false hid)
  · exact diagnose_eq_nil.2 (decide_eq_false hkey)
  · by_cases hnumeric : r.hasNumeric = true
    · rw [if_pos hnumeric] at hbound
      exact (if_pos hnumeric).trans (boundDiagnostics_canonicalize ((unrelated_boundDiagnostics r).eq_nil hbound))
    · exact if_neg hnumeric
  · rw [decide_eq_false_iff_not] at hcount
    rw [diagnose_eq_nil, decide_eq_false_iff_not]
    rwa [show (canonicalizeRequirement r).attributes.length = r.attributes.length from (perm_sortBy _ _).length_eq]
  · rw [attributeDiagnostics_eq_nil] at hattributes ⊢
    refine ⟨fun a ha => hattributes.1 a (mem_sortBy.1 ha), ?_⟩
    exact ((perm_sortBy _ r.attributes).map Prod.fst).nodup_iff.2 hattributes.2
  · by_cases hcollective : r.kind = .collective
    · rw [if_pos hcollective, onlyIdentities_append] at hmembers
      have hempty := (unrelated_diagnose (by decide)).eq_nil hmembers.1
      have hnames := (unrelated_memberDiagnostics r _ _).eq_nil hmembers.2
      rw [memberDiagnostics_eq_nil] at hnames
      refine (if_pos hcollective).trans (List.append_eq_nil_iff.2 ⟨?_, ?_⟩)
      · rw [diagnose_eq_nil] at hempty ⊢
        exact (sortBy_beq_nil _ r.members).trans hempty
      · exact memberDiagnostics_eq_nil.2 ⟨fun m hm => hnames.1 m (mem_sortBy.1 hm),
          (perm_sortBy _ r.members).nodup_iff.2 hnames.2⟩
    · rw [if_neg hcollective] at hmembers
      have hnone := (unrelated_diagnose (by decide)).eq_nil hmembers
      refine (if_neg hcollective).trans ?_
      rw [diagnose_eq_nil, bne, Bool.not_eq_false'] at hnone ⊢
      exact (sortBy_beq_nil _ r.members).trans hnone

theorem requirementsDiagnostics_only {scopes : List Scope} : ∀ {rs seen : List Requirement},
    OnlyIdentities (requirementsDiagnostics scopes seen rs) →
      (∀ r ∈ rs, ∃ seen, OnlyIdentities (requirementDiagnostics scopes seen r)) ∧
        (rs.map Requirement.compositeKey).Nodup ∧ ∀ r ∈ rs, r.compositeKey ∉ seen.map Requirement.compositeKey
  | [], _, _ => ⟨List.forall_mem_nil _, List.nodup_nil, List.forall_mem_nil _⟩
  | r :: rest, seen, h => by
    rw [requirementsDiagnostics, onlyIdentities_append] at h
    obtain ⟨hown, hnodup, hfresh⟩ := requirementsDiagnostics_only h.2
    have hkey : r.compositeKey ∉ seen.map Requirement.compositeKey := by
      have hr := h.1
      unfold requirementDiagnostics at hr
      simp only [onlyIdentities_append] at hr
      have hdup := (unrelated_diagnose (((by decide : Foreign (utf8 "requirement key is repeated for scope '")).append
        _).append _)).eq_nil hr.1.1.1.1.1.1.1.2
      exact of_decide_eq_false (diagnose_eq_nil.1 hdup)
    rw [List.map_cons, List.nodup_cons, List.forall_mem_cons, List.forall_mem_cons]
    refine ⟨⟨⟨seen, h.1⟩, hown⟩, ⟨fun hm => ?_, hnodup⟩, hkey, fun q hq hm => hfresh q hq (List.mem_cons_of_mem _ hm)⟩
    obtain ⟨q, hq, he⟩ := List.mem_map.1 hm
    exact hfresh q hq (by rw [he]; exact List.mem_cons_self)

theorem requirementsDiagnostics_ids {scopes : List Scope} : ∀ {rs seen : List Requirement},
    requirementsDiagnostics scopes seen rs = [] →
      (rs.map Requirement.id).Nodup ∧ ∀ r ∈ rs, r.id ∉ seen.map Requirement.id
  | [], _, _ => ⟨List.nodup_nil, List.forall_mem_nil _⟩
  | r :: rest, seen, h => by
    rw [requirementsDiagnostics, List.append_eq_nil_iff] at h
    obtain ⟨hnodup, hfresh⟩ := requirementsDiagnostics_ids h.2
    have hid : r.id ∉ seen.map Requirement.id := by
      have hr := h.1
      unfold requirementDiagnostics at hr
      simp only [List.append_eq_nil_iff] at hr
      exact of_decide_eq_false (diagnose_eq_nil.1 hr.1.1.1.1.1.1.1.1.2)
    rw [List.map_cons, List.nodup_cons, List.forall_mem_cons]
    refine ⟨⟨fun hm => ?_, hnodup⟩, hid, fun q hq hm => hfresh q hq (List.mem_cons_of_mem _ hm)⟩
    obtain ⟨q, hq, he⟩ := List.mem_map.1 hm
    exact hfresh q hq (by rw [he]; exact List.mem_cons_self)

theorem requirementsDiagnostics_canonical {scopes scopes' : List Scope}
    (hfind : ∀ name, findScope scopes' name = findScope scopes name) : ∀ {rs seen : List Requirement},
    (∀ r ∈ rs, r.id.isZero = false ∧ ∃ q seen, r = canonicalizeRequirement q ∧
      OnlyIdentities (requirementDiagnostics scopes seen q)) →
    (rs.map Requirement.id).Nodup → (rs.map Requirement.compositeKey).Nodup →
    (∀ r ∈ rs, r.id ∉ seen.map Requirement.id ∧ r.compositeKey ∉ seen.map Requirement.compositeKey) →
    requirementsDiagnostics scopes' seen rs = []
  | [], _, _, _, _, _ => rfl
  | r :: rest, seen, hrs, hids, hkeys, hfresh => by
    rw [List.forall_mem_cons] at hrs hfresh
    rw [List.map_cons, List.nodup_cons] at hids hkeys
    obtain ⟨⟨hzero, q, seen', rfl, hq⟩, hrest⟩ := hrs
    rw [requirementsDiagnostics, List.append_eq_nil_iff]
    refine ⟨requirementDiagnostics_canonicalize hfind hq hzero hfresh.1.1 hfresh.1.2,
      requirementsDiagnostics_canonical hfind hrest hids.2 hkeys.2 fun p hp => ?_⟩
    rw [List.map_cons, List.map_cons, List.mem_cons, List.mem_cons, not_or, not_or]
    refine ⟨⟨fun he => hids.1 ?_, (hfresh.2 p hp).1⟩, fun he => hkeys.1 ?_, (hfresh.2 p hp).2⟩
    · rw [← he]
      exact List.mem_map_of_mem hp
    · rw [← he]
      exact List.mem_map_of_mem hp

/-! ## Counts -/

theorem requiredScopes_perm {a b : ContractBody}
    (h : (a.requirements.map Requirement.scope).Perm (b.requirements.map Requirement.scope)) :
    requiredScopes a = requiredScopes b := by
  unfold requiredScopes
  have hsort : (a.requirements.map Requirement.scope).insertionSort (· ≤ ·) =
      (b.requirements.map Requirement.scope).insertionSort (· ≤ ·) := by
    refine List.Perm.eq_of_pairwise (fun x y _ _ hxy hyx => le_antisymm hxy hyx) (List.pairwise_insertionSort _ _)
      (List.pairwise_insertionSort _ _) ?_
    exact (List.perm_insertionSort _ _).trans (h.trans (List.perm_insertionSort _ _).symm)
  rw [hsort]

/-- Requirements made canonical and put in another order are as many in every scope, and of as many kinds. -/
theorem countDiagnostics_canonical {a b : ContractBody}
    (h : a.requirements.Perm (b.requirements.map canonicalizeRequirement)) : countDiagnostics a = countDiagnostics b := by
  have hscopes : requiredScopes a = requiredScopes b := by
    refine requiredScopes_perm ((h.map Requirement.scope).trans ?_)
    rw [List.map_map]
    exact List.Perm.refl _
  have hfilter : ∀ scope, ((a.requirements.filter fun r => r.scope == scope).map Requirement.kind).Perm
      ((b.requirements.filter fun r => r.scope == scope).map Requirement.kind) := by
    intro scope
    refine ((h.filter fun r => r.scope == scope).map Requirement.kind).trans ?_
    rw [List.filter_map, List.map_map]
    exact List.Perm.refl _
  have hcount : ∀ scope, (a.requirements.filter fun r => r.scope == scope).length =
      (b.requirements.filter fun r => r.scope == scope).length := by
    intro scope
    have := (hfilter scope).length_eq
    rwa [List.length_map, List.length_map] at this
  have hkinds : ∀ scope, ((a.requirements.filter fun r => r.scope == scope).map Requirement.kind).dedup.length =
      ((b.requirements.filter fun r => r.scope == scope).map Requirement.kind).dedup.length :=
    fun scope => (hfilter scope).dedup.length_eq
  unfold countDiagnostics
  rw [hscopes]
  simp only [hcount, hkinds]

theorem unrelated_countDiagnostics (b : ContractBody) : Unrelated (countDiagnostics b) := by
  have hflatMap : ∀ {l : List Bytes} {f : Bytes → List Diagnostic}, (∀ scope, Unrelated (f scope)) → Unrelated (l.flatMap f) :=
    fun hf d hd => by
      obtain ⟨scope, -, hd⟩ := List.mem_flatMap.1 hd
      exact hf scope d hd
  have hcount : ∀ scope count bound counted, Unrelated (countDiagnostic scope count bound counted) :=
    fun scope count bound counted => unrelated_diagnose (((((by decide : Foreign (utf8 "scope '")).append _).append
      _).append _).append _ |>.append _)
  exact unrelated_append.2 ⟨hflatMap fun _ => hcount _ _ _ _, hflatMap fun _ => hcount _ _ _ _⟩

/-! ## Bodies -/

/-- The header of a body passes its checks with another identity and its scopes and requirements in another order. -/
theorem headerDiagnostics_canonical {a b : ContractBody} (h : OnlyIdentities (headerDiagnostics b))
    (hid : a.contractId.isZero = false) (hscopes : a.scopes.length = b.scopes.length)
    (hrequirements : a.requirements.length = b.requirements.length)
    (hsame : a = { b with contractId := a.contractId, scopes := a.scopes, requirements := a.requirements }) :
    headerDiagnostics a = [] := by
  unfold headerDiagnostics at h
  simp only [onlyIdentities_append] at h
  obtain ⟨⟨⟨⟨⟨⟨⟨⟨⟨⟨hschema, hworkload⟩, hrevision⟩, -⟩, hgeneration⟩, hpolicy⟩, hname⟩, hmajor⟩, hmany⟩, hmore⟩, hnone⟩ := h
  replace hworkload := (unrelated_diagnose (by decide)).eq_nil hworkload
  replace hrevision := (unrelated_diagnose (by decide)).eq_nil hrevision
  replace hgeneration := (unrelated_diagnose (by decide)).eq_nil hgeneration
  replace hpolicy := (unrelated_diagnose (by decide)).eq_nil hpolicy
  replace hname := (unrelated_diagnose (by decide)).eq_nil hname
  replace hmajor := (unrelated_diagnose (by decide)).eq_nil hmajor
  replace hmany := (unrelated_diagnose ((((by decide : Foreign (utf8 "scope count ")).append _).append _).append
    _)).eq_nil hmany
  replace hmore := (unrelated_diagnose ((((by decide : Foreign (utf8 "requirement count ")).append _).append _).append
    _)).eq_nil hmore
  replace hnone := (unrelated_diagnose (by decide)).eq_nil hnone
  have hempty : (a.requirements == []) = (b.requirements == []) := by
    rw [Bool.eq_iff_iff, beq_iff_eq, beq_iff_eq, ← List.length_eq_zero_iff, hrequirements, List.length_eq_zero_iff]
  rw [diagnose_eq_nil] at hworkload hrevision hgeneration hpolicy hname hmajor hmany hmore hnone
  unfold headerDiagnostics
  simp only [List.append_eq_nil_iff, diagnose_eq_nil]
  rw [hscopes, hrequirements, hempty]
  rw [hsame]
  refine ⟨⟨⟨⟨⟨⟨⟨⟨⟨⟨?_, hworkload⟩, hrevision⟩, hid⟩, hgeneration⟩, hpolicy⟩, hname⟩, hmajor⟩, hmany⟩, hmore⟩, hnone⟩
  by_cases hversion : b.schemaVersion = 0
  · rw [if_pos hversion] at hschema
    exact absurd (hschema _ List.mem_cons_self) (Foreign.not_mem (by decide))
  · rw [if_neg hversion] at hschema
    refine (if_neg hversion).trans (diagnose_eq_nil.2 (diagnose_eq_nil.1 ((unrelated_diagnose ?_).eq_nil hschema)))
    exact (((by decide : Foreign (utf8 "schema_version ")).append _).append _).append _

/-! ## Identities -/

theorem Id.fromDigest_injective {tag : Tag} {d e : Digest} (h : (Id.fromDigest d : Id tag) = Id.fromDigest e) : d = e := by
  have hnibbles : nibbles d.bytes = nibbles e.bytes := congrArg Id.digits h
  exact Digest.ext (by rw [← joinNibbles_nibbles d.bytes, hnibbles, joinNibbles_nibbles])

theorem Id.isZero_fromDigest {tag : Tag} {d : Digest} (h : d ≠ .zero) : (Id.fromDigest d : Id tag).isZero = false := by
  rw [Bool.eq_false_iff, ne_eq, Id.isZero_iff]
  have hzero : (Id.zero : Id tag) = Id.fromDigest .zero := rfl
  rw [hzero]
  exact fun he => h (Id.fromDigest_injective he)

/-- What the identity of a requirement is derived from when it is made canonical. -/
def Requirement.document (r : Requirement) : Json := requirementDocument (canonicalizeRequirement r)

/-- The bytes hashed for the identity of a requirement. -/
def Requirement.identityInput (r : Requirement) : Bytes := domainInput (utf8 "wnc/v1/requirement") r.document.dump

/-- A requirement whose document is longer than the budget of a dump, which cuts it. -/
def Requirement.Cut (r : Requirement) : Prop := maxDocumentBytes * 2 < r.document.text.length

/-- The bytes hashed for the identity of a contract. -/
def Contract.identityInput (c : Contract) : Bytes :=
  [utf8 "wnc/v1/contract", c.body.workload.id.view, (bodyDigest c.body.inOrder).hex].flatMap partInput

/-- No collision comes between the identities of a contract's requirements, and no digest that is derived is zero. -/
structure Contract.SoundDigests (c : Contract) : Prop where
  inputs : Ledger.CollisionFree (c.body.requirements.map Requirement.identityInput)
  dumps : Ledger.CollisionFree (c.body.requirements.map fun r => r.document.dump)
  requirements : ∀ r ∈ c.body.requirements, sha256 r.identityInput ≠ .zero
  contract : sha256 c.identityInput ≠ .zero

theorem id_canonicalizeRequirement (r : Requirement) :
    (canonicalizeRequirement r).id = Id.fromDigest (sha256 r.identityInput) := by
  unfold Requirement.identityInput
  rw [← digestDomain_eq]
  rfl

theorem contractId_canonicalize (c : Contract) :
    (canonicalize c).body.contractId = Id.fromDigest (sha256 c.identityInput) := by
  unfold Contract.identityInput
  rw [canonicalize_eq, ← sha256Parts_eq]
  rfl

theorem proper_requirementDocument (r : Requirement) : (requirementDocument r).Proper := by
  unfold requirementDocument
  repeat' first
    | exact trivial
    | exact proper_membersToJson _
    | exact proper_attributesToJson _
    | apply Json.Proper.put
    | apply Json.Proper.ite

/-- A document that is not cut tells the key of its requirement. -/
theorem compositeKey_of_dump {r q : Requirement} (hfits : ¬r.Cut) (h : r.document.dump = q.document.dump) :
    r.compositeKey = q.compositeKey := by
  have hprinted : r.document.printed = q.document.printed :=
    (Json.text_eq_iff (proper_requirementDocument _) (proper_requirementDocument _)).1
      (Json.text_eq_of_dump (not_lt.1 hfits) h)
  have found := Json.found_printed hprinted
  have hscope := found "scope"
  have hkind := found "kind"
  have hkey := found "key"
  simp [Requirement.document, requirementDocument, Json.find_put, find_ite] at hscope hkind hkey
  have hkind : r.kind = q.kind := by
    refine Option.some.inj ?_
    rw [← parseRequirementKind_token, ← parseRequirementKind_token]
    exact congrArg parseRequirementKind hkind
  unfold Requirement.compositeKey
  rw [hkind, show r.scope = q.scope from hscope, show r.key = q.key from hkey]

/-- Derived identities are distinct exactly when no two requirements are cut alike. -/
theorem nodup_identities_iff {rs : List Requirement} (hkeys : (rs.map Requirement.compositeKey).Nodup)
    (hinputs : Ledger.CollisionFree (rs.map Requirement.identityInput))
    (hdumps : Ledger.CollisionFree (rs.map fun r => r.document.dump)) :
    ((rs.map canonicalizeRequirement).map Requirement.id).Nodup ↔
      rs.Pairwise fun r q => r.Cut → q.Cut → r.document.dump ≠ q.document.dump := by
  unfold List.Nodup at hkeys ⊢
  rw [List.map_map, List.pairwise_map]
  rw [List.pairwise_map] at hkeys
  constructor
  · refine List.Pairwise.imp fun {r q} hne _ _ hdump => hne ?_
    show (canonicalizeRequirement r).id = (canonicalizeRequirement q).id
    rw [id_canonicalizeRequirement, id_canonicalizeRequirement, Requirement.identityInput, Requirement.identityInput, hdump]
  · intro h
    refine (h.and hkeys).imp_of_mem fun {r q} hr hq hrq he => ?_
    have hsha : sha256 r.identityInput = sha256 q.identityInput := by
      refine @Id.fromDigest_injective .requirement _ _ ?_
      rw [← id_canonicalizeRequirement, ← id_canonicalizeRequirement]
      exact he
    have hinput := hinputs _ (List.mem_map_of_mem hr) _ (List.mem_map_of_mem hq) hsha
    have hdump : r.document.dump = q.document.dump :=
      domainInput_injective (hdumps _ (List.mem_map_of_mem hr) _ (List.mem_map_of_mem hq)) hinput
    by_cases hcut : r.Cut
    · by_cases hcut' : q.Cut
      · exact hrq.1 hcut hcut' hdump
      · exact hrq.2 (compositeKey_of_dump hcut' hdump.symm).symm
    · exact hrq.2 (compositeKey_of_dump hcut hdump)

/-! ### Requirements that are cut -/

/-- An identity for a collective's member. -/
def heavyMember (i : Nat) : RequirementId := Id.fromDigest ⟨writeBe 32 (i + 1), length_writeBe 32 (i + 1)⟩

def heavyMembers (n : Nat) : List RequirementId := (List.range n).map heavyMember

/-- Attributes with values of control characters, each of which is written with six. -/
def heavyAttributes (m : Nat) : List (Bytes × Bytes) :=
  (List.range 32).map fun i => ([UInt8.ofNat (48 + i)], List.replicate m 1)

/-- A collective requirement in a scope, with as many attributes as there can be. -/
def heavyRequirement (n m : Nat) (c : UInt8) : Requirement :=
  { scope := [c]
    kind := .collective
    strength := .required
    members := heavyMembers n
    attributes := heavyAttributes m }

theorem heavyMember_injective {i j : Nat} (hi : i < 4096) (hj : j < 4096) (h : heavyMember i = heavyMember j) : i = j := by
  have hbytes : writeBe 32 (i + 1) = writeBe 32 (j + 1) := congrArg Digest.bytes (Id.fromDigest_injective h)
  have hread : readBe (writeBe 32 (i + 1)) = readBe (writeBe 32 (j + 1)) := by rw [hbytes]
  rw [readBe_writeBe (by omega), readBe_writeBe (by omega)] at hread
  omega

theorem heavyMember_isZero {i : Nat} (hi : i < 4096) : (heavyMember i).isZero = false := by
  refine Id.isZero_fromDigest fun h => ?_
  have hbytes : writeBe 32 (i + 1) = writeBe 32 0 := congrArg Digest.bytes h
  have hread : readBe (writeBe 32 (i + 1)) = readBe (writeBe 32 0) := by rw [hbytes]
  rw [readBe_writeBe (by omega), readBe_writeBe (by omega)] at hread
  omega

theorem nodup_heavyMembers {n : Nat} (hn : n ≤ 4096) : (heavyMembers n).Nodup :=
  List.Nodup.map_on (fun _ hi _ hj h => heavyMember_injective (by have := List.mem_range.1 hi; omega)
    (by have := List.mem_range.1 hj; omega) h) List.nodup_range

theorem length_heavyMembers (n : Nat) : (heavyMembers n).length = n := by
  rw [heavyMembers, List.length_map, List.length_range]

theorem length_heavyAttributes (m : Nat) : (heavyAttributes m).length = 32 := by
  rw [heavyAttributes, List.length_map, List.length_range]

theorem length_control (n : Nat) : (Json.string (List.replicate n 1)).text.length = 6 * n + 2 := by
  have hflat : ((List.replicate n (1 : UInt8)).flatMap escapeChar).length = 6 * n := by
    induction n with
    | zero => rfl
    | succ n ih =>
      rw [List.replicate_succ, List.flatMap_cons, List.length_append, ih, show (escapeChar 1).length = 6 from rfl]
      omega
  rw [Json.text, escapedString, List.length_cons, List.length_append, hflat, List.length_singleton]

/-- The document of a collective without bounds and values. -/
theorem document_collective {r : Requirement} (hkind : r.kind = .collective) (hnumeric : r.hasNumeric = false)
    (hvalue : r.value = []) (hpreferred : r.preferredValue = []) (hattributes : r.attributes ≠ []) (hmembers : r.members ≠ []) :
    r.document = .object (
      [(utf8 "attributes", attributesToJson (sortBy (fun a b => a.1 < b.1) r.attributes)), (utf8 "key", .string r.key),
        (utf8 "kind", .string (utf8 "collective"))] ++
      (utf8 "members", membersToJson (sortBy (fun a b => a < b) r.members)) ::
        [(utf8 "scope", .string r.scope), (utf8 "strength", .string (requirementStrengthToken r.strength))]) := by
  have hsorted : sortBy (fun a b => a.1 < b.1) r.attributes ≠ [] := fun h => hattributes ((sortBy_eq_nil _).1 h)
  have hordered : sortBy (fun a b => a < b) r.members ≠ [] := fun h => hmembers ((sortBy_eq_nil _).1 h)
  unfold Requirement.document requirementDocument canonicalizeRequirement
  simp only [hkind, hnumeric, hvalue, hpreferred, if_pos hsorted, if_pos hordered, ne_eq, not_true_eq_false, if_false,
    Bool.false_eq_true]
  rfl

theorem length_attributesToJson {attributes : List (Bytes × Bytes)} {n : Nat}
    (h : ∀ a ∈ attributes, a.2 = List.replicate n 1) :
    attributes.length * (6 * n + 2) ≤ (attributesToJson attributes).text.length := by
  unfold attributesToJson
  rw [Json.text, List.length_cons]
  have hitems := @Json.length_items (6 * n + 2) (attributes.map fun a => (Json.null.put "name" (.string a.1)).put "value"
    (.string a.2)) true fun v hv => by
      obtain ⟨a, ha, rfl⟩ := List.mem_map.1 hv
      have hfind : ((Json.null.put "name" (.string a.1)).put "value" (.string a.2)).find (utf8 "value") =
          some (.string a.2) := rfl
      rw [← length_control n, ← h a ha]
      exact Json.length_find hfind
  rw [List.length_map] at hitems
  omega

theorem length_membersToJson (members : List RequirementId) : members.length * 66 ≤ (membersToJson members).text.length := by
  unfold membersToJson
  rw [Json.text, List.length_cons]
  have hitems := @Json.length_items 66 (members.map fun m => .string m.view) true fun v hv => by
    obtain ⟨m, -, rfl⟩ := List.mem_map.1 hv
    have := Json.length_string m.view
    rw [Id.length_view] at this
    exact this
  rw [List.length_map] at hitems
  omega

theorem attributes_heavyRequirement (n m : Nat) (c : UInt8) : (heavyRequirement n m c).attributes = heavyAttributes m := rfl

theorem members_heavyRequirement (n m : Nat) (c : UInt8) : (heavyRequirement n m c).members = heavyMembers n := rfl

/-- The documents of two requirements that differ in their scopes, which stand behind the members, are cut within
these. -/
theorem dump_heavyRequirement {n m : Nat} (hn : 0 < n) (hsize : maxDocumentBytes * 2 < 32 * (6 * m + 2) + n * 66) (c d : UInt8) :
    (heavyRequirement n m c).document.dump = (heavyRequirement n m d).document.dump := by
  have hdocument : ∀ c, (heavyRequirement n m c).document = .object (
      [(utf8 "attributes", attributesToJson (sortBy (fun a b => a.1 < b.1) (heavyAttributes m))), (utf8 "key", .string []),
        (utf8 "kind", .string (utf8 "collective"))] ++
      (utf8 "members", membersToJson (sortBy (fun a b => a < b) (heavyMembers n))) ::
        [(utf8 "scope", .string [c]), (utf8 "strength", .string (requirementStrengthToken .required))]) :=
    fun c => by
      rw [document_collective rfl rfl rfl rfl, attributes_heavyRequirement, members_heavyRequirement]
      · rfl
      · exact List.ne_nil_of_length_pos (by rw [attributes_heavyRequirement, length_heavyAttributes]; decide)
      · exact List.ne_nil_of_length_pos (by rw [members_heavyRequirement, length_heavyMembers]; exact hn)
  have hattributes := @length_attributesToJson (sortBy (fun a b => a.1 < b.1) (heavyAttributes m)) m fun a ha => by
    obtain ⟨i, -, rfl⟩ := List.mem_map.1 (mem_sortBy.1 ha)
    rfl
  have hmembers := length_membersToJson (sortBy (fun a b => a < b) (heavyMembers n))
  rw [(perm_sortBy _ (heavyAttributes m)).length_eq, length_heavyAttributes] at hattributes
  rw [(perm_sortBy _ (heavyMembers n)).length_eq, length_heavyMembers] at hmembers
  rw [hdocument, hdocument]
  refine Json.dump_cut ?_ _ _
  simp only [List.map_cons, List.sum_cons]
  omega

/-! ### Their document -/

def heavyItem (n m : Nat) (c : UInt8) : Json :=
  Json.null
    |>.put "scope" (.string [c])
    |>.put "kind" (.string (utf8 "collective"))
    |>.put "strength" (.string (utf8 "required"))
    |>.put "attributes" (attributesToJson (heavyAttributes m))
    |>.put "members" (membersToJson (heavyMembers n))

def heavyBody (n m : Nat) : Json :=
  Json.null
    |>.put "schema_version" (.int 1)
    |>.put "workload" (longWorkload 119)
    |>.put "contract_id" (.string (List.replicate 64 48))
    |>.put "contract_generation" (.int 1)
    |>.put "policy_generation" (.int 1)
    |>.put "scopes" (.array [Json.null.put "name" (.string [115]), Json.null.put "name" (.string [116])])
    |>.put "requirements" (.array [heavyItem n m 115, heavyItem n m 116])

/-- A document with two collective requirements that differ in their scopes alone. -/
def heavyDocument (n m : Nat) : Json := Json.null.put "body" (heavyBody n m)

def heavyDecoded (n m : Nat) : ContractBody :=
  { workload := { id := (Id.parse (List.replicate 64 97)).getD .zero, name := [119], generation := 1 }
    generation := 1
    policyGeneration := 1
    scopes := [{ name := [115] }, { name := [116] }]
    requirements := [heavyRequirement n m 115, heavyRequirement n m 116] }

def heavyContract (n m : Nat) : Contract := { body := heavyDecoded n m, digest := bodyDigest (heavyDecoded n m) }

def heavyOptions (n m : Nat) : JsonDecodeOptions := { maxBytes := (heavyDocument n m).text.length }

theorem decodeAttributes_of_fits {attributes : List (Bytes × Bytes)} (hlength : attributes.length ≤ maxAttributesPerRequirement)
    (h : ∀ a ∈ attributes, a.1 ≠ [] ∧ a.1.length ≤ maxNameBytes ∧ a.2.length ≤ maxStringBytes) (path : Bytes) :
    decodeAttributes (attributesToJson attributes) path = .ok attributes := by
  have hrequire : ∀ code message, require (decide ((attributes.map fun a => (Json.null.put "name" (.string a.1)).put "value"
      (.string a.2)).length ≤ maxAttributesPerRequirement)) code message = .ok () := fun _ _ =>
    if_pos (decide_eq_true (by rw [List.length_map]; exact hlength))
  unfold decodeAttributes attributesToJson
  simp only [Json.items?, hrequire]
  refine decodeEach_map fun a ha _ => ?_
  obtain ⟨hname, hshort, hvalue⟩ := h a ha
  rw [readString_written hshort rfl, readString_written hvalue rfl]
  have hnonempty : decide (a.1 ≠ []) = true := decide_eq_true hname
  show (require (decide (a.1 ≠ [])) _ _ >>= fun _ => _) = _
  rw [hnonempty]
  rfl

theorem decodeMembers_of_fits {members : List RequirementId} (hlength : members.length ≤ maxMemberCount) (path : Bytes) :
    decodeMembers (membersToJson members) path = .ok members := by
  have hrequire : ∀ code message, require (decide ((members.map fun m => Json.string m.view).length ≤ maxMemberCount))
      code message = .ok () := fun _ _ => if_pos (decide_eq_true (by rw [List.length_map]; exact hlength))
  unfold decodeMembers membersToJson
  simp only [Json.items?, hrequire]
  refine decodeEach_map fun m _ _ => ?_
  rw [decodeMember, Id.parse_view]

theorem decodeRequirement_heavy {n m : Nat} (hn : n ≤ maxMemberCount) (hm : m ≤ maxStringBytes) (c : UInt8) (i : Nat) :
    decodeRequirement (heavyItem n m c) i = .ok (heavyRequirement n m c) := by
  have hmembers : ∀ path, decodeOptional (heavyItem n m c) "members" [] (fun members => decodeMembers members path) =
      .ok (heavyMembers n) := fun path => decodeMembers_of_fits (by rw [length_heavyMembers]; exact hn) path
  have hattributes : ∀ path, decodeOptional (heavyItem n m c) "attributes" []
      (fun attributes => decodeAttributes attributes path) = .ok (heavyAttributes m) := fun path => by
    refine decodeAttributes_of_fits (le_of_eq (length_heavyAttributes m)) (fun a ha => ?_) path
    obtain ⟨i, -, rfl⟩ := List.mem_map.1 ha
    exact ⟨List.cons_ne_nil _ _, Nat.le_of_ble_eq_true rfl, by rw [List.length_replicate]; exact hm⟩
  unfold decodeRequirement
  simp only [hmembers, hattributes]
  rfl

theorem decodeBody_heavy {n m : Nat} (hn : n ≤ maxMemberCount) (hm : m ≤ maxStringBytes) :
    decodeBody (heavyBody n m) = .ok (heavyDecoded n m) := by
  have hrequirements : decodeBounded (heavyBody n m) "requirements" maxRequirementsPerContract
      "body.requirements must be an array" .tooManyRequirements "body.requirements exceeds the requirement bound"
      decodeRequirement = .ok [heavyRequirement n m 115, heavyRequirement n m 116] :=
    @decodeEach_map _ decodeRequirement (fun r => heavyItem n m (r.scope.headD 0))
      [heavyRequirement n m 115, heavyRequirement n m 116] 0 fun r hr i => by
        rcases List.mem_cons.1 hr with rfl | hr
        · exact decodeRequirement_heavy hn hm 115 i
        · rw [List.mem_singleton.1 hr]
          exact decodeRequirement_heavy hn hm 116 i
  unfold decodeBody
  rw [hrequirements]
  rfl

theorem contractFromJson_heavy {n m : Nat} (hn : n ≤ maxMemberCount) (hm : m ≤ maxStringBytes) :
    contractFromJson (heavyDocument n m) = .ok (heavyContract n m) := by
  have hdocument : contractFromJson (heavyDocument n m) =
      (decodeBody (heavyBody n m) >>= fun body => .ok { body := body, digest := bodyDigest body }) := rfl
  rw [hdocument, decodeBody_heavy hn hm]
  rfl

theorem proper_heavyItem (n m : Nat) (c : UInt8) : (heavyItem n m c).Proper :=
  ((((Json.proper_null.put (Json.proper_string _) _).put (Json.proper_string _) _).put (Json.proper_string _) _).put
    (proper_attributesToJson _) _).put (proper_membersToJson _) _

theorem proper_heavyDocument (n m : Nat) : (heavyDocument n m).Proper := by
  have hworkload : (longWorkload 119).Proper :=
    ((Json.proper_null.put (Json.proper_string _) _).put (Json.proper_string _) _).put (Json.proper_int _) _
  have hscope : ∀ c : UInt8, (Json.null.put "name" (.string [c])).Proper := fun c =>
    Json.proper_null.put (Json.proper_string _) _
  have hscopes : (Json.array [Json.null.put "name" (.string [115]), Json.null.put "name" (.string [116])]).Proper :=
    ⟨rfl, hscope 115, rfl, hscope 116, trivial⟩
  have hrequirements : (Json.array [heavyItem n m 115, heavyItem n m 116]).Proper :=
    ⟨rfl, proper_heavyItem n m 115, rfl, proper_heavyItem n m 116, trivial⟩
  exact Json.proper_null.put (((((((Json.proper_null.put (Json.proper_int _) _).put hworkload _).put
    (Json.proper_string _) _).put (Json.proper_int _) _).put (Json.proper_int _) _).put hscopes _).put hrequirements _) _

theorem reread_heavyDocument (n m : Nat) : (heavyDocument n m).reread = heavyDocument n m := by
  unfold heavyDocument heavyBody heavyItem longWorkload
  simp only [Json.reread_put, Json.reread_null, Json.reread_int, Json.reread_string, Json.reread_array,
    List.map_cons, List.map_nil, reread_attributesToJson, reread_membersToJson]

theorem readable_heavyItem {o : JsonDecodeOptions} (ho : o.Roomy) {n m : Nat} (hm : m ≤ maxStringBytes) {c : UInt8}
    (hc : c < 0x80) : (heavyItem n m c).Readable o 3 := by
  have hscope : (Json.string [c]).Readable o 4 :=
    ho.string (by decide) (by rw [List.all_cons, decide_eq_true hc]; rfl) (by rw [List.length_singleton]; decide)
  have hname : ∀ i < 32, UInt8.ofNat (48 + i) < 0x80 := by decide
  have hattributes : (attributesToJson (heavyAttributes m)).Readable o 4 := by
    refine ⟨ho.within (by decide), Json.readable_items fun v hv => ?_⟩
    obtain ⟨a, ha, rfl⟩ := List.mem_map.1 hv
    obtain ⟨i, hi, rfl⟩ := List.mem_map.1 ha
    refine ho.put (ho.put (ho.null (by decide)) (by decide) (ho.string (by decide) ?_ ?_)) (by decide)
      (ho.repeated (by decide) (by decide) hm)
    · rw [List.all_cons, decide_eq_true (hname i (List.mem_range.1 hi))]
      rfl
    · rw [List.length_singleton]
      decide
  have hmembers : (membersToJson (heavyMembers n)).Readable o 4 := by
    refine ⟨ho.within (by decide), Json.readable_items fun v hv => ?_⟩
    obtain ⟨i, -, rfl⟩ := List.mem_map.1 hv
    have hdigit : ∀ d : Fin 16, lowerHexDigit d < 0x80 := by decide
    refine ho.string (by decide) (List.all_eq_true.2 fun b hb => ?_) (by rw [Id.length_view]; decide)
    obtain ⟨d, -, rfl⟩ := List.mem_map.1 hb
    exact decide_eq_true (hdigit d)
  exact ho.put (ho.put (ho.put (ho.put (ho.put (ho.null (by decide)) (by decide) hscope) (by decide)
    (ho.string (by decide) (by decide) (by decide))) (by decide) (ho.string (by decide) (by decide) (by decide)))
    (by decide) hattributes) (by decide) hmembers

theorem readable_heavyDocument {n m : Nat} (hm : m ≤ maxStringBytes) :
    (heavyDocument n m).Readable (heavyOptions n m) 0 := by
  have ho : (heavyOptions n m).Roomy := ⟨Nat.le_of_ble_eq_true rfl, le_refl 4096⟩
  have hworkload : (longWorkload 119).Readable (heavyOptions n m) 2 :=
    ho.put (ho.put (ho.put (ho.null (by decide)) (by decide) (ho.repeated (by decide) (by decide) (by decide)))
      (by decide) (ho.string (by decide) (by decide) (by decide))) (by decide) (ho.int (by decide))
  have hscope : ∀ c : UInt8, [c].all (· < 0x80) = true → (Json.null.put "name" (.string [c])).Readable (heavyOptions n m) 3 :=
    fun c hc => ho.put (ho.null (by decide)) (by decide) (ho.string (by decide) hc (by rw [List.length_singleton]; decide))
  have hscopes : (Json.array [Json.null.put "name" (.string [115]), Json.null.put "name" (.string [116])]).Readable
      (heavyOptions n m) 2 := ⟨ho.within (by decide), hscope 115 (by decide), hscope 116 (by decide), trivial⟩
  have hrequirements : (Json.array [heavyItem n m 115, heavyItem n m 116]).Readable (heavyOptions n m) 2 :=
    ⟨ho.within (by decide), readable_heavyItem ho hm (by decide), readable_heavyItem ho hm (by decide), trivial⟩
  exact ho.put (ho.null (by decide)) (by decide) (ho.put (ho.put (ho.put (ho.put (ho.put (ho.put (ho.put
    (ho.null (by decide)) (by decide) (ho.int (by decide))) (by decide) hworkload) (by decide)
    (ho.repeated (by decide) (by decide) (by decide))) (by decide) (ho.int (by decide))) (by decide)
    (ho.int (by decide))) (by decide) hscopes) (by decide) hrequirements)

theorem contractFromText_heavy {n m : Nat} (hn : n ≤ maxMemberCount) (hm : m ≤ maxStringBytes) :
    contractFromText (heavyDocument n m).text (heavyOptions n m) = .ok (heavyContract n m) := by
  rcases jsonDecode_text (proper_heavyDocument n m) (le_refl (heavyOptions n m).maxBytes) (fun h => by cases h) with
    ⟨-, hdecode⟩ | ⟨hnot, -⟩
  · unfold contractFromText
    rw [hdecode, reread_heavyDocument]
    exact contractFromJson_heavy hn hm
  · exact absurd (readable_heavyDocument hm) hnot

/-! ### Their checks -/

theorem onlyIdentities_diagnose {condition : Bool} {code : Code} {message : Bytes} {scope : ScopeId}
    {requirement : RequirementId} (h : message ∈ identityMessages) :
    OnlyIdentities (diagnose condition ⟨code, message, scope, requirement⟩) := by
  cases condition with
  | false => exact List.forall_mem_nil _
  | true => exact List.forall_mem_singleton.2 h

theorem onlyIdentities_of_nil {ds : List Diagnostic} (h : ds = []) : OnlyIdentities ds := by
  rw [h]
  exact List.forall_mem_nil _

theorem requirementDiagnostics_heavy {n m : Nat} (hn : n ≤ maxMemberCount) (hpos : 0 < n) (hm : m ≤ maxStringBytes)
    {c : UInt8} {scopes : List Scope} {seen : List Requirement} (hscope : (findScope scopes [c]).isNone = false)
    (hkey : (heavyRequirement n m c).compositeKey ∉ seen.map Requirement.compositeKey) :
    OnlyIdentities (requirementDiagnostics scopes seen (heavyRequirement n m c)) := by
  unfold requirementDiagnostics
  simp only [onlyIdentities_append]
  refine ⟨⟨⟨⟨⟨⟨⟨⟨⟨⟨?_, onlyIdentities_diagnose (by decide)⟩, onlyIdentities_diagnose (by decide)⟩, ?_⟩, ?_⟩, ?_⟩, ?_⟩, ?_⟩,
    ?_⟩, ?_⟩, ?_⟩
  · exact onlyIdentities_of_nil (diagnose_eq_nil.2 hscope)
  · exact onlyIdentities_of_nil (diagnose_eq_nil.2 (decide_eq_false hkey))
  · exact onlyIdentities_of_nil rfl
  · exact onlyIdentities_of_nil rfl
  · exact onlyIdentities_of_nil rfl
  · exact onlyIdentities_of_nil rfl
  · refine onlyIdentities_of_nil (diagnose_eq_nil.2 (decide_eq_false ?_))
    rw [attributes_heavyRequirement, length_heavyAttributes]
    decide
  · refine onlyIdentities_of_nil (attributeDiagnostics_eq_nil.2 ⟨fun a ha => ?_, ?_⟩)
    · obtain ⟨i, -, rfl⟩ := List.mem_map.1 ha
      refine ⟨List.not_mem_nil, ?_⟩
      rw [List.length_replicate, decide_eq_false (not_lt.2 hm), Bool.or_false]
      rfl
    · rw [attributes_heavyRequirement, heavyAttributes, List.map_map]
      show ((List.range 32).map fun i => ([UInt8.ofNat (48 + i)] : Bytes)).Nodup
      decide
  · refine onlyIdentities_of_nil ((if_pos rfl).trans (List.append_eq_nil_iff.2 ⟨diagnose_eq_nil.2 ?_, ?_⟩))
    · rw [beq_eq_false_iff_ne]
      exact List.ne_nil_of_length_pos (by rw [members_heavyRequirement, length_heavyMembers]; exact hpos)
    · refine memberDiagnostics_eq_nil.2 ⟨fun a ha => ⟨List.not_mem_nil, ?_⟩, nodup_heavyMembers hn⟩
      obtain ⟨i, hi, rfl⟩ := List.mem_map.1 ha
      exact heavyMember_isZero (lt_of_lt_of_le (List.mem_range.1 hi) hn)

theorem validateBody_heavy {n m : Nat} (hn : n ≤ maxMemberCount) (hpos : 0 < n) (hm : m ≤ maxStringBytes) :
    OnlyIdentities (validateBody (heavyDecoded n m)) := by
  unfold validateBody
  simp only [onlyIdentities_append]
  refine ⟨⟨⟨⟨⟨⟨?_, ?_⟩, ?_⟩, ?_⟩, ?_⟩, ?_⟩, ?_⟩
  · have hheader : headerDiagnostics (heavyDecoded n m) =
        [⟨.zeroIdentity, utf8 "contract identity is the zero identity", .zero, .zero⟩] := rfl
    rw [hheader]
    exact List.forall_mem_singleton.2 (by decide)
  · exact onlyIdentities_of_nil rfl
  · exact onlyIdentities_of_nil rfl
  · exact onlyIdentities_of_nil rfl
  · exact onlyIdentities_of_nil rfl
  · refine onlyIdentities_append.2 ⟨?_, onlyIdentities_append.2 ⟨?_, onlyIdentities_of_nil rfl⟩⟩
    · exact requirementDiagnostics_heavy hn hpos hm rfl List.not_mem_nil
    · refine requirementDiagnostics_heavy hn hpos hm rfl ?_
      have hkeys : [heavyRequirement n m 115].map Requirement.compositeKey = [⟨[115], .collective, []⟩] := rfl
      rw [hkeys]
      show (⟨[116], .collective, []⟩ : RequirementKey) ∉ _
      decide
  · exact onlyIdentities_of_nil rfl

/-! ## Contracts -/

/-- A contract that supersedes none, or a generation below its own with its digest. -/
def Contract.SupersedesBelow (c : Contract) : Prop :=
  (c.supersedes = 0 ∧ c.supersedesDigest = .zero) ∨
    (c.supersedes ≠ 0 ∧ c.supersedesDigest ≠ .zero ∧ c.supersedes < c.body.generation)

theorem perm_canonicalize (c : Contract) :
    (canonicalize c).body.requirements.Perm (c.body.requirements.map canonicalizeRequirement) := perm_sortBy _ _

theorem nodup_of_valid {c : Contract} (h : (validateContract (canonicalize c)).ok = true) :
    ((c.body.requirements.map canonicalizeRequirement).map Requirement.id).Nodup := by
  have hdiagnostics := validateContract_ok.1 h
  simp only [contractDiagnostics, contractBodyDiagnostics, validateBody, List.append_eq_nil_iff] at hdiagnostics
  exact (((perm_canonicalize c).map Requirement.id).nodup_iff).1 (requirementsDiagnostics_ids hdiagnostics.1.1.1.1.1.2).1

/-- The body of a contract passes its checks once it is made canonical, when it passes those that do not concern identities
and its derived identities are distinct. -/
theorem validateBody_canonicalize {c : Contract} (hbody : OnlyIdentities (validateBody c.body)) (hdigests : c.SoundDigests)
    (hids : ((c.body.requirements.map canonicalizeRequirement).map Requirement.id).Nodup) :
    validateBody (canonicalize c).body = [] := by
  have hscopes : (canonicalize c).body.scopes.Perm c.body.scopes := perm_sortBy _ _
  have hrequirements := perm_canonicalize c
  unfold validateBody at hbody
  simp only [onlyIdentities_append] at hbody
  obtain ⟨⟨⟨⟨⟨⟨hheader, hnames⟩, hranked⟩, hparents⟩, hcycle⟩, howns⟩, hcounts⟩ := hbody
  obtain ⟨hown, hkeys, -⟩ := requirementsDiagnostics_only howns
  have hdistinct := (unrelated_scopeDiagnostics _ _).eq_nil hnames
  rw [scopeDiagnostics_eq_nil] at hdistinct
  have hsorted := (hscopes.map Scope.name).nodup_iff.2 hdistinct.2
  have hfind : ∀ name, findScope (declaredScopes (canonicalize c).body) name = findScope (declaredScopes c.body) name :=
    findScope_perm (hscopes.filter _) ((List.filter_sublist.map Scope.name).nodup hsorted)
  unfold validateBody
  simp only [List.append_eq_nil_iff]
  refine ⟨⟨⟨⟨⟨⟨?_, ?_⟩, ?_⟩, ?_⟩, ?_⟩, ?_⟩, ?_⟩
  · have hzero : (canonicalize c).body.contractId.isZero = false := by
      rw [contractId_canonicalize]
      exact Id.isZero_fromDigest hdigests.contract
    exact headerDiagnostics_canonical hheader hzero hscopes.length_eq
      (by rw [hrequirements.length_eq, List.length_map]) rfl
  · exact scopeDiagnostics_eq_nil.2 ⟨fun s hs => hdistinct.1 s (hscopes.mem_iff.1 hs), hsorted⟩
  · have hcount : rankedScopes (canonicalize c).body = rankedScopes c.body := ((hscopes.filter _).filter _).length_eq
    have hbound := (unrelated_diagnose ((((by decide : Foreign (utf8 "ranked scope count ")).append _).append
      _).append _)).eq_nil hranked
    rw [diagnose_eq_nil] at hbound
    rw [diagnose_eq_nil, hcount]
    exact hbound
  · refine List.flatMap_eq_nil_iff.2 fun s hs => ?_
    rw [parentDiagnostics_congr hfind]
    exact (unrelated_parentDiagnostics _ s).eq_nil (onlyIdentities_flatMap.1 hparents s (hscopes.mem_iff.1 hs))
  · refine cycleDiagnostics_eq_nil.2 fun s hs => ?_
    rw [climbs_congr hfind, hscopes.length_eq]
    exact cycleDiagnostics_eq_nil.1 ((unrelated_cycleDiagnostics _).eq_nil hcycle) s (hscopes.mem_iff.1 hs)
  · refine requirementsDiagnostics_canonical hfind (fun r hr => ?_) ((hrequirements.map _).nodup_iff.2 hids) ?_
      (fun r _ => ⟨List.not_mem_nil, List.not_mem_nil⟩)
    · obtain ⟨q, hq, rfl⟩ := List.mem_map.1 (hrequirements.mem_iff.1 hr)
      obtain ⟨seen, hseen⟩ := hown q hq
      rw [id_canonicalizeRequirement]
      exact ⟨Id.isZero_fromDigest (hdigests.requirements q hq), q, seen, rfl, hseen⟩
    · rw [(hrequirements.map Requirement.compositeKey).nodup_iff, List.map_map]
      exact hkeys
  · rw [countDiagnostics_canonical hrequirements]
    exact (unrelated_countDiagnostics _).eq_nil hcounts

/-- A canonical contract carries the identities and the digest of its content. -/
theorem identities_canonicalize (c : Contract) : identityDiagnostics (canonicalize c).body = [] ∧
    deriveContractId (canonicalize c).body.workload.id (bodyDigest (canonicalize c).body) =
      (canonicalize c).body.contractId ∧
    bodyDigest (canonicalize c).body = (canonicalize c).digest := by
  refine ⟨List.flatMap_eq_nil_iff.2 fun r hr => ?_, ?_, rfl⟩
  · obtain ⟨q, -, rfl⟩ := List.mem_map.1 ((perm_canonicalize c).mem_iff.1 hr)
    have hderived : deriveRequirementId (canonicalizeRequirement q) = (canonicalizeRequirement q).id := rfl
    rw [diagnose_eq_nil, hderived, bne_self_eq_false, Bool.and_false]
  · rw [canonicalize_eq]
    exact congrArg (deriveContractId c.body.workload.id) (bodyDigest_withContractId _ _)

/-- A contract whose canonical body passes its checks is valid once it is made canonical, if what it supersedes is below
it. -/
theorem contractDiagnostics_canonicalize {c : Contract} (hvalid : validateBody (canonicalize c).body = [])
    (hzero : (canonicalize c).body.contractId.isZero = false) (hsupersedes : c.SupersedesBelow) :
    contractDiagnostics (canonicalize c) = [] := by
  obtain ⟨hidentities, hcontract, hdigest⟩ := identities_canonicalize c
  unfold contractDiagnostics contractBodyDiagnostics
  rw [hvalid, hidentities, hzero, if_neg Bool.false_ne_true, hcontract, hdigest]
  simp only [List.nil_append, bne_self_eq_false, List.append_eq_nil_iff, diagnose_eq_nil, true_and]
  rcases hsupersedes with ⟨hnone, habsent⟩ | ⟨hsome, hpresent, hbelow⟩
  · have hno : (canonicalize c).hasSupersedes = false := by
      show (c.supersedes != 0) = false
      rw [hnone]
      rfl
    rw [hno, if_neg Bool.false_ne_true, diagnose_eq_nil]
    show (c.supersedesDigest != .zero) = false
    rw [habsent]
    rfl
  · have hyes : (canonicalize c).hasSupersedes = true := bne_iff_ne.2 hsome
    rw [hyes, if_pos rfl, List.append_eq_nil_iff, diagnose_eq_nil, diagnose_eq_nil]
    exact ⟨decide_eq_false (UInt64.not_le.2 hbelow), beq_eq_false_iff_ne.2 hpresent⟩

/-- A contract whose body passes the checks that do not concern identities becomes valid by being made canonical exactly
when no two of its requirements are cut alike. -/
theorem validateContract_canonicalize_iff {c : Contract} (hbody : OnlyIdentities (validateBody c.body))
    (hsupersedes : c.SupersedesBelow) (hdigests : c.SoundDigests) :
    (validateContract (canonicalize c)).ok = true ↔
      c.body.requirements.Pairwise fun r q => r.Cut → q.Cut → r.document.dump ≠ q.document.dump := by
  have howns := hbody
  unfold validateBody at howns
  simp only [onlyIdentities_append] at howns
  rw [← nodup_identities_iff (requirementsDiagnostics_only howns.1.2).2.1 hdigests.inputs hdigests.dumps]
  constructor
  · exact nodup_of_valid
  · intro hids
    rw [validateContract_ok]
    refine contractDiagnostics_canonicalize (validateBody_canonicalize hbody hdigests hids) ?_ hsupersedes
    rw [contractId_canonicalize]
    exact Id.isZero_fromDigest hdigests.contract

/-- A contract with a single requirement. -/
def singleContract : Contract :=
  { body := singleRequirement 1 { kind := .locality, strength := .required, value := utf8 "rack" } }

set_option maxRecDepth 100000 in
theorem soundDigests_singleContract : singleContract.SoundDigests where
  inputs := Ledger.collisionFree_singleton _
  dumps := Ledger.collisionFree_singleton _
  requirements := by decide +kernel
  contract := by decide +kernel

set_option maxRecDepth 100000 in
theorem validateBody_singleContract : validateBody singleContract.body = [] := by decide +kernel

/-- A contract with two requirements. -/
def pairContract : Contract :=
  { body := { singleContract.body with
      requirements := singleContract.body.requirements ++
        [canonicalizeRequirement { scope := utf8 "s", kind := .securityClass, value := utf8 "internal" }] } }

set_option maxRecDepth 100000 in
theorem soundDigests_pairContract : pairContract.SoundDigests where
  inputs := .of_nodup (by decide +kernel)
  dumps := .of_nodup (by decide +kernel)
  requirements := by decide +kernel
  contract := by decide +kernel

set_option maxRecDepth 100000 in
theorem validateBody_pairContract : validateBody pairContract.body = [] := by decide +kernel

theorem validateContract_canonicalize_iff_pair :
    (validateContract (canonicalize pairContract)).ok = true ↔
      pairContract.body.requirements.Pairwise fun r q => r.Cut → q.Cut → r.document.dump ≠ q.document.dump :=
  validateContract_canonicalize_iff (onlyIdentities_of_nil validateBody_pairContract) (.inl ⟨rfl, rfl⟩)
    soundDigests_pairContract

/-- Two collective requirements with 32 attributes of 4096 control characters and 4000 members each, which differ in their
scopes alone, get one identity, whatever the digests are. -/
theorem canonicalize_unpublishable :
    contractFromText (heavyDocument 4000 4096).text (heavyOptions 4000 4096) = .ok (heavyContract 4000 4096) ∧
      OnlyIdentities (validateBody (heavyContract 4000 4096).body) ∧ (heavyContract 4000 4096).SupersedesBelow ∧
      (validateContract (canonicalize (heavyContract 4000 4096))).ok = false := by
  refine ⟨contractFromText_heavy (by decide) (by decide), validateBody_heavy (by decide) (by decide) (by decide),
    .inl ⟨rfl, rfl⟩, ?_⟩
  rw [Bool.eq_false_iff]
  intro hok
  have hids : [(canonicalizeRequirement (heavyRequirement 4000 4096 115)).id,
      (canonicalizeRequirement (heavyRequirement 4000 4096 116)).id].Nodup := nodup_of_valid hok
  rw [List.nodup_cons, List.mem_singleton] at hids
  refine hids.1 ?_
  rw [id_canonicalizeRequirement, id_canonicalizeRequirement, Requirement.identityInput, Requirement.identityInput,
    dump_heavyRequirement (by decide) (by decide) 115 116]

end Wnc
