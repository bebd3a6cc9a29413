/-
The scopes of an accepted body form a forest: every parent is declared, no scope is above itself, and the
ranks of scopes rise towards the leaves. The bounded walk over the parents reports a cycle exactly where
the parents have one.
-/
import Wnc.Contract.Validate
import Wnc.Lib.Climb

namespace Wnc

open Lib

/-! ## Parents -/

/-- `p` is the declared scope that `s` names as its parent. -/
structure HasParent (body : ContractBody) (s p : Scope) : Prop where
  child : s ∈ body.scopes
  parent : p ∈ body.scopes
  named : s.parent ≠ []
  name : p.name = s.parent

/-- Scopes each with a name of its own. -/
structure DistinctScopes (body : ContractBody) : Prop where
  named : ∀ s ∈ body.scopes, s.name ≠ []
  distinct : (body.scopes.map Scope.name).Nodup

/-- Scopes that stand below one another as the trees of a forest do. -/
structure ScopesForest (body : ContractBody) : Prop where
  declared : ∀ s ∈ body.scopes, s.parent ≠ [] → ∃ p, HasParent body s p
  unique : ∀ s p q, HasParent body s p → HasParent body s q → p = q
  acyclic : Acyclic (HasParent body)
  ranked : ∀ s p, HasParent body s p → s.hasRank = true → p.hasRank = true → p.rank < s.rank

/-- The scope that a declared scope names as its parent, where there is one. -/
def parentScope (body : ContractBody) (s : Scope) : Option Scope :=
  if s ∈ body.scopes ∧ s.parent ≠ [] then findScope (declaredScopes body) s.parent else none

theorem mem_of_findScope {body : ContractBody} {name : Bytes} {s : Scope}
    (h : findScope (declaredScopes body) name = some s) : s ∈ body.scopes ∧ s.name = name :=
  ⟨(List.mem_filter.1 (List.mem_of_find?_eq_some h)).1, by simpa using List.find?_some h⟩

namespace DistinctScopes

variable {body : ContractBody}

theorem eq_of_name (hd : DistinctScopes body) {s p : Scope} (hs : s ∈ body.scopes) (hp : p ∈ body.scopes)
    (h : s.name = p.name) : s = p := List.inj_on_of_nodup_map hd.distinct hs hp h

theorem findScope (hd : DistinctScopes body) {s : Scope} (hs : s ∈ body.scopes) :
    findScope (declaredScopes body) s.name = some s := by
  cases h : Wnc.findScope (declaredScopes body) s.name with
  | none =>
    have hmem : s ∈ declaredScopes body := List.mem_filter.2 ⟨hs, by simpa using hd.named s hs⟩
    have := List.find?_eq_none.1 h s hmem
    simp at this
  | some p =>
    obtain ⟨hp, hname⟩ := mem_of_findScope h
    rw [hd.eq_of_name hp hs hname]

theorem above_parentScope (hd : DistinctScopes body) : Above (parentScope body) = HasParent body := by
  funext s p
  refine propext ⟨fun h => ?_, fun h => ?_⟩
  · unfold Above parentScope at h
    split at h
    · rename_i hs
      exact ⟨hs.1, (mem_of_findScope h).1, hs.2, (mem_of_findScope h).2⟩
    · cases h
  · unfold Above parentScope
    rw [if_pos ⟨h.child, h.named⟩, ← h.name]
    exact hd.findScope h.parent

/-- The walk from a declared scope makes one step more than the scopes above it. -/
theorem climbs_eq (hd : DistinctScopes body) {s : Scope} (hs : s ∈ body.scopes) (n : Nat) :
    climbs (declaredScopes body) (n + 1) s.name = (climb (parentScope body) n s).isSome := by
  induction n generalizing s with
  | zero => simp [climbs, climb, hd.named s hs, hd.findScope hs]
  | succ n ih =>
    rw [climbs, if_neg (hd.named s hs), hd.findScope hs]
    show climbs _ (n + 1) s.parent = _
    rw [climb]
    by_cases hparent : s.parent = []
    · rw [hparent, climbs, if_pos rfl, parentScope, if_neg (fun h => h.2 hparent)]
      rfl
    · rw [parentScope, if_pos ⟨hs, hparent⟩]
      cases hp : Wnc.findScope (declaredScopes body) s.parent with
      | none => rw [climbs, if_neg hparent, hp]; rfl
      | some p =>
        obtain ⟨hmem, hname⟩ := mem_of_findScope hp
        rw [← hname]
        exact ih hmem

/-- The walk goes on for more steps than there are scopes, from some scope, exactly when the parents have a cycle. -/
theorem climbs_iff (hd : DistinctScopes body) :
    (∃ s ∈ body.scopes, climbs (declaredScopes body) (body.scopes.length + 1) s.name = true) ↔
      ¬ Acyclic (HasParent body) := by
  have hclosed : ∀ s p, parentScope body s = some p → p ∈ body.scopes := fun s p h =>
    (hd.above_parentScope ▸ (show Above (parentScope body) s p from h) : HasParent body s p).parent
  rw [← hd.above_parentScope, ← exists_climb_iff _ hclosed]
  refine exists_congr fun s => and_congr_right fun hs => ?_
  rw [hd.climbs_eq hs]

end DistinctScopes

/-! ## What validation accepts -/

theorem distinctScopes_of_valid {body : ContractBody} (h : (validateContractBody body).ok = true) :
    DistinctScopes body := by
  have hd := validateContractBody_ok.1 h
  simp only [contractBodyDiagnostics, validateBody, List.append_eq_nil_iff] at hd
  obtain ⟨hnames, hnodup⟩ := scopeDiagnostics_eq_nil.1 hd.1.1.1.1.1.1.2
  exact ⟨fun s hs => (hnames s hs).1, hnodup⟩

theorem parentDiagnostics_of_valid {body : ContractBody} (h : (validateContractBody body).ok = true) {s : Scope}
    (hs : s ∈ body.scopes) : parentDiagnostics (declaredScopes body) s = [] := by
  have hd := validateContractBody_ok.1 h
  simp only [contractBodyDiagnostics, validateBody, List.append_eq_nil_iff] at hd
  exact List.flatMap_eq_nil_iff.1 hd.1.1.1.1.2 s hs

theorem cycleDiagnostics_of_valid {body : ContractBody} (h : (validateContractBody body).ok = true) :
    cycleDiagnostics body = [] := by
  have hd := validateContractBody_ok.1 h
  simp only [contractBodyDiagnostics, validateBody, List.append_eq_nil_iff] at hd
  exact hd.1.1.1.2

/-- A parent that passes its check is declared, is not the scope itself, and is of a lower rank where both are ranked. -/
theorem parentDiagnostics_eq_nil {scopes : List Scope} {s : Scope} (hparent : s.parent ≠ [])
    (h : parentDiagnostics scopes s = []) : ∃ p, findScope scopes s.parent = some p ∧ s.parent ≠ s.name ∧
      (p.hasRank = true → s.hasRank = true → p.rank < s.rank) := by
  rw [parentDiagnostics, if_neg hparent] at h
  cases hp : findScope scopes s.parent with
  | none => rw [hp] at h; cases h
  | some p =>
    rw [hp] at h
    dsimp only at h
    split at h
    · cases h
    · rename_i hself
      refine ⟨p, rfl, hself, fun hpr hsr => ?_⟩
      simpa [diagnose_eq_nil, hpr, hsr] using h

theorem scopesForest_of_valid {body : ContractBody} (h : (validateContractBody body).ok = true) : ScopesForest body := by
  have hd := distinctScopes_of_valid h
  refine ⟨fun s hs hparent => ?_, fun s p q hp hq => ?_, ?_, fun s p hp hsr hpr => ?_⟩
  · obtain ⟨p, hp, -⟩ := parentDiagnostics_eq_nil hparent (parentDiagnostics_of_valid h hs)
    exact ⟨p, hs, (mem_of_findScope hp).1, hparent, (mem_of_findScope hp).2⟩
  · exact hd.eq_of_name hp.parent hq.parent (hp.name.trans hq.name.symm)
  · by_contra hcycle
    obtain ⟨s, hs, hclimbs⟩ := hd.climbs_iff.2 hcycle
    rw [cycleDiagnostics_eq_nil.1 (cycleDiagnostics_of_valid h) s hs] at hclimbs
    cases hclimbs
  · obtain ⟨q, hq, -, hrank⟩ := parentDiagnostics_eq_nil hp.named (parentDiagnostics_of_valid h hp.child)
    rw [← hp.name, hd.findScope hp.parent] at hq
    cases hq
    exact hrank hpr hsr

/-- Accepted scopes form a forest, and the walk that looks for cycles finds the ones there are. -/
theorem scopes_forest (body : ContractBody) :
    ((validateContractBody body).ok = true → ScopesForest body) ∧
      (DistinctScopes body →
        ((∃ start ∈ body.scopes, climbs (declaredScopes body) (body.scopes.length + 1) start.name = true) ↔
          ∃ s, Relation.TransGen (HasParent body) s s) ∧
        (cycleDiagnostics body ≠ [] ↔ ∃ s, Relation.TransGen (HasParent body) s s)) := by
  refine ⟨scopesForest_of_valid, fun hd => ?_⟩
  have hcycle : ¬ Acyclic (HasParent body) ↔ ∃ s, Relation.TransGen (HasParent body) s s := by
    simp only [Acyclic, not_forall, not_not]
  refine ⟨hd.climbs_iff.trans hcycle, ?_⟩
  rw [← hcycle, ← hd.climbs_iff, Ne, cycleDiagnostics_eq_nil]
  simp only [not_forall, Bool.not_eq_false, exists_prop]

/-- A body with two ranked scopes, one below the other, that asks for a locality in the lower one. -/
def cellBody : ContractBody :=
  { singleRequirement 1 { kind := .locality, strength := .required, value := utf8 "rack" } with
    scopes := [{ name := utf8 "s", hasRank := true, rank := 2, parent := utf8 "site" },
      { name := utf8 "site", hasRank := true, rank := 1 }] }

set_option maxRecDepth 100000 in
theorem scopes_forest_cell : ScopesForest cellBody ∧
    ((∃ start ∈ cellBody.scopes,
        climbs (declaredScopes cellBody) (cellBody.scopes.length + 1) start.name = true) ↔
      ∃ s, Relation.TransGen (HasParent cellBody) s s) :=
  ⟨(scopes_forest cellBody).1 (by decide +kernel),
    ((scopes_forest cellBody).2 ⟨by decide +kernel, by decide +kernel⟩).1⟩

end Wnc
