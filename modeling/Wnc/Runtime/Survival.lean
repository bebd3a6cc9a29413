/-
What survives. A mutation takes nothing away: a workload that was registered keeps its generations, each in its place
and with its content, and what was retired stays so. An open does as much as long as nothing was accepted behind what a
failed append left; where it cuts the journal there, what is still retired has at least no more generations than before.
-/
import Wnc.Runtime.Durable

namespace Wnc

open Lib

/-- What no step takes from a generation: its number, its digest and what is documented of its contract. -/
def GenerationRecord.content (g : GenerationRecord) : ContractGeneration × Digest × Contract :=
  (g.generation, g.digest, g.body.documented)

def WorkloadState.published (w : WorkloadState) : List (ContractGeneration × Digest × Contract) :=
  w.generations.map GenerationRecord.content

/-- A workload that has all that another has published, in the same places, and is retired when that is. -/
structure WorkloadState.Extends (w w' : WorkloadState) : Prop where
  published : w.published <+: w'.published
  retired : w.retired = true → w'.retired = true

namespace WorkloadState.Extends

variable {u v w : WorkloadState}

theorem refl (w : WorkloadState) : w.Extends w := ⟨List.prefix_refl _, fun hr => hr⟩

theorem trans (h : u.Extends v) (h' : v.Extends w) : u.Extends w :=
  ⟨h.published.trans h'.published, fun hr => h'.retired (h.retired hr)⟩

theorem of_core (h : v.core = w.core) : v.Extends w := by
  have hretired : v.retired = w.retired := congrArg (fun c => c.1) h
  have hlist : v.generations.map GenerationRecord.core = w.generations.map GenerationRecord.core :=
    congrArg (fun c => c.2.2.2) h
  refine ⟨?_, fun hr => hretired.symm.trans hr⟩
  have hcontent : ∀ l : List GenerationRecord, l.map GenerationRecord.content =
      (l.map GenerationRecord.core).map fun c => (c.1, c.2.1, c.2.2.2) := by
    intro l
    rw [List.map_map]
    rfl
  rw [WorkloadState.published, WorkloadState.published, hcontent, hcontent, hlist]

/-- A generation of the one is at the same place in the other. -/
theorem generation (h : u.Extends v) {i : Nat} {g : GenerationRecord} (hg : u.generations[i]? = some g) :
    ∃ g', v.generations[i]? = some g' ∧ g'.content = g.content := by
  obtain ⟨rest, hrest⟩ := h.published
  have hi := congrArg (fun l => l[i]?) hrest
  have hlt := (List.getElem?_eq_some_iff.1 hg).1
  unfold WorkloadState.published at hi
  rw [List.getElem?_append_left (by rw [List.length_map]; exact hlt), List.getElem?_map, List.getElem?_map, hg] at hi
  exact Option.map_eq_some_iff.1 hi.symm

end WorkloadState.Extends

/-- A state that has every workload of another one, each with all that it has published there. -/
def RuntimeState.Extends (s t : RuntimeState) : Prop :=
  ∀ id w, s.workloads.find? id = some w → ∃ w', t.workloads.find? id = some w' ∧ w.Extends w'

namespace RuntimeState.Extends

variable {s t u : RuntimeState}

theorem refl (s : RuntimeState) : s.Extends s := fun _ w hw => ⟨w, hw, .refl w⟩

theorem trans (h : s.Extends t) (h' : t.Extends u) : s.Extends u := by
  intro id w hw
  obtain ⟨w', hw', hextends⟩ := h id w hw
  obtain ⟨w'', hw'', hextends'⟩ := h' id w' hw'
  exact ⟨w'', hw'', hextends.trans hextends'⟩

theorem of_sameHistory (h : s.SameHistory t) : s.Extends t := by
  intro id w hw
  obtain ⟨w', hw', hcore⟩ := h.find hw
  exact ⟨w', hw', .of_core hcore.symm⟩

/-- A state in which one workload is replaced by one that extends it, or is new. -/
theorem set {id : WorkloadId} {v : WorkloadState} (h : ∀ w, s.workloads.find? id = some w → w.Extends v) :
    s.Extends { s with workloads := s.workloads.set id v } := by
  intro id' w hw
  show ∃ w', (s.workloads.set id v).find? id' = some w' ∧ w.Extends w'
  rw [SortedMap.find?_set]
  split
  · rename_i he
    exact ⟨v, rfl, h w (he ▸ hw)⟩
  · exact ⟨w, hw, .refl w⟩

end RuntimeState.Extends

theorem WorkloadState.extends_publish (w : WorkloadState) (c : Contract) (t : UInt64) : w.Extends (w.publish c t) := by
  refine ⟨⟨[(generationOf c t).content], ?_⟩, fun hr => hr⟩
  rw [published, published, WorkloadState.publish, List.map_append, List.map_map]
  rfl

theorem WorkloadState.extends_retire (w : WorkloadState) (evaluation : Option StoredEvaluation) :
    w.Extends { w with
      retired := true
      generations := w.generations.map fun g => { g with retired := true }
      evaluation := evaluation } := by
  refine ⟨?_, fun _ => rfl⟩
  rw [published, published, List.map_map]
  exact List.prefix_refl _

/-- No mutation takes anything away. -/
theorem Effect.extends {around : Surroundings} {r : Runtime} {m : Mutation} {p : Planned} (h : Effect around r m p) :
    r.state.Extends p.state := by
  have hsame : ∀ {id : WorkloadId} {v w : WorkloadState}, r.state.workloads.find? id = some v → v.Extends w →
      ∀ u, r.state.workloads.find? id = some u → u.Extends w := by
    intro id v w hv hextends u hu
    rw [hv] at hu
    cases hu
    exact hextends
  cases h with
  | registerWorkload hreg =>
    refine .set fun w hw => ?_
    rw [hreg.new] at hw
    cases hw
  | publish hpub => exact .set (hsame hpub.found (WorkloadState.extends_publish _ _ _))
  | attachEvidence _ => exact .of_sameHistory (RuntimeState.sameHistory_attach _ _).symm
  | installPolicy => exact .of_sameHistory (RuntimeState.sameHistory_installPolicy _ _).symm
  | retire hfound _ => exact .set (hsame hfound (WorkloadState.extends_retire _ _))

/-! ## Retired workloads -/

/-- A workload of a state has its like in a state with the same history. -/
theorem RuntimeState.SameHistory.chain_eq {s t : RuntimeState} (h : s.SameHistory t) {id : WorkloadId}
    {w w' : WorkloadState} (hw : t.workloads.find? id = some w) (hw' : s.workloads.find? id = some w') :
    w'.chain = w.chain := by
  obtain ⟨w₀, hw₀, hcore⟩ := h.find hw'
  rw [hw] at hw₀
  cases hw₀
  exact (congrArg Prod.snd hcore).symm

/-- No mutation touches the chain of a retired workload. -/
theorem Effect.retired_chain {around : Surroundings} {r : Runtime} {m : Mutation} {p : Planned}
    (h : Effect around r m p) {id : WorkloadId} {w w' : WorkloadState} (hw : r.state.workloads.find? id = some w)
    (hretired : w.retired = true) (hw' : p.state.workloads.find? id = some w') : w'.chain = w.chain := by
  have hset : ∀ {id' : WorkloadId} {v : WorkloadState}, id' ≠ id →
      (r.state.workloads.set id' v).find? id = some w' → w'.chain = w.chain := by
    intro id' v hne hfind
    rw [SortedMap.find?_set, if_neg hne, hw] at hfind
    cases hfind
    rfl
  cases h with
  | registerWorkload hreg =>
    refine hset (fun he => ?_) hw'
    have hnone := hreg.new
    rw [he, hw] at hnone
    cases hnone
  | publish hpub =>
    refine hset (fun he => ?_) hw'
    have hfound := hpub.found
    rw [he, hw] at hfound
    cases hfound
    rw [hpub.active] at hretired
    cases hretired
  | attachEvidence _ => exact (RuntimeState.sameHistory_attach _ _).chain_eq hw hw'
  | installPolicy => exact (RuntimeState.sameHistory_installPolicy _ _).chain_eq hw hw'
  | retire hfound hactive =>
    refine hset (fun he => ?_) hw'
    rw [he, hw] at hfound
    cases hfound
    rw [hactive] at hretired
    cases hretired

/-- A state that has every workload which is retired in another one, with no fewer generations. -/
def RuntimeState.Outlasts (s state : RuntimeState) : Prop :=
  ∀ id w', state.workloads.find? id = some w' → w'.retired = true →
    ∃ w, s.workloads.find? id = some w ∧ w'.generations.length ≤ w.generations.length

namespace RuntimeState.Outlasts

variable {s t state : RuntimeState}

theorem of_sameHistory (h : state.SameHistory s) : s.Outlasts state := by
  intro id w' hw' _
  obtain ⟨w, hw, hcore⟩ := h.find hw'
  exact ⟨w, hw, (WorkloadState.length_of_chain (congrArg Prod.snd hcore)).ge⟩

/-- What has the history of a state outlasts no more than that does. -/
theorem sameHistory (h : s.Outlasts t) (hstate : state.SameHistory t) : s.Outlasts state := by
  intro id w' hw' hretired
  obtain ⟨v, hv, hcore⟩ := hstate.find hw'
  have hsame : v.retired = w'.retired := congrArg Prod.fst hcore
  obtain ⟨w, hw, hle⟩ := h id v hv (hsame.trans hretired)
  exact ⟨w, hw, (WorkloadState.length_of_chain (congrArg Prod.snd hcore)).ge.trans hle⟩

theorem later (h : s.Outlasts state) (hextends : s.Extends t) : t.Outlasts state := by
  intro id w' hw' hretired
  obtain ⟨w, hw, hle⟩ := h id w' hw' hretired
  obtain ⟨v, hv, hmore⟩ := hextends id w hw
  have hlength := hmore.published.length_le
  rw [WorkloadState.published, WorkloadState.published, List.length_map, List.length_map] at hlength
  exact ⟨v, hv, hle.trans hlength⟩

end RuntimeState.Outlasts

/-- A mutation adds no generation to a workload that it leaves retired. -/
theorem Effect.outlasts {around : Surroundings} {r : Runtime} {m : Mutation} {p : Planned} (h : Effect around r m p) :
    r.state.Outlasts p.state := by
  have hset : ∀ {id : WorkloadId} {v : WorkloadState}, (v.retired = true → ∃ w, r.state.workloads.find? id = some w ∧
      v.generations.length ≤ w.generations.length) →
        r.state.Outlasts { r.state with workloads := r.state.workloads.set id v } := by
    intro id v hv id' w' hw' hretired
    have hw' : (r.state.workloads.set id v).find? id' = some w' := hw'
    rw [SortedMap.find?_set] at hw'
    split at hw'
    · rename_i he
      cases hw'
      exact he ▸ hv hretired
    · exact ⟨w', hw', le_rfl⟩
  cases h with
  | registerWorkload hreg => exact hset fun hretired => Bool.noConfusion hretired
  | publish hpub => exact hset fun hretired => Bool.noConfusion (hpub.active.symm.trans hretired)
  | attachEvidence _ => exact .of_sameHistory (RuntimeState.sameHistory_attach _ _)
  | installPolicy => exact .of_sameHistory (RuntimeState.sameHistory_installPolicy _ _)
  | retire hfound _ => exact hset fun _ => ⟨_, hfound, (List.length_map _).le⟩

/-- A history has all that a reopen may read back of a retired workload. -/
structure System.Outlasting (s : System) : Prop where
  history : s.Inv (fun _ => True) WorkloadState.Chained
  left : s.Leaves fun _ state => s.runtime.state.Outlasts state

/-- What a refused mutation may leave is outlasted by the state that it leaves. -/
theorem System.Outlasting.refused {s : System} (h : s.Outlasting) (around : Surroundings) (m : Mutation) :
    (s.mutate around m).Leaves fun _ state => s.runtime.state.Outlasts state :=
  h.history.leaves_mutate (historic_chained _) h.left (fun _ hsame => .of_sameHistory hsame)
    fun _ _ hplan hsame => (effect_of_plan hplan).outlasts.sameHistory hsame

theorem System.Outlasting.step {s t : System} {e : Event} (h : s.Outlasting) (hstep : System.Step s e t) :
    t.Outlasting := by
  have hhistory : t.Inv (fun _ => True) WorkloadState.Chained :=
    h.history.step (historic_chained _) (by cases e <;> trivial) hstep
  cases hstep with
  | mutate around m =>
    have hleft := h.refused around m
    rcases s.mutate_cases around m with ⟨l, dir, left, -, heq⟩ | ⟨p, l, dir, -, heffect, -, heq⟩
    · rw [heq] at hhistory hleft ⊢
      exact ⟨hhistory, hleft⟩
    · rw [heq] at hhistory hleft ⊢
      exact ⟨hhistory, hleft.mono fun _ _ houtlasts => houtlasts.later heffect.extends⟩
  | reopen hopen hwrote => exact ⟨hhistory, System.leaves_nil rfl _⟩

/-- In every state of every history the generations of every workload form a chain. No mutation, accepted or refused,
adds one to a workload that is retired, and none is there after a reopen at which the workload is still retired. -/
theorem generation_chain {s₀ s : System} {events : List Event} (hstart : s₀.Started)
    (hrun : Run System.Step (fun _ _ => True) s₀ events s) :
    (∀ id w, s.runtime.state.workloads.find? id = some w → w.Chained) ∧
      (∀ around m id w, s.runtime.state.workloads.find? id = some w → w.retired = true →
        ∃ w', (s.mutate around m).runtime.state.workloads.find? id = some w' ∧ w'.retired = true ∧
          w'.generations.length = w.generations.length) ∧
      ∀ options t, System.Step s (.reopen options) t → ∀ id w w', s.runtime.state.workloads.find? id = some w →
        w.retired = true → t.runtime.state.workloads.find? id = some w' → w'.retired = true →
          w'.generations.length ≤ w.generations.length := by
  have h : s.Outlasting := hrun.invariant System.Outlasting (fun _ _ _ h _ hstep => h.step hstep)
    ⟨hstart.inv trivial, System.leaves_nil hstart.unsettled _⟩
  refine ⟨h.history.workloads, fun around m id w hw hretired => ?_, fun options t hstep id w w' hw _ hw' hretired => ?_⟩
  · rcases s.mutate_cases around m with ⟨l, dir, left, -, heq⟩ | ⟨p, l, dir, -, heffect, -, heq⟩
    · rw [heq]
      exact ⟨w, hw, hretired, rfl⟩
    · rw [heq]
      obtain ⟨w', hw', hextends⟩ := heffect.extends id w hw
      exact ⟨w', hw', hextends.retired hretired, WorkloadState.length_of_chain (heffect.retired_chain hw hretired hw')⟩
  · cases hstep with
    | @reopen _ r dir records hopen hwrote =>
      obtain ⟨state, hreplay, hstate, -⟩ := hopen.spec
      have houtlasts : s.runtime.state.Outlasts state := h.left.wrote hwrote hreplay fun hjournal =>
        .of_sameHistory (h.history.replayed records state hjournal hreplay)
      have hsame : r.state.SameHistory state := by
        rw [hstate]
        exact RuntimeState.sameHistory_clearDecisions state
      obtain ⟨v, hv, hle⟩ := houtlasts.sameHistory hsame id w' hw' hretired
      rw [hw] at hv
      cases hv
      exact hle

theorem generation_chain_restarted : ∃ (s : System) (w : WorkloadState),
    s.runtime.state.workloads.find? (.repeating 1) = some w ∧ w.generations.length = 2 ∧ w.Chained := by
  obtain ⟨s₀, s, t, events, w, hstart, -, hrun, -, -, hreopen, -, hfind, hlength⟩ := isolation_restarted
  exact ⟨t, w, hfind, hlength, (generation_chain hstart
    ((hrun _ fun _ _ _ _ => trivial).append (.cons trivial hreopen (.nil _)))).1 _ _ hfind⟩

/-! ## Nothing taken away -/

/-- No mutation is accepted behind what a failed append of the same boot left in the journal. -/
def System.Unspoiled (s : System) : Event → Prop
  | .mutate around m => (m.perform around s.runtime s.dir).1.ok = true → s.unsettled = []
  | .reopen _ => True

/-- Whatever a reopen may read back has all that is there. -/
structure System.Lasting (s : System) : Prop where
  history : s.Inv (fun _ => True) WorkloadState.Chained
  left : s.Leaves fun _ state => s.runtime.state.Extends state

/-- What a refused mutation may leave extends the state that it leaves. -/
theorem System.Lasting.refused {s : System} (h : s.Lasting) (around : Surroundings) (m : Mutation) :
    (s.mutate around m).Leaves fun _ state => s.runtime.state.Extends state :=
  h.history.leaves_mutate (historic_chained _) h.left (fun _ hsame => .of_sameHistory hsame.symm)
    fun _ _ hplan hsame => (effect_of_plan hplan).extends.trans (.of_sameHistory hsame.symm)

/-- Such a step takes nothing away. -/
theorem System.Lasting.step {s t : System} {e : Event} (h : s.Lasting) (hg : s.Unspoiled e) (hstep : System.Step s e t) :
    t.Lasting ∧ s.runtime.state.Extends t.runtime.state := by
  have hhistory : t.Inv (fun _ => True) WorkloadState.Chained :=
    h.history.step (historic_chained _) (by cases e <;> trivial) hstep
  cases hstep with
  | mutate around m =>
    have hleft := h.refused around m
    rcases s.mutate_cases around m with ⟨l, dir, left, -, heq⟩ | ⟨p, l, dir, hok, heffect, -, heq⟩
    · rw [heq] at hhistory hleft ⊢
      exact ⟨⟨hhistory, hleft⟩, .refl _⟩
    · rw [heq] at hhistory ⊢
      refine ⟨⟨hhistory, System.leaves_nil ?_ _⟩, heffect.extends⟩
      exact hg hok
  | @reopen options r dir records hopen hwrote =>
    obtain ⟨state, hreplay, hstate, -⟩ := hopen.spec
    have hkept : s.runtime.state.Extends state := h.left.wrote hwrote hreplay fun hjournal =>
      .of_sameHistory (h.history.replayed records state hjournal hreplay).symm
    have hsame : state.SameHistory r.state := by
      rw [hstate]
      exact (RuntimeState.sameHistory_clearDecisions state).symm
    exact ⟨⟨hhistory, System.leaves_nil rfl _⟩, hkept.trans (.of_sameHistory hsame)⟩

/-- Whatever is published in a boot with such steps is published ever after. -/
theorem System.Lasting.run {v s t : System} {events later : List Event} (h : v.Lasting)
    (hrun : Run System.Step System.Unspoiled v events s) (hlater : Run System.Step System.Unspoiled s later t) :
    s.runtime.state.Extends t.runtime.state := by
  have hs : s.Lasting := hrun.invariant System.Lasting (fun _ _ _ h hg hstep => (h.step hg hstep).1) h
  exact (hlater.invariant (fun u => u.Lasting ∧ s.runtime.state.Extends u.runtime.state)
    (fun _ _ _ hu hg hstep => ⟨(hu.1.step hg hstep).1, hu.2.trans (hu.1.step hg hstep).2⟩) ⟨hs, .refl _⟩).2

end Wnc
