/-
Histories whose mutations meet a condition on the state in which they pass the checks of the runtime. What a refused
mutation may leave is then of one that met it too, and so is what a reopened journal stands for.
-/
import Wnc.Runtime.History

namespace Wnc

open Lib

/-- A mutation that passes the checks of the runtime meets the condition. -/
def System.Meeting (G : RuntimeState → Mutation → Prop) (s : System) : Event → Prop
  | .mutate around m => (∃ p, m.plan around s.runtime = .ok p) → G s.runtime.state m
  | .reopen _ => True

section Meeting

variable {G : RuntimeState → Mutation → Prop} {Q : WorkloadState → Prop}

/-- A property of workloads that their chains decide, and that registrations establish and the publications that
meet a condition keep. -/
structure HistoricWhen (G : RuntimeState → Mutation → Prop) (Q : WorkloadState → Prop) : Prop where
  ofChain : ∀ w w', Q w → w.chain = w'.chain → Q w'
  registered : ∀ r c t, Registrable r c → Q (registeredWorkload c t)
  published : ∀ r c w publisher t, G r.state (.publish c) → Publishable r c w publisher → w.Chained → Q w →
    Q (w.publish c t)

theorem HistoricWhen.all (hQ : HistoricWhen G Q) {s t : RuntimeState} (h : s.SameHistory t) (hs : s.workloads.All Q) :
    t.workloads.All Q := by
  intro id w hw
  obtain ⟨w', hw', hcore⟩ := h.symm.find hw
  exact hQ.ofChain w' w (hs id w' hw') (congrArg Prod.snd hcore)

theorem HistoricWhen.effect (hQ : HistoricWhen G Q) {around : Surroundings} {r : Runtime} {m : Mutation} {p : Planned}
    (hm : G r.state m) (h : Effect around r m p) (hchained : r.state.workloads.All WorkloadState.Chained)
    (hr : r.state.workloads.All Q) : p.state.workloads.All Q := by
  cases h with
  | registerWorkload hreg => exact hr.set (hQ.registered _ _ _ hreg) _
  | publish hpub => exact hr.set (hQ.published _ _ _ _ _ hm hpub (hchained _ _ hpub.found) (hr _ _ hpub.found)) _
  | attachEvidence _ => exact hQ.all (RuntimeState.sameHistory_attach _ _).symm hr
  | installPolicy => exact hQ.all (RuntimeState.sameHistory_installPolicy _ _).symm hr
  | retire hfound _ => exact hr.set (hQ.ofChain _ _ (hr _ _ hfound) (chain_retire _ _).symm) _

/-- The invariant of such histories: what they keep holds of the replay of whatever an open may read back. -/
structure System.Held (Q : WorkloadState → Prop) (s : System) : Prop where
  history : s.Inv (fun _ => True) WorkloadState.Chained
  workloads : s.runtime.state.workloads.All Q
  left : s.Leaves fun _ state => state.workloads.All Q

theorem System.Started.held {s : System} (h : s.Started) : s.Held Q := by
  obtain ⟨options, hopened⟩ := h.opened
  obtain ⟨state, hreplay, hstate, -⟩ := hopened.spec
  cases hreplay
  refine ⟨h.inv trivial, ?_, System.leaves_nil h.unsettled _⟩
  rw [hstate]
  exact fun id w hw => nomatch hw

theorem System.Held.step (hQ : HistoricWhen G Q) {s t : System} {event : Event} (hs : s.Held Q)
    (hg : s.Meeting G event) (h : System.Step s event t) : t.Held Q := by
  have hhistory : t.Inv (fun _ => True) WorkloadState.Chained :=
    hs.history.step (historic_chained _) (by cases event <;> trivial) h
  have hchained : s.runtime.state.workloads.All WorkloadState.Chained := hs.history.workloads
  cases h with
  | mutate around m =>
    -- a mutation that was refused behind the checks met the condition as well
    have hleft : (s.mutate around m).Leaves fun _ state => state.workloads.All Q :=
      hs.history.leaves_mutate (historic_chained _) hs.left (fun _ hsame => hQ.all hsame.symm hs.workloads)
        fun p _ hplan hsame =>
          hQ.all hsame.symm (hQ.effect (hg ⟨p, hplan⟩) (effect_of_plan hplan) hchained hs.workloads)
    rcases s.mutate_planned around m with ⟨l, dir, left, -, heq⟩ | ⟨p, l, dir, -, hplan, -, heq⟩
    · rw [heq] at hhistory hleft ⊢
      exact ⟨hhistory, hs.workloads, hleft⟩
    · rw [heq] at hhistory hleft ⊢
      exact ⟨hhistory, hQ.effect (hg ⟨p, hplan⟩) (effect_of_plan hplan) hchained hs.workloads, hleft⟩
  | @reopen options r dir records hopen hwrote =>
    obtain ⟨state, hreplay, hstate, -⟩ := hopen.spec
    have hheld : state.workloads.All Q := hs.left.wrote hwrote hreplay fun hjournal =>
      hQ.all (hs.history.replayed records state hjournal hreplay).symm hs.workloads
    have hreopened : state.SameHistory r.state := by
      rw [hstate]
      exact (RuntimeState.sameHistory_clearDecisions state).symm
    exact ⟨hhistory, hQ.all hreopened hheld, System.leaves_nil rfl _⟩

/-- What is historic under a condition holds of every workload in every state of every history that meets it. -/
theorem HistoricWhen.run (hQ : HistoricWhen G Q) {s₀ s : System} {events : List Event} (hstart : s₀.Started)
    (hrun : Run System.Step (System.Meeting G) s₀ events s) : s.runtime.state.workloads.All Q :=
  (hrun.invariant (System.Held Q) (fun _ _ _ hi hg hs => hi.step hQ hg hs) hstart.held).workloads

end Meeting

end Wnc
