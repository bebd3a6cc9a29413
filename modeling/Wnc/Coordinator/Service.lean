/-
A service: a coordinator over the runtime that it opened, whose process may end anywhere, with whatever it has under
way, and be started again over what an open makes of the directory that is left. What holds in every history of a
runtime holds of the runtime that is served, and so of what the coordinator tells its peers.
-/
import Wnc.Coordinator.Serving
import Wnc.Runtime.Durable
import Wnc.Runtime.Survival

namespace Wnc

open Lib Wire

/-! ## Services -/

/-- A system that an open gave: on a directory without records, or on what a history left. -/
def System.Opened (s : System) : Prop :=
  s.Started ∨ ∃ (s₀ t : System) (events : List Event) (options : Options), s₀.Started ∧
    Run System.Step (fun _ _ => True) s₀ events t ∧ System.Step t (.reopen options) s

/-- A system in some history. -/
def System.Reachable (s : System) : Prop :=
  ∃ (s₀ : System) (events : List Event), s₀.Started ∧ Run System.Step (fun _ _ => True) s₀ events s

theorem System.Opened.reachable {s : System} (h : s.Opened) : s.Reachable := by
  rcases h with hstart | ⟨s₀, t, events, options, hstart, hrun, hstep⟩
  · exact ⟨s, [], hstart, .nil s⟩
  · exact ⟨s₀, _, hstart, hrun.append (.cons trivial hstep (.nil s))⟩

/-- A coordinator with the history of the runtime that it serves. -/
structure Service where
  machine : Machine
  system : System

namespace Service

inductive Happening
  | act (a : Action)
  /-- The process is gone, wherever it was, and the coordinator is started again. -/
  | restart (options : CoordinatorOptions) (opening : Options)

inductive Step : Service → Happening → Service → Prop
  | act (v : Service) (a : Action) :
      Step v (.act a) ⟨v.machine.step a, v.system.after (v.machine.change a)⟩
  | restart {v : Service} {t : System} (options : CoordinatorOptions) {opening : Options}
      (reopened : System.Step v.system (.reopen opening) t) :
      Step v (.restart options opening) ⟨Coordinator.start options t.runtime t.dir, t⟩

/-- A coordinator as it is started over what an open gave. -/
structure Booted (v : Service) : Prop where
  machine : ∃ options, v.machine = Coordinator.start options v.system.runtime v.system.dir
  opened : v.system.Opened

variable {v w : Service} {happenings later : List Happening}

/-- What a condition on histories is of a service: the change in hand meets it, and every reopen does. -/
def Meets (guard : System → Event → Prop) (v : Service) : Happening → Prop
  | .act a => ∀ change, v.machine.change a = some change → guard v.system (.mutate change.1 change.2)
  | .restart _ opening => guard v.system (.reopen opening)

/-- A run of a service is a history of its runtime, which the coordinator serves throughout. -/
theorem history {guard : System → Event → Prop} (hserves : v.machine.Serves v.system)
    (hrun : Run Step (Meets guard) v happenings w) :
    w.machine.Serves w.system ∧ ∃ events, Run System.Step guard v.system events w.system := by
  induction hrun with
  | nil v => exact ⟨hserves, [], .nil _⟩
  | cons hmeets hstep _ ih =>
    cases hstep with
    | act a =>
      obtain ⟨hserves', events, hevents⟩ := ih (hserves.step a)
      exact ⟨hserves', _, (System.run_after _ _ hmeets).append hevents⟩
    | restart options reopened =>
      obtain ⟨hserves', events, hevents⟩ := ih ⟨rfl, rfl⟩
      exact ⟨hserves', _, .cons hmeets reopened hevents⟩

theorem unguarded (hrun : Run Step (fun _ _ => True) v happenings w) : Run Step (Meets fun _ _ => True) v happenings w :=
  hrun.mono fun _ happening _ => by
    cases happening with
    | act a => exact fun _ _ => trivial
    | restart options opening => trivial

theorem Booted.serves (h : v.Booted) : v.machine.Serves v.system := by
  obtain ⟨options, hmachine⟩ := h.machine
  rw [hmachine]
  exact ⟨rfl, rfl⟩

theorem Booted.reachable (h : v.Booted) (hrun : Run Step (fun _ _ => True) v happenings w) : w.system.Reachable := by
  obtain ⟨s₀, events, hstart, hevents⟩ := h.opened.reachable
  obtain ⟨-, events', hevents'⟩ := history h.serves (unguarded hrun)
  exact ⟨s₀, _, hstart, hevents.append hevents'⟩

end Service

/-- The generations of every workload of a history are a chain. -/
theorem System.Reachable.chained {s : System} (h : s.Reachable) {id : WorkloadId} {w : WorkloadState}
    (hw : s.runtime.state.workloads.find? id = some w) : w.Chained := by
  obtain ⟨s₀, events, hstart, hrun⟩ := h
  have hi := (historic_chained fun _ => True).run hstart trivial
    (hrun.mono fun _ e _ => show e.Under fun _ => True by cases e <;> trivial)
  exact hi.workloads id w hw

/-- What an open gave has nothing to lose. -/
theorem System.Opened.lasting {s : System} (h : s.Opened) : s.Lasting := by
  obtain ⟨s₀, events, hstart, hrun⟩ := h.reachable
  refine ⟨(historic_chained fun _ => True).run hstart trivial
    (hrun.mono fun _ e _ => show e.Under fun _ => True by cases e <;> trivial), System.leaves_nil ?_ _⟩
  rcases h with hstart | ⟨_, _, _, _, _, _, hstep⟩
  · exact hstart.unsettled
  · cases hstep
    rfl

/-! ## What is described -/

/-- The generation of a number that a chain retains. -/
theorem WorkloadState.Chained.find_generation {w : WorkloadState} (h : w.Chained) (generation : ContractGeneration) :
    w.generations.find? (fun g => g.generation == generation) =
      if generation = 0 then none else w.generations[generation.toNat - 1]? := by
  have hnumbered : ∀ (i : Nat) (g : GenerationRecord), w.generations[i]? = some g →
      ((g.generation == generation) = true ↔ generation.toNat = i + 1) := by
    intro i g hg
    rw [beq_iff_eq, ← UInt64.toNat_inj, (h.numbered i g hg).1]
    exact eq_comm
  by_cases hzero : generation = 0
  · rw [if_pos hzero, List.find?_eq_none]
    intro g hg hmatch
    obtain ⟨i, hi⟩ := List.mem_iff_getElem?.1 hg
    have hnumber := (hnumbered i g hi).1 hmatch
    rw [hzero] at hnumber
    exact absurd hnumber (Nat.succ_ne_zero i).symm
  · rw [if_neg hzero]
    have hpos : 0 < generation.toNat := Nat.pos_of_ne_zero fun h0 => hzero (UInt64.toNat_inj.1 h0)
    cases hat : w.generations[generation.toNat - 1]? with
    | none =>
      rw [List.find?_eq_none]
      intro g hg hmatch
      obtain ⟨i, hi⟩ := List.mem_iff_getElem?.1 hg
      rw [(hnumbered i g hi).1 hmatch, Nat.add_sub_cancel, hi] at hat
      cases hat
    | some g =>
      have hmatch : (g.generation == generation) = true := (hnumbered _ g hat).2 (Nat.sub_add_cancel hpos).symm
      rw [List.find?_eq_some_iff_getElem]
      obtain ⟨hlt, hget⟩ := List.getElem?_eq_some_iff.1 hat
      refine ⟨hmatch, _, hlt, hget, fun j hj => ?_⟩
      have hother := hnumbered j _ (List.getElem?_eq_getElem (lt_trans hj hlt))
      simp only [Bool.not_eq_true', ← Bool.not_eq_true, hother]
      omega

/-- What a snapshot says of a workload: its history counts the generations from one, the last is current and the others
are superseded, each is retained with the content that its digest names, and each but the first names the digest of the
one before it. -/
structure WorkloadSnapshot.Describes (snapshot : WorkloadSnapshot) (r : Runtime) (workload : WorkloadId) : Prop where
  current : snapshot.contractGeneration.toNat = snapshot.history.length ∧ 0 < snapshot.history.length
  last : ∀ record ∈ snapshot.history.getLast?, snapshot.digest = record.digest
  history : ∀ i (record : GenerationHistory), snapshot.history[i]? = some record →
    record.generation.toNat = i + 1 ∧ (record.superseded = true ↔ i + 1 < snapshot.history.length)
  retained : ∀ generation, (r.contractAt workload generation).isSome = true ↔
    0 < generation.toNat ∧ generation.toNat ≤ snapshot.history.length
  content : ∀ generation c, r.contractAt workload generation = some c → c.body.generation = generation ∧
    ∃ record, snapshot.history[generation.toNat - 1]? = some record ∧ bodyDigest c.body = record.digest
  linked : ∀ i (before after : GenerationHistory), snapshot.history[i]? = some before →
    snapshot.history[i + 1]? = some after → ∃ c, r.contractAt workload after.generation = some c ∧
      c.hasSupersedes = true ∧ c.supersedes = before.generation ∧ c.supersedesDigest = before.digest

section Snapshot

variable {r : Runtime} {workload : WorkloadId} {w : WorkloadState}

theorem Runtime.contractAt_of_chained (hw : r.state.workloads.find? workload = some w) (hc : w.Chained)
    (generation : ContractGeneration) : r.contractAt workload generation =
      if generation = 0 then none else (w.generations[generation.toNat - 1]?).map GenerationRecord.body := by
  rw [contractAt, hw, Option.bind_some, hc.find_generation]
  split
  · rfl
  · rfl

/-- The number of a generation that a chain retains gives its content. -/
theorem Runtime.contractAt_of_getElem (hw : r.state.workloads.find? workload = some w) (hc : w.Chained) {i : Nat}
    {g : GenerationRecord} (hg : w.generations[i]? = some g) : r.contractAt workload g.generation = some g.body := by
  have hnumber := (hc.numbered i g hg).1
  have hpos : g.generation ≠ 0 := fun hzero => by
    rw [hzero] at hnumber
    cases hnumber
  rw [contractAt_of_chained hw hc, if_neg hpos, hnumber, Nat.add_sub_cancel, hg, Option.map_some]

/-- A content that is given is that of a generation that is retained. -/
theorem Runtime.getElem_of_contractAt (hw : r.state.workloads.find? workload = some w) (hc : w.Chained)
    {generation : ContractGeneration} {c : Contract} (h : r.contractAt workload generation = some c) :
    ∃ (i : Nat) (g : GenerationRecord), w.generations[i]? = some g ∧ g.generation = generation ∧ g.body = c := by
  rw [contractAt_of_chained hw hc] at h
  split at h
  · cases h
  · rename_i hzero
    obtain ⟨g, hg, rfl⟩ := Option.map_eq_some_iff.1 h
    have hpositive : generation.toNat ≠ 0 := fun h => hzero (UInt64.toNat_inj.1 h)
    have hnumber := (hc.numbered _ g hg).1
    exact ⟨_, g, hg, UInt64.toNat_inj.1 (by omega), rfl⟩

theorem WorkloadState.Chained.describes_snapshot (hw : r.state.workloads.find? workload = some w) (hc : w.Chained)
    {snapshot : WorkloadSnapshot} (hs : r.snapshot workload = some snapshot) : snapshot.Describes r workload := by
  unfold Runtime.snapshot at hs
  rw [hw, Option.map_some, Option.some.injEq] at hs
  have hat : ∀ (i : Nat) (record : GenerationHistory), snapshot.history[i]? = some record →
      ∃ g : GenerationRecord, w.generations[i]? = some g ∧ record.generation = g.generation ∧ record.digest = g.digest ∧
        record.superseded = g.superseded := by
    intro i record hi
    rw [← hs, List.getElem?_map] at hi
    obtain ⟨g, hg, rfl⟩ := Option.map_eq_some_iff.1 hi
    exact ⟨g, hg, rfl, rfl, rfl⟩
  have hlength : snapshot.history.length = w.generations.length := by rw [← hs, List.length_map]
  have hpos : 0 < w.generations.length := List.length_pos_iff.2 hc.nonempty
  refine ⟨?_, ?_, ?_, ?_, ?_, ?_⟩
  · rw [hlength]
    exact ⟨by rw [← hs]; exact hc.current, hpos⟩
  · intro record hrecord
    rw [Option.mem_def, List.getLast?_eq_getElem?] at hrecord
    obtain ⟨g, hg, -, hdigest, -⟩ := hat _ record hrecord
    rw [hlength, ← List.getLast?_eq_getElem?] at hg
    have hlast : g ∈ w.generations := List.mem_of_getLast? hg
    obtain ⟨i, hi⟩ := List.getElem?_of_mem hlast
    rw [hdigest, ← hs, hc.digests i g hi]
    exact hc.digest g hg
  · intro i record hi
    obtain ⟨g, hg, hgeneration, -, hsuperseded⟩ := hat i record hi
    rw [hgeneration, hsuperseded, hlength]
    exact ⟨(hc.numbered i g hg).1, hc.superseded i g hg⟩
  · intro generation
    rw [Runtime.contractAt_of_chained hw hc, hlength]
    by_cases hzero : generation = 0
    · subst hzero
      exact iff_of_false (by rw [if_pos rfl]; exact Bool.false_ne_true) (fun h => lt_irrefl 0 h.1)
    · have hnumber : 0 < generation.toNat := Nat.pos_of_ne_zero fun h => hzero (UInt64.toNat_inj.1 h)
      rw [if_neg hzero, Option.isSome_map, Option.isSome_iff_ne_none, ne_eq, List.getElem?_eq_none_iff]
      omega
  · intro generation c hcontract
    obtain ⟨i, g, hg, rfl, rfl⟩ := Runtime.getElem_of_contractAt hw hc hcontract
    obtain ⟨hnumber, hgeneration⟩ := hc.numbered i g hg
    refine ⟨hgeneration, ?_⟩
    rw [hnumber, Nat.add_sub_cancel, ← hs, List.getElem?_map, hg, Option.map_some]
    exact ⟨_, rfl, (hc.digests i g hg).symm⟩
  · intro i before after hbefore hafter
    obtain ⟨g, hg, hgeneration, hdigest, -⟩ := hat i before hbefore
    obtain ⟨h, hh, hnext, -, -⟩ := hat (i + 1) after hafter
    obtain ⟨hhas, hsupersedes, hnamed⟩ := hc.linked i g h hg hh
    exact ⟨h.body, by rw [hnext]; exact Runtime.contractAt_of_getElem hw hc hh, hhas,
      by rw [hgeneration]; exact hsupersedes, by rw [hdigest]; exact hnamed⟩

end Snapshot

/-! ## What a service tells -/

/-- A directory that was opened can be opened again. -/
theorem System.Step.again {s t : System} {options : Options} (h : System.Step s (.reopen options) t) :
    System.Step t (.reopen options) t := by
  cases h with
  | reopen hopen _ => exact .reopen hopen (.inl rfl)

namespace Service

variable {v₀ v w : Service} {happenings later : List Happening}

theorem booted_again (options : CoordinatorOptions) {s₀ s t : System} {events : List Event} {opening : Options}
    (hstart : s₀.Started) (hrun : Run System.Step (fun _ _ => True) s₀ events s)
    (hreopen : System.Step s (.reopen opening) t) : Booted ⟨Coordinator.start options t.runtime t.dir, t⟩ :=
  ⟨⟨options, rfl⟩, .inr ⟨s₀, s, events, opening, hstart, hrun, hreopen⟩⟩

/-- Whatever a coordinator has been through, restarts included, a description that it gives is complete and agrees with
the contracts that it gives for each generation. -/
theorem describes (hboot : v₀.Booted) (hrun : Run Step (fun _ _ => True) v₀ happenings v) {workload : WorkloadId}
    {snapshot : WorkloadSnapshot} (hs : v.machine.coordinator.runtime.snapshot workload = some snapshot) :
    snapshot.Describes v.machine.coordinator.runtime workload := by
  have hruntime := (history hboot.serves (unguarded hrun)).1.runtime
  rw [hruntime] at hs ⊢
  cases hw : v.system.runtime.state.workloads.find? workload with
  | none =>
    rw [Runtime.snapshot, hw] at hs
    cases hs
  | some w => exact ((hboot.reachable hrun).chained hw).describes_snapshot hw hs

theorem describes_restarted : ∃ (v : Service) (snapshot : WorkloadSnapshot), snapshot.history.length = 2 ∧
    snapshot.Describes v.machine.coordinator.runtime (.repeating 1) := by
  obtain ⟨s₀, s, t, events, w, hstart, -, hrun, -, -, hreopen, -, hw, hlength⟩ := isolation_restarted
  have hsnapshot : ∃ snapshot, t.runtime.snapshot (.repeating 1) = some snapshot ∧ snapshot.history.length = 2 := by
    unfold Runtime.snapshot
    rw [hw]
    exact ⟨_, rfl, (List.length_map _).trans hlength⟩
  obtain ⟨snapshot, hs, htwo⟩ := hsnapshot
  exact ⟨_, snapshot, htwo, describes (booted_again {} hstart (hrun _ fun _ _ _ _ => trivial) hreopen) (.nil _) hs⟩

/-- A contract that a coordinator has given for a generation it gives for that generation ever after, but for what a
document does not carry, over any number of restarts, as long as no change is accepted behind what a failed append of the
same boot left in the journal. -/
theorem keeps_contracts (hboot : v₀.Booted) (hrun : Run Step (Meets System.Unspoiled) v₀ happenings v)
    (hlater : Run Step (Meets System.Unspoiled) v later w) {workload : WorkloadId} {generation : ContractGeneration}
    {c : Contract} (hc : v.machine.coordinator.runtime.contractAt workload generation = some c) :
    ∃ d, w.machine.coordinator.runtime.contractAt workload generation = some d ∧ d.documented = c.documented ∧
      bodyDigest d.body = bodyDigest c.body := by
  obtain ⟨hserves, events, hevents⟩ := history hboot.serves hrun
  obtain ⟨hserves', events', hevents'⟩ := history hserves hlater
  have hreachable := hboot.reachable (hrun.mono fun _ _ _ => trivial)
  have hreachable' := hboot.reachable ((hrun.append hlater).mono fun _ _ _ => trivial)
  rw [hserves.runtime] at hc
  rw [hserves'.runtime]
  cases hu : v.system.runtime.state.workloads.find? workload with
  | none =>
    rw [Runtime.contractAt, hu] at hc
    cases hc
  | some u =>
    obtain ⟨u', hu', hextends⟩ := hboot.opened.lasting.run hevents hevents' workload u hu
    obtain ⟨i, g, hg, rfl, rfl⟩ := Runtime.getElem_of_contractAt hu (hreachable.chained hu) hc
    obtain ⟨g', hg', hcontent⟩ := hextends.generation hg
    have hgeneration : g'.generation = g.generation := congrArg Prod.fst hcontent
    have hdocumented : g'.body.documented = g.body.documented := congrArg (fun content => content.2.2) hcontent
    refine ⟨g'.body, hgeneration ▸ Runtime.contractAt_of_getElem hu' (hreachable'.chained hu') hg', hdocumented, ?_⟩
    have hbody : g'.body.body.documented = g.body.body.documented := congrArg Contract.body hdocumented
    rw [← bodyDigest_documented, hbody, bodyDigest_documented]

theorem keeps_contracts_restarted : ∃ (v w : Service) (c d : Contract), v.machine.coordinator.runtime.contractAt
    (.repeating 1) 1 = some c ∧ w.machine.coordinator.runtime.contractAt (.repeating 1) 1 = some d ∧
      d.documented = c.documented := by
  obtain ⟨s₀, s, t, events, w, hstart, -, hrun, -, -, hreopen, -, hw, hlength⟩ := isolation_restarted
  have hboot := booted_again {} hstart (hrun _ fun _ _ _ _ => trivial) hreopen
  have hchained := (hboot.reachable (.nil _)).chained hw
  have hpos : 0 < w.generations.length := List.length_pos_iff.2 hchained.nonempty
  have hcontract := Runtime.contractAt_of_getElem hw hchained (List.getElem?_eq_getElem hpos)
  have hfirst : w.generations[0].generation = 1 :=
    UInt64.toNat_inj.1 (hchained.numbered 0 _ (List.getElem?_eq_getElem hpos)).1
  rw [hfirst] at hcontract
  have hmeets : Meets System.Unspoiled ⟨Coordinator.start {} t.runtime t.dir, t⟩
      (.restart { maxSessions := 1 } { trust := isolationTrust }) := trivial
  obtain ⟨d, hd, hdocumented, -⟩ := keeps_contracts hboot (.nil _)
    (.cons hmeets (.restart { maxSessions := 1 } hreopen.again) (.nil _)) hcontract
  exact ⟨⟨Coordinator.start {} t.runtime t.dir, t⟩, _, _, d, hcontract, hd, hdocumented⟩

end Service

end Wnc
