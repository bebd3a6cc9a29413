/-
The turns of the sessions. A request that stands at the front of a session's buffer when a pass is on its way there is
handled in that pass, whatever comes over the other connections, as long as the peer of the session takes what it is
sent.
-/
import Wnc.Coordinator.Ending

namespace Wnc

open Lib Wire

/-- The turn of a session is still to come, or has got to its first frame. -/
def Control.Before (control : Control) (index : Nat) (s : Session) : Prop :=
  match control with
  | .visiting visited => visited ≤ index
  | .pumping pumped point =>
    pumped < index ∨ pumped = index ∧ (point = .entering ∨ point = .serving 0 ∧ s.pendingOutput = false)
  | _ => False

namespace Machine

/-- A session that waits for its turn, with a request at the front of its buffer. -/
structure Waits (m : Machine) (index : Nat) (frame : Frame) : Prop where
  session : ∃ s, m.coordinator.sessions[index]? = some s ∧ s.used = true ∧
    (∃ consumed, decodeFrame s.inbound = .ok (frame, consumed)) ∧ m.control.Before index s

/-- Its request is in hand. -/
def InHand (m : Machine) (index : Nat) (frame : Frame) : Prop := m.control = .pumping index (.handling 0 frame)

/-- In the turn of a session its peer takes what is sent. -/
def Takes (index : Nat) (m : Machine) (a : Action) : Prop :=
  ∀ os point, a = .proceed os → m.control = .pumping index point → ∃ more, os.send = .progress more

theorem Waits.passing {m : Machine} {index : Nat} {frame : Frame} (h : m.Waits index frame) :
    m.control.passing = true := by
  obtain ⟨s, -, -, -, hbefore⟩ := h.session
  unfold Control.Before at hbefore
  unfold Control.passing
  cases hcontrol : m.control with
  | visiting _ | pumping _ _ => rfl
  | idle | draining _ _ | drainFlushing _ _ =>
    rw [hcontrol] at hbefore
    exact hbefore.elim

/-- A step leaves the request where it is, or takes it in hand. -/
theorem Waits.proceed {m : Machine} {index : Nat} {frame : Frame} (h : m.Waits index frame) {os : Outside}
    (htakes : Takes index m (.proceed os)) : (m.proceed os).InHand index frame ∨ (m.proceed os).Waits index frame := by
  obtain ⟨c, control⟩ := m
  obtain ⟨s, hs, hused, hdecode, hbefore⟩ := h.session
  have hs : c.sessions[index]? = some s := hs
  have hindex : index < c.sessions.length := (List.getElem?_eq_some_iff.1 hs).1
  cases control with
  | visiting visited =>
    have hvisited : visited ≤ index := hbefore
    unfold Machine.proceed
    simp only
    cases ht : c.sessions[visited]? with
    | none => exact absurd (List.getElem?_eq_none_iff.1 ht) (by omega)
    | some t =>
      simp only
      refine .inr ?_
      by_cases hsame : visited = index
      · subst hsame
        obtain rfl : t = s := Option.some.inj (ht.symm.trans hs)
        simp only [hused, Bool.not_true, Bool.false_eq_true, if_false]
        exact ⟨_, List.getElem?_set_self hindex, rfl, hdecode, .inr ⟨rfl, .inl rfl⟩⟩
      · split
        · exact ⟨s, hs, hused, hdecode, show visited + 1 ≤ index by omega⟩
        · exact ⟨s, (List.getElem?_set_ne hsame).trans hs, hused, hdecode, .inl (show visited < index by omega)⟩
  | pumping pumped point =>
    rcases hbefore with hearlier | ⟨hsame, hpoint⟩
    · have hearlier : pumped < index := hearlier
      unfold Machine.proceed
      simp only
      refine .inr ?_
      cases ht : c.sessions[pumped]? with
      | none => exact ⟨s, hs, hused, hdecode, show pumped + 1 ≤ index by omega⟩
      | some t =>
        simp only
        have hother : ∀ (c' : Coordinator) (t' : Session) (next : Option Point), c.pump os t point = (c', t', next) →
            (c'.sessions.set pumped t')[index]? = some s := fun c' t' next hpump => by
          rw [Coordinator.pump_sessions hpump, List.getElem?_set_ne (Nat.ne_of_lt hearlier)]
          exact hs
        split
        · rename_i c' t' next hpump
          exact ⟨s, hother c' t' _ hpump, hused, hdecode, .inl hearlier⟩
        · rename_i c' t' hpump
          exact ⟨s, hother c' t' _ hpump, hused, hdecode, show pumped + 1 ≤ index by omega⟩
    · have hsame : pumped = index := hsame
      subst hsame
      obtain ⟨more, hsend⟩ := htakes os point rfl rfl
      obtain ⟨consumed, hdecode⟩ := hdecode
      rcases hpoint with rfl | ⟨rfl, hsent⟩
      · -- what is still to be sent of earlier replies goes out first
        refine .inr ?_
        unfold Machine.proceed Coordinator.pump Session.flush
        simp only [hs, hsend]
        cases hpending : s.pendingOutput with
        | true =>
          simp only [if_true]
          exact ⟨_, List.getElem?_set_self hindex, hused, ⟨consumed, hdecode⟩, .inr ⟨rfl, .inl rfl⟩⟩
        | false =>
          simp only [Bool.false_eq_true, if_false, hused, Bool.not_true, Session.pendingOutput, List.length_nil,
            Nat.lt_irrefl, decide_false]
          exact ⟨_, List.getElem?_set_self hindex, rfl, ⟨consumed, hdecode⟩, .inr ⟨rfl, .inr ⟨rfl, rfl⟩⟩⟩
      · refine .inl ?_
        have hheader : ¬s.inbound.length < headerBytes := by
          obtain ⟨-, hn, hlen, -⟩ := decodeFrame_eq_ok_iff.1 hdecode
          omega
        unfold Machine.proceed Coordinator.pump
        simp only [hs, hsent, hdecode, if_neg hheader, Bool.not_false, Bool.and_true, decide_eq_true_eq]
        rw [if_pos (show 0 < framesPerPass by decide)]
        rfl
  | idle => exact hbefore.elim
  | draining _ _ => exact hbefore.elim
  | drainFlushing _ _ => exact hbefore.elim

/-- Requests to stop do not reach into a pass. -/
theorem Waits.step {m : Machine} {index : Nat} {frame : Frame} (h : m.Waits index frame) {a : Action}
    (htakes : Takes index m a) : (m.step a).InHand index frame ∨ (m.step a).Waits index frame := by
  cases a with
  | proceed os => exact h.proceed htakes
  | requestStop => exact .inr ⟨h.session⟩
  | stop os =>
    have hpassing := h.passing
    obtain ⟨c, control⟩ := m
    cases control with
    | visiting _ | pumping _ _ => exact .inr h
    | idle | draining _ _ | drainFlushing _ _ => cases hpassing

/-- What is left of a pass falls until the request is in hand. -/
theorem turn_lowers (index : Nat) (frame : Frame) : Lowers step (fun m => m.Inv ∧ m.Waits index frame)
    (InHand · index frame) (Takes index) Action.isProceed stepsLeft where
  keeps := by
    rintro m a ⟨hi, hwaits⟩ - htakes
    exact (hwaits.step htakes).imp_right fun h => ⟨inv_step a hi, h⟩
  holds := by
    rintro m a ⟨hi, hwaits⟩ hnot htakes
    refine (pass_lowers.holds m a ⟨hi, hwaits.passing⟩ (fun hidle => ?_) trivial).elim (fun hidle => ?_) .inr
    · have hpassing := hwaits.passing
      rw [hidle] at hpassing
      cases hpassing
    · refine .inl ((hwaits.step htakes).resolve_right fun h => ?_)
      have hpassing := h.passing
      rw [hidle] at hpassing
      cases hpassing
  lowers := by
    rintro m a ⟨hi, hwaits⟩ hnot htakes hproceed
    refine (pass_lowers.lowers m a ⟨hi, hwaits.passing⟩ (fun hidle => ?_) trivial hproceed).elim (fun hidle => ?_) .inr
    · have hpassing := hwaits.passing
      rw [hidle] at hpassing
      cases hpassing
    · refine .inl ((hwaits.step htakes).resolve_right fun h => ?_)
      have hpassing := h.passing
      rw [hidle] at hpassing
      cases hpassing

end Machine

/-- A request at the front of a session's buffer whose turn in a pass is still to come is taken in hand before that pass
ends, within a number of steps that the sessions bound, whatever the other peers do. -/
theorem request_served (options : CoordinatorOptions) (runtime : Runtime) (directory : Directory) (before : List Action)
    {m : Machine} (hm : (Coordinator.start options runtime directory).run before = m) {index : Nat} {frame : Frame}
    (hwaits : m.Waits index frame) {actions : List Action}
    (htakes : ∀ n a, actions[n]? = some a → Machine.Takes index (m.run (actions.take n)) a)
    (hlong : m.coordinator.sessions.length * sessionSteps + 1 < actions.countP Action.isProceed) :
    ∃ n ≤ actions.length, (m.run (actions.take n)).InHand index frame ∧
      ∀ k < n, (m.run (actions.take k)).control.passing = true := by
  have hi : m.Inv := hm ▸ Machine.inv_run before (Machine.inv_start options runtime directory)
  obtain ⟨n, hn, hinhand, huntil⟩ :=
    (Machine.turn_lowers index frame).reaches ⟨hi, hwaits⟩ htakes ((Machine.stepsLeft_le hi).trans_lt hlong)
  exact ⟨n, hn, hinhand, fun k hk => (huntil k hk).2.passing⟩

/-- A coordinator that has received the request and is about to serve it. -/
def strangeWaiting : Machine :=
  (Coordinator.start { maxSessions := 1 } idleRuntime (.fresh [])).run (List.replicate 8 (.proceed strangeOutside))

theorem request_served_strange : ∃ n, (strangeWaiting.run
    ((List.replicate (sessionSteps + 2) (.proceed strangeOutside)).take n)).InHand 0 strangeRequest.frame := by
  have hrun : strangeWaiting.control = .pumping 0 (.serving 0) ∧ strangeWaiting.coordinator.sessions.length = 1 ∧
      (strangeWaiting.session 0).map (fun s => (s.used, s.pendingOutput, s.inbound)) =
        some (true, false, strangeRequest.bytes) := by
    decide +kernel
  obtain ⟨hcontrol, hsessions, hsession⟩ := hrun
  obtain ⟨s, hs, hfields⟩ := Option.map_eq_some_iff.1 hsession
  obtain ⟨hused, hrest⟩ := Prod.mk.inj hfields
  obtain ⟨hsent, hinbound⟩ := Prod.mk.inj hrest
  have hdecode := strangeRequest.decodeFrame_bytes (Nat.zero_le _) []
  rw [List.append_nil, ← hinbound] at hdecode
  have hwaits : strangeWaiting.Waits 0 strangeRequest.frame :=
    ⟨s, hs, hused, ⟨_, hdecode⟩, by rw [hcontrol]; exact .inr ⟨rfl, .inr ⟨rfl, hsent⟩⟩⟩
  obtain ⟨n, -, hinhand, -⟩ := @request_served { maxSessions := 1 } idleRuntime (.fresh [])
    (List.replicate 8 (.proceed strangeOutside)) _ rfl _ _ hwaits
    (List.replicate (sessionSteps + 2) (.proceed strangeOutside)) (by
      rintro n a ha os point rfl -
      obtain rfl : os = strangeOutside := Action.proceed.inj (List.eq_of_mem_replicate (List.mem_of_getElem? ha))
      exact ⟨1000, rfl⟩) (by
      rw [List.countP_replicate, Action.isProceed, if_pos rfl]
      exact (congrArg (· * sessionSteps + 1) hsessions).trans_lt (by rw [Nat.one_mul]; exact Nat.lt_succ_self _))
  exact ⟨n, hinhand⟩

end Wnc
