/-
The passes of a coordinator end, and so does its shutdown, whatever the operating system answers. What is left of a
pass is counted: the sessions that have not had their turn, the frames that the present one may still be served, what
its buffer may still take, and what it has still to send.
-/
import Wnc.Coordinator.Conversation
import Wnc.Lib.Progress

namespace Wnc

open Lib Wire

/-! ## What a session has still to do -/

namespace Session

/-- The number of bytes that are still to be sent. -/
def unsent (s : Session) : Nat := s.outbound.length - s.outOffset

theorem OneReply.length_le {s : Session} (h : s.OneReply) : s.outbound.length ≤ maxFrameBytes := by
  rcases h with hnone | ⟨type, requestId, body, hencode⟩
  · rw [hnone]
    exact Nat.zero_le _
  · have hbody : body.length ≤ maxFrameBytes - headerBytes := by
      by_contra hlong
      rw [encodeFrame, if_pos (not_le.1 hlong)] at hencode
      cases hencode
    rw [encodeFrame_eq _ _ _ hbody] at hencode
    have hheader : headerBytes ≤ maxFrameBytes := by decide
    rw [← Except.ok.inj hencode, List.nil_append, length_builtFrame]
    omega

theorem Bounded.unsent_le {s : Session} (h : s.Bounded) : s.unsent ≤ maxFrameBytes :=
  (Nat.sub_le _ _).trans h.outbound.length_le

/-- A round of a flush that goes on has sent a byte. -/
theorem unsent_of_flush {s t : Session} {os : Outside} (h : s.flush os = (t, false)) : t.unsent < s.unsent := by
  unfold Session.flush at h
  split at h
  · rename_i hpending
    split at h
    · rename_i more _
      cases h
      have hlen : s.outOffset < s.outbound.length := by simpa [pendingOutput] using hpending
      have hchunk : 0 < receiveChunkBytes := by decide
      show s.outbound.length - (s.outOffset + min (more + 1) (min (s.outbound.length - s.outOffset) receiveChunkBytes)) <
        s.outbound.length - s.outOffset
      omega
    · cases h
    · cases h
  · cases h

end Session

/-- The most bytes that the buffer of a session comes to hold. -/
def inboundBound : Nat := maxFrameBytes + receiveChunkBytes

/-- More steps than one frame takes, from the first byte that is received of it to the last that is sent for it. -/
def frameSteps : Nat := 5 * inboundBound + maxFrameBytes + 7

/-- More steps than the turn of one session takes. -/
def sessionSteps : Nat := framesPerPass * frameSteps + 5 * inboundBound + maxFrameBytes + 9

/-- The steps a pump takes at most from where it stands. What is received and what is served end in turn: the buffer
is tested before each receive, and a byte is received by each that goes on. -/
def Point.stepsLeft (s : Session) : Point → Nat
  | .entering => framesPerPass * frameSteps + 5 * inboundBound + 6 + s.unsent
  | .serving processed => (framesPerPass - processed) * frameSteps + 5 * (inboundBound - s.inbound.length) + 5
  | .handling processed _ => (framesPerPass - (processed + 1)) * frameSteps + 5 * inboundBound + maxFrameBytes + 7
  | .flushing processed => (framesPerPass - (processed + 1)) * frameSteps + 5 * inboundBound + 6 + s.unsent
  | .pausing processed => (framesPerPass - processed) * frameSteps + 5 * (inboundBound - s.inbound.length) + 4
  | .bounding processed => (framesPerPass - processed) * frameSteps + 5 * (inboundBound - s.inbound.length) + 3
  | .waiting processed => (framesPerPass - processed) * frameSteps + 5 * (inboundBound - s.inbound.length) + 2
  | .receiving processed => (framesPerPass - processed) * frameSteps + 5 * (inboundBound - s.inbound.length) + 1

/-- The frames that are left cost no more than all. -/
theorem frames_left_le (processed : Nat) : (framesPerPass - processed) * frameSteps ≤ framesPerPass * frameSteps :=
  Nat.mul_le_mul_right _ (Nat.sub_le _ _)

theorem Point.stepsLeft_lt {s : Session} (hs : s.Bounded) (point : Point) : point.stepsLeft s + 1 < sessionSteps := by
  have hunsent := hs.unsent_le
  have hroom : inboundBound - s.inbound.length ≤ inboundBound := Nat.sub_le _ _
  unfold sessionSteps
  cases point with
  | entering =>
    simp only [stepsLeft]
    omega
  | serving processed | handling processed frame | flushing processed | pausing processed | bounding processed
    | waiting processed | receiving processed =>
    have hleft := frames_left_le processed
    have hnext := frames_left_le (processed + 1)
    simp only [stepsLeft]
    omega

/-- Every step of a pump that goes on leaves fewer. -/
theorem Coordinator.pump_stepsLeft {os : Outside} {c c' : Coordinator} {s s' : Session} {point next : Point}
    (hs : s.Bounded) (hp : point.Holds s) (h : c.pump os s point = (c', s', some next)) :
    next.stepsLeft s' < point.stepsLeft s := by
  have hroom : inboundBound - s'.inbound.length ≤ inboundBound := Nat.sub_le _ _
  cases point with
  | entering =>
    unfold pump at h
    simp only at h
    split at h
    · rename_i t heq
      cases h
      have hsent := Session.unsent_of_flush heq
      simp only [Point.stepsLeft]
      omega
    · split at h
      · cases h
      · split at h
        · cases h
        · cases h
          have hleft := frames_left_le 0
          simp only [Point.stepsLeft]
          omega
  | serving processed =>
    unfold pump at h
    simp only at h
    split at h
    · rename_i hmore
      have hbudget : processed < framesPerPass := by simpa using (Bool.and_eq_true_iff.1 hmore).1
      split at h
      · cases h
        simp only [Point.stepsLeft]
        omega
      · split at h
        · split at h
          · cases h
            simp only [Point.stepsLeft]
            omega
          · cases h
        · cases h
          -- one frame less is left, and pays for what its reply takes
          have hleft : (framesPerPass - processed) * frameSteps =
              (framesPerPass - (processed + 1)) * frameSteps + frameSteps := by
            rw [← Nat.succ_mul, Nat.succ_eq_add_one, Nat.sub_add_eq, Nat.sub_add_cancel (Nat.sub_pos_of_lt hbudget)]
          have hcost : frameSteps = 5 * inboundBound + maxFrameBytes + 7 := rfl
          simp only [Point.stepsLeft, hleft]
          omega
    · cases h
      simp only [Point.stepsLeft]
      omega
  | handling processed frame =>
    have hbounded := (handleFrame_answers os.around c s frame).replied.bounded hs hp
    unfold pump at h
    simp only at h
    split at h
    · cases h
    · cases h
      have hunsent := hbounded.unsent_le
      simp only [Point.stepsLeft]
      omega
  | flushing processed =>
    unfold pump at h
    simp only at h
    split at h
    · rename_i t heq
      cases h
      have hsent := Session.unsent_of_flush heq
      simp only [Point.stepsLeft]
      omega
    · split at h
      · cases h
      · cases h
        simp only [Point.stepsLeft]
        omega
  | pausing processed =>
    unfold pump at h
    simp only at h
    split at h
    · cases h
    · split at h
      · cases h
      · cases h
        simp only [Point.stepsLeft]
        omega
  | bounding processed =>
    unfold pump at h
    simp only at h
    split at h
    · cases h
    · cases h
      simp only [Point.stepsLeft]
      omega
  | waiting processed =>
    unfold pump at h
    simp only at h
    split at h
    · cases h
      simp only [Point.stepsLeft]
      omega
    · cases h
    · cases h
  | receiving processed =>
    unfold pump at h
    simp only at h
    split at h
    · rename_i chunk _
      cases h
      have hlen : s.inbound.length < inboundBound := lt_of_lt_of_le hp.2 (Nat.le_add_right _ _)
      have hchunk : 0 < chunk.bytes.length := List.length_pos_iff.2 chunk.nonempty
      simp only [Point.stepsLeft, List.length_append]
      omega
    · cases h
    all_goals cases h

/-! ## Passes -/

/-- Whether a pass is being made. -/
def Control.passing : Control → Bool
  | .visiting _ | .pumping _ _ => true
  | _ => false

/-- Whether the machine goes on with what it is at. -/
def Action.isProceed : Action → Bool
  | .proceed _ => true
  | _ => false

/-- A step of the shutdown finds its deadline passed. -/
def Action.Late (deadline : UInt64) : Action → Prop
  | .proceed os => deadline ≤ os.now
  | _ => True

namespace Machine

/-- The steps that are left of a pass at most. -/
def stepsLeft (m : Machine) : Nat :=
  match m.control with
  | .visiting index => (m.coordinator.sessions.length - index) * sessionSteps
  | .pumping index point =>
    (m.coordinator.sessions.length - (index + 1)) * sessionSteps +
      ((m.coordinator.sessions[index]?.map point.stepsLeft).getD 0 + 1)
  | _ => 0

/-- The turn of a session costs what the count says. -/
theorem sessions_left {n index : Nat} (h : index < n) :
    (n - index) * sessionSteps = (n - (index + 1)) * sessionSteps + sessionSteps := by
  rw [← Nat.succ_mul, Nat.succ_eq_add_one, Nat.sub_add_eq, Nat.sub_add_cancel (Nat.sub_pos_of_lt h)]

theorem stepsLeft_le {m : Machine} (h : m.Inv) : m.stepsLeft ≤ m.coordinator.sessions.length * sessionSteps + 1 := by
  obtain ⟨c, control⟩ := m
  cases control with
  | visiting index => exact (Nat.mul_le_mul_right _ (Nat.sub_le _ _)).trans (Nat.le_succ _)
  | pumping index point =>
    show (c.sessions.length - (index + 1)) * sessionSteps + ((c.sessions[index]?.map point.stepsLeft).getD 0 + 1) ≤ _
    cases hs : c.sessions[index]? with
    | none =>
      have hall := Nat.mul_le_mul_right sessionSteps (Nat.sub_le c.sessions.length (index + 1))
      simp only [Option.map_none, Option.getD_none]
      omega
    | some s =>
      have hindex : index < c.sessions.length := (List.getElem?_eq_some_iff.1 hs).1
      have hcost := point.stepsLeft_lt (h.sessions s (List.mem_of_getElem? hs))
      have hall := Nat.mul_le_mul_right sessionSteps (Nat.sub_le c.sessions.length index)
      rw [sessions_left hindex] at hall
      simp only [Option.map_some, Option.getD_some]
      omega
  | idle | draining _ _ | drainFlushing _ _ => exact Nat.zero_le _

/-- A step of a pass leaves fewer, or ends it. -/
theorem proceed_stepsLeft {m : Machine} (os : Outside) (h : m.Inv) (hpassing : m.control.passing = true) :
    (m.proceed os).control = .idle ∨
      (m.proceed os).control.passing = true ∧ (m.proceed os).stepsLeft < m.stepsLeft := by
  obtain ⟨c, control⟩ := m
  have hget : ∀ {index : Nat} {s : Session}, c.sessions[index]? = some s → s.Bounded :=
    fun hs => h.sessions _ (List.mem_of_getElem? hs)
  cases control with
  | idle => cases hpassing
  | draining deadline index => cases hpassing
  | drainFlushing deadline index => cases hpassing
  | visiting index =>
    unfold proceed
    simp only
    split
    · exact .inl rfl
    · rename_i s hs
      have hindex : index < c.sessions.length := (List.getElem?_eq_some_iff.1 hs).1
      refine .inr ?_
      split
      · refine ⟨rfl, ?_⟩
        have hone : 0 < sessionSteps := by decide
        simp only [stepsLeft, sessions_left hindex]
        omega
      · refine ⟨rfl, ?_⟩
        have hcost := Point.stepsLeft_lt (s := { s with ready := false }) ⟨(hget hs).inbound, (hget hs).outbound⟩
          .entering
        have hset : (c.sessions.set index { s with ready := false })[index]? = some { s with ready := false } :=
          List.getElem?_set_self hindex
        simp only [stepsLeft, settle, List.length_set, hset, Option.map_some, Option.getD_some, sessions_left hindex]
        omega
  | pumping index point =>
    unfold proceed
    simp only
    split
    · refine .inr ⟨rfl, ?_⟩
      simp only [stepsLeft]
      omega
    · rename_i s hs
      have hindex : index < c.sessions.length := (List.getElem?_eq_some_iff.1 hs).1
      refine .inr ?_
      split
      · rename_i c' s' next hpump
        refine ⟨rfl, ?_⟩
        have hfewer := Coordinator.pump_stepsLeft (hget hs) (h.point index point rfl s hs) hpump
        have hsessions := Coordinator.pump_sessions hpump
        have hset : (c.sessions.set index s')[index]? = some s' := List.getElem?_set_self hindex
        simp only [stepsLeft, settle, hsessions, List.length_set, hset, hs, Option.map_some, Option.getD_some]
        omega
      · rename_i c' s' hpump
        refine ⟨rfl, ?_⟩
        have hsessions := Coordinator.pump_sessions hpump
        simp only [stepsLeft, settle, hsessions, List.length_set, hs, Option.map_some, Option.getD_some]
        omega

/-- What is left of a pass falls with every step of it. -/
theorem pass_lowers : Lowers step (fun m => m.Inv ∧ m.control.passing = true) (fun m => m.control = .idle)
    (fun _ _ => True) Action.isProceed stepsLeft where
  keeps := by
    rintro m a ⟨hi, hpassing⟩ - -
    have hi' := inv_step a hi
    cases a with
    | proceed os => exact (proceed_stepsLeft os hi hpassing).imp_right fun h => ⟨hi', h.1⟩
    | requestStop => exact .inr ⟨hi', hpassing⟩
    | stop os =>
      obtain ⟨c, control⟩ := m
      cases control with
      | visiting index | pumping index point => exact .inr ⟨hi', rfl⟩
      | idle | draining _ _ | drainFlushing _ _ => cases hpassing
  holds := by
    rintro m a ⟨hi, hpassing⟩ - -
    cases a with
    | proceed os => exact (proceed_stepsLeft os hi hpassing).imp_right fun h => h.2.le
    | requestStop => exact .inr le_rfl
    | stop os =>
      obtain ⟨c, control⟩ := m
      cases control with
      | visiting index | pumping index point => exact .inr le_rfl
      | idle | draining _ _ | drainFlushing _ _ => cases hpassing
  lowers := by
    rintro m a ⟨hi, hpassing⟩ - - hproceed
    cases a with
    | proceed os => exact (proceed_stepsLeft os hi hpassing).imp_right And.right
    | requestStop => cases hproceed
    | stop os => cases hproceed

/-! ## Shutdown -/

/-- Whether the shutdown is being made that has a deadline. -/
def Draining (deadline : UInt64) (m : Machine) : Prop :=
  ∃ index, m.control = .draining deadline index ∨ m.control = .drainFlushing deadline index

/-- A coordinator that has been stopped: it has no session and takes none. -/
structure Closed (m : Machine) : Prop where
  stopped : m.coordinator.stopped = true
  sessions : m.coordinator.sessions = []
  control : m.control.passing = false

/-- The steps that are left of a shutdown at most, once its deadline has passed. -/
def drainLeft (m : Machine) : Nat :=
  match m.control with
  | .draining _ index => m.coordinator.sessions.length - index
  | .drainFlushing _ index =>
    m.coordinator.sessions.length - index + ((m.coordinator.sessions[index]?.map Session.unsent).getD 0 + 1)
  | _ => 0

theorem drainLeft_le {m : Machine} (h : m.Inv) :
    m.drainLeft ≤ m.coordinator.sessions.length + maxFrameBytes + 1 := by
  obtain ⟨c, control⟩ := m
  cases control with
  | drainFlushing deadline index =>
    have hunsent : (c.sessions[index]?.map Session.unsent).getD 0 ≤ maxFrameBytes := by
      cases hs : c.sessions[index]? with
      | none => exact Nat.zero_le _
      | some s => exact (h.sessions s (List.mem_of_getElem? hs)).unsent_le
    simp only [drainLeft]
    omega
  | draining deadline index =>
    simp only [drainLeft]
    omega
  | idle | visiting _ | pumping _ _ => exact Nat.zero_le _

/-- A step of a shutdown whose deadline has passed leaves fewer, or ends it. -/
theorem proceed_drainLeft {m : Machine} {os : Outside} {deadline : UInt64} (h : m.Draining deadline)
    (hlate : deadline ≤ os.now) :
    (m.proceed os).Closed ∨ (m.proceed os).Draining deadline ∧ (m.proceed os).drainLeft < m.drainLeft := by
  obtain ⟨c, control⟩ := m
  obtain ⟨index, hcontrol | hcontrol⟩ := h
  · cases hcontrol
    have hpassed : ¬os.now < deadline := UInt64.not_lt.2 hlate
    unfold proceed
    simp only
    split
    · exact .inl ⟨rfl, rfl, rfl⟩
    · rename_i s hs
      have hindex : index < c.sessions.length := (List.getElem?_eq_some_iff.1 hs).1
      refine .inr ?_
      split
      · refine ⟨⟨_, .inl rfl⟩, ?_⟩
        simp only [drainLeft]
        omega
      · rw [decide_eq_false hpassed, Bool.and_false, if_neg Bool.false_ne_true]
        refine ⟨⟨_, .inl rfl⟩, ?_⟩
        simp only [drainLeft, settle, List.length_set]
        omega
  · cases hcontrol
    unfold proceed
    simp only
    split
    · refine .inr ⟨⟨_, .inl rfl⟩, ?_⟩
      simp only [drainLeft]
      omega
    · rename_i s hs
      have hindex : index < c.sessions.length := (List.getElem?_eq_some_iff.1 hs).1
      refine .inr ?_
      split
      · rename_i t heq
        have hsent := Session.unsent_of_flush heq
        have hset : (c.sessions.set index t)[index]? = some t := List.getElem?_set_self hindex
        refine ⟨⟨_, .inr rfl⟩, ?_⟩
        simp only [drainLeft, settle, List.length_set, hset, hs, Option.map_some, Option.getD_some]
        omega
      · refine ⟨⟨_, .inl rfl⟩, ?_⟩
        simp only [drainLeft, settle, List.length_set]
        omega

/-- What is left of a shutdown falls with every step of it behind its deadline. -/
theorem drain_lowers (deadline : UInt64) : Lowers step (Draining deadline) Closed
    (fun _ => Action.Late deadline) Action.isProceed drainLeft where
  keeps := by
    rintro m a hdraining - hlate
    cases a with
    | proceed os => exact (proceed_drainLeft hdraining hlate).imp_right And.left
    | requestStop => exact .inr hdraining
    | stop os =>
      obtain ⟨c, control⟩ := m
      obtain ⟨index, hcontrol | hcontrol⟩ := hdraining
      all_goals
        cases hcontrol
        exact .inr ⟨index, by simp [step]⟩
  holds := by
    rintro m a hdraining - hlate
    cases a with
    | proceed os => exact (proceed_drainLeft hdraining hlate).imp_right fun h => h.2.le
    | requestStop => exact .inr le_rfl
    | stop os =>
      obtain ⟨c, control⟩ := m
      obtain ⟨index, hcontrol | hcontrol⟩ := hdraining
      all_goals
        cases hcontrol
        exact .inr le_rfl
  lowers := by
    rintro m a hdraining - hlate hproceed
    cases a with
    | proceed os => exact (proceed_drainLeft hdraining hlate).imp_right And.right
    | requestStop => cases hproceed
    | stop os => cases hproceed

/-- Nothing that happens to a closed coordinator gives it a session. -/
theorem Closed.step {m : Machine} (h : m.Closed) (a : Action) : (m.step a).Closed := by
  obtain ⟨c, control⟩ := m
  obtain ⟨hstopped, hsessions, hcontrol⟩ := h
  have hstopped : c.stopped = true := hstopped
  have hsessions : c.sessions = [] := hsessions
  have hnone : ∀ index : Nat, c.sessions[index]? = none := fun index => by rw [hsessions]; rfl
  cases a with
  | requestStop => exact ⟨hstopped, hsessions, hcontrol⟩
  | stop os =>
    cases control with
    | idle => exact ⟨hstopped, hsessions, rfl⟩
    | draining _ _ | drainFlushing _ _ => exact ⟨hstopped, hsessions, rfl⟩
    | visiting _ | pumping _ _ => cases hcontrol
  | proceed os =>
    cases control with
    | idle =>
      have hstop : c.stopped = true := hstopped
      have hstays : Machine.step ⟨c, .idle⟩ (.proceed os) = ⟨c, .idle⟩ := by
        simp only [Machine.step, proceed, hstop, Bool.or_true, if_true]
      rw [hstays]
      exact ⟨hstopped, hsessions, rfl⟩
    | draining deadline index =>
      simp only [Machine.step, proceed, hnone]
      exact ⟨rfl, rfl, rfl⟩
    | drainFlushing deadline index =>
      simp only [Machine.step, proceed, hnone]
      exact ⟨hstopped, hsessions, rfl⟩
    | visiting _ | pumping _ _ => cases hcontrol

theorem Closed.run {m : Machine} (h : m.Closed) (actions : List Action) : (m.run actions).Closed := by
  induction actions generalizing m with
  | nil => exact h
  | cons a actions ih => exact ih (h.step a)

end Machine

section Ends

variable (options : CoordinatorOptions) (runtime : Runtime) (directory : Directory) (before : List Action)

/-- A pass ends from wherever it stands in any run, whatever is received in it and whatever the operating system
answers, within a number of steps that its sessions bound. -/
theorem pass_ends {m : Machine} (hm : (Coordinator.start options runtime directory).run before = m)
    (hpassing : m.control.passing = true) {actions : List Action}
    (hlong : m.coordinator.sessions.length * sessionSteps + 1 < actions.countP Action.isProceed) :
    ∃ n ≤ actions.length, (m.run (actions.take n)).control = .idle := by
  have hi : m.Inv := hm ▸ Machine.inv_run before (Machine.inv_start options runtime directory)
  obtain ⟨n, hn, hidle, -⟩ :=
    Machine.pass_lowers.reaches ⟨hi, hpassing⟩ (fun _ _ _ => trivial) ((Machine.stepsLeft_le hi).trans_lt hlong)
  exact ⟨n, hn, hidle⟩

/-- A pass over one session, on whose connection more of the same request always waits. -/
theorem pass_ends_strange : ∃ n, ((Coordinator.start { maxSessions := 1 } idleRuntime (.fresh [])).run
    (.proceed strangeOutside :: (List.replicate (sessionSteps + 2) (.proceed strangeOutside)).take n)).control = .idle := by
  obtain ⟨n, -, hidle⟩ := @pass_ends { maxSessions := 1 } idleRuntime (.fresh []) [.proceed strangeOutside] _ rfl rfl
    (List.replicate (sessionSteps + 2) (.proceed strangeOutside)) (by
      rw [List.countP_replicate, Action.isProceed, if_pos rfl, show List.length _ = 1 from rfl, Nat.one_mul]
      exact Nat.lt_succ_self _)
  exact ⟨n, hidle⟩

/-- A shutdown ends from wherever it stands once its deadline has passed, whatever the peers do, and leaves a coordinator
that has no session and never takes one again. -/
theorem shutdown_ends {m : Machine} (hm : (Coordinator.start options runtime directory).run before = m)
    {deadline : UInt64} (hdraining : m.Draining deadline) {actions : List Action}
    (hlate : ∀ a ∈ actions, a.Late deadline)
    (hlong : m.coordinator.sessions.length + maxFrameBytes + 1 < actions.countP Action.isProceed) :
    ∃ n ≤ actions.length, ∀ more, ((m.run (actions.take n)).run more).Closed := by
  have hi : m.Inv := hm ▸ Machine.inv_run before (Machine.inv_start options runtime directory)
  obtain ⟨n, hn, hclosed, -⟩ := (Machine.drain_lowers deadline).reaches hdraining
    (fun n a ha => hlate a (List.mem_of_getElem? ha)) ((Machine.drainLeft_le hi).trans_lt hlong)
  exact ⟨n, hn, fun more => hclosed.run more⟩

/-- What is met outside when the time of a shutdown that starts at zero is over. -/
def lateOutside : Outside := { strangeOutside with now := sessionDrainMillis }

theorem shutdown_ends_late : ∃ n, ((Coordinator.start { maxSessions := 1 } idleRuntime (.fresh [])).run
    (.stop strangeOutside :: (List.replicate (maxFrameBytes + 3) (.proceed lateOutside)).take n)).Closed := by
  obtain ⟨n, -, hclosed⟩ := @shutdown_ends { maxSessions := 1 } idleRuntime (.fresh []) [.stop strangeOutside] _ rfl
    sessionDrainMillis ⟨0, .inl rfl⟩ (List.replicate (maxFrameBytes + 3) (.proceed lateOutside))
    (fun a ha => by rw [List.eq_of_mem_replicate ha]; exact UInt64.le_refl _) (by
      rw [List.countP_replicate, Action.isProceed, if_pos rfl, show List.length _ = 1 from rfl]
      omega)
  exact ⟨n, hclosed []⟩

end Ends

end Wnc
