/-
The buffers of a session are bounded in every state of every run. Behind the frames of its buffer a session holds less
than one more frame, and a reply is sent before the next frame is handled.
-/
import Wnc.Coordinator.Passes

namespace Wnc

open Lib Wire

/-- A buffer that the reader finds a frame truncated in holds less than a frame. -/
theorem Wire.length_of_truncated {bytes : Bytes} {f : Failure} (h : decodeFrame bytes = .error f)
    (hcode : f.code = .truncatedFrame) : bytes.length < maxFrameBytes := by
  have hshort := decodeFrame_truncated_iff.1 ⟨f, h, hcode⟩
  by_contra hlong
  rw [not_lt] at hlong
  have hheader : headerBytes ≤ maxFrameBytes := by decide
  refine hshort ⟨hheader.trans hlong, fun haccepted => ?_⟩
  have hbound := haccepted.bound
  omega

/-! ## One session -/

namespace Session

/-- No more is to be sent than one whole frame. -/
def OneReply (s : Session) : Prop :=
  s.outbound = [] ∨ ∃ type requestId body, encodeFrame type requestId body [] = .ok s.outbound

/-- The bounds of a session: a frame and one receive, and one reply. -/
structure Bounded (s : Session) : Prop where
  inbound : s.inbound.length ≤ maxFrameBytes + receiveChunkBytes
  outbound : s.OneReply

/-- All replies are sent. -/
structure Cleared (s : Session) : Prop where
  outbound : s.outbound = []
  outOffset : s.outOffset = 0

theorem bounded_empty : ({} : Session).Bounded := ⟨Nat.zero_le _, .inl rfl⟩

theorem bounded_accept (now : UInt64) : (accept now).Bounded := ⟨Nat.zero_le _, .inl rfl⟩

theorem Bounded.drop {s : Session} (_ : s.Bounded) : s.drop.Bounded := bounded_empty

theorem Bounded.flush {s : Session} (hs : s.Bounded) (os : Outside) : (s.flush os).1.Bounded := by
  unfold Session.flush
  split
  · split
    · exact ⟨hs.inbound, hs.outbound⟩
    · exact ⟨hs.inbound, hs.outbound⟩
    · exact bounded_empty
  · exact ⟨hs.inbound, .inl rfl⟩

/-- Where a flush ends, all is sent, or some is still to be sent, or the session is over. -/
theorem cleared_of_flush {s t : Session} {os : Outside} (h : s.flush os = (t, true)) :
    t.pendingOutput = true ∨ t.Cleared := by
  unfold Session.flush at h
  split at h
  · rename_i hpending
    split at h
    · cases h
    · cases h
      exact .inl hpending
    · cases h
      exact .inr ⟨rfl, rfl⟩
  · cases h
    exact .inr ⟨rfl, rfl⟩

/-- On a session whose replies are sent, a handler queues the only one. -/
theorem Replied.bounded {s t : Session} {requestId : UInt64} (h : s.Replied requestId t) (hs : s.Bounded)
    (hc : s.Cleared) : t.Bounded := by
  cases h with
  | ended => exact bounded_empty
  | queued hencode =>
    refine ⟨hs.inbound, .inr ⟨_, _, _, hencode.trans ?_⟩⟩
    rw [hc.outbound]
    rfl

end Session

/-- What holds of a session where its pump stands. -/
def Point.Holds (s : Session) : Point → Prop
  | .entering | .flushing _ => True
  | .serving _ => s.pendingOutput = true ∨ s.Cleared
  | .handling _ _ => s.Cleared
  | .pausing processed =>
    s.pendingOutput = true ∨ framesPerPass ≤ processed ∨ s.Cleared ∧ s.inbound.length < maxFrameBytes
  | .bounding _ | .waiting _ | .receiving _ => s.Cleared ∧ s.inbound.length < maxFrameBytes

/-- A step of the pump keeps the bounds, and comes to a point where what holds there does. -/
theorem Coordinator.pump_bounded {os : Outside} {c c' : Coordinator} {s s' : Session} {point : Point}
    {next : Option Point} (hs : s.Bounded) (hp : point.Holds s) (h : c.pump os s point = (c', s', next)) :
    s'.Bounded ∧ ∀ p ∈ next, p.Holds s' := by
  cases point with
  | entering =>
    have hflush := hs.flush os
    unfold pump at h
    simp only at h
    split at h
    · rename_i t heq
      cases h
      rw [heq] at hflush
      exact ⟨hflush, fun p hp => by cases hp; trivial⟩
    · rename_i t heq
      rw [heq] at hflush
      split at h
      · cases h
        exact ⟨hflush, fun p hp => by cases hp⟩
      · split at h
        · cases h
          exact ⟨⟨hflush.inbound, hflush.outbound⟩, fun p hp => by cases hp⟩
        · cases h
          exact ⟨hflush, fun p hp => by cases hp; exact Session.cleared_of_flush heq⟩
  | serving processed =>
    unfold pump at h
    simp only at h
    split at h
    · rename_i hmore
      obtain ⟨-, hsent⟩ := Bool.and_eq_true_iff.1 hmore
      -- nothing is queued, so the buffer is looked at with all replies sent
      have hc : s.Cleared := hp.resolve_left (by simpa using hsent)
      split at h
      · rename_i hheader
        cases h
        exact ⟨hs, fun p hp => by cases hp; exact .inr (.inr ⟨hc, lt_trans hheader (by decide)⟩)⟩
      · split at h
        · rename_i f hdecode
          split at h
          · rename_i hcode
            cases h
            exact ⟨hs, fun p hp => by cases hp; exact .inr (.inr ⟨hc, length_of_truncated hdecode hcode⟩)⟩
          · cases h
            exact ⟨hs.drop, fun p hp => by cases hp⟩
        · cases h
          refine ⟨⟨?_, hs.outbound⟩, fun p hp => by cases hp; exact ⟨hc.outbound, hc.outOffset⟩⟩
          rw [List.length_drop]
          exact (Nat.sub_le _ _).trans hs.inbound
    · rename_i hdone
      cases h
      refine ⟨hs, fun p hp => ?_⟩
      cases hp
      rcases hp with hpending | hc
      · exact .inl hpending
      · have hsent : s.pendingOutput = false := by simp [Session.pendingOutput, hc.outbound]
        exact .inr (.inl (by simpa [hsent] using hdone))
  | handling processed frame =>
    have hreplied := (handleFrame_answers os.around c s frame).replied.bounded hs hp
    unfold pump at h
    simp only at h
    split at h
    · cases h
      exact ⟨hreplied, fun p hp => by cases hp⟩
    · cases h
      exact ⟨hreplied, fun p hp => by cases hp; trivial⟩
  | flushing processed =>
    have hflush := hs.flush os
    unfold pump at h
    simp only at h
    split at h
    · rename_i t heq
      cases h
      rw [heq] at hflush
      exact ⟨hflush, fun p hp => by cases hp; trivial⟩
    · rename_i t heq
      rw [heq] at hflush
      split at h
      · cases h
        exact ⟨hflush, fun p hp => by cases hp⟩
      · cases h
        exact ⟨hflush, fun p hp => by cases hp; exact Session.cleared_of_flush heq⟩
  | pausing processed =>
    unfold pump at h
    simp only at h
    split at h
    · cases h
      exact ⟨⟨hs.inbound, hs.outbound⟩, fun p hp => by cases hp⟩
    · rename_i hsent
      split at h
      · cases h
        exact ⟨⟨hs.inbound, hs.outbound⟩, fun p hp => by cases hp⟩
      · rename_i hbudget
        cases h
        exact ⟨hs, fun p hnext => by cases hnext; exact (hp.resolve_left hsent).resolve_left hbudget⟩
  | bounding processed =>
    unfold pump at h
    simp only at h
    split at h
    · cases h
      exact ⟨hs.drop, fun p hp => by cases hp⟩
    · cases h
      exact ⟨hs, fun p hnext => by cases hnext; exact hp⟩
  | waiting processed =>
    unfold pump at h
    simp only at h
    split at h
    · cases h
      exact ⟨hs, fun p hnext => by cases hnext; exact hp⟩
    · cases h
      exact ⟨hs, fun p hp => by cases hp⟩
    · cases h
      exact ⟨hs.drop, fun p hp => by cases hp⟩
  | receiving processed =>
    unfold pump at h
    simp only at h
    split at h
    · rename_i chunk _
      cases h
      refine ⟨⟨?_, hs.outbound⟩, fun p hnext => by cases hnext; exact .inr ⟨hp.1.outbound, hp.1.outOffset⟩⟩
      rw [List.length_append]
      exact Nat.add_le_add hp.2.le chunk.length_le
    · cases h
      exact ⟨hs, fun p hp => by cases hp⟩
    all_goals
      cases h
      exact ⟨hs.drop, fun p hp => by cases hp⟩

/-- The pump of a session leaves the others alone. -/
theorem Coordinator.pump_sessions {os : Outside} {c c' : Coordinator} {s s' : Session} {point : Point}
    {next : Option Point} (h : c.pump os s point = (c', s', next)) : c'.sessions = c.sessions := by
  cases point with
  | handling processed frame =>
    have hsessions := (handleFrame_answers os.around c s frame).sessions
    unfold pump at h
    simp only at h
    split at h
    · cases h
      exact hsessions
    · cases h
      exact hsessions
  | _ =>
    unfold pump at h
    simp only at h
    repeat' split at h
    all_goals
      cases h
      rfl

/-! ## All sessions -/

/-- What holds in every state of a run. -/
structure Machine.Inv (m : Machine) : Prop where
  sessions : ∀ s ∈ m.coordinator.sessions, s.Bounded
  point : ∀ index point, m.control = .pumping index point →
    ∀ s, m.coordinator.sessions[index]? = some s → point.Holds s

namespace Machine

theorem inv_start (options : CoordinatorOptions) (runtime : Runtime) (directory : Directory) :
    (Coordinator.start options runtime directory).Inv := by
  refine ⟨fun s hs => ?_, fun index point h => by cases h⟩
  rw [List.eq_of_mem_replicate hs]
  exact Session.bounded_empty

/-- Where no session is pumped there is nothing to hold but the bounds. -/
theorem inv_of_bounded {c : Coordinator} {control : Control} (hs : ∀ s ∈ c.sessions, s.Bounded)
    (hcontrol : ∀ index point, control ≠ .pumping index point) : Inv ⟨c, control⟩ :=
  ⟨hs, fun index point h => absurd h (hcontrol index point)⟩

theorem bounded_set {sessions : List Session} {index : Nat} {s : Session} (h : ∀ t ∈ sessions, t.Bounded)
    (hs : s.Bounded) : ∀ t ∈ sessions.set index s, t.Bounded := by
  intro t ht
  rcases List.mem_or_eq_of_mem_set ht with ht | rfl
  · exact h t ht
  · exact hs

theorem bounded_acceptPending {c : Coordinator} (os : Outside) (h : ∀ s ∈ c.sessions, s.Bounded) :
    ∀ s ∈ (c.acceptPending os).sessions, s.Bounded := by
  unfold Coordinator.acceptPending
  split
  · exact h
  · split
    · exact h
    · split
      · exact h
      · unfold Coordinator.acceptSession
        split
        · exact bounded_set h (Session.bounded_accept _)
        · split
          · exact h
          · intro s hs
            rcases List.mem_append.1 hs with hs | hs
            · exact h s hs
            · rw [List.mem_singleton.1 hs]
              exact Session.bounded_accept _

theorem bounded_reapIdle {c : Coordinator} (now : UInt64) (h : ∀ s ∈ c.sessions, s.Bounded) :
    ∀ s ∈ (c.reapIdle now).sessions, s.Bounded := by
  unfold Coordinator.reapIdle
  split
  · exact h
  · intro t ht
    obtain ⟨s, hs, rfl⟩ := List.mem_map.1 ht
    split
    · exact (h s hs).drop
    · exact h s hs

/-- A session that has changed within its bounds, where no session is pumped next. -/
theorem inv_settle {c : Coordinator} {index : Nat} {s : Session} {control : Control}
    (h : ∀ t ∈ c.sessions, t.Bounded) (hs : s.Bounded)
    (hcontrol : ∀ index point, control ≠ .pumping index point) : (settle c index s control).Inv :=
  inv_of_bounded (bounded_set h hs) hcontrol

theorem inv_settle_pumping {c : Coordinator} {index : Nat} {s : Session} {point : Point}
    (h : ∀ t ∈ c.sessions, t.Bounded) (hs : s.Bounded) (hp : point.Holds s) :
    (settle c index s (.pumping index point)).Inv := by
  refine ⟨bounded_set h hs, fun index' point' hcontrol t ht => ?_⟩
  cases hcontrol
  have ht : (c.sessions.set index s)[index]? = some t := ht
  rw [List.getElem?_set_self'] at ht
  obtain ⟨-, -, rfl⟩ := Option.map_eq_some_iff.1 ht
  exact hp

theorem inv_proceed {m : Machine} (os : Outside) (h : m.Inv) : (m.proceed os).Inv := by
  obtain ⟨c, control⟩ := m
  have hsessions : ∀ s ∈ c.sessions, s.Bounded := h.sessions
  have hget : ∀ {index : Nat} {s : Session}, c.sessions[index]? = some s → s.Bounded :=
    fun hs => hsessions _ (List.mem_of_getElem? hs)
  cases control with
  | idle =>
    unfold proceed
    simp only
    split
    · exact h
    · exact inv_of_bounded (bounded_acceptPending os hsessions) (by rintro _ _ ⟨⟩)
  | visiting index =>
    unfold proceed
    simp only
    split
    · exact inv_of_bounded (bounded_reapIdle _ hsessions) (by rintro _ _ ⟨⟩)
    · rename_i s hs
      split
      · exact inv_of_bounded hsessions (by rintro _ _ ⟨⟩)
      · exact inv_settle_pumping hsessions ⟨(hget hs).inbound, (hget hs).outbound⟩ trivial
  | pumping index point =>
    unfold proceed
    simp only
    split
    · exact inv_of_bounded hsessions (by rintro _ _ ⟨⟩)
    · rename_i s hs
      split
      · rename_i c' s' next hpump
        obtain ⟨hbounded, hnext⟩ := Coordinator.pump_bounded (hget hs) (h.point index point rfl s hs) hpump
        exact inv_settle_pumping (Coordinator.pump_sessions hpump ▸ hsessions) hbounded (hnext next rfl)
      · rename_i c' s' hpump
        have hbounded := (Coordinator.pump_bounded (hget hs) (h.point index point rfl s hs) hpump).1
        exact inv_settle (Coordinator.pump_sessions hpump ▸ hsessions) hbounded (by rintro _ _ ⟨⟩)
  | draining deadline index =>
    unfold proceed
    simp only
    split
    · exact inv_of_bounded (by rintro _ ⟨⟩) (by rintro _ _ ⟨⟩)
    · rename_i s hs
      split
      · exact inv_of_bounded hsessions (by rintro _ _ ⟨⟩)
      · split
        · split
          · exact inv_of_bounded hsessions (by rintro _ _ ⟨⟩)
          · exact h
        · exact inv_settle hsessions (hget hs).drop (by rintro _ _ ⟨⟩)
  | drainFlushing deadline index =>
    unfold proceed
    simp only
    split
    · exact inv_of_bounded hsessions (by rintro _ _ ⟨⟩)
    · rename_i s hs
      have hflush := (hget hs).flush os
      split
      · rename_i t heq
        rw [heq] at hflush
        exact inv_settle hsessions hflush (by rintro _ _ ⟨⟩)
      · rename_i t heq
        rw [heq] at hflush
        exact inv_settle hsessions hflush (by rintro _ _ ⟨⟩)

theorem inv_step {m : Machine} (a : Action) (h : m.Inv) : (m.step a).Inv := by
  cases a with
  | proceed os => exact inv_proceed os h
  | requestStop => exact ⟨h.sessions, h.point⟩
  | stop os =>
    unfold step
    simp only
    split
    · exact inv_of_bounded h.sessions (by rintro _ _ ⟨⟩)
    · exact h

theorem inv_run {m : Machine} (actions : List Action) (h : m.Inv) : (m.run actions).Inv := by
  induction actions generalizing m with
  | nil => exact h
  | cons a actions ih => exact ih (inv_step a h)

/-- What the bounds on the buffers come to. The last says that the drop of a session whose buffer is over the bound is
not taken where it is tested for, whatever the peer has sent. -/
structure BuffersBounded (m : Machine) : Prop where
  inbound : ∀ s ∈ m.coordinator.sessions, s.inbound.length ≤ maxFrameBytes + receiveChunkBytes
  reply : ∀ s ∈ m.coordinator.sessions, s.OneReply
  handling : ∀ index processed frame s, m.control = .pumping index (.handling processed frame) →
    m.coordinator.sessions[index]? = some s → s.outbound = []
  within : ∀ index processed s, m.control = .pumping index (.bounding processed) →
    m.coordinator.sessions[index]? = some s → s.inbound.length ≤ maxFrameBytes

end Machine

/-- The buffers are bounded in every state of a coordinator: whatever is received, in whatever pieces, and however the
passes go. -/
theorem buffers_bounded (options : CoordinatorOptions) (runtime : Runtime) (directory : Directory)
    (actions : List Action) : ((Coordinator.start options runtime directory).run actions).BuffersBounded := by
  have h := Machine.inv_run actions (Machine.inv_start options runtime directory)
  refine ⟨fun s hs => (h.sessions s hs).inbound, fun s hs => (h.sessions s hs).outbound, ?_, ?_⟩
  · intro index processed frame s hcontrol hs
    exact (h.point index _ hcontrol s hs).outbound
  · intro index processed s hcontrol hs
    exact (h.point index _ hcontrol s hs).2.le

end Wnc
