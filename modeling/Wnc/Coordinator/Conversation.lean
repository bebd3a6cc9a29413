/-
The conversation on a connection. However its bytes are cut into pieces and however the passes go, the requests are
handled once each and in the order in which they were sent, each with one reply that carries its identifier.
-/
import Wnc.Coordinator.Buffers

namespace Wnc

open Lib Wire

/-! ## Frames taken from the front of a buffer -/

namespace Wire

/-- What the reader takes does not depend on what follows. -/
theorem decodeFrame_append {bytes : Bytes} {frame : Frame} {n : Nat} (h : decodeFrame bytes = .ok (frame, n))
    (rest : Bytes) : decodeFrame (bytes ++ rest) = .ok (frame, n) := by
  obtain ⟨haccepted, hn, hlen, hframe⟩ := decodeFrame_eq_ok_iff.1 h
  have hheader : headerBytes ≤ bytes.length := by omega
  have hlength : slice 12 4 (bytes ++ rest) = slice 12 4 bytes := slice_header _ _ hheader (by decide)
  refine decodeFrame_eq_ok_iff.2 ⟨(headerAccepted_append rest hheader).2 haccepted, by rw [hlength, hn], ?_, ?_⟩
  · rw [List.length_append]
    omega
  · rw [hframe, hlength, headerOf_append _ hheader, slice_append_left rest (by omega)]

/-- Frames taken one after the other from the front of some bytes, and what is left of these. -/
inductive Taken : Bytes → List Frame → Bytes → Prop
  | nil (bytes : Bytes) : Taken bytes [] bytes
  | cons {bytes : Bytes} {frame : Frame} {n : Nat} {frames : List Frame} {rest : Bytes}
      (decoded : decodeFrame bytes = .ok (frame, n)) (taken : Taken (bytes.drop n) frames rest) :
      Taken bytes (frame :: frames) rest

theorem length_of_decodeFrame {bytes : Bytes} {frame : Frame} {n : Nat} (h : decodeFrame bytes = .ok (frame, n)) :
    n ≤ bytes.length := (decodeFrame_eq_ok_iff.1 h).2.2.1

theorem Taken.append {bytes rest : Bytes} {frames : List Frame} (h : Taken bytes frames rest) (more : Bytes) :
    Taken (bytes ++ more) frames (rest ++ more) := by
  induction h with
  | nil bytes => exact .nil _
  | cons hdecoded _ ih =>
    refine .cons (decodeFrame_append hdecoded more) ?_
    rwa [List.drop_append_of_le_length (length_of_decodeFrame hdecoded)]

theorem Taken.snoc {bytes rest : Bytes} {frames : List Frame} (h : Taken bytes frames rest) {frame : Frame} {n : Nat}
    (hdecoded : decodeFrame rest = .ok (frame, n)) : Taken bytes (frames ++ [frame]) (rest.drop n) := by
  induction h with
  | nil bytes => exact .cons hdecoded (.nil _)
  | cons hfirst _ ih => exact .cons hfirst (ih hdecoded)

end Wire

/-! ## Requests as they are sent -/

/-- What a client sends in one frame. -/
structure Request where
  type : MessageType
  requestId : UInt64
  body : Bytes

namespace Request

/-- The frame that is received for a request. -/
def frame (r : Request) : Frame := frameOf r.type r.requestId r.body

def bytes (r : Request) : Bytes := builtFrame r.type r.requestId r.body

/-- The frames of some requests, one after the other. -/
def encodeAll : List Request → Bytes → Except Failure Bytes
  | [], out => .ok out
  | r :: rest, out => do
    let out ← encodeFrame r.type r.requestId r.body out
    encodeAll rest out

theorem encodeAll_ok {rs : List Request} {out bytes : Bytes} (h : encodeAll rs out = .ok bytes) :
    (∀ r ∈ rs, r.body.length ≤ maxFrameBytes - headerBytes) ∧ bytes = out ++ rs.flatMap Request.bytes := by
  induction rs generalizing out with
  | nil =>
    cases h
    exact ⟨fun r hr => absurd hr List.not_mem_nil, by simp⟩
  | cons r rs ih =>
    have hbody : r.body.length ≤ maxFrameBytes - headerBytes := by
      by_contra hlong
      rw [encodeAll, encodeFrame, if_pos (not_le.1 hlong)] at h
      cases h
    rw [encodeAll, encodeFrame_eq _ _ _ hbody] at h
    obtain ⟨hrs, rfl⟩ := ih h
    exact ⟨List.forall_mem_cons.2 ⟨hbody, hrs⟩, by rw [List.flatMap_cons, List.append_assoc]; rfl⟩

/-- Requests that fit into frames are framed one after the other. -/
theorem encodeAll_eq {rs : List Request} (h : ∀ r ∈ rs, r.body.length ≤ maxFrameBytes - headerBytes) (out : Bytes) :
    encodeAll rs out = .ok (out ++ rs.flatMap Request.bytes) := by
  induction rs generalizing out with
  | nil => rw [encodeAll, List.flatMap_nil, List.append_nil]
  | cons r rs ih =>
    rw [List.forall_mem_cons] at h
    rw [encodeAll, encodeFrame_eq _ _ _ h.1, List.flatMap_cons, ← List.append_assoc]
    exact ih h.2 _

theorem decodeFrame_bytes {r : Request} (h : r.body.length ≤ maxFrameBytes - headerBytes) (rest : Bytes) :
    decodeFrame (r.bytes ++ rest) = .ok (r.frame, r.bytes.length) := by
  rw [bytes, length_builtFrame]
  exact decodeFrame_builtFrame _ _ _ h rest

end Request

/-- The frames taken from what has arrived of some requests are those of the first of them, and what is left begins
what the others send. -/
theorem Wire.Taken.requests {bytes rest missing : Bytes} {frames : List Frame} (h : Taken bytes frames rest)
    {rs : List Request} (hrs : ∀ r ∈ rs, r.body.length ≤ maxFrameBytes - headerBytes)
    (hbytes : bytes ++ missing = rs.flatMap Request.bytes) :
    ∃ done todo, rs = done ++ todo ∧ frames = done.map Request.frame ∧ rest ++ missing = todo.flatMap Request.bytes := by
  induction h generalizing rs with
  | nil bytes => exact ⟨[], rs, rfl, rfl, hbytes⟩
  | @cons bytes frame n frames rest hdecoded _ ih =>
    have hall := decodeFrame_append hdecoded missing
    cases rs with
    | nil =>
      have hnil : bytes = [] := (List.append_eq_nil_iff.1 hbytes).1
      rw [hnil] at hdecoded
      cases hdecoded
    | cons r rs =>
      rw [List.forall_mem_cons] at hrs
      rw [hbytes, List.flatMap_cons, Request.decodeFrame_bytes hrs.1] at hall
      cases hall
      have hdrop : bytes.drop r.bytes.length ++ missing = rs.flatMap Request.bytes := by
        rw [← List.drop_append_of_le_length (length_of_decodeFrame hdecoded), hbytes, List.flatMap_cons, List.drop_left]
      obtain ⟨done, todo, rfl, rfl, hrest⟩ := ih hrs.2 hdrop
      exact ⟨r :: done, todo, rfl, rfl, hrest⟩

/-! ## What passes over a connection -/

/-- The frame a pump holds, which is no longer in the buffer. -/
def Point.inHand : Point → List Frame
  | .handling _ frame => [frame]
  | _ => []

/-- The bytes that are received in a step of a pump. -/
def Point.arriving (os : Outside) : Point → Bytes
  | .receiving _ =>
    match os.receive with
    | .data chunk => chunk.bytes
    | _ => []
  | _ => []

namespace Machine

/-- The session of a slot while it is in use. -/
def session (m : Machine) (index : Nat) : Option Session := m.coordinator.sessions[index]?.filter Session.used

/-- Where the pump of a slot stands, if it is the one that runs. -/
def point (m : Machine) (index : Nat) : Option Point :=
  match m.control with
  | .pumping i point => if i = index then some point else none
  | _ => none

end Machine

/-- What has passed over a connection since it was accepted. -/
structure Conversation where
  received : Bytes := []
  handled : List Frame := []
  /-- The replies, each as it was queued. -/
  queued : List Bytes := []
  sent : Bytes := []

namespace Conversation

/-- The conversation after a step of its session, in which some bytes arrive and some frames are handled. -/
def after (t : Conversation) (arriving : Bytes) (frames : List Frame) (s s' : Session) : Conversation where
  received := t.received ++ arriving
  handled := t.handled ++ frames
  queued := t.queued ++ frames.map fun _ => s'.outbound.drop s.outbound.length
  sent := t.sent ++ (s.outbound.take s'.outOffset).drop s.outOffset

/-- The conversation of a slot after a step of the machine. It is over when the slot is not in use. -/
def next (index : Nat) (m : Machine) (a : Action) (t : Conversation) : Conversation :=
  match m.session index, (m.step a).session index with
  | some s, some s' =>
    match m.point index, a with
    | some point, .proceed os => t.after (point.arriving os) point.inHand s s'
    | _, _ => t.after [] [] s s'
  | _, _ => {}

end Conversation

/-- A machine and the conversation of one of its slots. -/
structure Watched where
  machine : Machine
  conversation : Conversation := {}

namespace Watched

def step (index : Nat) (w : Watched) (a : Action) : Watched where
  machine := w.machine.step a
  conversation := w.conversation.next index w.machine a

def run (index : Nat) (w : Watched) (actions : List Action) : Watched := actions.foldl (step index) w

theorem run_machine (index : Nat) (w : Watched) (actions : List Action) :
    (w.run index actions).machine = w.machine.run actions := by
  induction actions generalizing w with
  | nil => rfl
  | cons a actions ih => exact ih (w.step index a)

end Watched

/-! ## What holds of a conversation -/

/-- Each frame has one reply, with the identifier of its request, in the order of the frames. -/
def Answered (frames : List Frame) (replies : List Bytes) : Prop :=
  List.Forall₂ (fun frame reply => ∃ type body, encodeFrame type frame.header.requestId body [] = .ok reply) frames
    replies

/-- What holds of a conversation and of its session, where its pump has some frames in hand. -/
structure Conversation.Holds (t : Conversation) (s : Session) (inHand : List Frame) : Prop where
  taken : Taken t.received (t.handled ++ inHand) s.inbound
  answered : Answered t.handled t.queued
  replies : t.sent ++ s.outbound.drop s.outOffset = t.queued.flatten
  offset : s.outOffset ≤ s.outbound.length

namespace Conversation

theorem holds_accept (now : UInt64) : Holds {} (.accept now) [] :=
  ⟨.nil _, .nil, rfl, Nat.le_refl _⟩

variable {t : Conversation} {s s' : Session} {inHand : List Frame}

/-- A step in which the buffers of the session stay as they are. -/
theorem Holds.quiet (h : t.Holds s inHand) (hin : s'.inbound = s.inbound) (hout : s'.outbound = s.outbound)
    (hoffset : s'.outOffset = s.outOffset) : (t.after [] [] s s').Holds s' inHand := by
  refine ⟨?_, ?_, ?_, ?_⟩
  · simpa [after, hin] using h.taken
  · simpa [after] using h.answered
  · simpa [after, hout, hoffset, List.drop_take] using h.replies
  · rw [hout, hoffset]
    exact h.offset

/-- What is sent goes from what is to be sent to what is sent. -/
theorem Holds.flush {os : Outside} {ended : Bool} (h : t.Holds s inHand) (hflush : s.flush os = (s', ended))
    (hused : s'.used = true) : (t.after [] [] s s').Holds s' inHand := by
  unfold Session.flush at hflush
  split at hflush
  · rename_i hpending
    have hlen : s.outOffset < s.outbound.length := by simpa [Session.pendingOutput] using hpending
    split at hflush
    · rename_i more _
      cases hflush
      refine ⟨?_, ?_, ?_, ?_⟩
      · simpa [after] using h.taken
      · simpa [after] using h.answered
      · have hsent : ∀ k, (s.outbound.take (s.outOffset + k)).drop s.outOffset ++ s.outbound.drop (s.outOffset + k) =
            s.outbound.drop s.outOffset := fun k => by
          rw [List.drop_take, Nat.add_sub_cancel_left, ← List.drop_drop, List.take_append_drop]
        simp only [after, List.map_nil, List.append_nil, List.append_assoc, hsent, h.replies]
      · show s.outOffset + min (more + 1) (min (s.outbound.length - s.outOffset) receiveChunkBytes) ≤ s.outbound.length
        omega
    · cases hflush
      exact h.quiet rfl rfl rfl
    · cases hflush
      cases hused
  · rename_i hpending
    have hlen : s.outbound.length ≤ s.outOffset := by simpa [Session.pendingOutput] using hpending
    cases hflush
    refine ⟨?_, ?_, ?_, Nat.le_refl _⟩
    · simpa [after] using h.taken
    · simpa [after] using h.answered
    · simpa [after, List.drop_eq_nil_of_le hlen] using h.replies

/-- The reply to the frame in hand is queued behind the others. -/
theorem Holds.reply {frame : Frame} (h : t.Holds s [frame]) (hreply : s.Replied frame.header.requestId s')
    (hused : s'.used = true) : (t.after [] [frame] s s').Holds s' [] := by
  cases hreply with
  | ended => cases hused
  | @queued type body encoded hencode =>
    have hnew : (s.outbound ++ encoded).drop s.outbound.length = encoded := List.drop_left
    refine ⟨?_, ?_, ?_, ?_⟩
    · simpa [after] using h.taken
    · refine List.rel_append h.answered (.cons ⟨type, body, ?_⟩ .nil)
      rw [hnew]
      exact hencode
    · simp only [after, List.map_cons, List.map_nil, hnew, List.flatten_append, List.flatten_cons, List.flatten_nil,
        List.append_nil, ← h.replies, List.drop_append_of_le_length h.offset, List.drop_take, Nat.sub_self,
        List.take_zero, List.append_assoc]
    · exact h.offset.trans (by simp)

theorem Holds.receive {more : Bytes} (h : t.Holds s inHand) (hin : s'.inbound = s.inbound ++ more)
    (hout : s'.outbound = s.outbound) (hoffset : s'.outOffset = s.outOffset) :
    (t.after more [] s s').Holds s' inHand := by
  refine ⟨?_, ?_, ?_, ?_⟩
  · simpa [after, hin] using h.taken.append more
  · simpa [after] using h.answered
  · simpa [after, hout, hoffset, List.drop_take] using h.replies
  · rw [hout, hoffset]
    exact h.offset

end Conversation

/-! ## One session -/

/-- What a pump has found in the buffer where it no longer serves frames: not enough for another, unless it stops for
other reasons. -/
def Point.Starved (s : Session) : Point → Prop
  | .pausing processed => s.pendingOutput = true ∨ framesPerPass ≤ processed ∨ ¬Enough s.inbound
  | .bounding _ | .waiting _ | .receiving _ => ¬Enough s.inbound
  | _ => True

/-- Where a pump returns with nothing left to be done, the buffer holds no whole frame. -/
def Session.Rests (s : Session) : Prop :=
  s.used = true → s.ready = false → s.pendingOutput = false → ¬Enough s.inbound

theorem Session.rests_drop (s : Session) : s.drop.Rests := fun h => by cases h

/-- What a step of a pump comes to: the conversation goes on with it, and so does what was found in the buffer. -/
structure Coordinator.Conversed (t : Conversation) (s' : Session) (next : Option Point) : Prop where
  holds : s'.used = true → t.Holds s' (next.elim [] Point.inHand)
  starved : ∀ p ∈ next, p.Starved s'
  rests : next = none → s'.Rests

namespace Coordinator

theorem Conversed.more {t : Conversation} {s' : Session} {p : Point} (h : s'.used = true → t.Holds s' p.inHand)
    (hp : p.Starved s') : Conversed t s' (some p) :=
  ⟨h, fun _ hq => Option.mem_some.1 hq ▸ hp, fun hnone => absurd hnone (Option.some_ne_none p)⟩

theorem Conversed.done {t : Conversation} {s' : Session} (h : s'.used = true → t.Holds s' []) (hrests : s'.Rests) :
    Conversed t s' none := ⟨h, fun p hp => absurd hp (Option.not_mem_none p), fun _ => hrests⟩

theorem conversed_drop (t : Conversation) (s : Session) : Conversed t s.drop none :=
  .done (fun h => by cases h) s.rests_drop

theorem pump_conversed {os : Outside} {c c' : Coordinator} {s s' : Session} {point : Point} {next : Option Point}
    {t : Conversation} (ht : t.Holds s point.inHand) (hs : point.Starved s) (h : c.pump os s point = (c', s', next)) :
    Conversed (t.after (point.arriving os) point.inHand s s') s' next := by
  cases point with
  | entering =>
    unfold pump at h
    simp only at h
    split at h
    · rename_i u heq
      cases h
      exact .more (ht.flush heq) trivial
    · rename_i u heq
      split at h
      · rename_i hended
        cases h
        exact .done (ht.flush heq) fun hused => by simp [hused] at hended
      · split at h
        · cases h
          refine .done (fun hused => ?_) fun _ hready => by cases hready
          have hu := ht.flush heq hused
          exact ⟨hu.taken, hu.answered, hu.replies, hu.offset⟩
        · cases h
          exact .more (ht.flush heq) trivial
  | serving processed =>
    unfold pump at h
    simp only at h
    split at h
    · split at h
      · rename_i hheader
        cases h
        exact .more (fun _ => ht.quiet rfl rfl rfl)
          (.inr (.inr fun henough => absurd henough.header (not_le.2 hheader)))
      · split at h
        · rename_i f hdecode
          split at h
          · rename_i hcode
            cases h
            exact .more (fun _ => ht.quiet rfl rfl rfl)
              (.inr (.inr (decodeFrame_truncated_iff.1 ⟨f, hdecode, hcode⟩)))
          · cases h
            exact conversed_drop _ _
        · rename_i frame consumed hdecode
          cases h
          refine .more (fun _ => ⟨?_, ?_, ?_, ht.offset⟩) trivial
          · simpa [Conversation.after, Point.inHand, Point.arriving] using ht.taken.snoc hdecode
          · simpa [Conversation.after, Point.inHand] using ht.answered
          · simpa [Conversation.after, Point.inHand, List.drop_take] using ht.replies
    · rename_i hdone
      cases h
      refine .more (fun _ => ht.quiet rfl rfl rfl) ?_
      rw [Bool.and_eq_true, not_and_or, decide_eq_true_eq, not_lt, Bool.not_eq_true', Bool.not_eq_false] at hdone
      exact hdone.elim (fun hbudget => .inr (.inl hbudget)) .inl
  | handling processed frame =>
    have hreply := (handleFrame_answers os.around c s frame).replied
    unfold pump at h
    simp only at h
    split at h
    · rename_i hended
      cases h
      exact .done (ht.reply hreply) fun hused => by simp [hused] at hended
    · cases h
      exact .more (ht.reply hreply) trivial
  | flushing processed =>
    unfold pump at h
    simp only at h
    split at h
    · rename_i u heq
      cases h
      exact .more (ht.flush heq) trivial
    · rename_i u heq
      split at h
      · rename_i hended
        cases h
        exact .done (ht.flush heq) fun hused => by simp [hused] at hended
      · cases h
        exact .more (ht.flush heq) trivial
  | pausing processed =>
    unfold pump at h
    simp only at h
    split at h
    · cases h
      exact .done (fun _ => ht.quiet rfl rfl rfl) fun _ hready => by cases hready
    · rename_i hsent
      split at h
      · cases h
        exact .done (fun _ => ht.quiet rfl rfl rfl) fun _ hready => by cases hready
      · rename_i hbudget
        cases h
        refine .more (fun _ => ht.quiet rfl rfl rfl) ?_
        exact (hs.resolve_left hsent).resolve_left hbudget
  | bounding processed =>
    unfold pump at h
    simp only at h
    split at h
    · cases h
      exact conversed_drop _ _
    · cases h
      exact .more (fun _ => ht.quiet rfl rfl rfl) hs
  | waiting processed =>
    unfold pump at h
    simp only at h
    split at h
    · cases h
      exact .more (fun _ => ht.quiet rfl rfl rfl) hs
    · cases h
      exact .done (fun _ => ht.quiet rfl rfl rfl) fun _ _ _ => hs
    · cases h
      exact conversed_drop _ _
  | receiving processed =>
    unfold pump at h
    simp only at h
    split at h
    · rename_i chunk hreceive
      cases h
      have harriving : (Point.receiving processed).arriving os = chunk.bytes := by simp [Point.arriving, hreceive]
      rw [harriving]
      exact .more (fun _ => ht.receive rfl rfl rfl) trivial
    · rename_i hreceive
      cases h
      have harriving : (Point.receiving processed).arriving os = [] := by simp [Point.arriving, hreceive]
      rw [harriving]
      exact .done (fun _ => ht.quiet rfl rfl rfl) fun _ _ _ => hs
    all_goals
      cases h
      exact conversed_drop _ _

end Coordinator

theorem Session.used_of_flush {os : Outside} {s s' : Session} {ended : Bool} (h : s.flush os = (s', ended))
    (hused : s'.used = true) : s.used = true := by
  unfold Session.flush at h
  split at h
  · split at h
    all_goals cases h
    · exact hused
    · exact hused
    · cases hused
  · cases h
    exact hused

/-- A pump takes no slot in use. -/
theorem Coordinator.used_of_pump {os : Outside} {c c' : Coordinator} {s s' : Session} {point : Point}
    {next : Option Point} (h : c.pump os s point = (c', s', next)) (hused : s'.used = true) : s.used = true := by
  cases point with
  | entering | flushing processed =>
    unfold pump at h
    simp only at h
    split at h
    · rename_i heq
      cases h
      exact Session.used_of_flush heq hused
    · rename_i heq
      repeat' split at h
      all_goals
        cases h
        exact Session.used_of_flush heq hused
  | handling processed frame =>
    have hreplied := (handleFrame_answers os.around c s frame).replied
    have hs' : s' = (handleFrame os.around frame c s).2 := by
      unfold pump at h
      simp only at h
      split at h <;> cases h <;> rfl
    rw [← hs'] at hreplied
    cases hreplied with
    | ended => cases hused
    | queued _ => exact hused
  | _ =>
    unfold pump at h
    simp only at h
    repeat' split at h
    all_goals
      cases h
      first
        | exact hused
        | cases hused

/-! ## All sessions -/

namespace Machine

theorem session_eq_some {m : Machine} {index : Nat} {s : Session} :
    m.session index = some s ↔ m.coordinator.sessions[index]? = some s ∧ s.used = true := Option.filter_eq_some_iff

/-- A session that has changed is found at its own slot, and the others are where they were. -/
theorem session_settle {c : Coordinator} {i index : Nat} {s s' : Session} {control : Control}
    (h : (settle c i s control).session index = some s') :
    i = index ∧ s' = s ∧ s.used = true ∨ i ≠ index ∧ c.sessions[index]? = some s' ∧ s'.used = true := by
  obtain ⟨hs, hused⟩ := session_eq_some.1 h
  have hs : (c.sessions.set i s)[index]? = some s' := hs
  by_cases hi : i = index
  · subst hi
    rw [List.getElem?_set_self'] at hs
    obtain ⟨_, _, hsame⟩ := Option.map_eq_some_iff.1 hs
    have hsame : s = s' := hsame
    exact .inl ⟨rfl, hsame.symm, hsame ▸ hused⟩
  · rw [List.getElem?_set_ne hi] at hs
    exact .inr ⟨hi, hs, hused⟩

/-- What a step does to a slot that it does not pump: its buffers stay as they are, or a connection is accepted. -/
def Leaves (m m' : Machine) (index : Nat) : Prop :=
  ∀ s', m'.session index = some s' →
    (∃ s, m.session index = some s ∧ s'.inbound = s.inbound ∧ s'.outbound = s.outbound ∧ s'.outOffset = s.outOffset) ∨
      m.session index = none ∧ ∃ now, s' = .accept now

theorem leaves_of_eq {m m' : Machine} {index : Nat} (h : m'.session index = m.session index) : Leaves m m' index :=
  fun s' hs' => .inl ⟨s', h ▸ hs', rfl, rfl, rfl⟩

theorem leaves_settle {c c' : Coordinator} {control control' : Control} {i index : Nat} {s : Session}
    (hsessions : c'.sessions = c.sessions)
    (h : i = index → s.used = true → ∃ u, c.sessions[i]? = some u ∧ u.used = true ∧ s.inbound = u.inbound ∧
      s.outbound = u.outbound ∧ s.outOffset = u.outOffset) : Leaves ⟨c, control⟩ (settle c' i s control') index := by
  intro s' hs'
  rcases session_settle hs' with ⟨rfl, rfl, hused⟩ | ⟨-, hs', hused⟩
  · obtain ⟨u, hu, huused, hsame⟩ := h rfl hused
    exact .inl ⟨u, session_eq_some.2 ⟨hu, huused⟩, hsame⟩
  · rw [hsessions] at hs'
    exact .inl ⟨s', session_eq_some.2 ⟨hs', hused⟩, rfl, rfl, rfl⟩

theorem leaves_acceptPending (os : Outside) (c : Coordinator) (control control' : Control) (index : Nat) :
    Leaves ⟨c, control⟩ ⟨c.acceptPending os, control'⟩ index := by
  unfold Coordinator.acceptPending
  split
  · exact leaves_of_eq rfl
  · split
    · exact leaves_of_eq rfl
    · split
      · exact leaves_of_eq rfl
      · unfold Coordinator.acceptSession
        split
        · rename_i slot hslot
          obtain ⟨hlt, hfree, -⟩ := List.findIdx?_eq_some_iff_getElem.1 hslot
          intro s' hs'
          rcases session_settle hs' with ⟨rfl, rfl, -⟩ | ⟨-, hs', hused⟩
          · refine .inr ⟨?_, _, rfl⟩
            rw [session, List.getElem?_eq_getElem hlt]
            simpa using hfree
          · exact .inl ⟨s', session_eq_some.2 ⟨hs', hused⟩, rfl, rfl, rfl⟩
        · split
          · exact leaves_of_eq rfl
          · intro s' hs'
            obtain ⟨hs', hused⟩ := session_eq_some.1 hs'
            have hs' : (c.sessions ++ [Session.accept os.now])[index]? = some s' := hs'
            rw [List.getElem?_append] at hs'
            split at hs'
            · exact .inl ⟨s', session_eq_some.2 ⟨hs', hused⟩, rfl, rfl, rfl⟩
            · rename_i hlen
              refine .inr ⟨?_, _, List.mem_singleton.1 (List.mem_of_getElem? hs')⟩
              rw [session, List.getElem?_eq_none (not_lt.1 hlen)]
              rfl

theorem leaves_reapIdle (now : UInt64) (c : Coordinator) (control control' : Control) (index : Nat) :
    Leaves ⟨c, control⟩ ⟨c.reapIdle now, control'⟩ index := by
  unfold Coordinator.reapIdle
  split
  · exact leaves_of_eq rfl
  · intro s' hs'
    obtain ⟨hs', hused⟩ := session_eq_some.1 hs'
    simp only [List.getElem?_map] at hs'
    obtain ⟨s, hs, rfl⟩ := Option.map_eq_some_iff.1 hs'
    split at hused
    · cases hused
    · rename_i hkept
      rw [if_neg hkept]
      exact .inl ⟨s, session_eq_some.2 ⟨hs, hused⟩, rfl, rfl, rfl⟩

theorem point_eq_some {m : Machine} {index : Nat} {p : Point} :
    m.point index = some p ↔ m.control = .pumping index p := by
  obtain ⟨c, control⟩ := m
  cases control with
  | pumping i q => simp only [point, Option.ite_none_right_eq_some, Option.some.injEq, Control.pumping.injEq]
  | _ => simp [point]

/-- Away from the slot that is pumped or flushed a step leaves the buffers alone, and a pump that begins is in its
first flush. -/
theorem leaves_proceed (os : Outside) {m : Machine} {index : Nat} (hpoint : m.point index = none)
    (hdrain : ∀ deadline, m.control ≠ .drainFlushing deadline index) :
    Leaves m (m.proceed os) index ∧ ∀ p, (m.proceed os).point index = some p → p = .entering := by
  obtain ⟨c, control⟩ := m
  cases control with
  | idle =>
    unfold proceed
    simp only
    split
    · exact ⟨leaves_of_eq rfl, by rintro _ ⟨⟩⟩
    · exact ⟨leaves_acceptPending _ _ _ _ _, by rintro _ ⟨⟩⟩
  | visiting i =>
    unfold proceed
    simp only
    split
    · exact ⟨leaves_reapIdle _ _ _ _ _, by rintro _ ⟨⟩⟩
    · rename_i s hs
      split
      · exact ⟨leaves_of_eq rfl, by rintro _ ⟨⟩⟩
      · rename_i hused
        refine ⟨leaves_settle rfl fun _ _ => ⟨s, hs, by simpa using hused, rfl, rfl, rfl⟩, fun p hp => ?_⟩
        have hcontrol := point_eq_some.1 hp
        cases hcontrol
        rfl
  | pumping i point =>
    have hi : i ≠ index := fun hi => by simp [Machine.point, hi] at hpoint
    unfold proceed
    simp only
    split
    · exact ⟨leaves_of_eq rfl, by rintro _ ⟨⟩⟩
    · split
      · rename_i c' s' next hpump
        refine ⟨leaves_settle (Coordinator.pump_sessions hpump) fun h => absurd h hi, fun p hp => ?_⟩
        have hcontrol := point_eq_some.1 hp
        cases hcontrol
        exact absurd rfl hi
      · rename_i c' s' hpump
        exact ⟨leaves_settle (Coordinator.pump_sessions hpump) fun h => absurd h hi, by rintro _ ⟨⟩⟩
  | draining deadline i =>
    unfold proceed
    simp only
    split
    · refine ⟨fun s' hs' => ?_, by rintro _ ⟨⟩⟩
      have hs' := (session_eq_some.1 hs').1
      cases hs'
    · rename_i s hs
      split
      · exact ⟨leaves_of_eq rfl, by rintro _ ⟨⟩⟩
      · split
        · split
          · exact ⟨leaves_of_eq rfl, by rintro _ ⟨⟩⟩
          · exact ⟨leaves_of_eq rfl, by rintro _ ⟨⟩⟩
        · exact ⟨leaves_settle rfl fun _ hused => by (cases hused), by rintro _ ⟨⟩⟩
  | drainFlushing deadline i =>
    have hi : i ≠ index := fun hi => hdrain deadline (by rw [hi])
    unfold proceed
    simp only
    split
    · exact ⟨leaves_of_eq rfl, by rintro _ ⟨⟩⟩
    · split
      · exact ⟨leaves_settle rfl fun h => absurd h hi, by rintro _ ⟨⟩⟩
      · exact ⟨leaves_settle rfl fun h => absurd h hi, by rintro _ ⟨⟩⟩

end Machine

/-- What holds of a slot and of its conversation in every state of a run. -/
structure Watched.Inv (index : Nat) (w : Watched) : Prop where
  holds : ∀ s, w.machine.session index = some s →
    w.conversation.Holds s ((w.machine.point index).elim [] Point.inHand)
  starved : ∀ s p, w.machine.session index = some s → w.machine.point index = some p → p.Starved s
  empty : w.machine.session index = none → w.conversation = {}

namespace Watched

variable {index : Nat} {w : Watched} {a : Action}

/-- A conversation is over where its slot is not in use. -/
theorem inv_of_holds
    (hholds : ∀ s', (w.machine.step a).session index = some s' →
      (w.conversation.next index w.machine a).Holds s' (((w.machine.step a).point index).elim [] Point.inHand))
    (hstarved : ∀ s' p, (w.machine.step a).session index = some s' → (w.machine.step a).point index = some p →
      p.Starved s') : (w.step index a).Inv index := by
  refine ⟨hholds, hstarved, fun hs' => ?_⟩
  have hs' : (w.machine.step a).session index = none := hs'
  show w.conversation.next index w.machine a = {}
  rw [Conversation.next, hs']
  cases w.machine.session index <;> rfl

/-- A step that does not pump the slot. -/
theorem inv_leaves (h : w.Inv index) (hpoint : w.machine.point index = none)
    (hleaves : Machine.Leaves w.machine (w.machine.step a) index)
    (hnext : ∀ p, (w.machine.step a).point index = some p → p = .entering) : (w.step index a).Inv index := by
  have hhand : ((w.machine.step a).point index).elim [] Point.inHand = [] := by
    cases hp : (w.machine.step a).point index with
    | none => rfl
    | some p => rw [hnext p hp]; rfl
  refine inv_of_holds (fun s' hs' => ?_) fun s' p _ hp => by rw [hnext p hp]; trivial
  rw [hhand, Conversation.next, hs']
  rcases hleaves s' hs' with ⟨s, hs, hin, hout, hoffset⟩ | ⟨hs, now, rfl⟩
  · have hold := h.holds s hs
    rw [hpoint] at hold
    simp only [hs, hpoint]
    exact hold.quiet hin hout hoffset
  · simp only [hs]
    exact Conversation.holds_accept now

/-- A step of the pump of the slot. -/
theorem inv_pump (os : Outside) {p : Point} (h : w.Inv index) (hcontrol : w.machine.control = .pumping index p) :
    (w.step index (.proceed os)).Inv index ∧
      ∀ s', (w.machine.proceed os).session index = some s' → (w.machine.proceed os).point index = none → s'.Rests := by
  obtain ⟨⟨c, control⟩, t⟩ := w
  cases hcontrol
  have hpoint : Machine.point ⟨c, .pumping index p⟩ index = some p := Machine.point_eq_some.2 rfl
  cases hget : c.sessions[index]? with
  | none =>
    have hstep : Machine.proceed os ⟨c, .pumping index p⟩ = ⟨c, .visiting (index + 1)⟩ := by
      simp only [Machine.proceed, hget]
    have hnone : ∀ s', (Machine.proceed os ⟨c, .pumping index p⟩).session index ≠ some s' := fun s' hs' => by
      rw [hstep, Machine.session_eq_some, hget] at hs'
      cases hs'.1
    exact ⟨inv_of_holds (fun s' hs' => absurd hs' (hnone s')) fun s' _ hs' => absurd hs' (hnone s'),
      fun s' hs' => absurd hs' (hnone s')⟩
  | some s =>
    obtain ⟨⟨c', s', next⟩, hpump⟩ : ∃ out, c.pump os s p = out := ⟨_, rfl⟩
    have hstep : Machine.proceed os ⟨c, .pumping index p⟩ =
        Machine.settle c' index s' (next.elim (.visiting (index + 1)) (.pumping index)) := by
      simp only [Machine.proceed, hget, hpump]
      cases next <;> rfl
    have hnext : (Machine.settle c' index s' (next.elim (.visiting (index + 1)) (.pumping index))).point index =
        next := by
      cases next with
      | none => rfl
      | some q => exact Machine.point_eq_some.2 rfl
    -- the session that is found in the slot is the one that was pumped
    have hslot : ∀ u, (Machine.proceed os ⟨c, .pumping index p⟩).session index = some u →
        u = s' ∧ Coordinator.Conversed (t.after (p.arriving os) p.inHand s s') s' next ∧
          t.next index ⟨c, .pumping index p⟩ (.proceed os) = t.after (p.arriving os) p.inHand s s' ∧
          s'.used = true := by
      intro u hu
      have hsettled := hu
      rw [hstep] at hsettled
      obtain ⟨-, rfl, hused⟩ := (Machine.session_settle hsettled).resolve_right fun h => h.1 rfl
      have hs : Machine.session ⟨c, .pumping index p⟩ index = some s :=
        Machine.session_eq_some.2 ⟨hget, Coordinator.used_of_pump hpump hused⟩
      have hold := h.holds s hs
      rw [hpoint] at hold
      refine ⟨rfl, Coordinator.pump_conversed hold (h.starved s p hs hpoint) hpump, ?_, hused⟩
      have hu : (Machine.step ⟨c, .pumping index p⟩ (.proceed os)).session index = some u := hu
      rw [Conversation.next, hs, hu, hpoint]
    refine ⟨inv_of_holds (fun u hu => ?_) fun u q hu hq => ?_, fun u hu hq => ?_⟩
    · obtain ⟨rfl, hconversed, hnew, hused⟩ := hslot u hu
      have hpoint' : (Machine.step ⟨c, .pumping index p⟩ (.proceed os)).point index = next := by
        rw [← hnext, ← hstep]
        rfl
      show (t.next index ⟨c, .pumping index p⟩ (.proceed os)).Holds u _
      rw [hnew, hpoint']
      exact hconversed.holds hused
    · obtain ⟨rfl, hconversed, -⟩ := hslot u hu
      have hq : (Machine.proceed os ⟨c, .pumping index p⟩).point index = some q := hq
      rw [hstep, hnext] at hq
      exact hconversed.starved q hq
    · obtain ⟨rfl, hconversed, -⟩ := hslot u hu
      rw [hstep, hnext] at hq
      exact hconversed.rests hq

/-- A flush of the slot while the coordinator drains. -/
theorem inv_drainFlushing (os : Outside) {deadline : UInt64} (h : w.Inv index)
    (hcontrol : w.machine.control = .drainFlushing deadline index) : (w.step index (.proceed os)).Inv index := by
  obtain ⟨⟨c, control⟩, t⟩ := w
  cases hcontrol
  have hpoint : (Machine.proceed os ⟨c, .drainFlushing deadline index⟩).point index = none := by
    simp only [Machine.proceed]
    repeat' split
    all_goals rfl
  refine inv_of_holds (fun u hu => ?_) fun u q _ hq => ?_
  · have hpoint' : (Machine.step ⟨c, .drainFlushing deadline index⟩ (.proceed os)).point index = none := hpoint
    have hsettled : (Machine.proceed os ⟨c, .drainFlushing deadline index⟩).session index = some u := hu
    rw [hpoint']
    simp only [Machine.proceed] at hsettled
    split at hsettled
    · rename_i hget
      rw [Machine.session_eq_some, hget] at hsettled
      cases hsettled.1
    · rename_i s hget
      have hflushed : ∃ ended, s.flush os = (u, ended) ∧ u.used = true := by
        split at hsettled
        all_goals
          rename_i heq
          obtain ⟨-, rfl, hused⟩ := (Machine.session_settle hsettled).resolve_right fun h => h.1 rfl
          exact ⟨_, heq, hused⟩
      obtain ⟨ended, hflush, hused⟩ := hflushed
      have hs : Machine.session ⟨c, .drainFlushing deadline index⟩ index = some s :=
        Machine.session_eq_some.2 ⟨hget, Session.used_of_flush hflush hused⟩
      rw [Conversation.next, hs, hu]
      exact (h.holds s hs).flush hflush hused
  · have hq : (Machine.proceed os ⟨c, .drainFlushing deadline index⟩).point index = some q := hq
    rw [hpoint] at hq
    cases hq

/-- A step that changes no session. -/
theorem inv_same (h : w.Inv index) (hnot : ∀ os, a ≠ .proceed os)
    (hsessions : (w.machine.step a).coordinator.sessions = w.machine.coordinator.sessions)
    (hpoint : (w.machine.step a).point index = w.machine.point index) : (w.step index a).Inv index := by
  have hsession : (w.machine.step a).session index = w.machine.session index := by
    rw [Machine.session, hsessions, Machine.session]
  refine inv_of_holds (fun s hs => ?_) fun s p hs hp => h.starved s p (hsession ▸ hs) (hpoint ▸ hp)
  have hold : w.machine.session index = some s := hsession ▸ hs
  have hnew : w.conversation.next index w.machine a = w.conversation.after [] [] s s := by
    rw [Conversation.next, hold, hs]
    simp only
    cases w.machine.point index with
    | none => rfl
    | some p =>
      cases a with
      | proceed os => exact absurd rfl (hnot os)
      | _ => rfl
  rw [hnew, hpoint]
  exact (h.holds s hold).quiet rfl rfl rfl

theorem inv_step (a : Action) (h : w.Inv index) : (w.step index a).Inv index := by
  cases a with
  | proceed os =>
    cases hpoint : w.machine.point index with
    | some p => exact (inv_pump os h (Machine.point_eq_some.1 hpoint)).1
    | none =>
      by_cases hdrain : ∃ deadline, w.machine.control = .drainFlushing deadline index
      · obtain ⟨deadline, hcontrol⟩ := hdrain
        exact inv_drainFlushing os h hcontrol
      · obtain ⟨hleaves, hnext⟩ := Machine.leaves_proceed os hpoint fun deadline hcontrol => hdrain ⟨deadline, hcontrol⟩
        exact inv_leaves h hpoint hleaves hnext
  | requestStop => exact inv_same h (fun os h => by cases h) rfl rfl
  | stop os =>
    obtain ⟨⟨c, control⟩, t⟩ := w
    cases control with
    | idle => exact inv_same h (fun os h => by cases h) rfl rfl
    | _ => exact inv_same h (fun os h => by cases h) rfl rfl

theorem inv_run (actions : List Action) (h : w.Inv index) : (w.run index actions).Inv index := by
  induction actions generalizing w with
  | nil => exact h
  | cons a actions ih => exact ih (inv_step a h)

/-- A coordinator starts with every slot free. -/
theorem inv_start (index : Nat) (options : CoordinatorOptions) (runtime : Runtime) (directory : Directory) :
    Inv index { machine := Coordinator.start options runtime directory } := by
  have hnone : ∀ s, (Coordinator.start options runtime directory).session index ≠ some s := fun s hs => by
    obtain ⟨hs, hused⟩ := Machine.session_eq_some.1 hs
    rw [List.eq_of_mem_replicate (List.mem_of_getElem? hs)] at hused
    cases hused
  exact ⟨fun s hs => absurd hs (hnone s), fun s p hs => absurd hs (hnone s), fun _ => rfl⟩

end Watched

/-! ## Requests in order -/

/-- What is seen on a connection over which some requests are sent. -/
structure Watched.InOrder (index : Nat) (w : Watched) (requests : List Request) : Prop where
  /-- The requests handled so far are the first ones, in the order in which they were sent. -/
  handled : w.conversation.handled <+: requests.map Request.frame
  answered : Answered w.conversation.handled w.conversation.queued
  /-- What was sent and what is to be sent are the replies, in their order. -/
  replies : ∀ s, w.machine.session index = some s →
    w.conversation.sent ++ s.outbound.drop s.outOffset = w.conversation.queued.flatten

/-- With a step the pump of a slot returns, and leaves nothing to be done before more is received. -/
structure Watched.Returns (index : Nat) (before after : Watched) : Prop where
  pumped : ∃ p, before.machine.control = .pumping index p
  returned : after.machine.control = .visiting (index + 1)
  session : ∃ s, after.machine.session index = some s ∧ s.pendingOutput = false ∧ s.ready = false

/-- What the invariant says of the requests that have arrived so far. -/
theorem Watched.Inv.arrived {index : Nat} {w : Watched} (h : w.Inv index) {requests : List Request} {missing : Bytes}
    (hrequests : ∀ r ∈ requests, r.body.length ≤ maxFrameBytes - headerBytes)
    (hreceived : w.conversation.received ++ missing = requests.flatMap Request.bytes) {s : Session}
    (hs : w.machine.session index = some s) : ∃ done todo, requests = done ++ todo ∧
      w.conversation.handled ++ (w.machine.point index).elim [] Point.inHand = done.map Request.frame ∧
        s.inbound ++ missing = todo.flatMap Request.bytes :=
  (h.holds s hs).taken.requests hrequests hreceived

theorem Watched.Inv.inOrder {index : Nat} {w : Watched} (h : w.Inv index) {requests : List Request}
    (hrequests : ∀ r ∈ requests, r.body.length ≤ maxFrameBytes - headerBytes)
    (hreceived : w.conversation.received <+: requests.flatMap Request.bytes) : w.InOrder index requests := by
  cases hs : w.machine.session index with
  | none =>
    refine ⟨?_, ?_, fun s hs' => by rw [hs] at hs'; cases hs'⟩
    all_goals rw [h.empty hs]
    · exact List.nil_prefix
    · exact .nil
  | some s =>
    have hholds := h.holds s hs
    refine ⟨?_, hholds.answered, fun s' hs' => ?_⟩
    · obtain ⟨missing, hmissing⟩ := hreceived
      obtain ⟨done, todo, rfl, hdone, -⟩ := h.arrived hrequests hmissing hs
      rw [List.map_append, ← hdone, List.append_assoc]
      exact List.prefix_append _ _
    · rw [hs] at hs'
      cases hs'
      exact hholds.replies

/-- Chunks, passes and partial sends change nothing in a conversation: as long as a session is not dropped it has
handled the first requests, in the order in which they were sent, each with one reply, in the same order. Where its
pump returns with nothing left to be done, it has handled all that was sent. -/
theorem conversations_in_order (index : Nat) (options : CoordinatorOptions) (runtime : Runtime)
    (directory : Directory) (actions : List Action) {requests : List Request} {bytes : Bytes}
    (hrequests : Request.encodeAll requests [] = .ok bytes) :
    let w := Watched.run index { machine := Coordinator.start options runtime directory } actions
    (w.conversation.received <+: bytes → w.InOrder index requests) ∧
      ∀ a, w.Returns index (w.step index a) → (w.step index a).conversation.received = bytes →
        (w.step index a).conversation.handled = requests.map Request.frame := by
  obtain ⟨hbodies, rfl⟩ := Request.encodeAll_ok hrequests
  intro w
  have hinv : w.Inv index := Watched.inv_run actions (Watched.inv_start index options runtime directory)
  refine ⟨hinv.inOrder hbodies, fun a hreturns hall => ?_⟩
  obtain ⟨⟨p, hcontrol⟩, hreturned, s, hs, hsent, hready⟩ := hreturns
  have hinv' := Watched.inv_step a hinv
  have hpoint : (w.step index a).machine.point index = none := by rw [Machine.point, hreturned]
  have hreceived : (w.step index a).conversation.received ++ [] = requests.flatMap Request.bytes := by
    rw [List.append_nil]
    exact hall
  obtain ⟨done, todo, rfl, hdone, htodo⟩ := hinv'.arrived hbodies hreceived hs
  rw [hpoint, Option.elim_none, List.append_nil] at hdone
  rw [List.append_nil] at htodo
  have hshort : ¬Enough s.inbound := by
    cases a with
    | proceed os =>
      exact (Watched.inv_pump os hinv hcontrol).2 s hs hpoint (Machine.session_eq_some.1 hs).2 hready hsent
    | requestStop =>
      have hsame : w.machine.control = .visiting (index + 1) := hreturned
      rw [hcontrol] at hsame
      cases hsame
    | stop os =>
      have hsame : (w.machine.step (.stop os)).control = .visiting (index + 1) := hreturned
      rw [Machine.step, hcontrol] at hsame
      simp only [hcontrol] at hsame
      cases hsame
  cases todo with
  | nil => rw [hdone, List.append_nil]
  | cons r todo =>
    have hbody := hbodies r (by simp)
    obtain ⟨f, hf, -⟩ := decodeFrame_truncated_iff.2 hshort
    rw [htodo, List.flatMap_cons, Request.decodeFrame_bytes hbody] at hf
    cases hf

/-- A request of a type that no handler knows. -/
def strangeRequest : Request := ⟨⟨4660⟩, 7, []⟩

/-- A connection waits, all that is queued can be sent, and whatever is received is the request. -/
def strangeOutside : Outside where
  now := 0
  accept := .accepted true
  send := .progress 1000
  writable := true
  wait := .readable
  receive := .data ⟨strangeRequest.bytes, by decide, by decide⟩
  around := ⟨.succeeds, fun _ => 0⟩

def idleRuntime : Runtime where
  info :=
    { coordinator := .zero
      incarnation := .zero
      epoch := 1
      trustDigest := .zero
      startedAtMillis := 0
      recovered := false
      recoveredRecords := 0
      truncatedBytes := 0 }
  trust := {}
  ledger :=
    { head := ⟨1, .zero, .zero, 1, .zero, 0, 1⟩
      chain := .zero
      segment := 1
      segmentBytes := 0
      segmentCount := 1
      retainedBytes := 0
      isOpen := true }
  evidenceMaxAgeMillis := 0

/-- Whatever is received is one chunk. -/
def receiving (chunk : Chunk) : Action := .proceed { strangeOutside with receive := .data chunk }

/-- A connection is accepted, and three chunks are received: the first ends inside a request, and the second with a part
of the request behind it. -/
def inPieces (first second third : Chunk) : List Action :=
  List.replicate 8 (receiving first) ++ List.replicate 5 (receiving second) ++ List.replicate 16 (receiving third)

/-- Another one, with a body. -/
def strangerRequest : Request := ⟨⟨4661⟩, 8, [1, 2, 3]⟩

def strangeBytes : Bytes := strangeRequest.bytes ++ strangerRequest.bytes

def strangeActions : List Action :=
  inPieces ⟨strangeBytes.take 20, by decide +kernel, by decide +kernel⟩
    ⟨(strangeBytes.drop 20).take 20, by decide +kernel, by decide +kernel⟩
    ⟨strangeBytes.drop 40, by decide +kernel, by decide +kernel⟩

/-- A coordinator that has taken the connection and waits for more than the two requests. -/
def strangeWatched : Watched :=
  Watched.run 0 { machine := Coordinator.start { maxSessions := 1 } idleRuntime (.fresh []) } strangeActions

/-- The step in which nothing more arrives. -/
def strangeEnd : Action := .proceed { strangeOutside with wait := .deadline }

deriving instance DecidableEq for Point, Control

/-- With this step the pump returns, and both requests are handled. -/
theorem conversations_in_order_strange :
    (strangeWatched.step 0 strangeEnd).conversation.handled = [strangeRequest.frame, strangerRequest.frame] := by
  have hrun : strangeWatched.machine.control = .pumping 0 (.waiting 2) ∧
      (strangeWatched.step 0 strangeEnd).machine.control = .visiting 1 ∧
      ((strangeWatched.step 0 strangeEnd).machine.session 0).map (fun s => (s.pendingOutput, s.ready)) =
        some (false, false) ∧
      (strangeWatched.step 0 strangeEnd).conversation.received = strangeBytes := by
    decide +kernel
  obtain ⟨hcontrol, hreturned, hsession, hreceived⟩ := hrun
  obtain ⟨s, hs, hidle⟩ := Option.map_eq_some_iff.1 hsession
  obtain ⟨hsent, hready⟩ := Prod.mk.inj hidle
  have hrequests : Request.encodeAll [strangeRequest, strangerRequest] [] = .ok strangeBytes := rfl
  exact (conversations_in_order 0 { maxSessions := 1 } idleRuntime (.fresh []) _ hrequests).2 strangeEnd
    ⟨⟨_, hcontrol⟩, hreturned, s, hs, hsent, hready⟩ hreceived

end Wnc
