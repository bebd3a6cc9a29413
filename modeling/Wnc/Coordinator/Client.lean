/-
The client of a connection. In whatever pieces the replies arrive, the frames that a client reads answer its requests, one
for each and in their order, and each says what became of the change that its request asks for.
-/
import Wnc.Coordinator.Changes
import Wnc.Wire.Stream

namespace Wnc

open Lib Wire

/-! ## Frames that are read -/

namespace Wire

/-- What a client reads in some calls, one frame in each. -/
def readFrames (s : Socket) : Nat → Except Failure (List Frame × Socket)
  | 0 => .ok ([], s)
  | n + 1 => do
    let (frame, s) ← readFrame s
    let (frames, s) ← readFrames s n
    pure (frame :: frames, s)

/-- Of the bytes of some frames a reader takes the first frame. It fails where these end before that frame does. -/
theorem readFrame_requests {s : Socket} {missing : Bytes} {rs : List Request}
    (hrs : ∀ r ∈ rs, r.body.length ≤ maxFrameBytes - headerBytes)
    (hbytes : s.bytes ++ missing = rs.flatMap Request.bytes) :
    (∃ r rest t, rs = r :: rest ∧ readFrame s = .ok (r.frame, t) ∧ t.ending = s.ending ∧ s.bytes = r.bytes ++ t.bytes ∧
        t.bytes ++ missing = rest.flatMap Request.bytes) ∨
      readFrame s = .error s.ending.failure ∧ ∀ r ∈ rs.head?, s.bytes.length < r.bytes.length := by
  cases readersAgree s with
  | @accept frame n t hdecoded hread hleft hending =>
    obtain ⟨done, todo, rfl, hframes, hrest⟩ := (Taken.cons hdecoded (.nil _)).requests hrs hbytes
    cases done with
    | nil => cases hframes
    | cons r done =>
      obtain ⟨hframe, hnil⟩ := List.cons.inj hframes
      obtain rfl := List.map_eq_nil_iff.1 hnil.symm
      rw [← hleft] at hrest
      refine .inl ⟨r, todo, t, rfl, hframe ▸ hread, hending, ?_, hrest⟩
      refine List.append_cancel_right (hbytes.trans ?_)
      rw [List.append_assoc, hrest]
      rfl
  | short _ hdecoded _ hread =>
    refine .inr ⟨hread, fun r hr => ?_⟩
    obtain ⟨rest, rfl⟩ := List.head?_eq_some_iff.1 hr
    -- else the first frame is there as a whole, and it decodes
    by_contra hlong
    obtain ⟨more, hmore⟩ : r.bytes <+: s.bytes := by
      refine List.prefix_of_prefix_length_le ?_ (List.prefix_append s.bytes missing) (not_lt.1 hlong)
      rw [hbytes, List.flatMap_cons]
      exact List.prefix_append _ _
    rw [← hmore, Request.decodeFrame_bytes (List.forall_mem_cons.1 hrs).1] at hdecoded
    cases hdecoded
  -- the whole text begins with a frame, so what has arrived of it is not refused
  | @refuse henough e e' hdecoded _ _ =>
    cases rs with
    | nil =>
      have hnil : s.bytes = [] := (List.append_eq_nil_iff.1 hbytes).1
      have hheader := henough.header
      rw [hnil] at hheader
      exact absurd hheader (by decide)
    | cons r rs =>
      have hall := Request.decodeFrame_bytes (List.forall_mem_cons.1 hrs).1 (rs.flatMap Request.bytes)
      rw [← List.flatMap_cons, ← hbytes] at hall
      have haccepted := (headerAccepted_append missing henough.header).1 (decodeFrame_eq_ok_iff.1 hall).1
      rw [decodeFrame_eq_ok_iff.2 ⟨haccepted, rfl, henough.body haccepted, rfl⟩] at hdecoded
      cases hdecoded

/-- The frames that are read are the first ones. A read fails where there are fewer, or their bytes end. -/
theorem readFrames_requests {s : Socket} {missing : Bytes} {rs : List Request}
    (hrs : ∀ r ∈ rs, r.body.length ≤ maxFrameBytes - headerBytes)
    (hbytes : s.bytes ++ missing = rs.flatMap Request.bytes) (n : Nat) :
    (∃ t, readFrames s n = .ok ((rs.take n).map Request.frame, t) ∧ n ≤ rs.length) ∨
      readFrames s n = .error s.ending.failure ∧
        (rs.length < n ∨ s.bytes.length < ((rs.take n).flatMap Request.bytes).length) := by
  induction n generalizing s rs with
  | zero => exact .inl ⟨s, rfl, Nat.zero_le _⟩
  | succ n ih =>
    rw [readFrames]
    rcases readFrame_requests hrs hbytes with ⟨r, rest, t, rfl, hread, hending, hsplit, hrest⟩ | ⟨hread, hshort⟩
    · rw [hread]
      rcases ih (fun r' hr' => hrs r' (List.mem_cons_of_mem _ hr')) hrest with ⟨u, hreads, hn⟩ | ⟨hreads, hshort⟩
      · refine .inl ⟨u, ?_, Nat.succ_le_succ hn⟩
        simp only [bind, Except.bind, hreads, pure, Except.pure, List.take_succ_cons, List.map_cons]
      · refine .inr ⟨?_, hshort.imp Nat.succ_lt_succ fun hbytes => ?_⟩
        · simp only [bind, Except.bind, hreads, hending]
        · rw [hsplit, List.take_succ_cons, List.flatMap_cons, List.length_append, List.length_append]
          exact Nat.add_lt_add_left hbytes _
    · refine .inr ⟨by rw [hread]; rfl, ?_⟩
      cases rs with
      | nil => exact .inl (Nat.succ_pos n)
      | cons r rest =>
        refine .inr ((hshort r rfl).trans_le ?_)
        rw [List.take_succ_cons, List.flatMap_cons, List.length_append]
        exact Nat.le_add_right _ _

end Wire

/-! ## What a reply says -/

/-- A frame that is handled, with the coordinator and the session that meet it. -/
structure Exchange where
  around : Surroundings
  coordinator : Coordinator
  session : Session
  frame : Frame

namespace Exchange

/-- What the coordinator does with the frame. -/
def outcome (e : Exchange) : Coordinator × Session :=
  Coordinator.handleFrame e.around e.frame e.coordinator e.session

/-- The bytes that are queued for it. -/
def queued (e : Exchange) : Bytes := e.outcome.2.outbound.drop e.session.outbound.length

/-- What a change comes to for the coordinator that is asked for it. -/
def performed (e : Exchange) (m : Mutation) : MutationResult :=
  (m.perform e.around e.coordinator.runtime e.coordinator.directory).1

/-- What a reply says: it carries the identifier of its request, and tells what became of the change asked for. -/
inductive Answers (e : Exchange) : Request → Prop
  | asked (type : MessageType) (body : Bytes) (none : Coordinator.requested e.frame = none) :
      Answers e ⟨type, e.frame.header.requestId, body⟩
  | refused (m : Mutation) (body : Json) (requested : Coordinator.requested e.frame = some m)
      (refused : (e.performed m).ok = false) (ok : body.find (utf8 "ok") = some (.bool false))
      (code : body.find (utf8 "code") = some (.string (codeToken (e.performed m).code))) :
      Answers e ⟨.error, e.frame.header.requestId, body.dump⟩
  | accepted (m : Mutation) (body : Json) (requested : Coordinator.requested e.frame = some m)
      (accepted : (e.performed m).ok = true) (ok : body.find (utf8 "ok") = some (.bool true))
      (sequence : body.find (utf8 "sequence") = some (jsonUint (e.performed m).sequence)) :
      Answers e ⟨.retireReplyGeneric, e.frame.header.requestId, body.dump⟩

theorem queued_queueFrame {s : Session} {type : MessageType} {requestId : UInt64} {body : Json}
    (hused : (s.queueFrame type requestId body).used = true) :
    body.dump.length ≤ maxFrameBytes - headerBytes ∧
      (s.queueFrame type requestId body).outbound = s.outbound ++ (Request.mk type requestId body.dump).bytes := by
  by_cases hbody : body.dump.length ≤ maxFrameBytes - headerBytes
  · refine ⟨hbody, ?_⟩
    rw [Session.queueFrame, encodeFrame_eq _ _ _ hbody, List.nil_append]
    rfl
  · rw [Session.queueFrame, encodeFrame, if_pos (not_le.1 hbody)] at hused
    cases hused

theorem replied_used {s s' : Session} {requestId : UInt64} (h : s.Replied requestId s') (hused : s'.used = true) :
    ∃ type body, body.length ≤ maxFrameBytes - headerBytes ∧
      s'.outbound = s.outbound ++ (Request.mk type requestId body).bytes := by
  cases h with
  | ended => cases hused
  | @queued type body encoded hencode =>
    have hbody : body.length ≤ maxFrameBytes - headerBytes := by
      by_contra hlong
      rw [encodeFrame, if_pos (not_le.1 hlong)] at hencode
      cases hencode
    rw [encodeFrame_eq _ _ _ hbody, List.nil_append] at hencode
    cases hencode
    exact ⟨type, body, hbody, rfl⟩

/-- Where the session stays open, one reply is queued, which says what became of the change. -/
theorem answers (e : Exchange) (hused : e.outcome.2.used = true) :
    ∃ reply : Request, reply.body.length ≤ maxFrameBytes - headerBytes ∧ e.queued = reply.bytes ∧ e.Answers reply := by
  have houtcome := Coordinator.handleFrame_outcome e.around e.coordinator e.session e.frame
  have hreplied := (Coordinator.handleFrame_answers e.around e.coordinator e.session e.frame).replied
  suffices ∃ reply : Request, reply.body.length ≤ maxFrameBytes - headerBytes ∧
      e.outcome.2.outbound = e.session.outbound ++ reply.bytes ∧ e.Answers reply by
    obtain ⟨reply, hbody, hout, hanswers⟩ := this
    exact ⟨reply, hbody, by rw [queued, hout, List.drop_left], hanswers⟩
  unfold outcome at hused ⊢
  -- the outcome names the reply but for a frame that asks for no change, which has some reply all the same
  generalize hchange : Coordinator.requested e.frame = change at houtcome
  generalize Coordinator.handleFrame e.around e.frame e.coordinator e.session = out at houtcome hreplied hused ⊢
  cases houtcome with
  | asked _ _ =>
    obtain ⟨type, body, hbody, hout⟩ := replied_used hreplied hused
    exact ⟨_, hbody, hout, .asked type body hchange⟩
  | refused m hrefused =>
    obtain ⟨hbody, hout⟩ := queued_queueFrame hused
    exact ⟨_, hbody, hout, .refused m _ hchange hrefused rfl rfl⟩
  | accepted m body haccepted hok hsequence =>
    obtain ⟨hbody, hout⟩ := queued_queueFrame hused
    exact ⟨_, hbody, hout, .accepted m body hchange haccepted hok hsequence⟩

end Exchange

/-! ## The exchanges of a connection -/

namespace Machine

/-- The frame of a slot that a step handles, with what meets it. -/
def exchanges (m : Machine) (index : Nat) : Action → List Exchange
  | .proceed os =>
    match m.session index, m.point index with
    | some s, some (.handling _ frame) => [⟨os.around, m.coordinator, s, frame⟩]
    | _, _ => []
  | _ => []

/-- The session behind a step that handles a frame is the one that the exchange leaves. -/
theorem session_exchanged {m : Machine} {index : Nat} {os : Outside} {processed : Nat} {frame : Frame} {s s' : Session}
    (hs : m.session index = some s) (hpoint : m.point index = some (.handling processed frame))
    (hs' : (m.step (.proceed os)).session index = some s') :
    s' = (Exchange.mk os.around m.coordinator s frame).outcome.2 := by
  obtain ⟨c, control⟩ := m
  obtain ⟨hsession, -⟩ := session_eq_some.1 hs
  have hsession : c.sessions[index]? = some s := hsession
  cases control with
  | pumping i point =>
    unfold Machine.point at hpoint
    simp only at hpoint
    split at hpoint
    · rename_i hi
      subst hi
      cases hpoint
      -- the pump stores the session that the handler leaves, whether it goes on or not
      obtain ⟨c', next, hstep⟩ : ∃ c' next, Machine.step ⟨c, .pumping i (.handling processed frame)⟩ (.proceed os) =
          settle c' i (Exchange.mk os.around c s frame).outcome.2 next := by
        unfold Exchange.outcome Machine.step proceed Coordinator.pump
        simp only [hsession]
        cases hused : (Coordinator.handleFrame os.around frame c s).2.used with
        | false => exact ⟨_, _, rfl⟩
        | true => exact ⟨_, _, rfl⟩
      rw [hstep] at hs'
      rcases session_settle hs' with ⟨-, hsame, -⟩ | ⟨hne, -⟩
      · exact hsame
      · exact absurd rfl hne
    · cases hpoint
  | idle | visiting _ | draining _ _ | drainFlushing _ _ => cases hpoint

/-- What a step adds to a conversation is what its exchange handles and queues. -/
theorem next_exchanges {m : Machine} {index : Nat} {a : Action} {s s' : Session} (hs : m.session index = some s)
    (hs' : (m.step a).session index = some s') (t : Conversation) :
    (t.next index m a).handled = t.handled ++ (m.exchanges index a).map Exchange.frame ∧
      (t.next index m a).queued = t.queued ++ (m.exchanges index a).map Exchange.queued := by
  unfold Conversation.next exchanges
  rw [hs, hs']
  cases a with
  | proceed os =>
    cases hpoint : m.point index with
    | none => exact ⟨rfl, rfl⟩
    | some point =>
      cases point with
      | handling processed frame =>
        have hsame := session_exchanged hs hpoint hs'
        refine ⟨rfl, ?_⟩
        simp only [Conversation.after, Point.inHand, List.map_cons, List.map_nil, Exchange.queued, ← hsame]
      | _ => exact ⟨rfl, rfl⟩
  | requestStop | stop os =>
    cases m.point index with
    | none => exact ⟨rfl, rfl⟩
    | some point => exact ⟨rfl, rfl⟩

/-- While a slot stays in use, each of its exchanges leaves the session open. -/
theorem used_exchanges {m : Machine} {index : Nat} {a : Action} {s s' : Session} (hs : m.session index = some s)
    (hs' : (m.step a).session index = some s') : ∀ e ∈ m.exchanges index a, e.outcome.2.used = true := by
  unfold exchanges
  cases a with
  | proceed os =>
    simp only [hs]
    cases hpoint : m.point index with
    | none => exact fun e he => absurd he List.not_mem_nil
    | some point =>
      cases point with
      | handling processed frame =>
        intro e he
        obtain rfl := List.mem_singleton.1 he
        rw [← session_exchanged hs hpoint hs']
        exact (session_eq_some.1 hs').2
      | _ => exact fun e he => absurd he List.not_mem_nil
  | requestStop | stop os => exact fun e he => absurd he List.not_mem_nil

/-- While a slot stays in use, its exchanges are what its conversation handles and queues. -/
theorem run_exchanges {m : Machine} {index : Nat} {since : List Action}
    (hopen : ∀ n ≤ since.length, ∃ s, (m.run (since.take n)).session index = some s) (t : Conversation) :
    (Watched.run index ⟨m, t⟩ since).conversation.handled =
        t.handled ++ (trace step (fun m => m.exchanges index) m since).map Exchange.frame ∧
      (Watched.run index ⟨m, t⟩ since).conversation.queued =
        t.queued ++ (trace step (fun m => m.exchanges index) m since).map Exchange.queued ∧
      ∀ e ∈ trace step (fun m => m.exchanges index) m since, e.outcome.2.used = true := by
  induction since generalizing m t with
  | nil => exact ⟨(List.append_nil _).symm, (List.append_nil _).symm, fun e he => absurd he List.not_mem_nil⟩
  | cons a since ih =>
    obtain ⟨s, hs⟩ := hopen 0 (Nat.zero_le _)
    have hs : m.session index = some s := hs
    obtain ⟨s', hs'⟩ := hopen 1 (by simp)
    have hs' : (m.step a).session index = some s' := hs'
    obtain ⟨hhandled, hqueued, hused⟩ := ih (m := m.step a)
      (fun n hn => hopen (n + 1) (Nat.succ_le_succ hn)) (t.next index m a)
    obtain ⟨hframe, hreply⟩ := next_exchanges hs hs' t
    rw [trace]
    refine ⟨?_, ?_, ?_⟩
    · rw [List.map_append, ← List.append_assoc, ← hframe]
      exact hhandled
    · rw [List.map_append, ← List.append_assoc, ← hreply]
      exact hqueued
    · intro e he
      rcases List.mem_append.1 he with he | he
      · exact used_exchanges hs hs' e he
      · exact hused e he

end Machine

/-- Each of some exchanges that leave their session open has its reply. -/
theorem Exchange.replies {exchanges : List Exchange} (h : ∀ e ∈ exchanges, e.outcome.2.used = true) :
    ∃ replies : List Request, List.Forall₂ Exchange.Answers exchanges replies ∧
      (∀ r ∈ replies, r.body.length ≤ maxFrameBytes - headerBytes) ∧
      exchanges.map Exchange.queued = replies.map Request.bytes := by
  induction exchanges with
  | nil => exact ⟨[], .nil, fun r hr => absurd hr List.not_mem_nil, rfl⟩
  | cons e exchanges ih =>
    rw [List.forall_mem_cons] at h
    obtain ⟨reply, hbody, hqueued, hanswers⟩ := e.answers h.1
    obtain ⟨replies, hreplies, hbodies, hbytes⟩ := ih h.2
    refine ⟨reply :: replies, .cons hanswers hreplies, List.forall_mem_cons.2 ⟨hbody, hbodies⟩, ?_⟩
    rw [List.map_cons, List.map_cons, hqueued, hbytes]

/-- The exchanges of a connection since it was accepted. -/
theorem Watched.exchanges {m : Machine} {index : Nat} {since : List Action} (hfree : m.session index = none)
    (hopen : ∀ n, 0 < n → n ≤ since.length → ∃ s, (m.run (since.take n)).session index = some s) :
    (run index ⟨m, {}⟩ since).conversation.handled =
        (trace Machine.step (fun m => m.exchanges index) m since).map Exchange.frame ∧
      (run index ⟨m, {}⟩ since).conversation.queued =
        (trace Machine.step (fun m => m.exchanges index) m since).map Exchange.queued ∧
      ∀ e ∈ trace Machine.step (fun m => m.exchanges index) m since, e.outcome.2.used = true := by
  cases since with
  | nil => exact ⟨rfl, rfl, fun e he => absurd he List.not_mem_nil⟩
  | cons a since =>
    -- the step that accepts the connection handles no frame for it
    have hnone : m.exchanges index a = [] := by
      unfold Machine.exchanges
      rw [hfree]
      cases a with
      | proceed os => rfl
      | requestStop => rfl
      | stop os => rfl
    have hopen' : ∀ n ≤ since.length, ∃ s, ((m.step a).run (since.take n)).session index = some s := fun n hn =>
      hopen (n + 1) (Nat.succ_pos n) (Nat.succ_le_succ hn)
    rw [run_cons_free hfree, trace, hnone]
    exact Machine.run_exchanges hopen' {}

/-- Whatever has reached the client of a connection, and in whatever pieces: the frames that it reads answer its requests,
one for each and in their order, each with the identifier of its request, and a reply to a request for a change says what
became of the change. A read fails only where the bytes of the replies that were queued end. -/
theorem replies_read (options : CoordinatorOptions) (runtime : Runtime) (directory : Directory)
    (before since : List Action) {m : Machine} (hm : (Coordinator.start options runtime directory).run before = m)
    {index : Nat} (hfree : m.session index = none)
    (hopen : ∀ n, 0 < n → n ≤ since.length → ∃ s, (m.run (since.take n)).session index = some s)
    {requests : List Request} {bytes : Bytes} (hrequests : Request.encodeAll requests [] = .ok bytes)
    (hreceived : (Watched.run index ⟨m, {}⟩ since).conversation.received <+: bytes)
    {s : Socket} (harrived : s.bytes <+: (Watched.run index ⟨m, {}⟩ since).conversation.sent) (n : Nat) :
    readFrames s n = .error s.ending.failure ∧
        ((trace Machine.step (fun m => m.exchanges index) m since).length < n ∨ s.bytes.length <
          (((trace Machine.step (fun m => m.exchanges index) m since).take n).flatMap Exchange.queued).length) ∨
      ∃ exchanges replies t, exchanges <+: trace Machine.step (fun m => m.exchanges index) m since ∧
        exchanges.map Exchange.frame = (requests.take n).map Request.frame ∧
        List.Forall₂ Exchange.Answers exchanges replies ∧ replies.length = n ∧
        readFrames s n = .ok (replies.map Request.frame, t) := by
  obtain ⟨hbodies, rfl⟩ := Request.encodeAll_ok hrequests
  have horder := (Watched.inv_run since (Watched.inv_free options runtime directory before hm hfree)).inOrder hbodies
    hreceived
  obtain ⟨hhandled, hqueued, hused⟩ := Watched.exchanges hfree hopen
  obtain ⟨replies, hanswers, hreplies, hbytes⟩ := Exchange.replies hused
  -- what was sent begins the replies, each as it was queued
  obtain ⟨unsent, hsent⟩ : ∃ unsent, (Watched.run index ⟨m, {}⟩ since).conversation.sent ++ unsent =
      replies.flatMap Request.bytes := by
    rw [List.flatMap_def, ← hbytes, ← hqueued]
    cases since with
    | nil => exact ⟨[], rfl⟩
    | cons a since =>
      obtain ⟨u, hu⟩ := hopen (a :: since).length (Nat.succ_pos _) le_rfl
      rw [List.take_length] at hu
      exact ⟨_, horder.replies u (by rw [Watched.run_machine]; exact hu)⟩
  obtain ⟨coming, hcoming⟩ := harrived
  rw [← hcoming, List.append_assoc] at hsent
  rcases readFrames_requests hreplies hsent n with ⟨t, hread, hn⟩ | ⟨hread, hshort⟩
  · have hframes : ((trace Machine.step (fun m => m.exchanges index) m since).take n).map Exchange.frame =
        (requests.take n).map Request.frame := by
      obtain ⟨others, hothers⟩ := horder.handled
      rw [List.map_take, List.map_take, ← hothers, hhandled, List.take_append_of_le_length]
      rwa [List.length_map, hanswers.length_eq]
    exact .inr ⟨_, replies.take n, t, List.take_prefix n _, hframes, List.forall₂_take n hanswers,
      List.length_take_of_le hn, hread⟩
  · refine .inl ⟨hread, ?_⟩
    rw [List.flatMap_def, List.map_take, hbytes, ← List.map_take, ← List.flatMap_def, hanswers.length_eq]
    exact hshort

/-- The reply to a request for a change that is refused. -/
theorem Exchange.Answers.of_refused {e : Exchange} {reply : Request} (h : e.Answers reply) {m : Mutation}
    (hrequested : Coordinator.requested e.frame = some m) (hrefused : (e.performed m).ok = false) :
    reply.requestId = e.frame.header.requestId ∧ reply.type = .error := by
  cases h with
  | asked _ _ hnone =>
    rw [hrequested] at hnone
    cases hnone
  | refused _ _ _ _ _ _ => exact ⟨rfl, rfl⟩
  | accepted _ _ hsome haccepted _ _ =>
    rw [hrequested] at hsome
    cases hsome
    rw [hrefused] at haccepted
    cases haccepted

/-- The replies to the requests for retirements, which arrive in two pieces. -/
def retirementReplies : Socket where
  arrivals :=
    let sent := (Watched.run 0 ⟨retirementStart, {}⟩ retirementRun).conversation.sent
    [sent.take 50, sent.drop 50]
  ending := .closed
  solid := by decide +kernel

theorem replies_read_retirements : ∃ first second t, readFrames retirementReplies 2 =
      .ok ([first, second].map Request.frame, t) ∧
    (first.requestId = 1 ∧ first.type = .error) ∧ second.requestId = 2 ∧ second.type = .error := by
  have hrun : retirementStart.session 0 = none ∧
      (∀ n ≤ retirementRun.length, 0 < n → ((retirementStart.run (retirementRun.take n)).session 0).isSome = true) ∧
      (Watched.run 0 ⟨retirementStart, {}⟩ retirementRun).conversation.received = retirementBytes ∧
      retirementReplies.bytes = (Watched.run 0 ⟨retirementStart, {}⟩ retirementRun).conversation.sent ∧
      (((trace Machine.step (fun m => m.exchanges 0) retirementStart retirementRun).take 2).flatMap
        Exchange.queued).length ≤ retirementReplies.bytes.length ∧
      (trace Machine.step (fun m => m.exchanges 0) retirementStart retirementRun).map
        (fun e => ((e.performed (.retire (.repeating 1))).ok, (e.performed (.retire (.repeating 2))).ok, e.frame)) =
          retirementRequests.map fun r => (false, false, r.frame) := by
    decide +kernel
  obtain ⟨hfree, hopen, hreceived, harrived, hlong, hexchanges⟩ := hrun
  have hlength := congrArg List.length hexchanges
  rw [List.length_map, List.length_map] at hlength
  rcases replies_read { maxSessions := 1 } idleRuntime (.fresh []) [] retirementRun (m := retirementStart) rfl hfree
    (fun n hpos hn => Option.isSome_iff_exists.1 (hopen n hn hpos)) encodeAll_retirementRequests
    (by rw [hreceived]) (by rw [harrived]) 2 with
      ⟨-, hfew | hshort⟩ | ⟨exchanges, replies, t, hfirst, -, hanswers, htwo, hread⟩
  · exact absurd hlength.ge (not_le.2 hfew)
  · exact absurd hlong (not_le.2 hshort)
  · -- the two replies are those of the two exchanges
    have hwhole := hfirst.eq_of_length ((hanswers.length_eq.trans htwo).trans hlength.symm)
    obtain ⟨first, second, rfl⟩ := List.length_eq_two.1 htwo
    obtain ⟨e, rest, hanswer, hrest, hsplit⟩ := List.forall₂_cons_right_iff.1 hanswers
    obtain ⟨e', rest', hanswer', hnone, rfl⟩ := List.forall₂_cons_right_iff.1 hrest
    obtain rfl := List.forall₂_nil_right_iff.1 hnone
    rw [← hwhole, hsplit] at hexchanges
    obtain ⟨he, hothers⟩ := List.cons.inj hexchanges
    obtain ⟨he', -⟩ := List.cons.inj hothers
    obtain ⟨hrefused, hframe⟩ := Prod.mk.inj he
    obtain ⟨-, hframe⟩ := Prod.mk.inj hframe
    obtain ⟨-, hframe'⟩ := Prod.mk.inj he'
    obtain ⟨hrefused', hframe'⟩ := Prod.mk.inj hframe'
    have hfirst' := hanswer.of_refused (hframe ▸ requested_retirementRequest 1 (by simp)) hrefused
    have hsecond' := hanswer'.of_refused (hframe' ▸ requested_retirementRequest 2 (by simp)) hrefused'
    rw [hframe] at hfirst'
    rw [hframe'] at hsecond'
    exact ⟨first, second, t, hread, hfirst', hsecond'⟩

end Wnc
