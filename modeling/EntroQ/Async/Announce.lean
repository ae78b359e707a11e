import EntroQ.Async.Handlers

/-! # What the handlers announce

Every handler answers on the queue its frame names. A frame that does not end its direction carries
the queue of its side, which is a new one just when the turn says so. -/

namespace EntroQ.Async
open Worker

section Common
variable {c : Settings}

/-- What comes of asking for the next part, of the side's own queue. -/
def Asked.Keeps {α : Type} (old : ReceiveLane) (last : α → Bool) (events : List α) : Asked α → Prop
  | .badPeer _ => True
  | .ended lanes _ => lanes.local_ = old
  | .control lanes turn => turn ≠ .done ∧ (turn ≠ .rotated → lanes.local_ = old)
  | .data lanes e rest turn =>
    events = e :: rest ∧ (turn = .done ↔ last e = true) ∧ (turn ≠ .rotated → lanes.local_ = old)

theorem ask_keeps {α : Type} (lanes : SessionLanes) (peer : String) (events : List α)
    (last : α → Bool) (i : AskInput) :
    (lanes.ask c peer events last i).Keeps lanes.local_ last events := by
  unfold SessionLanes.ask
  split
  · trivial
  · exact ⟨nofun, fun h => absurd rfl h⟩
  · next l hl =>
    have hlocal := SessionLanes.observePeer_local hl
    cases hw : i.wait with
    | ended expired => exact hlocal
    | deadline =>
      simp only [receiveBefore]
      split_ifs
      · exact ⟨nofun, fun _ => hlocal⟩
      · exact ⟨nofun, fun h => absurd rfl h⟩
    | event =>
      cases events with
      | nil =>
        simp only [receiveBefore]
        split_ifs
        · exact ⟨nofun, fun _ => hlocal⟩
        · exact ⟨nofun, fun h => absurd rfl h⟩
      | cons e rest =>
        simp only [receiveBefore]
        split_ifs with hlast hpig
        · exact ⟨rfl, by simp [hlast], fun _ => hlocal⟩
        · exact ⟨rfl, by simp [hlast], fun h => absurd rfl h⟩
        · exact ⟨rfl, by simp [hlast], fun _ => hlocal⟩

theorem acknowledge_keeps (lanes : SessionLanes) (reciprocate : Bool) (now rotateAt : Time) :
    (lanes.acknowledge c reciprocate now rotateAt).2 ≠ .done ∧
      ((lanes.acknowledge c reciprocate now rotateAt).2 ≠ .rotated →
        (lanes.acknowledge c reciprocate now rotateAt).1.local_ = lanes.local_) := by
  unfold SessionLanes.acknowledge
  split_ifs
  · exact ⟨nofun, fun h => absurd rfl h⟩
  · exact ⟨nofun, fun h => absurd rfl h⟩
  · exact ⟨nofun, fun _ => rfl⟩

theorem observeUnless_local {lanes l : SessionLanes} {final b : Bool} {peer : String}
    (h : lanes.observeUnless c final peer = .ok (l, b)) : l.local_ = lanes.local_ := by
  unfold SessionLanes.observeUnless at h
  split_ifs at h
  · cases h
    rfl
  · exact SessionLanes.observePeer_local h

end Common

section Handlers
variable (c : Settings)

/-- A reply to the peer that carries the side's queue, or ends the direction. -/
theorem announces_of_reply {V : Type} [Frame V] {old new : ReceiveLane} {r : LaneResult V}
    {peer : String} {v : V} (hreply : r.reply = some (peer, v))
    (hmoved : r.turn ≠ .rotated → new = old)
    (hopen : r.turn ≠ .done → (Frame.control v).replyQueue = new.queue)
    (hdone : r.turn = .done → (Frame.control v).replyQueue = "") :
    r.Announces old new peer where
  moved := hmoved
  to_peer q v' h := by
    rw [hreply] at h
    cases h
    rfl
  opens h := ⟨peer, v, hreply, hopen h⟩
  closes h q v' hr := by
    rw [hreply] at hr
    cases hr
    exact hdone h

/-- The end of a direction, with at most a frame that names no queue. -/
theorem announces_done {V : Type} [Frame V] {old : ReceiveLane} {r : LaneResult V} {peer : String}
    (ht : r.turn = .done)
    (hreply : ∀ q v, r.reply = some (q, v) → q = peer ∧ (Frame.control v).replyQueue = "") :
    r.Announces old old peer where
  moved _ := rfl
  to_peer q v h := (hreply q v h).1
  opens h := absurd ht h
  closes _ q v h := (hreply q v h).2

theorem responseHandler_leaves (st : ResponseSource) (i : AskInput) (w : Work Response) :
    Leaves ResponseSource.lanes st.lanes.local_ (Frame.control w.value).replyQueue
      (responseHandler c st i w) := by
  unfold responseHandler
  dsimp only
  split
  · rfl
  split
  · split
    · rfl
    split
    · split
      · rfl
      · exact announces_done rfl nofun
    split
    · rfl
    have hk := ask_keeps (c := c) st.lanes w.value.replyQueue st.coming SocketEvent.end_ i
    split
    · rfl
    · next h => rwa [h] at hk
    · next h =>
      rw [h] at hk
      exact announces_of_reply rfl hk.2 (fun _ => rfl) fun h => absurd h hk.1
    · next h =>
      rw [h] at hk
      exact announces_of_reply rfl hk.2.2 (fun h => if_neg (mt hk.2.1.mpr h))
        fun h => if_pos (hk.2.1.mp h)
  · rfl

theorem handleRequestAck_leaves (st : RequestSource) (i : AskInput) (w : Work Envelope) :
    Leaves RequestSource.lanes st.lanes.local_ (Frame.control w.value).replyQueue
      (handleRequestAck c st i w) := by
  unfold handleRequestAck
  dsimp only
  split
  · rfl
  split
  · rfl
  split
  · split
    · rfl
    · exact announces_done rfl nofun
  split
  · rfl
  have hk := ask_keeps (c := c) st.lanes w.value.replyQueue st.coming BodyEvent.end_ i
  split
  · rfl
  · next h => rwa [h] at hk
  · next h =>
    rw [h] at hk
    exact announces_of_reply rfl hk.2 (fun _ => rfl) fun h => absurd h hk.1
  · next h =>
    rw [h] at hk
    exact announces_of_reply rfl hk.2.2 (fun h => if_neg (mt hk.2.1.mpr h))
      fun h => if_pos (hk.2.1.mp h)

theorem ResponseSink.finish_leaves (st : ResponseSink) (wasStarted reciprocate : Bool)
    (i : WriteInput) (resp : Response) :
    Leaves ResponseSink.lanes st.lanes.local_ resp.replyQueue
      (st.finish c wasStarted reciprocate i resp) := by
  unfold ResponseSink.finish
  dsimp only
  split
  · exact announces_done rfl nofun
  split
  · rfl
  · have hk := acknowledge_keeps (c := c) st.lanes reciprocate i.now i.rotateAt
    exact announces_of_reply rfl hk.2 (fun _ => rfl) fun h => absurd h hk.1

theorem ResponseSink.start_lanes {st st' : ResponseSink} {resp : Response}
    (h : st.start c resp = .ok st') : st'.lanes = st.lanes := by
  unfold ResponseSink.start at h
  split_ifs at h <;> cases h <;> rfl

theorem announces_failure {V : Type} [Frame V] {old : ReceiveLane} {r : LaneResult V}
    {peer : String} {v : V} (ht : r.turn = .done)
    (hr : r.reply = if peer ≠ "" then some (peer, v) else none)
    (hv : (Frame.control v).replyQueue = "") : r.Announces old old peer := by
  refine announces_done ht fun q v' h => ?_
  rw [hr] at h
  split_ifs at h
  cases h
  exact ⟨rfl, hv⟩

theorem handleResponse_leaves (st : ResponseSink) (i : WriteInput) (w : Work Response) :
    Leaves ResponseSink.lanes st.lanes.local_ (Frame.control w.value).replyQueue
      (handleResponse c st i w) := by
  unfold handleResponse
  dsimp only
  split
  · rfl
  split
  · rfl
  split
  · rfl
  split
  · rfl
  split
  · rfl
  next h =>
  rw [← observeUnless_local h]
  split
  · rfl
  next hs =>
  have hl := ResponseSink.start_lanes c hs
  dsimp only at hl
  rw [← hl]
  split
  · exact announces_failure rfl rfl rfl
  · exact ResponseSink.finish_leaves ..

theorem RequestSink.finish_leaves (st : RequestSink) (reciprocate consumedBody : Bool)
    (i : SocketInput) (env : Envelope) :
    (st.finish c reciprocate consumedBody i env).2.Announces st.lanes.local_
      (st.finish c reciprocate consumedBody i env).1.lanes.local_ env.replyQueue := by
  unfold RequestSink.finish
  dsimp only
  split
  · exact announces_done rfl nofun
  · have hk := acknowledge_keeps (c := c) st.lanes reciprocate i.now i.rotateAt
    exact announces_of_reply rfl hk.2 (fun _ => rfl) fun h => absurd h hk.1

theorem requestHandler_leaves (st : RequestSink) (i : SocketInput) (w : Work Envelope) :
    Leaves RequestSink.lanes st.lanes.local_ (Frame.control w.value).replyQueue
      (requestHandler c st i w) := by
  unfold requestHandler
  dsimp only
  split
  · rfl
  split
  · rfl
  split
  · rfl
  split
  · rfl
  split
  · rfl
  split
  · refine announces_done rfl fun q v h => ?_
    cases h
    exact ⟨rfl, rfl⟩
  split
  · rfl
  split
  · rfl
  next h =>
  rw [← observeUnless_local h]
  split
  · split
    · exact announces_failure rfl rfl rfl
    · exact RequestSink.finish_leaves ..
  · exact RequestSink.finish_leaves ..

def requestAcks : LaneHandler RequestSource AskInput Envelope where
  lanes := RequestSource.lanes
  handle := handleRequestAck c
  leaves := handleRequestAck_leaves c

def requestData : LaneHandler RequestSink SocketInput Envelope where
  lanes := RequestSink.lanes
  handle := requestHandler c
  leaves := requestHandler_leaves c

def responseAcks : LaneHandler ResponseSource AskInput Response where
  lanes := ResponseSource.lanes
  handle := responseHandler c
  leaves := responseHandler_leaves c

def responseData : LaneHandler ResponseSink WriteInput Response where
  lanes := ResponseSink.lanes
  handle := handleResponse c
  leaves := handleResponse_leaves c

end Handlers

end EntroQ.Async
