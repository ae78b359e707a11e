import EntroQ.Async.LaneAgreement

/-! # The response stream

The receiver takes an event of the upstream's response and commits a frame with its body; the sender
writes the body to its caller and commits an acknowledgement. A commit that is refused after either
ends the lane. A claim that a renewal finds lost does not, and the turn is made again: what it took
is gone, and what it wrote is written again. -/

namespace EntroQ.Async
open Foundation Worker

def bodies (events : List SocketEvent) : Bytes := events.flatMap SocketEvent.body

/-! ## What the handlers do with the stream -/

/-- What the receiver does with an acknowledgement. -/
inductive AckHandled (ack : Response) (st : ResponseSource) :
    ResponseSource × Except Err (LaneResult Response) → Prop
  | failed {st' : ResponseSource} {e : Err} (coming : st'.coming = st.coming)
      (taken : st'.taken = st.taken) : AckHandled ack st (st', .error e)
  | ended {st' : ResponseSource} {r : LaneResult Response} (final : ack.final = true)
      (coming : st'.coming = st.coming) (taken : st'.taken = st.taken) (reply : r.reply = none) :
      AckHandled ack st (st', .ok r)
  | control {st' : ResponseSource} {r : LaneResult Response} {q : String} {v : Response}
      (final : ack.final = false) (coming : st'.coming = st.coming) (taken : st'.taken = st.taken)
      (reply : r.reply = some (q, v)) (body : v.body = []) (open_ : v.final = false) :
      AckHandled ack st (st', .ok r)
  | data {st' : ResponseSource} {r : LaneResult Response} {q : String} {v : Response}
      {e : SocketEvent} (final : ack.final = false) (coming : st.coming = e :: st'.coming)
      (taken : st'.taken = st.taken ++ [e]) (reply : r.reply = some (q, v)) (body : v.body = e.body)
      (ends : v.final = e.end_) (hook : r.onDependency.isSome) : AckHandled ack st (st', .ok r)

/-- What the sender does with a frame. -/
inductive FrameHandled (resp : Response) (st : ResponseSink) :
    ResponseSink × Except Err (LaneResult Response) → Prop
  | fatal {st' : ResponseSink} {m : FatalError}
      (written : st'.written <+: st.written ++ resp.body) :
      FrameHandled resp st (st', .error m.err)
  | callerFailed {st' : ResponseSink} {r : LaneResult Response} (body : resp.body ≠ [])
      (written : st'.written <+: st.written ++ resp.body) (caller : st'.callerErr.isSome)
      (done : r.turn = .done) (reply : ∀ q v, r.reply = some (q, v) → v.final = true)
      (hook : r.onDependency.isSome) : FrameHandled resp st (st', .ok r)
  | ended {st' : ResponseSink} {r : LaneResult Response} (final : resp.final = true)
      (written : st'.written = st.written ++ resp.body) (done : r.turn = .done)
      (reply : r.reply = none) (hook : r.onDependency.isSome) : FrameHandled resp st (st', .ok r)
  | acked {st' : ResponseSink} {r : LaneResult Response} {q : String} {v : Response}
      (final : resp.final = false) (written : st'.written = st.written ++ resp.body)
      (turn : r.turn ≠ .done) (reply : r.reply = some (q, v)) (open_ : v.final = false)
      (hook : r.onDependency.isSome) : FrameHandled resp st (st', .ok r)

section Handlers
variable (c : Settings)

theorem responseHandler_handled (st : ResponseSource) (i : AskInput) (w : Work Response) :
    AckHandled w.value st (responseHandler c st i w) := by
  unfold responseHandler
  dsimp only
  split
  · exact .failed rfl rfl
  split
  · split
    · exact .failed rfl rfl
    split
    · next hfinal =>
      split
      · exact .failed rfl rfl
      · exact .ended hfinal rfl rfl rfl
    next hfinal =>
    split
    · exact .failed rfl rfl
    have hk := ask_keeps (c := c) st.lanes w.value.replyQueue st.coming SocketEvent.end_ i
    rw [Bool.not_eq_true] at hfinal
    split
    · exact .failed rfl rfl
    · exact .failed rfl rfl
    · exact .control hfinal rfl rfl rfl rfl rfl
    · next h =>
      rw [h] at hk
      exact .data hfinal hk.1 rfl rfl rfl rfl rfl
  · exact .failed rfl rfl

theorem ResponseSink.start_written {st st' : ResponseSink} {resp : Response}
    (h : st.start c resp = .ok st') : st'.written = st.written := by
  unfold ResponseSink.start at h
  split_ifs at h <;> cases h <;> rfl

theorem ResponseSink.start_fatal {st : ResponseSink} {resp : Response} {e : Err}
    (h : st.start c resp = .error e) : ∃ m : FatalError, e = m.err := by
  unfold ResponseSink.start at h
  split_ifs at h <;> cases h <;> exact ⟨_, rfl⟩

theorem handleResponse_handled (st : ResponseSink) (i : WriteInput) (w : Work Response) :
    FrameHandled w.value st (handleResponse c st i w) := by
  have hpre : st.written <+: st.written ++ w.value.body := List.prefix_append _ _
  unfold handleResponse
  dsimp only
  split
  · exact .fatal hpre
  split
  · exact .fatal hpre
  split
  · exact .fatal hpre
  split
  · exact .fatal hpre
  split
  · exact .fatal hpre
  split
  · next he =>
    obtain ⟨m, rfl⟩ := ResponseSink.start_fatal c he
    exact .fatal hpre
  next started hs =>
  have hwritten : started.written = st.written := (ResponseSink.start_written c hs).trans rfl
  split
  · next n e hw =>
    have hbody : w.value.body ≠ [] := by
      intro hnil
      simp [hnil] at hw
    refine .callerFailed hbody ?_ rfl rfl (fun q v h => ?_) rfl
    · change started.written ++ w.value.body.take n <+: _
      rw [hwritten]
      exact (List.prefix_append_right_inj _).mpr (List.take_prefix _ _)
    · dsimp only at h
      split_ifs at h
      cases h
      rfl
  · unfold ResponseSink.finish
    dsimp only
    split
    · next hfinal => exact .ended hfinal (by rw [← hwritten]; rfl) rfl rfl rfl
    next hfinal =>
    rw [Bool.not_eq_true] at hfinal
    split
    · exact .fatal (by rw [← hwritten]; exact List.prefix_rfl)
    · exact .acked hfinal (by rw [← hwritten]; rfl) (acknowledge_keeps ..).1 rfl rfl rfl

end Handlers

/-! ## The invariant -/

abbrev ResponseSys := LaneSys ResponseSource ResponseSink Response

def Status.claims : Status → Bool
  | .claiming _ => true
  | _ => false

/-- The frame that the receiver is about to commit has no part of the body. -/
def Pending.tookNothing (p : Pending Response) : Bool :=
  p.result.all fun r => r.reply.all fun (_, v) => v.body.isEmpty

/-- The frame that the sender has claimed has no part of the body. -/
def Pending.wroteNothing (p : Pending Response) : Bool := p.work.value.body.isEmpty

/-- A turn whose claim is found lost has neither taken nor written a part of the body. -/
def keepsClaim (s : ResponseSys) : Event AskInput WriteInput → Bool
  | .endA (.lost _) => s.a.pending.all Pending.tookNothing
  | .endB (.lost _) => s.b.pending.all Pending.wroteNothing
  | _ => true

/-- A turn of the receiver whose handler has returned. -/
def Asking (s : ResponseSys) (p : Pending Response) : Prop :=
  match p.handled with
  | .error _ => p.work.value.final = false → s.b.st.written = bodies s.a.st.taken
  | .ok r =>
    match r.reply with
    | none => p.work.value.final = true
    | some (_, v) => s.b.st.written ++ v.body = bodies s.a.st.taken ∧
      (v.final = true → s.a.st.coming = []) ∧ (v.body ≠ [] → r.onDependency.isSome)

/-- A turn of the sender whose handler has returned. -/
def Writing (s : ResponseSys) (p : Pending Response) : Prop :=
  match p.handled with
  | .error e => ∃ m : FatalError, e = m.err
  | .ok r => r.onDependency.isSome ∧
    (p.work.value.body ≠ [] ∧ s.b.st.callerErr.isSome ∧ r.turn = .done ∧
        (∀ q v, r.reply = some (q, v) → v.final = true) ∨
      s.b.st.written = bodies s.a.st.taken ∧
        (p.work.value.final = true ∧ r.turn = .done ∧ r.reply = none ∨
          r.turn ≠ .done ∧ ∃ q v, r.reply = some (q, v) ∧ v.final = false))

/-- Between the sides, what has been taken and not been written is in the frame. -/
structure Streams (all : List SocketEvent) (s : ResponseSys) : Prop where
  all_ : s.a.st.taken ++ s.a.st.coming = all
  ended : s.a.st.coming.Pairwise fun e _ => e.end_ = false
  written : s.b.st.written <+: bodies s.a.st.taken
  ack : ∀ q v, s.frame = .toA q v → v.final = false → s.a.pending = none →
    s.a.status.claims = true → s.b.st.written = bodies s.a.st.taken
  asking : ∀ p, s.a.pending = some p → (∃ q, s.frame = .toA q p.work.value) ∧ Asking s p
  final : ∀ q v, s.frame = .toB q v → v.final = true → s.a.st.coming = []
  data : ∀ q v, s.frame = .toB q v → s.b.pending = none → s.b.status.claims = true →
    s.b.st.written ++ v.body = bodies s.a.st.taken
  writing : ∀ p, s.b.pending = some p → (∃ q, s.frame = .toB q p.work.value) ∧ Writing s p
  done : s.b.status = .done → s.b.st.callerErr = none →
    s.b.st.written = bodies s.a.st.taken ∧ s.a.st.coming = [] ∧ s.frame = .gone

namespace Streams
variable {c c' : Settings} {k : LaneWorker Response} {all : List SocketEvent} {s : ResponseSys}

theorem bodies_append (l : List SocketEvent) (e : SocketEvent) :
    bodies (l ++ [e]) = bodies l ++ e.body := by
  simp [bodies]

/-- The receiver's handler has returned. -/
theorem of_asking (hs : Streams all s) {q : String} {p : Pending Response} {st' : ResponseSource}
    (hf : s.frame = .toA q p.work.value) (hall : st'.taken ++ st'.coming = all)
    (hended : st'.coming.Pairwise fun e _ => e.end_ = false)
    (htaken : bodies s.a.st.taken <+: bodies st'.taken)
    (hask : Asking { s with a := { s.a with st := st', pending := some p } } p) :
    Streams all { s with a := { s.a with st := st', pending := some p } } where
  all_ := hall
  ended := hended
  written := hs.written.trans htaken
  ack _ _ _ _ h := by cases h
  asking p' h := by
    cases h
    exact ⟨⟨q, hf⟩, hask⟩
  final _ _ h := by cases hf.symm.trans h
  data _ _ h := by cases hf.symm.trans h
  writing p' h := by
    obtain ⟨⟨q', hf'⟩, -⟩ := hs.writing p' h
    cases hf.symm.trans hf'
  done h h' := by cases hf.symm.trans (hs.done h h').2.2

theorem handleA (hs : Streams all s) {q : String} {v : Response} (hf : s.frame = .toA q v)
    (ha : s.a.awaits q = true) (task : Task) (sets : List DocSet) (i : AskInput) :
    Streams all { s with a := s.a.handle (responseAcks c) i ⟨task, v, sets⟩ } := by
  simp only [Side.awaits, Bool.and_eq_true, decide_eq_true_eq, Option.isNone_iff_eq_none] at ha
  have hack : v.final = false → s.b.st.written = bodies s.a.st.taken := fun h =>
    hs.ack q v hf h ha.2 (by rw [ha.1]; rfl)
  have hh := responseHandler_handled c s.a.st i ⟨task, v, sets⟩
  change Streams all { s with
    a := { s.a with
      st := (responseHandler c s.a.st i ⟨task, v, sets⟩).1
      pending := some ⟨_, (responseHandler c s.a.st i ⟨task, v, sets⟩).2⟩ } }
  generalize responseHandler c s.a.st i ⟨task, v, sets⟩ = p at hh ⊢
  -- nothing is taken, or the event at the head is
  cases hh with
  | failed coming taken =>
    refine hs.of_asking hf (by rw [taken, coming]; exact hs.all_) (by rw [coming]; exact hs.ended)
      (by rw [taken]) fun h => ?_
    change s.b.st.written = bodies _
    rw [taken]
    exact hack h
  | ended final coming taken reply =>
    refine hs.of_asking hf (by rw [taken, coming]; exact hs.all_) (by rw [coming]; exact hs.ended)
      (by rw [taken]) ?_
    simp only [Asking, reply]
    exact final
  | control final coming taken reply body open_ =>
    refine hs.of_asking hf (by rw [taken, coming]; exact hs.all_) (by rw [coming]; exact hs.ended)
      (by rw [taken]) ?_
    simp only [Asking, reply, body, open_, taken, List.append_nil]
    exact ⟨hack final, by simp, by simp⟩
  | @data st' r q' v' e final coming taken reply body ends hook =>
    have hend := hs.ended
    rw [coming, List.pairwise_cons] at hend
    refine hs.of_asking hf ?_ hend.2 ?_ ?_
    · rw [taken, List.append_assoc, List.singleton_append, ← coming]
      exact hs.all_
    · rw [taken, bodies_append]
      exact List.prefix_append _ _
    · simp only [Asking, reply, body, ends, taken, bodies_append]
      refine ⟨by rw [hack final], fun hlast => ?_, fun _ => hook⟩
      -- nothing comes after the last event
      refine List.eq_nil_iff_forall_not_mem.mpr fun e' he' => ?_
      rw [hend.1 e' he'] at hlast
      cases hlast

/-- A turn of the receiver is over, and the frame is where it was or on its way. -/
theorem of_endA (hs : Streams all s) {p : Pending Response} (hp : s.a.pending = some p)
    {x : Side ResponseSource Response} (hst : x.st = s.a.st) (hx : x.pending = none)
    {f : Flight Response} (hack : ∀ q v, f = .toA q v → v.final = false → x.status.claims = true →
      s.b.st.written = bodies s.a.st.taken)
    (hdata : ∀ q v, f = .toB q v → (v.final = true → s.a.st.coming = []) ∧
      s.b.st.written ++ v.body = bodies s.a.st.taken) :
    Streams all { s with a := x, frame := f } := by
  obtain ⟨⟨q, hf⟩, -⟩ := hs.asking p hp
  exact
    { all_ := by rw [hst]; exact hs.all_
      ended := by rw [hst]; exact hs.ended
      written := by rw [hst]; exact hs.written
      ack := fun q v h hv _ hc => by rw [hst]; exact hack q v h hv hc
      asking := fun p' h => by cases hx.symm.trans h
      final := fun q v h => by rw [hst]; exact (hdata q v h).1
      data := fun q v h _ _ => by rw [hst]; exact (hdata q v h).2
      writing := fun p' h => by
        obtain ⟨⟨q', hf'⟩, -⟩ := hs.writing p' h
        cases hf.symm.trans hf'
      done := fun h h' => by cases hf.symm.trans (hs.done h h').2.2 }

theorem endA (hs : Streams all s) {p : Pending Response} (hp : s.a.pending = some p) {e : Ending}
    (hkept : keepsClaim s (.endA e) = true) :
    Streams all { s with
      a := s.a.finish k (responseAcks c) p e, frame := s.frame.answered k p e .toB } := by
  obtain ⟨⟨q, hf⟩, hask⟩ := hs.asking p hp
  refine hs.of_endA hp (x := s.a.finish k (responseAcks c) p e) rfl rfl (fun q v h hv hc => ?_)
    fun q v h => ?_
  · obtain ⟨happ, hfx⟩ | ⟨-, _, _, -, ⟨⟩⟩ := answered_cases h (by simp)
    cases hf.symm.trans hfx
    rcases p with ⟨w, err | r⟩
    · exact hask hv
    -- the turn is made again, so what it took has no body
    rcases finish_unapplied k (responseAcks c) s.a happ with ⟨hagain, -⟩ | hstat
    · cases hr : r.reply with
      | none =>
        simp only [Asking, hr] at hask
        rw [hv] at hask
        cases hask
      | some reply =>
        simp only [Asking, hr] at hask
        have hbody : reply.2.body = [] := by
          rcases after_again hagain with ⟨d, rfl⟩ | ⟨hno, -⟩
          · simpa [keepsClaim, hp, Pending.tookNothing, Pending.result, Except.toOption, hr]
              using hkept
          · by_contra hne
            have := hask.2.2 hne
            rw [hno] at this
            cases this
        rw [hbody, List.append_nil] at hask
        exact hask.1
    · rw [hstat] at hc
      cases hc
  · obtain ⟨-, hfx⟩ | ⟨-, q', v', hr, hx⟩ := answered_cases h (by simp)
    · cases hf.symm.trans hfx
    cases hx
    rcases p with ⟨w, err | r⟩
    · cases hr
    · change r.reply = some (q, v) at hr
      simp only [Asking, hr] at hask
      exact ⟨hask.2.1, hask.1⟩

/-- The sender's handler has returned. -/
theorem of_writing (hs : Streams all s) {q q' : String} {p : Pending Response} {st' : ResponseSink}
    (hf : s.frame = .toB q p.work.value) (hstatus : s.b.status = .claiming q')
    (hwritten : st'.written <+: bodies s.a.st.taken)
    (hwrite : Writing { s with b := { s.b with st := st', pending := some p } } p) :
    Streams all { s with b := { s.b with st := st', pending := some p } } where
  all_ := hs.all_
  ended := hs.ended
  written := hwritten
  ack _ _ h := by cases hf.symm.trans h
  asking p' h := by
    obtain ⟨⟨q', hf'⟩, -⟩ := hs.asking p' h
    cases hf.symm.trans hf'
  final := hs.final
  data _ _ _ h := by cases h
  writing p' h := by
    cases h
    exact ⟨⟨q, hf⟩, hwrite⟩
  done h := by cases hstatus.symm.trans h

theorem handleB (hs : Streams all s) {q : String} {v : Response} (hf : s.frame = .toB q v)
    (hb : s.b.awaits q = true) (task : Task) (sets : List DocSet) (i : WriteInput) :
    Streams all { s with b := s.b.handle (responseData c) i ⟨task, v, sets⟩ } := by
  simp only [Side.awaits, Bool.and_eq_true, decide_eq_true_eq, Option.isNone_iff_eq_none] at hb
  have hdata : s.b.st.written ++ v.body = bodies s.a.st.taken :=
    hs.data q v hf hb.2 (by rw [hb.1]; rfl)
  have hh := handleResponse_handled c s.b.st i ⟨task, v, sets⟩
  change Streams all { s with
    b := { s.b with
      st := (handleResponse c s.b.st i ⟨task, v, sets⟩).1
      pending := some ⟨_, (handleResponse c s.b.st i ⟨task, v, sets⟩).2⟩ } }
  generalize handleResponse c s.b.st i ⟨task, v, sets⟩ = p at hh ⊢
  cases hh with
  | fatal written =>
    exact hs.of_writing hf hb.1 (by rw [← hdata]; exact written) ⟨_, rfl⟩
  | callerFailed body written caller done reply hook =>
    exact hs.of_writing hf hb.1 (by rw [← hdata]; exact written)
      ⟨hook, .inl ⟨body, caller, done, reply⟩⟩
  | ended final written done reply hook =>
    have hall := written.trans hdata
    exact hs.of_writing hf hb.1 (by rw [hall]) ⟨hook, .inr ⟨hall, .inl ⟨final, done, reply⟩⟩⟩
  | acked final written turn reply open_ hook =>
    have hall := written.trans hdata
    exact hs.of_writing hf hb.1 (by rw [hall])
      ⟨hook, .inr ⟨hall, .inr ⟨turn, _, _, reply, open_⟩⟩⟩

/-- A turn of the sender is over. -/
theorem of_endB (hs : Streams all s) {p : Pending Response} (hp : s.b.pending = some p)
    {x : Side ResponseSink Response} (hst : x.st = s.b.st) (hx : x.pending = none)
    {f : Flight Response}
    (hack : ∀ q v, f = .toA q v → v.final = false → s.b.st.written = bodies s.a.st.taken)
    (hdata : ∀ q v, f = .toB q v → v = p.work.value ∧
      (x.status.claims = true → s.b.st.written ++ v.body = bodies s.a.st.taken))
    (hdone : x.status = .done → s.b.st.callerErr = none →
      s.b.st.written = bodies s.a.st.taken ∧ s.a.st.coming = [] ∧ f = .gone) :
    Streams all { s with b := x, frame := f } := by
  obtain ⟨⟨q, hf⟩, -⟩ := hs.writing p hp
  exact
    { all_ := hs.all_
      ended := hs.ended
      written := by rw [hst]; exact hs.written
      ack := fun q v h hv _ _ => by rw [hst]; exact hack q v h hv
      asking := fun p' h => by
        obtain ⟨⟨q', hf'⟩, -⟩ := hs.asking p' h
        cases hf.symm.trans hf'
      final := fun q' v h hv => by
        obtain ⟨rfl, -⟩ := hdata q' v h
        exact hs.final q _ hf hv
      data := fun q v h _ hc => by rw [hst]; exact (hdata q v h).2 hc
      writing := fun p' h => by cases hx.symm.trans h
      done := fun h => by rw [hst]; exact hdone h }

theorem endB (hs : Streams all s) {p : Pending Response} (hp : s.b.pending = some p) {e : Ending}
    (hkept : keepsClaim s (.endB e) = true) :
    Streams all { s with
      b := s.b.finish k (responseData c) p e, frame := s.frame.answered k p e .toA } := by
  obtain ⟨⟨q, hf⟩, hwrite⟩ := hs.writing p hp
  -- a sender that has finished has no frame left
  have hopen : s.b.status = .done → s.b.st.callerErr = none → False := fun h h' => by
    cases hf.symm.trans (hs.done h h').2.2
  refine hs.of_endB hp (x := s.b.finish k (responseData c) p e) rfl rfl (fun q v h hv => ?_)
    (fun q v h => ?_) fun h hnone => ?_
  · obtain ⟨-, hfx⟩ | ⟨-, q', v', hr, hx⟩ := answered_cases h (by simp)
    · cases hf.symm.trans hfx
    cases hx
    rcases p with ⟨w, err | r⟩
    · cases hr
    · rcases hwrite.2 with ⟨-, -, -, hreply⟩ | ⟨hall, -⟩
      · rw [hreply q v hr] at hv
        cases hv
      · exact hall
  · obtain ⟨happ, hfx⟩ | ⟨-, _, _, -, ⟨⟩⟩ := answered_cases h (by simp)
    cases hf.symm.trans hfx
    refine ⟨rfl, fun hc => ?_⟩
    rcases p with ⟨w, err | r⟩
    · obtain ⟨m, rfl⟩ := hwrite
      rw [finish_status_fatal k (responseData c) s.b rfl rfl rfl] at hc
      cases hc
    obtain ⟨hook, hwrote⟩ := hwrite
    rcases finish_unapplied k (responseData c) s.b happ with ⟨hagain, -⟩ | hstatus
    · -- the turn is made again, so it wrote nothing
      have hbody : w.value.body = [] := by
        rcases after_again hagain with ⟨d, rfl⟩ | ⟨hno, -⟩
        · simpa [keepsClaim, hp, Pending.wroteNothing] using hkept
        · rw [hno] at hook
          cases hook
      rcases hwrote with ⟨hne, -⟩ | ⟨hall, -⟩
      · exact absurd hbody hne
      · change s.b.st.written ++ w.value.body = _
        rw [hbody, List.append_nil]
        exact hall
    · rw [hstatus] at hc
      cases hc
  · rcases p with ⟨w, err | r⟩
    · obtain ⟨m, rfl⟩ := hwrite
      rw [finish_status_fatal k (responseData c) s.b rfl rfl rfl] at h
      cases h
    cases happ : (⟨w, .ok r⟩ : Pending Response).applies k e with
    | true =>
      rcases hwrite.2 with ⟨-, hcaller, -⟩ | ⟨hall, ⟨hfinal, -, hreply⟩ | ⟨hturn, -⟩⟩
      · rw [hnone] at hcaller
        cases hcaller
      · have hresult : (⟨w, .ok r⟩ : Pending Response).result.bind LaneResult.reply = none := hreply
        exact ⟨hall, hs.final q _ hf hfinal, by rw [Flight.answered, if_pos happ, hresult]⟩
      · exact (finish_not_done k (responseData c) s.b hturn (fun h => hopen h hnone) h).elim
    | false =>
      rcases finish_unapplied k (responseData c) s.b happ with ⟨-, hstatus⟩ | hstatus
      · exact (hopen (hstatus.symm.trans h) hnone).elim
      · cases hstatus.symm.trans h

theorem stopA (hs : Streams all s) : Streams all { s with a := s.a.stop } where
  all_ := hs.all_
  ended := hs.ended
  written := hs.written
  ack q v _ _ _ h := by
    simp only [Side.stop] at h
    split_ifs at h
    · cases h
    · cases h
  asking p h := by cases h
  final := hs.final
  data := hs.data
  writing := hs.writing
  done := hs.done

theorem stopB (hs : Streams all s) : Streams all { s with b := s.b.stop } where
  all_ := hs.all_
  ended := hs.ended
  written := hs.written
  ack := hs.ack
  asking := hs.asking
  final := hs.final
  data q v _ _ h := by
    simp only [Side.stop] at h
    split_ifs at h
    · cases h
    · cases h
  writing p h := by cases h
  done h := by
    simp only [Side.stop] at h
    split_ifs at h with hd
    exact hs.done hd

theorem vanish (hs : Streams all s) (ha : s.a.pending = none) (hb : s.b.pending = none) :
    Streams all { s with frame := .gone } where
  all_ := hs.all_
  ended := hs.ended
  written := hs.written
  ack _ _ h := by cases h
  asking p h := by cases ha.symm.trans h
  final _ _ h := by cases h
  data _ _ h := by cases h
  writing p h := by cases hb.symm.trans h
  done h h' := ⟨(hs.done h h').1, (hs.done h h').2.1, rfl⟩

theorem step (hs : Streams all s) (ev : Event AskInput WriteInput)
    (hkept : keepsClaim s ev = true) :
    Streams all (s.step k (responseAcks c) (responseData c') ev) := by
  cases ev with
  | handleA task sets i =>
    simp only [LaneSys.step]
    split
    · next q v hf =>
      split
      · next ha => exact hs.handleA hf ha task sets i
      · exact hs
    · exact hs
  | handleB task sets i =>
    simp only [LaneSys.step]
    split
    · next q v hf =>
      split
      · next hb => exact hs.handleB hf hb task sets i
      · exact hs
    · exact hs
  | endA e =>
    simp only [LaneSys.step]
    split
    · next hp => exact hs.endA hp hkept
    · exact hs
  | endB e =>
    simp only [LaneSys.step]
    split
    · next hp => exact hs.endB hp hkept
    · exact hs
  | stopA => exact hs.stopA
  | stopB => exact hs.stopB
  | vanish =>
    simp only [LaneSys.step]
    split
    · next h =>
      rw [Bool.and_eq_true, Option.isNone_iff_eq_none, Option.isNone_iff_eq_none] at h
      exact hs.vanish h.1 h.2
    · exact hs

end Streams

/-! ## The whole stream -/

theorem readEvents_ended (trailers : Header) (closeErr : Option String) (emptyReads : ℕ)
    (reads : List BodyRead) :
    (readEvents trailers closeErr emptyReads reads).Pairwise fun e _ => e.end_ = false := by
  fun_induction readEvents trailers closeErr emptyReads reads with
  | case1 => exact List.Pairwise.nil
  | case2 _ _ _ _ _ _ ih => exact ih
  | case4 _ _ _ _ _ ih => exact List.pairwise_cons.mpr ⟨fun _ _ => rfl, ih⟩
  | _ => exact List.pairwise_singleton _ _

theorem Upstream.events_ended (u : Upstream) : u.events.Pairwise fun e _ => e.end_ = false := by
  cases u with
  | refused statusCode err => exact List.pairwise_singleton _ _
  | responds head reads trailers closeErr =>
    exact List.pairwise_cons.mpr ⟨fun _ _ => rfl, readEvents_ended trailers closeErr 0 reads⟩

/-- Nothing is taken from the upstream, and the first acknowledgement is on its way. -/
structure StreamBegins (u : Upstream) (s : ResponseSys) : Prop where
  coming : s.a.st.coming = u.events
  taken : s.a.st.taken = []
  written : s.b.st.written = []
  open_ : s.b.status ≠ .done
  idleA : s.a.pending = none
  idleB : s.b.pending = none
  frame : ∃ q v, s.frame = .toA q v

theorem StreamBegins.streams {u : Upstream} {s : ResponseSys} (h : StreamBegins u s) :
    Streams u.events s := by
  obtain ⟨q, v, hf⟩ := h.frame
  have heq : s.b.st.written = bodies s.a.st.taken := by
    rw [h.written, h.taken]
    rfl
  exact
    { all_ := by rw [h.taken, h.coming, List.nil_append]
      ended := by rw [h.coming]; exact u.events_ended
      written := by rw [heq]
      ack := fun _ _ _ _ _ _ => heq
      asking := fun p hp => by cases h.idleA.symm.trans hp
      final := fun _ _ h' => by cases hf.symm.trans h'
      data := fun _ _ h' => by cases hf.symm.trans h'
      writing := fun p hp => by cases h.idleB.symm.trans hp
      done := fun hd => absurd hd h.open_ }

/-- The sender's caller has been sent a beginning of what was read from the upstream, and all of
the response once the sender is done. -/
structure Intact (u : Upstream) (s : ResponseSys) : Prop where
  taken : s.a.st.taken <+: u.events
  written : s.b.st.written <+: bodies s.a.st.taken
  done : s.b.status = .done → s.b.st.callerErr = none →
    s.b.st.written = bodies s.a.st.taken ∧ s.b.st.written = bodies u.events

theorem Streams.intact {u : Upstream} {s : ResponseSys} (hs : Streams u.events s) : Intact u s where
  taken := ⟨_, hs.all_⟩
  written := hs.written
  done h h' := by
    obtain ⟨hw, hc, -⟩ := hs.done h h'
    have hall := hs.all_
    rw [hc, List.append_nil] at hall
    exact ⟨hw, by rw [hw, hall]⟩

/-- The body is sent through unchanged while no turn that took or wrote a part of it finds its claim
lost. -/
theorem response_stream_intact (sender receiver : Settings) (k : LaneWorker Response)
    (u : Upstream) (s : ResponseSys) (events : List (Event AskInput WriteInput))
    (hbegins : StreamBegins u s)
    (hkept : Along (LaneSys.step k (responseAcks receiver) (responseData sender))
      (fun s e => keepsClaim s e = true) s events) :
    Intact u (s.run k (responseAcks receiver) (responseData sender) events) :=
  (hkept.invariant (I := Streams u.events) (fun _ e hs h => hs.step e h) hbegins.streams).intact

def twoReads : Upstream :=
  .responds { statusCode := 200 }
    [{ bytes := [1, 2] }, { bytes := [3] }, { bytes := [], err := some .eof }] [] none

theorem responseBegins_stream (u : Upstream) : StreamBegins u (responseBegins u.events) where
  coming := rfl
  taken := rfl
  written := rfl
  open_ := by nofun
  idleA := rfl
  idleB := rfl
  frame := ⟨_, _, rfl⟩

/-- The receiver's next turn, with an event that is there. -/
def readTurn (at_ : ℤ) : Event AskInput WriteInput :=
  .handleA frameTask sessionDoc
    { wait := .event, askedAt := ofUnix at_, now := ofUnix at_, rotateAt := ofUnix at_ }

/-- An event is taken and written. -/
def relayed (at_ : ℤ) : List (Event AskInput WriteInput) :=
  [readTurn at_, .endA .committed, writeTurn at_, .endB .committed]

/-- The receiver's claim of a heartbeat and the sender's of its answer are found lost once. -/
def relayedAll : List (Event AskInput WriteInput) :=
  relayed 1001 ++ [idleTurn 1002, .endA (.lost {})] ++ relayed 1003 ++
    [idleTurn 1004, .endA .committed, writeTurn 1004, .endB (.lost {}), writeTurn 1005,
      .endB .committed] ++ relayed 1006 ++ relayed 1007

theorem response_stream_intact_relayed :
    Intact twoReads ((responseBegins twoReads.events).run responseWorker (responseAcks linkSettings)
        (responseData linkSettings) relayedAll) ∧
      ((responseBegins twoReads.events).run responseWorker (responseAcks linkSettings)
        (responseData linkSettings) relayedAll).b.status = .done ∧
      ((responseBegins twoReads.events).run responseWorker (responseAcks linkSettings)
        (responseData linkSettings) relayedAll).b.st.written = [1, 2, 3] :=
  ⟨response_stream_intact linkSettings linkSettings responseWorker twoReads _ relayedAll
    (responseBegins_stream twoReads) (by decide +kernel), by decide +kernel⟩

/-- The receiver's claim is found lost after it took the first part of the body. -/
def skipped : ResponseSys :=
  (responseBegins twoReads.events).run responseWorker (responseAcks linkSettings)
    (responseData linkSettings)
    (relayed 1001 ++ [readTurn 1002, .endA (.lost {})] ++ relayed 1003 ++ relayed 1004)

/-- The sender's claim is found lost after it wrote the first part of the body. -/
def repeated : ResponseSys :=
  (responseBegins twoReads.events).run responseWorker (responseAcks linkSettings)
    (responseData linkSettings)
    (relayed 1001 ++ [readTurn 1002, .endA .committed, writeTurn 1002, .endB (.lost {}),
      writeTurn 1003, .endB .committed] ++ relayed 1004 ++ relayed 1005)

theorem response_stream_broken :
    StreamBegins twoReads (responseBegins twoReads.events) ∧
      bodies twoReads.events = [1, 2, 3] ∧
      skipped.b.status = .done ∧ skipped.b.st.callerErr = none ∧ skipped.b.st.responseErr = none ∧
      skipped.b.st.written = [3] ∧
      repeated.b.status = .done ∧ repeated.b.st.callerErr = none ∧
      repeated.b.st.responseErr = none ∧ repeated.b.st.written = [1, 2, 1, 2, 3] ∧
      ¬Intact twoReads skipped ∧ ¬Intact twoReads repeated := by
  have hskipped : skipped.b.status = .done ∧ skipped.b.st.callerErr = none ∧
      skipped.b.st.responseErr = none ∧ skipped.b.st.written = [3] := by decide +kernel
  have hrepeated : repeated.b.status = .done ∧ repeated.b.st.callerErr = none ∧
      repeated.b.st.responseErr = none ∧ repeated.b.st.written = [1, 2, 1, 2, 3] := by
    decide +kernel
  obtain ⟨h1, h2, h3, h4⟩ := hskipped
  obtain ⟨h5, h6, h7, h8⟩ := hrepeated
  refine ⟨responseBegins_stream twoReads, by decide, h1, h2, h3, h4, h5, h6, h7, h8, ?_, ?_⟩
  · intro h
    have := (h.done h1 h2).2
    rw [h4] at this
    exact absurd this (by decide)
  · intro h
    have := (h.done h5 h6).2
    rw [h8] at this
    exact absurd this (by decide)

end EntroQ.Async
