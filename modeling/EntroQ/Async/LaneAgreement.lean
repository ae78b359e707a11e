import EntroQ.Async.Announce
import EntroQ.Async.LaneTurns
import EntroQ.Queues.GCActivation

/-! # Lane agreement

The queue a side names in its frames is the one its worker claims on, so the frames of its peer
come to where it waits for them. This rests on the queue moving only with a commit: a handler
rotates the queue as it runs, and the worker moves once the turn has landed. -/

namespace EntroQ.Async
open Foundation Worker

section Sides
variable {σ τ ι κ V : Type} [Frame V]

/-- The turn is over and the worker claims the frame again, on the same queue. -/
def LaneResult.retried (r : LaneResult V) : Ending → Bool
  | .lost _ => true
  | .refused _ => r.onDependency.isNone
  | _ => false

def Pending.movesOn (p : Pending V) (e : Ending) : Bool :=
  match p.handled with
  | .ok r => !(r.turn == .rotated && r.retried e)
  | .error _ => true

/-- What holds of a side, with the frame that is there for it and the status of its peer. -/
structure Side.Agrees (h : LaneHandler σ ι V) (x : Side σ V) (mine : Option (String × V))
    (peer : Status) : Prop where
  last : ∀ q q', x.status = .claiming q → x.last = some q' → q' = q
  watch : ∀ q v q', mine = some (q, v) → x.status = .claiming q' → q = q'
  reply : ∀ q v q', mine = some (q, v) → (Frame.control v).replyQueue ≠ "" →
    peer = .claiming q' → (Frame.control v).replyQueue = q'
  idle : ∀ q, x.pending = none → x.status = .claiming q → (h.lanes x.st).local_.queue = q
  busy : ∀ p, x.pending = some p → ∃ q old, x.status = .claiming q ∧
    mine = some (q, p.work.value) ∧ old.queue = q ∧
    Leaves h.lanes old (Frame.control p.work.value).replyQueue (x.st, p.handled)

omit [Frame V] in
theorem retried_of_again {r : LaneResult V} {e : Ending} (h : r.after e = .again) :
    r.retried e = true := by
  rcases after_again h with ⟨d, rfl⟩ | ⟨hd, d, rfl⟩
  · rfl
  · simp [LaneResult.retried, hd]

omit [Frame V] in
theorem stop_status (x : Side σ V) (q : String) : x.stop.status ≠ .claiming q := by
  unfold Side.stop
  dsimp only
  split_ifs <;> exact nofun

namespace Side.Agrees
variable {k : LaneWorker V} {h : LaneHandler σ ι V} {x : Side σ V} {mine : Option (String × V)}
  {peer : Status}

theorem handle (hx : x.Agrees h mine peer) {q : String} {v : V} (hm : mine = some (q, v))
    (ha : x.awaits q = true) (i : ι) (task : Task) (sets : List DocSet) :
    (x.handle h i ⟨task, v, sets⟩).Agrees h mine peer := by
  simp only [Side.awaits, Bool.and_eq_true, decide_eq_true_eq, Option.isNone_iff_eq_none] at ha
  exact
    { last := hx.last
      watch := hx.watch
      reply := hx.reply
      idle := fun _ h => by cases h
      busy := fun p hp => by
        cases hp
        exact ⟨q, _, ha.1, hm, hx.idle q ha.2 ha.1, h.leaves x.st i _⟩ }

theorem stop (hx : x.Agrees h mine peer) : x.stop.Agrees h mine peer where
  last q _ h := absurd h (stop_status x q)
  watch _ _ q h' h := absurd h (stop_status x q)
  reply := hx.reply
  idle q _ h := absurd h (stop_status x q)
  busy _ h := by cases h

theorem vanished (hx : x.Agrees h mine peer) (hp : x.pending = none) : x.Agrees h none peer where
  last := hx.last
  watch _ _ _ hm := by cases hm
  reply _ _ _ hm := by cases hm
  idle := hx.idle
  busy p hb := by
    rw [hp] at hb
    cases hb

/-- The peer has ended, or is where it was. -/
theorem peer_moves (hx : x.Agrees h mine peer) {peer' : Status}
    (hp : ∀ q, peer' = .claiming q → peer = .claiming q) : x.Agrees h mine peer' where
  last := hx.last
  watch := hx.watch
  reply q v q' hm hv hq := hx.reply q v q' hm hv (hp q' hq)
  idle := hx.idle
  busy := hx.busy

theorem finish_status (hx : x.Agrees h mine peer) {p : Pending V} (hp : x.pending = some p)
    {e : Ending} (hmove : p.movesOn e = true) {q : String}
    (hq : (x.finish k h p e).status = .claiming q) : (h.lanes x.st).local_.queue = q := by
  obtain ⟨q₀, old, hstat, -, hold, hleaves⟩ := hx.busy p hp
  rcases p with ⟨w, err | r⟩
  · rcases finish_status_error k h x (w := w) (e := e) err with hs | hs
    · rw [hs, hstat] at hq
      cases hq
      rw [← hold]
      exact congrArg ReceiveLane.queue hleaves
    · rw [hs] at hq
      cases hq
  · rw [finish_status_ok] at hq
    have hsame : r.turn ≠ .rotated → x.status = .claiming q → (h.lanes x.st).local_.queue = q := by
      intro ht hc
      rw [hstat] at hc
      cases hc
      rw [← hold]
      exact congrArg ReceiveLane.queue (hleaves.moved ht)
    cases ha : r.after e with
    | landed =>
      rw [ha] at hq
      cases ht : r.turn with
      | next => exact hsame (by simp [ht]) (by simpa [ht] using hq)
      | rotated =>
        simp only [ht, Status.claiming.injEq] at hq
        exact hq
      | done => simp [ht] at hq
    | again =>
      rw [ha] at hq
      simp only [Pending.movesOn, retried_of_again ha, Bool.and_true, Bool.not_eq_true',
        beq_eq_false_iff_ne] at hmove
      exact hsame hmove hq
    | broken =>
      rw [ha] at hq
      cases hq

/-- A worker that has not committed claims on the queue it did, if it claims at all. -/
theorem unapplied_status {p : Pending V} {e : Ending} (ha : p.applies k e = false) {q : String}
    (hq : (x.finish k h p e).status = .claiming q) : x.status = .claiming q := by
  rcases p with ⟨w, err | r⟩
  · rcases finish_status_error k h x (w := w) (e := e) err with hs | hs
    · rwa [hs] at hq
    · rw [hs] at hq
      cases hq
  · rcases finish_unapplied k h x ha with ⟨-, hs⟩ | hs
    · rwa [hs] at hq
    · rw [hs] at hq
      cases hq

/-- A reply that is sent names the queue the worker claims on from then, and goes to the one its
frame named. -/
theorem finish_reply (hx : x.Agrees h mine peer) {p : Pending V} (hp : x.pending = some p)
    {e : Ending} (hmove : p.movesOn e = true) {q' : String} {v' : V}
    (hr : p.result.bind LaneResult.reply = some (q', v')) :
    q' = (Frame.control p.work.value).replyQueue ∧
      ∀ q, (Frame.control v').replyQueue ≠ "" → (x.finish k h p e).status = .claiming q →
        (Frame.control v').replyQueue = q := by
  obtain ⟨q₀, old, -, -, -, hleaves⟩ := hx.busy p hp
  rcases p with ⟨w, err | r⟩
  · cases hr
  · change r.reply = some (q', v') at hr
    refine ⟨hleaves.to_peer q' v' hr, fun q hne hq => ?_⟩
    by_cases ht : r.turn = .done
    · exact absurd (hleaves.closes ht q' v' hr) hne
    · obtain ⟨q₁, v₁, hr₁, hqueue⟩ := hleaves.opens ht
      cases hr.symm.trans hr₁
      rw [hqueue]
      exact hx.finish_status hp hmove hq

theorem finish_closed (hx : x.Agrees h mine peer) {p : Pending V} (hp : x.pending = some p)
    {e : Ending} (ha : p.applies k e = true) (hr : p.result.bind LaneResult.reply = none)
    (q : String) : (x.finish k h p e).status ≠ .claiming q := by
  obtain ⟨q₀, old, -, -, -, hleaves⟩ := hx.busy p hp
  rcases p with ⟨w, err | r⟩
  · rw [applies_error] at ha
    cases ha
  · change r.reply = none at hr
    have ht : r.turn = .done := by
      by_contra ht
      obtain ⟨q₁, v₁, hr₁, -⟩ := hleaves.opens ht
      rw [hr] at hr₁
      cases hr₁
    rw [applies_ok, Bool.and_eq_true] at ha
    rw [finish_status_ok, ht]
    cases e with
    | committed => simp [LaneResult.after, ha.1]
    | unanswered text applied => simp [LaneResult.after]
    | _ => cases ha.2

theorem finish (hx : x.Agrees h mine peer) {p : Pending V} (hp : x.pending = some p)
    {e : Ending} (hmove : p.movesOn e = true) :
    (x.finish k h p e).Agrees h (if p.applies k e then none else mine) peer where
  last q q' hq hl := by
    cases ha : p.applies k e with
    | false =>
      simp only [Side.finish, ha, Bool.false_eq_true, if_false] at hl
      exact hx.last q q' (unapplied_status ha hq) hl
    | true =>
      simp only [Side.finish, ha, if_true] at hl
      split at hl
      · next v hr =>
        split_ifs at hl with hne
        cases hl
        exact (hx.finish_reply hp hmove hr).2 q hne hq
      · next hr => exact absurd hq (hx.finish_closed hp ha hr q)
  watch q v q' hm hq := by
    split_ifs at hm with ha
    exact hx.watch q v q' hm (unapplied_status (Bool.eq_false_iff.mpr ha) hq)
  reply q v q' hm := by
    split_ifs at hm with ha
    exact hx.reply q v q' hm
  idle q _ hq := hx.finish_status hp hmove hq
  busy _ hb := by cases hb

/-- A reply is sent to the queue the peer claims on, and names the one the worker claims on. -/
theorem answered {τ κ : Type} {h' : LaneHandler τ κ V} {y : Side τ V}
    (hx : x.Agrees h mine y.status) (hy : y.Agrees h' none x.status) {p : Pending V}
    (hp : x.pending = some p) {e : Ending} (hmove : p.movesOn e = true) :
    y.Agrees h' (if p.applies k e then p.result.bind LaneResult.reply else none)
      (x.finish k h p e).status where
  last := hy.last
  watch q v q' hm hq := by
    split_ifs at hm with ha
    obtain ⟨q₀, old, -, hmine, -, -⟩ := hx.busy p hp
    obtain ⟨hto, -⟩ := hx.finish_reply (k := k) hp hmove hm
    have hne : q ≠ "" := by
      rcases p with ⟨w, err | r⟩
      · cases hm
      · change r.reply = some (q, v) at hm
        rw [applies_ok, Bool.and_eq_true] at ha
        simpa [LaneResult.valid, hm] using ha.1
    rw [hto] at hne ⊢
    exact hx.reply q₀ _ q' hmine hne hq
  reply q v q' hm hne hq := by
    split_ifs at hm with ha
    exact (hx.finish_reply hp hmove hm).2 q' hne hq
  idle := hy.idle
  busy p hb := by
    obtain ⟨q, old, -, hm, -⟩ := hy.busy p hb
    cases hm

end Side.Agrees
end Sides

/-! ## Runs -/

def Flight.forA {V : Type} : Flight V → Option (String × V)
  | .toA q v => some (q, v)
  | _ => none

def Flight.forB {V : Type} : Flight V → Option (String × V)
  | .toB q v => some (q, v)
  | _ => none

section Runs
variable {σ τ ι κ V : Type} [Frame V] (k : LaneWorker V) (ha : LaneHandler σ ι V)
  (hb : LaneHandler τ κ V)

/-- Each side's last frame names the queue its worker claims on, and a frame is on the queue that
the worker it is for claims on. -/
structure LaneSys.Agreement (s : LaneSys σ τ V) : Prop where
  a_last : ∀ q q', s.a.status = .claiming q → s.a.last = some q' → q' = q
  b_last : ∀ q q', s.b.status = .claiming q → s.b.last = some q' → q' = q
  to_a : ∀ q v q', s.frame = .toA q v → s.a.status = .claiming q' → q = q'
  to_b : ∀ q v q', s.frame = .toB q v → s.b.status = .claiming q' → q = q'

/-- A worker on its lane's queue, with no frame yet. -/
structure Side.Begins (h : LaneHandler σ ι V) (x : Side σ V) : Prop where
  status : x.status = .claiming (h.lanes x.st).local_.queue
  pending : x.pending = none
  last : ∀ q, x.last = some q → q = (h.lanes x.st).local_.queue

/-- Both workers run, and the first frame is there for one, with the queue of the other. -/
structure LaneSys.Begins (s : LaneSys σ τ V) : Prop where
  a : s.a.Begins ha
  b : s.b.Begins hb
  for_a : ∀ q v, s.frame.forA = some (q, v) → q = (ha.lanes s.a.st).local_.queue ∧
    (Frame.control v).replyQueue = (hb.lanes s.b.st).local_.queue
  for_b : ∀ q v, s.frame.forB = some (q, v) → q = (hb.lanes s.b.st).local_.queue ∧
    (Frame.control v).replyQueue = (ha.lanes s.a.st).local_.queue

def Event.movesOn (s : LaneSys σ τ V) : Event ι κ → Bool
  | .endA e => s.a.pending.all fun p => p.movesOn e
  | .endB e => s.b.pending.all fun p => p.movesOn e
  | _ => true

structure LaneSys.Sound (s : LaneSys σ τ V) : Prop where
  a : s.a.Agrees ha s.frame.forA s.b.status
  b : s.b.Agrees hb s.frame.forB s.a.status

variable {k ha hb}

theorem LaneSys.Sound.agreement {s : LaneSys σ τ V} (hs : s.Sound ha hb) : s.Agreement where
  a_last := hs.a.last
  b_last := hs.b.last
  to_a q v q' hf := hs.a.watch q v q' (by rw [hf]; rfl)
  to_b q v q' hf := hs.b.watch q v q' (by rw [hf]; rfl)

theorem Side.Begins.agrees {h : LaneHandler σ ι V} {x : Side σ V} (hx : x.Begins h)
    {mine : Option (String × V)} {peer : Status} {queue : String}
    (hpeer : peer = .claiming queue) (hmine : ∀ q v, mine = some (q, v) →
      q = (h.lanes x.st).local_.queue ∧ (Frame.control v).replyQueue = queue) :
    x.Agrees h mine peer where
  last q q' hq hl := by
    rw [hx.status] at hq
    cases hq
    exact hx.last q' hl
  watch q v q' hm hq := by
    rw [hx.status] at hq
    cases hq
    exact (hmine q v hm).1
  reply q v q' hm _ hq := by
    rw [hpeer] at hq
    cases hq
    exact (hmine q v hm).2
  idle q _ hq := by
    rw [hx.status] at hq
    cases hq
    rfl
  busy p hp := by
    rw [hx.pending] at hp
    cases hp

theorem LaneSys.Begins.sound {s : LaneSys σ τ V} (hs : s.Begins ha hb) : s.Sound ha hb where
  a := hs.a.agrees hs.b.status hs.for_a
  b := hs.b.agrees hs.a.status hs.for_b

omit [Frame V] in
theorem answered_toB (f : Flight V) (p : Pending V) (e : Ending) :
    (f.answered k p e .toB).forA = (if p.applies k e then none else f.forA) ∧
      (f.answered k p e .toB).forB =
        if p.applies k e then p.result.bind LaneResult.reply else f.forB := by
  unfold Flight.answered
  split_ifs
  · split
    · next h => exact ⟨rfl, h.symm⟩
    · next h => exact ⟨rfl, h.symm⟩
  · exact ⟨rfl, rfl⟩

omit [Frame V] in
theorem answered_toA (f : Flight V) (p : Pending V) (e : Ending) :
    (f.answered k p e .toA).forB = (if p.applies k e then none else f.forB) ∧
      (f.answered k p e .toA).forA =
        if p.applies k e then p.result.bind LaneResult.reply else f.forA := by
  unfold Flight.answered
  split_ifs
  · split
    · next h => exact ⟨rfl, h.symm⟩
    · next h => exact ⟨rfl, h.symm⟩
  · exact ⟨rfl, rfl⟩

omit [Frame V] in
/-- A frame that is there after a turn was there before, or is the reply. -/
theorem answered_cases {f x : Flight V} {p : Pending V} {e : Ending}
    {mk : String → V → Flight V} (h : f.answered k p e mk = x) (hx : x ≠ .gone) :
    p.applies k e = false ∧ f = x ∨ p.applies k e = true ∧
      ∃ q v, p.result.bind LaneResult.reply = some (q, v) ∧ mk q v = x := by
  unfold Flight.answered at h
  split_ifs at h with ha
  · split at h
    · next hr => exact .inr ⟨ha, _, _, hr, h⟩
    · exact absurd h.symm hx
  · exact .inl ⟨Bool.eq_false_iff.mpr ha, h⟩

omit [Frame V] in
theorem forA_some {f : Flight V} {q : String} {v : V} (h : f.forA = some (q, v)) :
    f = .toA q v := by
  cases f <;> cases h
  rfl

omit [Frame V] in
theorem forB_some {f : Flight V} {q : String} {v : V} (h : f.forB = some (q, v)) :
    f = .toB q v := by
  cases f <;> cases h
  rfl

theorem LaneSys.Sound.endA {s : LaneSys σ τ V} (hs : s.Sound ha hb) {p : Pending V} {e : Ending}
    (hp : s.a.pending = some p) (hmove : p.movesOn e = true) :
    LaneSys.Sound ha hb
      { s with a := s.a.finish k ha p e, frame := s.frame.answered k p e .toB } := by
  obtain ⟨q, old, -, hmine, -, -⟩ := hs.a.busy p hp
  have hnone : s.frame.forB = none := by rw [forA_some hmine]; rfl
  obtain ⟨hfa, hfb⟩ := answered_toB (k := k) s.frame p e
  have hother := hs.b
  rw [hnone] at hother hfb
  constructor
  · rw [hfa]
    exact hs.a.finish hp hmove
  · rw [hfb]
    exact hs.a.answered hother hp hmove

theorem LaneSys.Sound.endB {s : LaneSys σ τ V} (hs : s.Sound ha hb) {p : Pending V} {e : Ending}
    (hp : s.b.pending = some p) (hmove : p.movesOn e = true) :
    LaneSys.Sound ha hb
      { s with b := s.b.finish k hb p e, frame := s.frame.answered k p e .toA } := by
  obtain ⟨q, old, -, hmine, -, -⟩ := hs.b.busy p hp
  have hnone : s.frame.forA = none := by rw [forB_some hmine]; rfl
  obtain ⟨hfb, hfa⟩ := answered_toA (k := k) s.frame p e
  have hother := hs.a
  rw [hnone] at hother hfa
  constructor
  · rw [hfa]
    exact hs.b.answered hother hp hmove
  · rw [hfb]
    exact hs.b.finish hp hmove

theorem LaneSys.Sound.step {s : LaneSys σ τ V} (hs : s.Sound ha hb) {e : Event ι κ}
    (hmove : e.movesOn s = true) : (s.step k ha hb e).Sound ha hb := by
  cases e with
  | handleA task sets i =>
    simp only [LaneSys.step]
    split
    · next q v hf =>
      split_ifs with hw
      · exact ⟨hs.a.handle (by rw [hf]; rfl) hw i task sets, hs.b⟩
      · exact hs
    · exact hs
  | handleB task sets i =>
    simp only [LaneSys.step]
    split
    · next q v hf =>
      split_ifs with hw
      · exact ⟨hs.a, hs.b.handle (by rw [hf]; rfl) hw i task sets⟩
      · exact hs
    · exact hs
  | endA e =>
    simp only [LaneSys.step]
    split
    · next p hp => exact hs.endA hp (by simpa [Event.movesOn, hp] using hmove)
    · exact hs
  | endB e =>
    simp only [LaneSys.step]
    split
    · next p hp => exact hs.endB hp (by simpa [Event.movesOn, hp] using hmove)
    · exact hs
  | stopA => exact ⟨hs.a.stop, hs.b.peer_moves fun q h => absurd h (stop_status s.a q)⟩
  | stopB => exact ⟨hs.a.peer_moves fun q h => absurd h (stop_status s.b q), hs.b.stop⟩
  | vanish =>
    simp only [LaneSys.step]
    split_ifs with hn
    · simp only [Bool.and_eq_true, Option.isNone_iff_eq_none] at hn
      exact ⟨hs.a.vanished hn.1, hs.b.vanished hn.2⟩
    · exact hs

/-- Whatever the handlers, as long as they announce their queues. -/
theorem LaneSys.Begins.run {s : LaneSys σ τ V} (hs : s.Begins ha hb) {events : List (Event ι κ)}
    (hmove : Along (LaneSys.step k ha hb) (fun s e => e.movesOn s = true) s events) :
    (s.run k ha hb events).Agreement :=
  (hmove.invariant (I := LaneSys.Sound ha hb) (fun _ _ hs he => hs.step he) hs.sound).agreement

end Runs

/-- On both lanes of a session, if no turn that has rotated its queue is retried, each side's last
frame names the queue its worker claims on, and each frame is sent to the queue of its worker. -/
theorem lane_agreement (sender receiver : Settings) (k : LaneWorker Envelope)
    (k' : LaneWorker Response) :
    (∀ s events, s.Begins (requestAcks sender) (requestData receiver) →
      Along (LaneSys.step k (requestAcks sender) (requestData receiver))
        (fun s e => e.movesOn s = true) s events →
      (s.run k (requestAcks sender) (requestData receiver) events).Agreement) ∧
    ∀ s events, s.Begins (responseAcks receiver) (responseData sender) →
      Along (LaneSys.step k' (responseAcks receiver) (responseData sender))
        (fun s e => e.movesOn s = true) s events →
      (s.run k' (responseAcks receiver) (responseData sender) events).Agreement :=
  ⟨fun _ _ hs hmove => hs.run hmove, fun _ _ hs hmove => hs.run hmove⟩

/-! ## A switch that is retried -/

/-- Deadlines are written in seconds, so none has to be read as a timestamp. -/
def linkSettings : Settings where
  names :=
    { gcActivation := fun queue => (Queues.gcActivation (fun _ => none) (Queues.text queue)).mapError
        Queues.MalformedGC.format }

def responseWorker : LaneWorker Response where
  opts := { qs := [] }
  claimant := "c"
  marshal := fun _ => ""

/-- The lanes of a session that began a thousand seconds after 1970. -/
def lanesOf (direction : String) : SessionLanes where
  local_ := newReceiveLane linkSettings.names "/svc" "s" direction (ofUnix 1000) {}

/-- The first acknowledgement of a response, as the receiver makes it for itself. -/
def responseBegins (coming : List SocketEvent) : LaneSys ResponseSource ResponseSink Response where
  a := { st := { session := "s", lanes := lanesOf "response-ack", coming }
         status := .claiming (lanesOf "response-ack").local_.queue }
  b := { st := { session := "s", lanes := lanesOf "response-data" }
         status := .claiming (lanesOf "response-data").local_.queue }
  frame := .toA (lanesOf "response-ack").local_.queue
    { session := "s", replyQueue := (lanesOf "response-data").local_.queue }

theorem responseBegins_begins (coming : List SocketEvent) :
    (responseBegins coming).Begins (responseAcks linkSettings) (responseData linkSettings) where
  a := ⟨rfl, rfl, fun _ h => by cases h⟩
  b := ⟨rfl, rfl, fun _ h => by cases h⟩
  for_a _ _ h := by
    cases h
    exact ⟨rfl, rfl⟩
  for_b _ _ h := by cases h

def sessionDoc : List DocSet :=
  [{ ns := "n", key := "s", docs := [{ ns := "n", id := "s", key := "s" }] }]

def frameTask : Task := { queue := "q", id := "f" }

/-- The receiver's next turn, at a number of seconds after 1970, with no event before its
deadline. -/
def idleTurn (at_ : ℤ) : Event AskInput WriteInput :=
  .handleA frameTask sessionDoc
    { wait := .deadline, askedAt := ofUnix at_, now := ofUnix at_, rotateAt := ofUnix at_ }

/-- The sender's next turn. -/
def writeTurn (at_ : ℤ) : Event AskInput WriteInput :=
  .handleB frameTask [] { now := ofUnix at_, rotateAt := ofUnix at_ }

/-- The sender begins a switch, and the receiver follows. -/
def switched : List (Event AskInput WriteInput) :=
  [idleTurn 1001, .endA .committed, writeTurn 2300, .endB .committed, idleTurn 2301,
    .endA .committed, writeTurn 2302, .endB .committed]

theorem lane_agreement_switched :
    ((responseBegins []).run responseWorker (responseAcks linkSettings) (responseData linkSettings)
      switched).Agreement :=
  (lane_agreement linkSettings linkSettings
    { opts := { qs := [] }, claimant := "c", marshal := fun _ => "" } responseWorker).2 _ _
    (responseBegins_begins []) (by decide +kernel)

/-- The receiver's commit of its part of the switch is refused once, and it claims the frame
again. -/
def retriedSwitch : List (Event AskInput WriteInput) :=
  [idleTurn 1001, .endA .committed, writeTurn 2300, .endB .committed, idleTurn 2301,
    .endA (.refused {}), idleTurn 2302, .endA .committed, writeTurn 2303, .endB .committed]

def retried : LaneSys ResponseSource ResponseSink Response :=
  (responseBegins []).run responseWorker (responseAcks linkSettings) (responseData linkSettings)
    retriedSwitch

theorem lane_disagreement :
    (responseBegins []).Begins (responseAcks linkSettings) (responseData linkSettings) ∧
      retried.a.status = .claiming "/svc/sess=s;gc=2800/response-ack" ∧
      retried.a.last = some "/svc/sess=s;gc=4101/response-ack" ∧
      retried.frame.forA.map Prod.fst = some "/svc/sess=s;gc=4101/response-ack" ∧
      ¬retried.Agreement := by
  obtain ⟨hstatus, hlast, hframe⟩ : retried.a.status = .claiming "/svc/sess=s;gc=2800/response-ack" ∧
      retried.a.last = some "/svc/sess=s;gc=4101/response-ack" ∧
      retried.frame.forA.map Prod.fst = some "/svc/sess=s;gc=4101/response-ack" := by
    decide +kernel
  refine ⟨responseBegins_begins [], hstatus, hlast, hframe, fun h => ?_⟩
  exact absurd (h.a_last _ _ hstatus hlast) (by decide)

end EntroQ.Async
