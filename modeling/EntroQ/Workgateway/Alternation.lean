import EntroQ.Worker.Phases
import EntroQ.Workgateway.LineTurns

/-! # Who is to speak next

Each phase takes a request before it sends the next response, and the worker comes back to its claim
with the last request in hand. It does not where a renewal finds the claim lost while `DoModify`
waits for the client, or where a success hook gives up on a silent client: the worker goes on, and
the next task is sent to a client that has asked for nothing. -/

namespace EntroQ.Workgateway
open Foundation Worker

/-! ## The session -/

/-- The worker is at work of its own, or about to hand out a task. -/
def Phase.busy : Phase → Bool
  | .claiming | .cueing _ _ | .worked _ _ | .finishing _ _ _ => true
  | _ => false

def Phase.cues : Phase → Bool
  | .cueing _ _ => true
  | _ => false

/-- Work is not given up with nothing in hand, nor is a success hook. -/
def Event.keepsTurn (s : Session) : Event → Bool
  | .interrupts _ _ renewErr _ landed =>
    match s.phase with
    | .working _ _ => (renewErr.bind Err.asDependency).isNone ||
      s.sending.isSome && (s.line.kept.turn || !landed)
    | _ => true
  | .silences _ =>
    match s.phase with
    | .reporting _ _ _ none => !s.armed || s.sending.isSome || s.quitting
    | _ => true
  | _ => true

namespace Session

structure Sound (s : Session) : Prop where
  orderly : s.line.Orderly
  live : s.phase.isEnded = false → s.line.Live
  hold : s.phase.busy = true ∨ s.phase.receives = true ∧ s.sending.isSome = true → s.line.Holding
  wait : s.phase.receives = true → s.sending = none → s.line.Waiting
  work : ∀ n h, s.phase = .working n h → n = s.line.works
  reply : ∀ r, s.sending = some r → s.phase.cues = true ∨ s.phase.busy = false ∧ r.type ≠ .work
  refused : ∀ task h r e, s.phase = .reporting task h r (some e) → e.asDependency.isSome = true

variable {v : Server} {g : Gateway} {s : Session}

theorem receives_not_busy {p : Phase} (h : p.receives = true) : p.busy = false := by
  cases p <;> first | rfl | cases h

theorem sound_ended (h : s.line.Orderly) (hp : s.phase = .ended) (hs : s.sending = none) :
    s.Sound where
  orderly := h
  live hl := by rw [hp] at hl; cases hl
  hold hh := by rw [hp] at hh; simp [Phase.busy, Phase.receives] at hh
  wait hr := by rw [hp] at hr; cases hr
  work n h' hw := by cases hp.symm.trans hw
  reply r hr := by cases hs.symm.trans hr
  refused _ _ _ _ hr := by cases hp.symm.trans hr

theorem sound_last (h : s.line.Live) {underneath : Bool} (hp : s.phase = .last underneath)
    (hs : ∀ r, s.sending = some r → r.type ≠ .work) : s.Sound where
  orderly := h.orderly
  live _ := h
  hold hh := by rw [hp] at hh; simp [Phase.busy, Phase.receives] at hh
  wait hr := by rw [hp] at hr; cases hr
  work n h' hw := by cases hp.symm.trans hw
  reply r hr := .inr ⟨by rw [hp]; rfl, hs r hr⟩
  refused _ _ _ _ hr := by cases hp.symm.trans hr

theorem sound_busy (h : s.line.Holding) (hp : s.phase.busy = true)
    (hs : s.phase.cues = true ∨ s.sending = none) : s.Sound where
  orderly := h.orderly
  live _ := h.toLive
  hold _ := h
  wait hr := by cases (receives_not_busy hr).symm.trans hp
  work n h' hw := by rw [hw] at hp; cases hp
  reply r hr := hs.imp id fun hs => by cases hs.symm.trans hr
  refused _ _ _ _ hr := by rw [hr] at hp; cases hp

theorem sound_answers (h : s.line.Holding) (hp : s.phase.receives = true) {r : Response}
    (hs : s.sending = some r) (hr : r.type ≠ .work)
    (hw : ∀ n h, s.phase = .working n h → n = s.line.works)
    (hd : ∀ task h r e, s.phase = .reporting task h r (some e) → e.asDependency.isSome = true) :
    s.Sound where
  orderly := h.orderly
  live _ := h.toLive
  hold _ := h
  wait _ hn := by cases hs.symm.trans hn
  work := hw
  reply r' hr' := by
    cases hs.symm.trans hr'
    exact .inr ⟨receives_not_busy hp, hr⟩
  refused := hd

theorem lastly_sound (h : s.line.Live) (err : Option Err) (underneath : Bool) :
    (s.lastly v g err underneath).Sound := by
  unfold lastly
  dsimp only
  split
  · exact sound_last h rfl fun r hr => by cases hr; exact fun h => by cases h
  · split
    · exact sound_last h rfl fun r hr => by cases hr; exact fun h => by cases h
    · exact sound_ended h.orderly rfl rfl

theorem finish_sound (h : s.line.Live) (err : Option Err) : (s.finish v g err).Sound := by
  unfold finish
  split
  · exact sound_ended h.orderly rfl rfl
  · exact lastly_sound h _ _
  · exact lastly_sound h _ _

/-- The worker claims again with the last request in hand, or the session ends. -/
theorem turned_sound (h : s.line.Live) (t : Turn) (hh : t.err = none → s.line.Holding) :
    (s.turned v g t).Sound := by
  unfold turned
  split
  · next ht => exact sound_busy (hh ht) rfl (.inr rfl)
  · exact finish_sound h _

theorem turned_holding (h : s.line.Holding) (t : Turn) : (s.turned v g t).Sound :=
  turned_sound h.toLive t fun _ => h

theorem cueWork_sound (h : s.line.Holding) (env : Env) (task : Task) (sets : List DocSet) :
    (s.cueWork v g env task sets).Sound := by
  unfold cueWork
  split
  · exact turned_holding h _
  · exact sound_busy h rfl (.inl rfl)

theorem acquireDocs_sound (h : s.line.Holding) (env : Env) (task : Task)
    (claims : List DocSetClaim) : (s.acquireDocs v g env task claims).Sound := by
  unfold acquireDocs
  dsimp only
  split
  · exact cueWork_sound h _ _ _
  · exact turned_holding h _

theorem takeDocs_sound (h : s.line.Holding) (env : Env) (task : Task) :
    (s.takeDocs v g env task).Sound := by
  unfold takeDocs
  split
  · exact acquireDocs_sound h _ _ _
  · split
    · exact turned_holding h _
    · exact sound_answers h rfl rfl (fun h => by cases h) (fun _ _ h => by cases h)
        fun _ _ _ _ h => by cases h

theorem claimed_sound (h : s.line.Holding) (env : Env) : (s.claimed v g env).Sound := by
  unfold claimed
  dsimp only
  split
  · split
    · exact takeDocs_sound h _ _
    · exact turned_holding h _
  · exact turned_holding h _

theorem workEnds_sound (hs : s.sending = none) (h : s.line.Holding) (env : Env) (h' : Held)
    (result : Except Err Result) (renewErr : Option Err) (final : Held) :
    (s.workEnds v g env h' result renewErr final).Sound := by
  unfold workEnds
  split
  · exact turned_holding h _
  · dsimp only
    split
    · exact sound_busy h rfl (.inr hs)
    · exact turned_holding h _

theorem reported_sound (h : s.line.Holding) (env : Env) (task : Task) (h' : Held) (r : Result)
    (dependency reported : Option Err) :
    (s.reported v g env task h' r dependency reported).Sound :=
  turned_holding h _

theorem commits_sound (h : s.line.Holding) (env : Env) (task : Task) (h' : Held) (r : Result)
    (answer : Option Err) : (s.commits v g env task h' r answer).Sound := by
  unfold commits
  dsimp only
  split
  · split
    · exact sound_answers h rfl rfl (fun h => by cases h) (fun _ _ h => by cases h)
        fun _ _ _ _ h => by cases h
    · exact turned_holding h _
  · split
    · exact turned_holding h _
    · next e d hd =>
      split
      · refine sound_answers h rfl rfl (fun h => by cases h) (fun _ _ h => by cases h)
          fun _ _ _ e' he => ?_
        cases he
        simp only [Option.bind_eq_some_iff, Option.map_eq_some_iff] at hd
        obtain ⟨-, -, e'', -, d', hd', heq⟩ := hd
        cases heq
        rw [hd']
        rfl
      · exact reported_sound h _ _ _ _ _ _

/-! ## Requests -/

theorem handle_sound (h : s.line.Waiting) (hs : s.sending = none) {m : Sent} {rest : List Sent}
    (hin : s.line.wire.inbox = m :: rest) : (s.handle v g m rest).Sound := by
  obtain ⟨hh, -⟩ := h.heard hin
  unfold handle
  dsimp only
  split
  · exact finish_sound hh.toLive _
  · split
    · exact finish_sound hh.toLive _
    · split
      · exact finish_sound hh.toLive _
      · exact sound_busy hh rfl (.inr hs)

theorem read_ne_work {t : RequestType} {type : ResponseType} (h : t.read = some type) :
    type ≠ .work := by
  cases t <;> cases h <;> decide

/-- What a phase answers a beat or a read with hands out no task. -/
theorem recv_type {expect : RequestType} {readErr : Option Err} {frame : Except String Request}
    {r : Response} (h : recv v g expect readErr frame = .beat r ∨
      recv v g expect readErr frame = .read r) : r.type ≠ .work := by
  cases frame with
  | error e => rcases h with h | h <;> cases h
  | ok m =>
    simp only [recv] at h
    split at h
    · rcases h with h | h
      · cases h
        exact fun hr => by cases hr
      · cases h
    · split at h
      · next type hread =>
        have htype := read_ne_work hread
        cases readErr with
        | none =>
          rcases h with h | h
          · cases h
          · cases h
            exact htype
        | some e =>
          rcases h with h | h
          · cases h
          · cases h
            exact fun hr => by cases hr
      · split at h <;> rcases h with h | h <;> cases h

theorem receives_sound (hsound : s.Sound) (hs : s.sending = none) (env : Env)
    (readErr : Option Err) {m : Sent} {rest : List Sent}
    (hin : s.line.wire.inbox = m :: rest) : (s.receives v g env readErr m rest).Sound := by
  by_cases hr : s.phase.receives = true
  · have hwait := hsound.wait hr hs
    obtain ⟨hh, -, -, hgiven⟩ := hwait.heard hin
    have hanswers : ∀ (armed : Bool) (r : Response), r.type ≠ .work →
        ({ s.hear m rest with armed, sending := some r } : Session).Sound := fun armed r htype =>
      sound_answers hh hr rfl htype hsound.work hsound.refused
    unfold receives
    dsimp only
    cases hp : s.phase with
    | starting => exact handle_sound hwait hs hin
    | taking task =>
      dsimp only
      split
      · next h => exact hanswers _ _ (recv_type (.inl h))
      · next h => exact hanswers _ _ (recv_type (.inr h))
      · exact turned_holding hh _
      · split
        · exact turned_holding hh _
        · split
          · exact turned_holding hh _
          · exact acquireDocs_sound hh _ _ _
    | working n h =>
      dsimp only
      split
      · next h => exact hanswers _ _ (recv_type (.inl h))
      · next h => exact hanswers _ _ (recv_type (.inr h))
      · exact sound_busy hh rfl (.inr hs)
      · -- the request was sent with this task in the client's hands
        have hn : m.given = n := by rw [hgiven, hsound.work n h hp]
        exact sound_busy (hh.took hn) rfl (.inr hs)
    | reporting task h r dependency =>
      dsimp only
      split
      · next h => exact hanswers _ _ (recv_type (.inl h))
      · next h => exact hanswers _ _ (recv_type (.inr h))
      · exact reported_sound hh _ _ _ _ _ _
      · exact reported_sound hh _ _ _ _ _ _
    | _ => rw [hp] at hr; cases hr
  · unfold receives
    dsimp only
    cases hp : s.phase with
    | starting => exact absurd (by rw [hp]; rfl) hr
    | taking task => exact absurd (by rw [hp]; rfl) hr
    | working n h => exact absurd (by rw [hp]; rfl) hr
    | reporting task h r dependency => exact absurd (by rw [hp]; rfl) hr
    | _ => exact hsound

/-! ## Responses -/

theorem sendFailed_sound (hsound : s.Sound) {r : Response} (hr : s.sending = some r) (env : Env)
    (e : Err) : (s.sendFailed v g env e).Sound := by
  unfold sendFailed
  cases hp : s.phase with
  | taking task => exact turned_holding (hsound.hold (.inr ⟨by rw [hp]; rfl, by rw [hr]; rfl⟩)) _
  | cueing task sets => exact turned_holding (hsound.hold (.inl (by rw [hp]; rfl))) _
  | working n h =>
    exact sound_busy (hsound.hold (.inr ⟨by rw [hp]; rfl, by rw [hr]; rfl⟩)) rfl (.inr rfl)
  | reporting task h r dependency =>
    exact reported_sound (hsound.hold (.inr ⟨by rw [hp]; rfl, by rw [hr]; rfl⟩)) _ _ _ _ _ _
  | last underneath => exact sound_ended (hsound.live (by rw [hp]; rfl)).orderly rfl rfl
  | _ => exact hsound

/-- A phase that has sent what it had to send. -/
theorem sound_waits (h : s.line.Waiting) (hp : s.phase.receives = true) (hs : s.sending = none)
    (hw : ∀ n h, s.phase = .working n h → n = s.line.works)
    (hd : ∀ task h r e, s.phase = .reporting task h r (some e) → e.asDependency.isSome = true) :
    s.Sound where
  orderly := h.orderly
  live _ := h.toLive
  hold hh := by
    rcases hh with hh | hh
    · cases (receives_not_busy hp).symm.trans hh
    · rw [hs] at hh
      cases hh.2
  wait _ _ := h
  work := hw
  reply r hr := by cases hs.symm.trans hr
  refused := hd

theorem sends_sound (hsound : s.Sound) {r : Response} (hr : s.sending = some r)
    (ht : s.line.kept.turn = false) (env : Env) : (s.sends v g env r).Sound := by
  have hlast : ∀ underneath, s.phase = .last underneath →
      ({ s with line := s.line.deliver r true, phase := .ended, sending := none } : Session).Sound :=
    fun underneath hp => sound_ended ((hsound.live (by rw [hp]; rfl)).lastly r) rfl rfl
  unfold sends
  split
  · next hp => exact hlast _ hp
  · exact sendFailed_sound hsound hr env _
  · next hp _ => exact hlast _ hp
  · next task sets hp he =>
    have hw := (hsound.hold (.inl (by rw [hp]; rfl))).said he ht r
    refine sound_waits hw rfl rfl (fun n h heq => ?_) fun _ _ _ _ heq => by cases heq
    cases heq
    rfl
  · next he _ _ _ =>
    split
    · next hp =>
      have hw := (hsound.hold (.inr ⟨hp, by rw [hr]; rfl⟩)).said he ht r
      refine sound_waits hw hp rfl (fun n h heq => ?_) hsound.refused
      -- no other task is handed out in the phase of one
      have htype : r.type ≠ .work := by
        rcases hsound.reply r hr with hc | ⟨-, htype⟩
        · rw [show s.phase = _ from heq] at hc
          cases hc
        · exact htype
      change n = if r.type = .work then _ else s.line.works
      rw [if_neg htype]
      exact hsound.work n h heq
    · exact hsound

/-! ## Giving up -/

/-- Work that is given up goes on to the next task only with a request in hand. -/
theorem gives_up (hsound : s.Sound) {n : ℕ} {h : Held} (hp : s.phase = .working n h)
    {renewErr : Option Err} {landed : Bool} {t : Turn}
    (hkept : (renewErr.bind Err.asDependency).isNone = true ∨
      s.sending.isSome = true ∧ (s.line.kept.turn = true ∨ landed = false))
    (ht : (renewErr.bind Err.asDependency).isNone = true → t.err.isSome = true) :
    ({ s with line := s.line.abort landed s.sending }.turned v g t).Sound := by
  have hhold : s.sending.isSome = true → s.line.Holding := fun hs =>
    hsound.hold (.inr ⟨by rw [hp]; rfl, hs⟩)
  refine turned_sound (Line.abort_live (hsound.live (by rw [hp]; rfl)) landed hhold) t fun hnone => ?_
  rcases hkept with hlost | ⟨hs, hkept⟩
  · rw [hnone] at ht
    cases ht hlost
  · exact (hhold hs).abort hkept

theorem workTurn_stop {env : Env} {re : RetryError} (hstop : re.stop = true) (task : Task)
    {renewErr : Option Err} (final : Held) (hkept : (renewErr.bind Err.asDependency).isNone = true) :
    (workTurn v g { env with doWork := some re.err } task renewErr final).err.isSome = true := by
  refine workEnded_stop rfl hstop task final fun e he => ?_
  rw [show renewErr = some e from he, Option.bind_some, Option.isNone_iff_eq_none] at hkept
  exact hkept

theorem interrupted_sound (hsound : s.Sound) {n : ℕ} {h : Held} (hp : s.phase = .working n h)
    (why : Interruption) (env : Env) (renewErr : Option Err) (final : Held) (landed : Bool)
    (hkept : (Event.interrupts why env renewErr final landed).keepsTurn s = true) :
    (s.interrupted v g why env h renewErr final landed).Sound := by
  simp only [Event.keepsTurn, hp, Bool.or_eq_true, Bool.and_eq_true, Bool.not_eq_true'] at hkept
  unfold interrupted
  cases why with
  | lost =>
    dsimp only
    split
    · next hlost =>
      obtain ⟨e, rfl⟩ := Option.isSome_iff_exists.mp hlost
      refine gives_up hsound hp hkept fun he => ?_
      rw [Option.bind_some, Option.isNone_iff_eq_none] at he
      exact workEnded_renewal rfl he _ _
    · exact hsound
  | expired =>
    dsimp only
    split
    · exact gives_up hsound hp hkept (workTurn_stop rfl _ _)
    · exact hsound
  | silent =>
    dsimp only
    split
    · exact gives_up hsound hp hkept (workTurn_stop rfl _ _)
    · exact hsound

/-- A hook that gives up on its client ends the session, if it is that of a refused commit or the
session is to stop. -/
theorem reported_silent (hl : s.line.Live) (env : Env) (task : Task) (h : Held) (r : Result)
    {dependency : Option Err} (what : String)
    (hd : ∀ e, dependency = some e → e.asDependency.isSome = true)
    (hq : dependency = none → s.quitting = true) :
    (s.reported v g env task h r dependency (some ((silent v).wrap what))).Sound := by
  refine turned_sound hl _ fun hnone => ?_
  exfalso
  cases dependency with
  | none =>
    -- the hook's error is only logged, and the result is the last
    have hstop : afterCommit { r with
        onSuccess := some (some ((silent v).wrap what)), stop := r.stop || s.quitting } =
        some (errShutdown.wrap "stopping after a result that asked to be the last") := by
      rw [hq rfl, Bool.or_true]
      rfl
    dsimp only at hnone
    rw [hstop, finishStage_shutdown rfl rfl] at hnone
    cases hnone
  | some e =>
    obtain ⟨d, hed⟩ := Option.isSome_iff_exists.mp (hd e rfl)
    have hplain : drainAfter s.quitting ((silent v).wrap what) = (silent v).wrap what := by
      cases s.quitting <;> rfl
    have herr : ∃ err, (finishStage (g.worker v) (g.runOpt v)
        { env with finish := some ((silent v).wrap what) } h
        ((g.worker v).errorQueueFor task.queue)).err = some err ∧ err.isShutdown = false :=
      finishStage_other rfl rfl rfl rfl
    obtain ⟨err, herr, -⟩ := herr
    simp only [commitFailed, hed, Option.bind_some, Option.getD_some, hplain] at hnone
    cases herr.symm.trans hnone

/-! ## Steps -/

theorem Sound.relay (h : s.Sound) {s' : Session} (hphase : s'.phase = s.phase)
    (hsending : s'.sending = s.sending) (horderly : s'.line.Orderly)
    (hlive : s.line.Live → s'.line.Live) (hhold : s.line.Holding → s'.line.Holding)
    (hwait : s.line.Waiting → s'.line.Waiting) (hworks : s'.line.works = s.line.works) :
    s'.Sound where
  orderly := horderly
  live hl := hlive (h.live (by rw [← hphase]; exact hl))
  hold hh := hhold (h.hold (by rw [← hphase, ← hsending]; exact hh))
  wait hr hs := hwait (h.wait (by rw [← hphase]; exact hr) (by rw [← hsending]; exact hs))
  work n h' hw := by rw [hworks]; exact h.work n h' (by rw [← hphase]; exact hw)
  reply r hr := by rw [hphase]; exact h.reply r (by rw [← hsending]; exact hr)
  refused task h' r e he := h.refused task h' r e (by rw [← hphase]; exact he)

theorem Sound.idles (h : s.Sound) (hp : s.phase.isEnded = false) (ho : s.line.kept.owed = true)
    (ht : s.line.kept.turn = false) (he : s.line.kept.err = none) : (s.idles g).Sound := by
  have hlive := (h.live hp).idles ho ht he (g.newSend .ready (some .ready))
  refine h.relay rfl rfl hlive.orderly (fun _ => hlive) (fun _ => ⟨hlive, fun _ => nofun⟩) ?_ rfl
  intro hw
  cases hw.quiet.1.symm.trans ho

theorem Sound.idleReceives (h : s.Sound) (ht : s.line.kept.turn = true) {m : Sent}
    {rest : List Sent} (hin : s.line.wire.inbox = m :: rest) : (s.idleReceives v m rest).Sound := by
  have hwait : s.line.Waiting → False := fun hw => by cases hw.quiet.2.1.symm.trans ht
  have horderly := h.orderly
  have hfails : ∀ f, ({ s with line := { s.line with wire := s.line.wire.take rest } } :
      Session).idleFails f |>.Sound := fun f =>
    h.relay rfl rfl ⟨horderly.taken, horderly.sent, horderly.last⟩
      (fun hl => (hl.idleFails _ f).toLive) (fun hh => hh.idleFails _ f) (fun hw => (hwait hw).elim)
      rfl
  unfold Session.idleReceives
  dsimp only
  split
  · exact hfails _
  · split
    · exact hfails _
    · exact h.relay rfl rfl ⟨horderly.taken, horderly.sent, horderly.last⟩
        (fun hl => (hl.idleReceives ht hin).toLive) (fun hh => hh.toLive.idleReceives ht hin)
        (fun hw => (hwait hw).elim) rfl

theorem Sound.idleSilent (h : s.Sound) (ht : s.line.kept.turn = true) :
    (s.idleFails .silent).Sound :=
  h.relay rfl rfl ⟨h.orderly.taken, h.orderly.sent, h.orderly.last⟩
    (fun hl => (hl.idleFails _ _).toLive) (fun hh => hh.idleFails _ _)
    (fun hw => by cases hw.quiet.2.1.symm.trans ht) rfl

theorem Sound.silences (h : s.Sound) (env : Env) (hkept : (Event.silences env).keepsTurn s = true) :
    (s.step v g (.silences env)).Sound := by
  simp only [step]
  cases hp : s.phase with
  | taking task =>
    dsimp only
    split
    · refine turned_sound (h.live (by rw [hp]; rfl)) _ fun hnone => ?_
      have hstop : (phaseFailed (g.worker v) (g.runOpt v) env "take docs" task []
          (silenced (silent v))).err.isSome := phaseFailed_stop rfl _ _ _
      rw [hnone] at hstop
      cases hstop
    · exact h
  | reporting task h' r dependency =>
    dsimp only
    split
    · next harmed =>
      rw [Bool.and_eq_true, Option.isNone_iff_eq_none] at harmed
      refine reported_silent (h.live (by rw [hp]; rfl)) env task h' r _ (fun e he => ?_) fun hd => ?_
      · rw [he] at hp
        exact h.refused _ _ _ _ hp
      · rw [hd] at hp
        simpa [Event.keepsTurn, hp, harmed.1, harmed.2] using hkept
    · exact h
  | _ => exact h

theorem Sound.step (h : s.Sound) (e : Event) (hkept : e.keepsTurn s = true) :
    (s.step v g e).Sound := by
  cases e with
  | requests frame =>
    refine h.relay rfl rfl ⟨h.orderly.taken, h.orderly.sent, h.orderly.last⟩ (·.requests frame)
      (·.requests frame) (·.requests frame) rfl
  | reads =>
    exact h.relay rfl rfl h.orderly.reads (·.reads) (·.reads) (·.reads) Line.reads_keeps.2.1
  | sends env =>
    simp only [Session.step]
    split
    · next r hr =>
      split
      · exact h
      · next ht => exact sends_sound h hr (Bool.not_eq_true _ ▸ ht) env
    · exact h
  | receives env readErr =>
    simp only [Session.step]
    split
    · next hs hin => exact receives_sound h hs env readErr hin
    · exact h
  | silences env => exact h.silences env hkept
  | idles =>
    simp only [Session.step]
    split
    · next hi =>
      simp only [Bool.and_eq_true, Bool.not_eq_true', Option.isNone_iff_eq_none] at hi
      exact h.idles hi.2 hi.1.1.1 hi.1.1.2 hi.1.2
    · exact h
  | idleReceives =>
    simp only [Session.step]
    split
    · next ht hin => exact h.idleReceives ht hin
    · exact h
  | idleSilent =>
    simp only [Session.step]
    split
    · next ht => exact h.idleSilent ht
    · exact h
  | claims env =>
    simp only [Session.step]
    split
    · next hp => exact claimed_sound (h.hold (.inl (by rw [hp]; rfl))) env
    · exact h
  | interrupts why env renewErr final landed =>
    simp only [Session.step]
    split
    · next hp => exact interrupted_sound h hp why env renewErr final landed hkept
    · exact h
  | workEnds env renewErr final =>
    simp only [Session.step]
    split
    · next hp =>
      have hs : s.sending = none := by
        cases hs : s.sending with
        | none => rfl
        | some r => rcases h.reply r hs with hc | ⟨hc, -⟩ <;> rw [hp] at hc <;> cases hc
      exact workEnds_sound hs (h.hold (.inl (by rw [hp]; rfl))) _ _ _ _ _
    · exact h
  | commits env answer =>
    simp only [Session.step]
    split
    · next hp => exact commits_sound (h.hold (.inl (by rw [hp]; rfl))) _ _ _ _ _
    · exact h
  | drains => exact h.relay rfl rfl h.orderly id id id rfl
  | shutsDown =>
    simp only [Session.step]
    split
    · exact h.relay rfl rfl h.orderly id id id rfl
    · exact h
  | closes => exact sound_ended h.orderly rfl rfl

/-! ## Whole sessions -/

theorem opened_sound (first : Request) : (opened v g first).Sound := by
  have hidle : ({} : Exchange Sent Response).Waits := .idle rfl rfl rfl rfl
  have hnew : ({} : Line).Waiting :=
    { taken := fun _ h => by cases h
      sent := fun _ h => by cases h
      alternates := fun _ =>
        { turns := .inl hidle
          owed := fun h => by cases h
          turn := fun h => by cases h
          given := fun _ h => by cases h
          works := rfl }
      waits := hidle
      quiet := ⟨rfl, rfl, rfl⟩ }
  have hin : (({} : Line).requests (.ok first)).wire.inbox = [⟨.ok first, 0⟩] := rfl
  obtain ⟨hasked, ht, he, -⟩ := (hnew.requests (.ok first)).heard hin
  exact sound_waits (hasked.said he ht _) rfl rfl (fun _ _ h => by cases h)
    fun _ _ _ _ h => by cases h

/-- In a session that gives nothing up with no request in hand, each answer is that of its own task,
and each response goes to the one request that is unanswered. -/
theorem session_orderly (v : Server) (g : Gateway) (first : Request) (events : List Event)
    (hkept : Along (Session.step v g) (fun s e => e.keepsTurn s = true) (opened v g first) events) :
    ((opened v g first).run v g events).line.Orderly :=
  (hkept.invariant (I := Sound) (fun _ e hs h => hs.step e h) (opened_sound first)).orderly

end Session

/-! ## Two sessions -/

def plainServer : Server where
  modifyArgsFromProto m := .ok [withModification m]

def plainGateway : Gateway where
  config := { queues := ["q"], protocolVersions := [1], wantSuccess := true }
  protocolVersion := 1
  sessionID := "s"
  claimant := "c"
  workTimeout := 300 * second

def opening : Request := { type := .config, config := some plainGateway.config }

def job (id : String) : Task := { queue := "q", id, version := 1, claims := 1 }

def claimOf (id : String) : Env where
  claimant := "c"
  claim := .ok (job id)

/-- The client answers the last response. -/
def answers (m : Request) : List Event :=
  [.reads, .requests (.ok m), .receives (claimOf "") none]

/-- A task is claimed and handed out. -/
def handsOut (id : String) : List Event := [.claims (claimOf id), .sends (claimOf id)]

def deleted (id : String) : Request :=
  { type := .modify, modification := some { deletes := [(job id).idVersion] } }

def lostClaim (id : String) : Err := (⟨job id, []⟩ : Held).lostClaim {}

def busySession : List Event :=
  answers { type := .ready } ++ [.idles, .reads, .requests (.ok { type := .ready }), .idleReceives] ++
    handsOut "t1" ++ answers { type := .working } ++ [.sends (claimOf "")] ++
    answers { type := .tasks } ++ [.sends (claimOf "")] ++ answers (deleted "t1") ++
    [.workEnds (claimOf "") (some (lostClaim "t1")) ⟨job "t1", []⟩] ++
    handsOut "t2" ++ answers (deleted "t2") ++
    [.workEnds (claimOf "") none ⟨job "t2", []⟩, .commits (claimOf "") none, .sends (claimOf "")] ++
    answers { type := .done, quit := true } ++ [.sends (claimOf "")]

theorem session_orderly_busy :
    ((Session.opened plainServer plainGateway opening).run plainServer plainGateway
        busySession).line.Orderly ∧
      ((Session.opened plainServer plainGateway opening).run plainServer plainGateway
        busySession).line.sent.map (fun e => (e.response.type, e.last)) =
        [(.quit, true), (.success, false), (.work, false), (.tasks, false), (.ok, false),
          (.work, false), (.ready, false), (.ready, false)] :=
  ⟨Session.session_orderly plainServer plainGateway opening busySession (by decide),
    by decide⟩

/-- The claim of the first task is lost while its client works, and the second is handed out. -/
def lostSession : Session :=
  (Session.opened plainServer plainGateway opening).run plainServer plainGateway
    (answers { type := .ready } ++ handsOut "t1" ++
      [.reads, .interrupts .lost (claimOf "") (some (lostClaim "t1")) ⟨job "t1", []⟩ false] ++
      handsOut "t2" ++ [.requests (.ok (deleted "t1")), .receives (claimOf "") none])

/-- The client falls silent after a beat in its success turn, and the second task is handed out. -/
def silentSession : Session :=
  (Session.opened plainServer plainGateway opening).run plainServer plainGateway
    (answers { type := .ready } ++ handsOut "t1" ++ answers (deleted "t1") ++
      [.workEnds (claimOf "") none ⟨job "t1", []⟩, .commits (claimOf "") none, .sends (claimOf "")] ++
      answers { type := .working } ++ [.sends (claimOf ""), .reads, .silences (claimOf "")] ++
      handsOut "t2")

theorem handed_out_unasked :
    lostSession.line.taken.map (fun p => (p.1, p.2.given)) = [(2, 1)] ∧
      lostSession.line.sent.map Reply.unanswered = [0, 1, 1] ∧
      silentSession.line.sent.map (fun e => (e.response.type, e.unanswered)) =
        [(.work, 0), (.ok, 1), (.success, 1), (.work, 1), (.ready, 1)] ∧
      ¬lostSession.line.Orderly ∧ ¬silentSession.line.Orderly := by
  have htaken : lostSession.line.taken.map (fun p => (p.1, p.2.given)) = [(2, 1)] := by
    decide
  have hsent : silentSession.line.sent.map (fun e => (e.last, e.unanswered)) =
      [(false, 0), (false, 1), (false, 1), (false, 1), (false, 1)] := by decide
  refine ⟨htaken, by decide, by decide, fun h => ?_, fun h => ?_⟩
  · have hmem : (2, 1) ∈ lostSession.line.taken.map (fun p => (p.1, p.2.given)) := by
      rw [htaken]
      exact List.mem_singleton_self _
    obtain ⟨p, hp, heq⟩ := List.mem_map.mp hmem
    rw [h.taken p hp, Prod.mk.injEq] at heq
    omega
  · have hmem : (false, (0 : ℤ)) ∈ silentSession.line.sent.map (fun e => (e.last, e.unanswered)) := by
      rw [hsent]
      exact List.mem_cons_self
    obtain ⟨e, he, heq⟩ := List.mem_map.mp hmem
    rw [Prod.mk.injEq] at heq
    rw [h.sent e he heq.1] at heq
    cases heq.2

end EntroQ.Workgateway
