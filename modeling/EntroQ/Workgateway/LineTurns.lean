import EntroQ.Workgateway.Session

/-! # Turns on the line

Between a session and its client, either the client is to speak, with at most one message under way,
or the session holds the one request that is unanswered. The client's own steps keep this, and so do
idle turns; the session keeps it by speaking only when it holds a request. -/

namespace EntroQ.Workgateway
open Foundation Worker

namespace Line

/-- Each answer a work phase took was sent by a client whose last task was its own, and each
response but the last was sent to the one unanswered request. -/
structure Orderly (l : Line) : Prop where
  taken : ∀ p ∈ l.taken, p.2.given = p.1
  sent : ∀ e ∈ l.sent, e.last = false → e.unanswered = 1
  last : ∀ e ∈ l.sent.tail, e.last = false

structure Alternates (l : Line) : Prop where
  turns : l.wire.Waits ∨ l.wire.Holds
  owed : l.kept.owed = true → l.kept.turn = false → l.wire.Holds
  turn : l.kept.turn = true → l.wire.Waits
  given : ∀ m ∈ l.wire.inbox, m.given = l.given
  works : (l.wire.outbox.countP fun r => r.type = .work) + l.given = l.works

/-- The line of a session that has not ended. -/
structure Live (l : Line) : Prop where
  taken : ∀ p ∈ l.taken, p.2.given = p.1
  sent : ∀ e ∈ l.sent, e.last = false ∧ e.unanswered = 1
  alternates : l.kept.err = none → l.Alternates

/-- The session is to speak, once an idle turn is over. -/
structure Holding (l : Line) : Prop extends Live l where
  holds : l.kept.err = none → l.kept.turn = false → l.wire.Holds

/-- The client is to speak. -/
structure Waiting (l : Line) : Prop extends Live l where
  waits : l.wire.Waits
  quiet : l.kept.owed = false ∧ l.kept.turn = false ∧ l.kept.err = none

variable {l : Line}

theorem Live.orderly (h : l.Live) : l.Orderly where
  taken := h.taken
  sent e he _ := (h.sent e he).2
  last e he := (h.sent e (List.mem_of_mem_tail he)).1

/-- The last response ends the session, whoever was to speak. -/
theorem Live.lastly (h : l.Live) (r : Response) : (l.deliver r true).Orderly where
  taken := h.taken
  sent e he hl := by
    rcases List.mem_cons.mp he with rfl | he
    · cases hl
    · exact (h.sent e he).2
  last e he := (h.sent e he).1

theorem Alternates.requests (h : l.Alternates) (frame : Except String Request) :
    (l.requests frame).Alternates where
  turns := h.turns.imp (·.ask _) fun hh => by rw [Line.requests, hh.ask]; exact hh
  owed ho ht := by
    have hh := h.owed ho ht
    rw [Line.requests, hh.ask]
    exact hh
  turn ht := (h.turn ht).ask _
  given m hm := by
    simp only [Line.requests, Exchange.ask] at hm ⊢
    split_ifs at hm
    · exact h.given m hm
    · rcases List.mem_append.mp hm with hm | hm
      · exact h.given m hm
      · rw [List.mem_singleton.mp hm]
  works := by
    have hout : (l.requests frame).wire.outbox = l.wire.outbox := by
      simp only [Line.requests, Exchange.ask]
      split_ifs <;> rfl
    rw [hout]
    exact h.works

/-- The client reads nothing while the session is to speak. -/
theorem reads_holds (h : l.wire.Holds) : l.reads = l := by
  rw [reads, h.outbox]
  split
  · next heq => cases heq
  · rfl

theorem reads_waits (h : l.wire.Waits) : l.reads.wire.Waits := by
  rw [reads]
  split
  · next hout => exact (h.read hout).1
  · exact h

theorem reads_keeps : l.reads.kept = l.kept ∧ l.reads.works = l.works ∧ l.reads.sent = l.sent ∧
    l.reads.taken = l.taken := by
  rw [reads]
  split <;> exact ⟨rfl, rfl, rfl, rfl⟩

theorem Alternates.reads (h : l.Alternates) : l.reads.Alternates := by
  rcases h.turns with hw | hh
  · have hw' := reads_waits hw
    rw [Line.reads] at hw' ⊢
    split at hw'
    · next r rest _ hout =>
      obtain ⟨-, hin, rfl⟩ := hw.read hout
      refine ⟨.inl hw', fun ho ht => ?_, fun _ => hw', fun m hm => ?_, ?_⟩
      · -- a request that is owed has no response under way
        cases (h.owed ho ht).outbox.symm.trans hout
      · rw [Exchange.read, hin] at hm
        cases hm
      · have hworks := h.works
        rw [hout] at hworks
        simp only [Exchange.read, List.countP_nil, List.countP_singleton, decide_eq_true_eq]
          at hworks ⊢
        split_ifs at hworks ⊢ <;> omega
    · exact h
  · rw [reads_holds hh]
    exact h

theorem Live.requests (h : l.Live) (frame : Except String Request) : (l.requests frame).Live where
  taken := h.taken
  sent := h.sent
  alternates he := (h.alternates he).requests frame

theorem Live.reads (h : l.Live) : l.reads.Live := by
  obtain ⟨hkept, -, hsent, htaken⟩ := reads_keeps (l := l)
  refine ⟨by rw [htaken]; exact h.taken, by rw [hsent]; exact h.sent, fun he => ?_⟩
  rw [hkept] at he
  exact (h.alternates he).reads

theorem Orderly.reads (h : l.Orderly) : l.reads.Orderly := by
  obtain ⟨-, -, hsent, htaken⟩ := reads_keeps (l := l)
  exact ⟨by rw [htaken]; exact h.taken, by rw [hsent]; exact h.sent, by rw [hsent]; exact h.last⟩

theorem Holding.requests (h : l.Holding) (frame : Except String Request) :
    (l.requests frame).Holding where
  toLive := h.toLive.requests frame
  holds he ht := by
    have hh := h.holds he ht
    rw [Line.requests, hh.ask]
    exact hh

theorem Holding.reads (h : l.Holding) : l.reads.Holding where
  toLive := h.toLive.reads
  holds he ht := by
    rw [reads_keeps.1] at he ht
    rw [reads_holds (h.holds he ht)]
    exact h.holds he ht

theorem Waiting.requests (h : l.Waiting) (frame : Except String Request) :
    (l.requests frame).Waiting where
  toLive := h.toLive.requests frame
  waits := h.waits.ask _
  quiet := h.quiet

theorem Waiting.reads (h : l.Waiting) : l.reads.Waiting where
  toLive := h.toLive.reads
  waits := reads_waits h.waits
  quiet := by rw [reads_keeps.1]; exact h.quiet

/-! ## The session speaks and listens -/

/-- What is sent to the one unanswered request. -/
theorem Holding.deliver (h : l.Holding) (he : l.kept.err = none) (ht : l.kept.turn = false)
    (r : Response) (kept : KeptConn) (howed : kept.owed = true → kept.turn = true) :
    ({ l.deliver r false with kept } : Line).Live ∧ (l.deliver r false).wire.Waits := by
  have hh := h.holds he ht
  have hw : (l.deliver r false).wire.Waits := hh.answer r
  refine ⟨⟨h.taken, fun e hmem => ?_, fun _ => ⟨.inl hw, fun ho hf => ?_, fun _ => hw, ?_, ?_⟩⟩, hw⟩
  · rcases List.mem_cons.mp hmem with rfl | hmem
    · exact ⟨rfl, hh.unanswered⟩
    · exact h.sent e hmem
  · rw [howed ho] at hf
    cases hf
  · intro m hm
    change m ∈ l.wire.inbox at hm
    rw [hh.inbox] at hm
    cases hm
  · have hworks := (h.alternates he).works
    rw [hh.outbox, List.countP_nil, Nat.zero_add] at hworks
    simp only [Line.deliver, Exchange.answer, hh.outbox, List.nil_append, List.countP_singleton,
      decide_eq_true_eq, hworks]
    split_ifs
    · exact Nat.add_comm 1 _
    · exact Nat.zero_add _

theorem Holding.said (h : l.Holding) (he : l.kept.err = none) (ht : l.kept.turn = false)
    (r : Response) : (l.said r).Waiting := by
  obtain ⟨hlive, hw⟩ := h.deliver he ht r { l.kept with owed := false } nofun
  exact ⟨hlive, hw, rfl, ht, he⟩

/-- The one request under way is taken, and it was sent with the last task in the client's hands. -/
theorem Waiting.heard (h : l.Waiting) {m : Sent} {rest : List Sent}
    (hin : l.wire.inbox = m :: rest) :
    (l.heard rest).Holding ∧ (l.heard rest).kept.turn = false ∧ (l.heard rest).kept.err = none ∧
      m.given = l.works := by
  obtain ⟨-, ht, he⟩ := h.quiet
  have ha := h.alternates he
  have hh : (l.heard rest).wire.Holds := h.waits.take hin
  have hworks := ha.works
  have hout : l.wire.outbox = [] := hh.outbox
  rw [hout, List.countP_nil, Nat.zero_add] at hworks
  refine ⟨⟨⟨h.taken, h.sent, fun _ => ⟨.inr hh, fun _ _ => hh, fun hf => ?_, ?_, ?_⟩⟩, fun _ _ => hh⟩,
    ht, he, ?_⟩
  · cases ht.symm.trans hf
  · intro m' hm'
    rw [hh.inbox] at hm'
    cases hm'
  · change (l.wire.outbox.countP _) + l.given = l.works
    rw [hout, List.countP_nil, Nat.zero_add, hworks]
  · rw [ha.given m (by rw [hin]; exact List.mem_cons_self), hworks]

/-! ## Idle turns -/

/-- A ready goes out to a request that is owed. -/
theorem Live.idles (h : l.Live) (ho : l.kept.owed = true) (ht : l.kept.turn = false)
    (he : l.kept.err = none) (r : Response) :
    ({ l.deliver r false with kept := { l.kept with turn := true } } : Line).Live :=
  (Holding.deliver ⟨h, fun _ _ => (h.alternates he).owed ho ht⟩ he ht r
    { l.kept with turn := true } fun _ => rfl).1

/-- The client's answer to the ready is owed in the place of its request. -/
theorem Live.idleReceives (h : l.Live) (ht : l.kept.turn = true) {m : Sent} {rest : List Sent}
    (hin : l.wire.inbox = m :: rest) :
    ({ l with wire := l.wire.take rest
              kept := { l.kept with owed := true, turn := false } } : Line).Holding := by
  have hh : l.kept.err = none → (l.wire.take rest).Holds := fun he =>
    ((h.alternates he).turn ht).take hin
  refine ⟨⟨h.taken, h.sent, fun he => ?_⟩, fun he _ => hh he⟩
  have hworks := (h.alternates he).works
  refine ⟨.inr (hh he), fun _ _ => hh he, nofun, fun m' hm' => ?_, hworks⟩
  rw [(hh he).inbox] at hm'
  cases hm'

/-- After an idle turn that failed nothing is sent but a last response. -/
theorem Live.idleFails (h : l.Live) (wire : Exchange Sent Response) (f : IdleFailure) :
    ({ l with wire, kept := { l.kept with turn := false, err := some f } } : Line).Holding :=
  ⟨⟨h.taken, h.sent, nofun⟩, nofun⟩

/-! ## A `Send` that ends early -/

/-- A request that is no longer answered with a ready, however long it waits. -/
theorem Holding.unowed (h : l.Holding) :
    ({ l with kept := { l.kept with owed := false } } : Line).Holding where
  taken := h.taken
  sent := h.sent
  alternates he :=
    have ha := h.alternates he
    ⟨ha.turns, nofun, ha.turn, ha.given, ha.works⟩
  holds := h.holds

theorem abort_live (hl : l.Live) (landed : Bool) {sending : Option Response}
    (hh : sending.isSome = true → l.Holding) : (l.abort landed sending).Live := by
  unfold abort
  split
  · exact hl
  · split
    · exact hl
    · next ht =>
      rw [Bool.not_eq_true] at ht
      split
      · next he =>
        rw [Bool.and_eq_true, Option.isNone_iff_eq_none] at he
        exact ((hh rfl).said he.2 ht _).toLive
      · exact (hh rfl).unowed.toLive

/-- A `Send` that did not go out leaves the request in hand. -/
theorem Holding.abort (h : l.Holding) {landed : Bool} {sending : Option Response}
    (hkept : l.kept.turn = true ∨ landed = false) : (l.abort landed sending).Holding := by
  unfold Line.abort
  split
  · exact h
  · split
    · exact h
    · next ht =>
      have hland : landed = false := hkept.resolve_left ht
      rw [hland, Bool.false_and, if_neg Bool.false_ne_true]
      exact h.unowed

/-- A work phase takes an answer that was sent with its task in the client's hands. -/
theorem Holding.took (h : l.Holding) {n : ℕ} {m : Sent} (hm : m.given = n) :
    ({ l with taken := (n, m) :: l.taken } : Line).Holding where
  taken p hp := by
    rcases List.mem_cons.mp hp with rfl | hp
    · exact hm
    · exact h.taken p hp
  sent := h.sent
  alternates he :=
    have ha := h.alternates he
    ⟨ha.turns, ha.owed, ha.turn, ha.given, ha.works⟩
  holds := h.holds

end Line

end EntroQ.Workgateway
