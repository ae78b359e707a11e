import EntroQ.Client.Changes

/-! # The source queue of a change

A change is checked and authorized against the queue it is from as well as the one it goes to.
Each move of a change takes the queue the copy is in by then as the source, so of several moves
only the last two count. -/

namespace EntroQ

/-- The argument leaves the queue of a change, and the one it is from, alone. -/
def KeepsQueues (arg : ChangeArg) : Prop :=
  ∀ p, (arg p).2.task.queue = p.2.task.queue ∧ (arg p).2.task.fromQueue = p.2.task.fromQueue

/-- An argument of a change is a move, or any function that leaves the two queues alone. -/
inductive ChangeOption
  | move (q : String)
  | keep (arg : ChangeArg) (keeps : KeepsQueues arg)

namespace ChangeOption

def arg : ChangeOption → ChangeArg
  | move q => queueTo q
  | keep arg _ => arg

def destination? : ChangeOption → Option String
  | move q => some q
  | keep _ _ => none

/-- The queues that a change is moved to, in order. -/
def destinations (opts : List ChangeOption) : List String := opts.filterMap destination?

/-- The source after all moves, from a copy in the queue `queue` that is said to be from
`source`. -/
def sourceAfter (source queue : String) (moves : List String) : String :=
  (queue :: moves).dropLast.getLast?.getD source

theorem sourceAfter_cons (source queue q : String) (moves : List String) :
    sourceAfter source queue (q :: moves) = sourceAfter queue q moves := by
  simp [sourceAfter, List.dropLast_cons_cons, List.getLast?_cons]

/-- The source is kept if fewer than two moves are made, or the one before the last is back to
the task's own queue. -/
def SourceKept (queue : String) (moves : List String) : Prop :=
  ∀ q, moves.dropLast.getLast? = some q → q = queue

theorem sourceAfter_eq_iff (queue : String) (moves : List String) :
    sourceAfter queue queue moves = queue ↔ SourceKept queue moves := by
  cases moves with
  | nil => simp [sourceAfter, SourceKept]
  | cons q moves =>
    rw [sourceAfter, List.dropLast_cons_cons, List.getLast?_cons, SourceKept]
    cases h : (q :: moves).dropLast.getLast? with
    | none => simp
    | some r => simp

theorem fromQueue_foldl (opts : List ChangeOption) (p : Modification × TaskChange) :
    ((opts.map arg).foldl (fun p arg => arg p) p).2.task.fromQueue =
      sourceAfter p.2.task.fromQueue p.2.task.queue (destinations opts) := by
  induction opts generalizing p with
  | nil => rfl
  | cons o opts ih =>
    rw [List.map_cons, List.foldl_cons, ih]
    cases o with
    | move q => exact (sourceAfter_cons ..).symm
    | keep arg keeps =>
      obtain ⟨hqueue, hsource⟩ := keeps p
      change sourceAfter (arg p).2.task.fromQueue (arg p).2.task.queue _ = _
      rw [hqueue, hsource]
      rfl

def attemptToNext : ChangeOption := .keep EntroQ.attemptToNext fun _ => ⟨rfl, rfl⟩
def appendingErr (e : String) : ChangeOption := .keep (EntroQ.appendingErr e) fun _ => ⟨rfl, rfl⟩
def resettingClaims : ChangeOption := .keep EntroQ.resettingClaims fun _ => ⟨rfl, rfl⟩
def arrivalTimeBy (d : Duration) : ChangeOption :=
  .keep (EntroQ.arrivalTimeBy d) fun _ => ⟨rfl, rfl⟩
def rawValueTo (v : RawMessage) : ChangeOption := .keep (EntroQ.rawValueTo v) fun _ => ⟨rfl, rfl⟩
def errTo (e : String) : ChangeOption := .keep (EntroQ.errTo e) fun _ => ⟨rfl, rfl⟩
def attemptToZero : ChangeOption := .keep EntroQ.attemptToZero fun _ => ⟨rfl, rfl⟩

end ChangeOption

open ChangeOption

def Modification.lastSource (m : Modification) : Option String :=
  m.changes.getLast?.map fun c => c.task.fromQueue

namespace Task
variable (t : Task) (m : Modification) (opts : List ChangeOption)

theorem lastSource_change :
    (t.change (opts.map arg) m).lastSource =
      some (sourceAfter t.queue t.queue (destinations opts)) := by
  rw [Modification.lastSource, change, List.getLast?_concat, Option.map_some, fromQueue_foldl]

def retryOptions (errMsg quarantineTo : String) (afterMaxAttempts : Int32) : List ChangeOption :=
  let q := t.quarantining quarantineTo afterMaxAttempts
  [.attemptToNext, .appendingErr errMsg, .resettingClaims] ++
    (if q then [.move quarantineTo] else []) ++ opts ++ (if q then [.arrivalTimeBy 0] else [])

theorem retryOrQuarantine_eq_change (errMsg quarantineTo : String) (afterMaxAttempts : Int32) :
    t.retryOrQuarantine errMsg quarantineTo afterMaxAttempts (opts.map arg) =
      t.change ((t.retryOptions opts errMsg quarantineTo afterMaxAttempts).map arg) := by
  simp only [retryOrQuarantine, retryOptions, List.map_append]
  cases t.quarantining quarantineTo afterMaxAttempts <;> rfl

theorem destinations_retryOptions (errMsg quarantineTo : String) (afterMaxAttempts : Int32) :
    destinations (t.retryOptions opts errMsg quarantineTo afterMaxAttempts) =
      (if t.quarantining quarantineTo afterMaxAttempts then [quarantineTo] else []) ++
        destinations opts := by
  simp only [destinations, retryOptions, List.filterMap_append]
  cases t.quarantining quarantineTo afterMaxAttempts <;>
    simp [ChangeOption.attemptToNext, ChangeOption.appendingErr, ChangeOption.resettingClaims,
      ChangeOption.arrivalTimeBy, destination?, List.filterMap_cons]

/-- A change is from the queue the task was in exactly if its moves keep the source, and so is a
retry or quarantine, whose own move comes before the overrides. -/
theorem change_from_own_queue_iff :
    ((t.change (opts.map arg) m).lastSource = some t.queue ↔
      SourceKept t.queue (destinations opts)) ∧
    ∀ errMsg quarantineTo afterMaxAttempts,
      (t.retryOrQuarantine errMsg quarantineTo afterMaxAttempts (opts.map arg) m).lastSource =
          some t.queue ↔
        SourceKept t.queue
          ((if t.quarantining quarantineTo afterMaxAttempts then [quarantineTo] else []) ++
            destinations opts) := by
  constructor
  · rw [lastSource_change, Option.some_inj, sourceAfter_eq_iff]
  · intro errMsg quarantineTo afterMaxAttempts
    rw [retryOrQuarantine_eq_change, lastSource_change, Option.some_inj, sourceAfter_eq_iff,
      destinations_retryOptions]

/-- A quarantine that is sent elsewhere by an override is said to be from the quarantine. -/
theorem quarantine_sent_elsewhere :
    let t : Task := { id := "t", queue := "inbox" }
    (t.quarantine "failed" "dead" [queueTo "elsewhere"] {}).lastSource = some "dead" ∧
      (t.quarantine "failed" "dead" [queueTo "elsewhere"] {}).lastSource ≠ some t.queue := by
  decide

end Task
end EntroQ
