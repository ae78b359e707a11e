import EntroQ.Client.Types

/-! # Arguments of a modification

What a client builds its modifications from: each argument adds to the modification, and a change
is made of arguments of its own. -/

namespace EntroQ

abbrev ModifyArg := Modification → Modification
abbrev ChangeArg := Modification × TaskChange → Modification × TaskChange

def newModification (claimant : String) (args : List ModifyArg) : Modification :=
  args.foldl (fun m arg => arg m) { claimant }

def modifyAs (id : String) : ModifyArg := fun m => { m with claimant := id }

def Modification.resetClaimsOf (m : Modification) (id : String) : Modification :=
  { m with resetClaims := m.resetClaims ++ [id] }

abbrev InsertArg := TaskData → TaskData

def withID (id : String) : InsertArg := fun d => { d with id }

def withArrivalTimeIn (duration : Duration) : InsertArg := fun d => { d with byDur := duration }

def withRawValue (value : RawMessage) : InsertArg := fun d => { d with value }

def withAttempt (attempt : Int32) : InsertArg := fun d => { d with attempt }

def withErr (err : String) : InsertArg := fun d => { d with err }

def insertingInto (q : String) (args : List InsertArg) : ModifyArg := fun m =>
  { m with inserts := m.inserts ++ [args.foldl (fun d arg => arg d) { queue := q, id := "" }] }

def Modification.genIDs (gen : ℕ → String) (m : Modification) : Modification :=
  { m with
    inserts := m.inserts.mapIdx fun i d => if d.id = "" then { d with id := gen i } else d
    docInserts := m.docInserts.mapIdx fun i d =>
      if d.id = "" then { d with id := gen (m.inserts.length + i) } else d }

/-- A move to another queue remembers the one it is from. -/
def queueTo (q : String) : ChangeArg := fun (m, c) =>
  (m, { c with task := { c.task with fromQueue := c.task.queue, queue := q } })

def arrivalTimeBy (d : Duration) : ChangeArg := fun (m, c) => (m, { c with byDur := d })

def rawValueTo (v : RawMessage) : ChangeArg := fun (m, c) =>
  (m, { c with task := { c.task with value := v } })

def appendingErr (e : String) : ChangeArg := fun (m, c) =>
  let strs := [c.task.err, e].filter fun s => s != ""
  (m, { c with task :=
    { c.task with err := if strs.isEmpty then c.task.err else "\n".intercalate strs } })

def errTo (e : String) : ChangeArg := fun (m, c) =>
  (m, { c with task := { c.task with err := e } })

def resettingClaims : ChangeArg := fun (m, c) => (m.resetClaimsOf c.task.id, c)

def attemptToNext : ChangeArg := fun (m, c) =>
  (m, { c with task := { c.task with attempt := c.task.attempt + 1 } })

def attemptToZero : ChangeArg := fun (m, c) =>
  (m, { c with task := { c.task with attempt := 0 } })

namespace Task
variable (t : Task)

def change (args : List ChangeArg) : ModifyArg := fun m =>
  let p := args.foldl (fun p arg => arg p) (m, { task := { t with fromQueue := t.queue, atTime := 0 } })
  { p.1 with changes := p.1.changes ++ [p.2] }

def delete : ModifyArg := fun m => { m with deletes := m.deletes ++ [t.idVersion] }

/-- Whether the next failure is the last one allowed. -/
def quarantining (quarantineTo : String) (afterMaxAttempts : Int32) : Bool :=
  quarantineTo != "" && afterMaxAttempts != 0 && decide (afterMaxAttempts ≤ t.attempt + 1)

/-- Record a failure and try again, or move the task away if it was the last one allowed. -/
def retryOrQuarantine (errMsg quarantineTo : String) (afterMaxAttempts : Int32)
    (overrides : List ChangeArg) : ModifyArg :=
  let q := t.quarantining quarantineTo afterMaxAttempts
  t.change ([attemptToNext, appendingErr errMsg, resettingClaims] ++
    (if q then [queueTo quarantineTo] else []) ++ overrides ++
    -- a retry delay does not reach the quarantine
    (if q then [arrivalTimeBy 0] else []))

def retry (errMsg : String) (overrides : List ChangeArg) : ModifyArg :=
  t.retryOrQuarantine errMsg "" 0 overrides

def quarantine (errMsg toQ : String) (overrides : List ChangeArg) : ModifyArg :=
  t.retryOrQuarantine errMsg toQ 1 overrides

end Task

def TaskID.delete (t : TaskID) : ModifyArg := fun m => { m with deletes := m.deletes ++ [t] }

def TaskID.depend (t : TaskID) : ModifyArg := fun m => { m with depends := m.depends ++ [t] }

structure DocOpts where
  id : String := ""
  key : String := ""
  secondaryKey : String := ""
  content : RawMessage := ""
  byDur : Duration := 0

abbrev DocOpt := DocOpts → DocOpts

def withIDKeys (id key secondaryKey : String) : DocOpt := fun o => { o with id, key, secondaryKey }

def withRawContent (content : RawMessage) : DocOpt := fun o => { o with content }

def withDocArrivalTimeBy (d : Duration) : DocOpt := fun o => { o with byDur := d }

namespace Doc
variable (d : Doc)

def delete : ModifyArg := fun m =>
  { m with docDeletes := m.docDeletes ++ [newDocID d.ns d.id d.version] }

def change (opts : List DocOpt) : ModifyArg := fun m =>
  let o : DocOpts := opts.foldl (fun o opt => opt o) {}
  let content := if o.content = "" then d.content else o.content
  { m with docChanges := m.docChanges ++ [{ doc := { d with atTime := 0, content }, byDur := o.byDur }] }

end Doc

def DocID.delete (r : DocID) : ModifyArg := fun m => { m with docDeletes := m.docDeletes ++ [r] }

def DocID.depend (r : DocID) : ModifyArg := fun m => { m with docDepends := m.docDepends ++ [r] }

def puttingDocInto (ns : String) (opts : List DocOpt) : ModifyArg := fun m =>
  let o : DocOpts := opts.foldl (fun o opt => opt o) {}
  { m with docInserts := m.docInserts ++
    [{ ns, id := o.id, byDur := o.byDur, key := o.key, secondaryKey := o.secondaryKey
       content := o.content }] }

def DocSet.ref (g : DocSet) : DocID := newDocSetRef g.ns g.key g.version

def arriving (by_ : Duration) (tasks : List Task) (sets : List DocSet) : ModifyArg := fun m =>
  { m with arrives := m.arrives ++ tasks.map fun t => { taskID := t.idVersion, byDur := by_ }
           docArrives := m.docArrives ++ sets.map fun g => { docID := g.ref, byDur := by_ } }

/-- A modification with another's operations; it keeps its own claimant. -/
def withModification (src : Modification) : ModifyArg := fun dest =>
  { dest with inserts := dest.inserts ++ src.inserts, changes := dest.changes ++ src.changes
              deletes := dest.deletes ++ src.deletes, depends := dest.depends ++ src.depends
              arrives := dest.arrives ++ src.arrives
              docInserts := dest.docInserts ++ src.docInserts
              docChanges := dest.docChanges ++ src.docChanges
              docDeletes := dest.docDeletes ++ src.docDeletes
              docDepends := dest.docDepends ++ src.docDepends
              docArrives := dest.docArrives ++ src.docArrives
              resetClaims := dest.resetClaims ++ src.resetClaims }

end EntroQ
