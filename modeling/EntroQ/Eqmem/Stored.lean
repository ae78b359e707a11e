import EntroQ.Eqmem.TaskHistory

/-! # Which tasks are stored

Only a `Modify` that succeeds puts a task in the store or takes one out. What it puts in was not
there, a collision it reports is there, and the first task it answers with is the first it
inserted. -/

namespace EntroQ.Eqmem
open Foundation Docset

def EQMem.Stored (s : EQMem) (id : String) : Prop := (s.task id).isSome = true

instance (s : EQMem) (id : String) : Decidable (s.Stored id) :=
  inferInstanceAs (Decidable (_ = true))

variable {s : EQMem} {mod : Modification} {now : Time} {id : String}

theorem EQMem.not_stored : ¬s.Stored id ↔ s.task id = none := by
  simp [EQMem.Stored]

/-- A call that neither deletes nor inserts a task leaves it where it is. -/
theorem Call.stored_iff (h : Invariant s) {c : Call} (hdel : c.deletes s id = false)
    (hins : c.inserts s id = false) : (c.run s).1.Stored id ↔ s.Stored id := by
  rw [← not_iff_not, EQMem.not_stored, EQMem.not_stored]
  exact ⟨fun hn => by_contra fun hs => Call.stays_step h hs hdel hn,
    fun hn => Call.gone_step h hn hins⟩

/-- The same of a `Modify`, by what it names. -/
theorem modify_stored_iff (h : Invariant s) (hdel : id ∉ mod.deletes.map TaskID.id)
    (hins : id ∉ mod.inserts.map TaskData.id) :
    (modify s mod now).1.Stored id ↔ s.Stored id :=
  Call.stored_iff h (c := .modify mod now) (by simp [Call.deletes, hdel])
    (by simp [Call.inserts, hins])

theorem tryClaim_stored_iff (h : Invariant s) (cq : ClaimQuery) (attempts : List Attempt) :
    (tryClaim s cq attempts).1.Stored id ↔ s.Stored id :=
  Call.stored_iff h (c := .tryClaim cq attempts) rfl rfl

theorem modify_failed (h : Invariant s) (hok : (modify s mod now).2.isOk = false) :
    (modify s mod now).1 = s := by
  rcases modify_cases h.toSound mod now with ⟨f, -, hr⟩ | ⟨-, ⟨-, hr⟩ | ⟨s', hr, -⟩⟩
  · rw [hr]
  · rw [hr]
  · rw [hr] at hok
    cases hok

theorem modify_deleted (h : Invariant s) (hok : (modify s mod now).2.isOk = true) {r : TaskID}
    (hr : r ∈ mod.deletes) : (modify s mod now).1.task r.id = none := by
  rcases modify_ok_cases h hok with ⟨hno, -⟩ | ⟨s', hp, hm, hc⟩
  · rw [hno.tasks.2.2.1] at hr
    cases hr
  · have hafter := hp.tasksAfter now false h.indexed (hc.passes.fits hp h.indexed)
    rw [hm]
    exact (congrFun hc.applied.task r.id).trans (hafter.deleted r hr)

/-- What is inserted was not there. -/
theorem modify_stores (h : Invariant s) (hok : (modify s mod now).2.isOk = true) {td : TaskData}
    (htd : td ∈ mod.inserts) : ¬s.Stored td.id ∧ (modify s mod now).1.Stored td.id := by
  rcases modify_ok_cases h hok with ⟨hno, -⟩ | ⟨s', hp, hm, hc⟩
  · rw [hno.tasks.1] at htd
    cases htd
  · have hafter := hp.tasksAfter now false h.indexed (hc.passes.fits hp h.indexed)
    refine ⟨EQMem.not_stored.mpr (hc.fresh td htd), ?_⟩
    rw [hm, EQMem.Stored, (congrFun hc.applied.task td.id).trans (hafter.inserted td htd)]
    rfl

/-- The answer has the tasks inserted, in the order they were named in. -/
theorem modify_insertedTasks (h : Invariant s) {m : Modified} (hok : (modify s mod now).2 = .ok m) :
    m.resp.insertedTasks.map Task.id = mod.inserts.map TaskData.id := by
  rcases modify_ok_cases h (by rw [hok]; rfl) with ⟨hno, hm⟩ | ⟨s', hp, hm, hc⟩
  · rw [hm] at hok
    cases hok
    rw [hno.tasks.1]
    rfl
  · rw [hm] at hok
    cases hok
    change (mod.inserts.map _).map Task.id = _
    rw [List.map_map]
    rfl

/-- A task in the way of an insert is there. -/
theorem modify_collides (h : Invariant s) {e : DependencyError}
    (he : (modify s mod now).2 = .error (.dependency e)) (hdocs : mod.docInserts = [])
    (hcol : (e.nameArrivals mod).hasCollisions = true) : ∃ td ∈ mod.inserts, s.Stored td.id := by
  have hrep := modify_reports h he
  have hno : e.docInserts = [] := by
    refine List.eq_nil_iff_forall_not_mem.mpr fun r hr => ?_
    obtain ⟨d, hd, -⟩ := (hrep.docInserts r.name).mp ⟨r, hr, rfl⟩
    rw [hdocs] at hd
    cases hd
  rw [DependencyError.nameArrivals_hasCollisions, DependencyError.hasCollisions, hno] at hcol
  simp only [List.isEmpty_nil, Bool.not_true, Bool.or_false, Bool.not_eq_true',
    List.isEmpty_eq_false_iff] at hcol
  obtain ⟨r, hr⟩ := List.exists_mem_of_ne_nil _ hcol
  obtain ⟨td, htd, t, ht, -⟩ := (hrep.inserts r).mp hr
  refine ⟨td, htd, ?_⟩
  rw [EQMem.Stored, ht]
  rfl

end EntroQ.Eqmem
