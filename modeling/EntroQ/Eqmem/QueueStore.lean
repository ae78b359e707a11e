import EntroQ.Eqmem.ClaimHeap

/-! # A queue: its tasks and its claim heap

`QLock` is what the lock of a queue guards. `QLock.Valid` says its parts agree: the heap holds
one item for each stored task at the task's arrival, and the size counter counts the tasks. -/

namespace EntroQ.Eqmem
open Foundation

structure TaskQueue where
  name : String
  size : ℤ := 0
  byID : FMap String Task := ∅

namespace TaskQueue
variable (s : TaskQueue)

def set (id : String) (val : Task) : TaskQueue :=
  { s with byID := s.byID.insert id val, size := if id ∈ s.byID then s.size else s.size + 1 }

def delete (id : String) : TaskQueue :=
  { s with byID := s.byID.erase id, size := if id ∈ s.byID then s.size - 1 else s.size }

/-- Store what `f` makes of the task, or `none` if it is not found. -/
def update (id : String) (f : Task → Task) : Option TaskQueue :=
  (s.byID.lookup id).map (fun t => { s with byID := s.byID.insert id (f t) })

def len : ℤ := s.size

end TaskQueue

structure QLock where
  queue : String
  heap : ClaimHeap := {}
  tasks : TaskQueue

def newQLock (q : String) : QLock := { queue := q, tasks := { name := q } }

namespace QLock
variable (ql : QLock)

/-- Nothing keeps the queue in the registry. -/
def idle : Bool := decide (ql.tasks.len = 0)

/-- The queue's part of `queueUnsafeInsertTask`. -/
def insertTask (t : Task) : QLock :=
  { ql with heap := ql.heap.pushItem (newItem ql.queue t.id t.atTime)
            tasks := ql.tasks.set t.id t }

/-- The queue's part of `queueUnsafeDeleteID`. -/
def deleteID (id : String) : QLock :=
  { ql with heap := ql.heap.removeID id, tasks := ql.tasks.delete id }

/-- `queueUnsafeUpdateTask`, or `none` where it panics: the heap has no item for the task. -/
def updateTask (t : Task) : Option QLock :=
  (ql.heap.updateID t.id t.atTime).map
    (fun h => { ql with heap := h, tasks := ql.tasks.set t.id t })

def task (id : String) : Option Task := ql.tasks.byID.lookup id

def arrivals (id : String) : Option Time := (ql.task id).map Task.atTime

structure Valid (ql : QLock) : Prop where
  named : ∀ id t, ql.task id = some t → t.id = id ∧ t.queue = ql.queue
  size : ql.tasks.size = ql.tasks.byID.keys.card
  holds : ql.heap.Holds ql.arrivals

theorem valid_new (q : String) : (newQLock q).Valid where
  named id t h := by simp [task, newQLock] at h
  size := by simp [newQLock]
  holds := by
    have : (newQLock q).arrivals = fun _ => none := by
      funext id
      simp [arrivals, task, newQLock]
    rw [this]
    exact ClaimHeap.holds_empty

variable {ql}

theorem task_insertTask (t : Task) (id : String) :
    (ql.insertTask t).task id = if id = t.id then some t else ql.task id :=
  FMap.lookup_insert _ _ _ _

theorem task_deleteID (id i : String) :
    (ql.deleteID id).task i = if i = id then none else ql.task i :=
  FMap.lookup_erase _ _ _

theorem arrivals_insert (ql ql' : QLock) (t : Task)
    (h : ∀ id, ql'.task id = if id = t.id then some t else ql.task id) :
    ql'.arrivals = Function.update ql.arrivals t.id (some t.atTime) := by
  funext id
  unfold arrivals
  rw [h]
  by_cases hid : id = t.id
  · subst hid
    simp
  · simp [hid]

theorem Valid.insertTask (hv : ql.Valid) {t : Task} (hq : t.queue = ql.queue)
    (hnew : ql.task t.id = none) : (ql.insertTask t).Valid where
  named id t' h := by
    rw [task_insertTask] at h
    split_ifs at h with he
    · cases h
      exact ⟨he.symm, hq⟩
    · exact hv.named id t' h
  size := by
    have hn : t.id ∉ ql.tasks.byID := Finmap.lookup_eq_none.mp hnew
    simp only [QLock.insertTask, TaskQueue.set, if_neg hn]
    rw [FMap.card_keys_insert_of_notMem _ _ _ hnew, hv.size]
    push_cast
    rfl
  holds := by
    rw [arrivals_insert ql _ t (task_insertTask t)]
    apply hv.holds.pushItem
    simp [arrivals, newItem, hnew]

theorem Valid.deleteID (hv : ql.Valid) (id : String) : (ql.deleteID id).Valid where
  named i t h := by
    rw [task_deleteID] at h
    split_ifs at h
    exact hv.named i t h
  size := by
    simp only [QLock.deleteID, TaskQueue.delete]
    cases ht : ql.tasks.byID.lookup id with
    | none =>
      rw [if_neg (Finmap.lookup_eq_none.mp ht), FMap.erase_of_notMem _ _ ht]
      exact hv.size
    | some t =>
      have hc := FMap.card_keys_erase_of_mem _ _ _ ht
      rw [if_pos (Finmap.mem_of_lookup_eq_some ht), hv.size]
      omega
  holds := by
    have : (ql.deleteID id).arrivals = Function.update ql.arrivals id none := by
      funext i
      unfold arrivals
      rw [task_deleteID]
      by_cases hi : i = id
      · subst hi
        simp
      · simp [hi]
    rw [this]
    exact hv.holds.removeID id

theorem Valid.updateTask (hv : ql.Valid) {t old : Task} (hq : t.queue = ql.queue)
    (hold : ql.task t.id = some old) :
    ∃ ql', ql.updateTask t = some ql' ∧ ql'.Valid ∧ ql'.queue = ql.queue ∧
      ∀ id, ql'.task id = if id = t.id then some t else ql.task id := by
  have ha : ql.arrivals t.id = some old.atTime := by simp [arrivals, hold]
  obtain ⟨h', hh', hholds⟩ := hv.holds.updateID ha t.atTime
  have htask : ∀ id, QLock.task { ql with heap := h', tasks := ql.tasks.set t.id t } id =
      if id = t.id then some t else ql.task id := fun id => FMap.lookup_insert _ _ _ _
  refine ⟨{ ql with heap := h', tasks := ql.tasks.set t.id t },
    by rw [QLock.updateTask, hh']; rfl, ⟨?_, ?_, ?_⟩, rfl, htask⟩
  · intro id t' h
    rw [htask] at h
    split_ifs at h with he
    · cases h
      exact ⟨he.symm, hq⟩
    · exact hv.named id t' h
  · have hm : t.id ∈ ql.tasks.byID := Finmap.mem_of_lookup_eq_some hold
    simp only [TaskQueue.set, if_pos hm]
    rw [FMap.card_keys_insert_of_mem _ _ _ _ hold]
    exact hv.size
  · rw [arrivals_insert ql _ t htask]
    exact hholds

theorem Valid.idle_iff (hv : ql.Valid) : ql.idle = true ↔ ∀ id, ql.task id = none := by
  rw [idle, decide_eq_true_iff, TaskQueue.len, hv.size, Int.natCast_eq_zero,
    FMap.card_keys_eq_zero_iff]
  rfl

end QLock
end EntroQ.Eqmem
