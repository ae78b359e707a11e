import EntroQ.Eqmem.DocHistory
import EntroQ.Eqmem.Restore

/-! # Snapshots

A snapshot holds every task, doc and lock, and loading it puts each of them where it was, in
whatever order the entries come. What it does not put back is the index from tasks to queues, so
a store that held a task is not the same after a restore. -/

namespace EntroQ.Eqmem
open Foundation Docset

/-! ## What a snapshot holds -/

section Entries
variable {s : EQMem}

end Entries

/-! ## Loading docs and locks -/

end EntroQ.Eqmem
