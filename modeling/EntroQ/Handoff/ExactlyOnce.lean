import EntroQ.Handoff.Delivery

/-! # Exactly once

While a source task is stored, the tombstone of its delivery is, so a second delivery collides. A
worker deletes the tombstone only after it has deleted the source task; a delivery that comes after
that finds nothing to collide with. -/

namespace EntroQ.Handoff
open Foundation Eqmem Worker

/-! ## The modifications of a worker -/

section Modifications
variable (w : HandoffWorker) (i : ℕ) (gen : ℕ → String)

theorem transferID_ne (id : String) : w.transferID id ≠ "" := by
  intro he
  have := congrArg String.length he
  simp [HandoffWorker.transferID, String.length_append] at this

theorem delivery_inserts (task : Task) :
    (w.delivery i task gen).inserts.map TaskData.id = [w.transferID task.id, gen 1] := by
  simp [HandoffWorker.delivery, newModification, insertingInto, Modification.genIDs, withID,
    withArrivalTimeIn, withRawValue, transferID_ne]

theorem delivery_rest (task : Task) :
    (w.delivery i task gen).deletes = [] ∧ (w.delivery i task gen).docInserts = [] := by
  simp [HandoffWorker.delivery, newModification, insertingInto, Modification.genIDs]

def Rewrites (m : Modification) : Prop := m.inserts = [] ∧ m.deletes = []

theorem Rewrites.stored_iff {m : Modification} (hm : Rewrites m) {s : EQMem} (h : Invariant s)
    (now : Time) (id : String) : (modify s m now).1.Stored id ↔ s.Stored id := by
  apply modify_stored_iff h
  · simp [hm.2]
  · simp [hm.1]

theorem rewrites_renewal (claimant : String) (granted : Duration) (h : Held) :
    Rewrites (renewal claimant granted h) := ⟨rfl, rfl⟩

theorem rewrites_retryOrQuarantine (t : Task) (claimant errMsg q : String) (n : Int32)
    (d : Option Duration) (sets : List DocSet) :
    Rewrites (newModification claimant
      [t.retryOrQuarantine errMsg q n (d.toList.map arrivalTimeBy), arriving 0 [] sets]) := by
  unfold Rewrites newModification Task.retryOrQuarantine
  cases d <;> cases t.quarantining q n <;> exact ⟨rfl, rfl⟩

theorem rewrites_handleSentinelErrors {opts : RunOpt} {env : Env} {e : Err} {task : Task}
    {sets : List DocSet} {errQ : String} {m : Modification}
    (hm : .modify m ∈ (handleSentinelErrors opts env e task sets errQ).calls) : Rewrites m := by
  unfold handleSentinelErrors at hm
  split at hm
  · cases hm
  · cases hm
  · rw [commit, List.mem_singleton, Worker.Call.modify.injEq] at hm
    rw [hm]
    exact rewrites_retryOrQuarantine task _ _ _ _ (some _) sets
  · rw [commit, List.mem_singleton, Worker.Call.modify.injEq] at hm
    rw [hm]
    exact rewrites_retryOrQuarantine task _ _ _ _ none sets
  · cases hm
  · cases hm

/-- The delete of the source task is sent at the version renewal left. -/
theorem finish_modification (h : Handling) (claimant : String) (answer : Modification → Option Err) :
    let fin := doModifyFinish h.task (some { mods := [h.task.delete] }) h.held claimant answer
    (fin.succeeded = true → ∃ m, fin.modification = some m ∧ answer m = none) ∧
      ∀ m, fin.modification = some m →
        m.inserts = [] ∧ m.deletes = [⟨h.task.id, h.held.task.version, h.task.queue⟩] := by
  obtain ⟨hi, hd⟩ := finishModification_tasks (r := { mods := [h.task.delete] }) h.held rfl
  have hdel : (newModification "" [h.task.delete]).deletes = [h.task.idVersion] := rfl
  simp only [hdel, List.map_cons, List.map_nil, Task.idVersion, h.same, if_true] at hd
  by_cases hver : h.held.task.version < h.task.version
  · unfold doModifyFinish
    rw [if_pos ⟨rfl, hver⟩]
    exact ⟨nofun, nofun⟩
  · rw [doModifyFinish_deletes hver rfl (by simp [hdel])]
    split
    · refine ⟨nofun, fun m hm => ?_⟩
      cases hm
      exact ⟨hi, hd⟩
    · next ha =>
      refine ⟨fun _ => ⟨_, rfl, ha⟩, fun m hm => ?_⟩
      cases hm
      exact ⟨hi, hd⟩

end Modifications

theorem renew_keeps (h : Handling) (reply : Reply) :
    (h.renew reply).task = h.task ∧ (h.renew reply).stage = h.stage := by
  unfold Handling.renew
  split
  · split <;> exact ⟨rfl, rfl⟩
  · exact ⟨rfl, rfl⟩

theorem reply_ok {w : HandoffWorker} {m : Modification} {answered : Bool}
    {r : Except Fault Modified} {resp : ModifyResponse} (h : w.reply m answered r = .ok resp) :
    r.isOk = true := by
  cases answered with
  | false => cases h
  | true =>
    cases r with
    | ok md => rfl
    | error f => cases h

/-- The worker's function returns a result only if the task has been delivered now or before. -/
theorem deliveryReturns_returned {w : HandoffWorker} {m : Modification} {answered : Bool}
    {r : Except Fault Modified} {tb : Option Task}
    (h : w.deliveryReturns (w.reply m answered r) = .returned tb) :
    (∃ md, r = .ok md ∧ tb = md.resp.insertedTasks.head?) ∨
      ∃ e, r = .error (.dependency e) ∧ (e.nameArrivals m).hasCollisions = true ∧ tb = none := by
  cases answered with
  | false => cases h
  | true =>
    cases r with
    | ok md => exact .inl ⟨md, rfl, (Stage.returned.inj h).symm⟩
    | error f =>
      simp only [HandoffWorker.reply, if_true, HandoffWorker.deliveryReturns] at h
      split_ifs at h with hc
      cases f with
      | dependency e => exact .inr ⟨e, rfl, hc, (Stage.returned.inj h).symm⟩
      | _ => cases hc

/-! ## The invariant -/

/-- What holds of a worker about the source task `x`. -/
def Phase.Ok (w : HandoffWorker) (x : String) (gone delivered : Prop) : Phase → Prop
  | .idle => True
  | .handling h => ∀ tb, h.stage = .returned tb →
      (h.task.id = x → delivered) ∧ ∀ t ∈ tb, t.id = w.transferID x → h.task.id = x
  | .cleaning t => t.id = w.transferID x → gone

theorem Phase.Ok.mono {w : HandoffWorker} {x : String} {gone gone' delivered delivered' : Prop}
    (hg : gone → gone') (hd : delivered → delivered') {p : Phase}
    (h : p.Ok w x gone delivered) : p.Ok w x gone' delivered' := by
  cases p with
  | idle => trivial
  | handling t => exact fun tb hs => ⟨fun hx => hd ((h tb hs).1 hx), (h tb hs).2⟩
  | cleaning t => exact fun ht => hg (h ht)

structure Sys.Sound (w : HandoffWorker) (x : String) (s : Sys) : Prop where
  src : Invariant s.src
  dst : Invariant s.dst
  once : s.delivered.count x ≤ 1
  known : s.dst.Stored (w.transferID x) → x ∈ s.delivered
  kept : s.src.Stored x → x ∈ s.delivered → s.dst.Stored (w.transferID x)
  deleted : ¬s.src.Stored x → x ∈ s.delivered
  turns : ∀ i, (s.turns i).Ok w x (¬s.src.Stored x) (x ∈ s.delivered)

namespace Sys.Sound
variable {w : HandoffWorker} {x : String} {s : Sys} (hs : s.Sound w x)
include hs

theorem put (i : ℕ) {p : Phase} (hp : p.Ok w x (¬s.src.Stored x) (x ∈ s.delivered)) :
    (s.put i p).Sound w x where
  src := hs.src
  dst := hs.dst
  once := hs.once
  known := hs.known
  kept := hs.kept
  deleted := hs.deleted
  turns j := by
    by_cases hj : j = i
    · subst hj
      simpa [Sys.put] using hp
    · simpa [Sys.put, Function.update_of_ne hj] using hs.turns j

/-- The source changes, but not in whether the task is stored. -/
theorem source {s' : EQMem} (h' : Invariant s') (hx : s'.Stored x ↔ s.src.Stored x) :
    { s with src := s' }.Sound w x where
  src := h'
  dst := hs.dst
  once := hs.once
  known := hs.known
  kept h := hs.kept (hx.mp h)
  deleted h := hs.deleted (mt hx.mpr h)
  turns i := (hs.turns i).mono (mt hx.mp) id

theorem destination {s' : EQMem} (h' : Invariant s')
    (hx : s'.Stored (w.transferID x) ↔ s.dst.Stored (w.transferID x)) :
    { s with dst := s' }.Sound w x where
  src := hs.src
  dst := h'
  once := hs.once
  known h := hs.known (hx.mp h)
  kept h hd := hx.mpr (hs.kept h hd)
  deleted := hs.deleted
  turns := hs.turns

theorem claim (i : ℕ) (attempts : List Attempt) : (s.claim w i attempts).Sound w x := by
  have hsrc := hs.source (Call.run_invariant hs.src (.tryClaim ⟨w.opts.qs, w.srcID i, w.opts.lease⟩ attempts))
    (tryClaim_stored_iff hs.src _ attempts)
  unfold Sys.claim
  dsimp only
  split
  · exact hsrc.put i nofun
  · exact hsrc

theorem modify_invariant (m : Modification) (now : Time) :
    Invariant (modify s.src m now).1 ∧ Invariant (modify s.dst m now).1 :=
  ⟨Call.run_invariant hs.src (.modify m now), Call.run_invariant hs.dst (.modify m now)⟩

theorem renew {i : ℕ} {h : Handling} (hi : s.turns i = .handling h) (now : Time)
    (answered : Bool) : (s.renew w i h now answered).Sound w x := by
  have hsrc := hs.source (hs.modify_invariant (renewal (w.srcID i) (grantedLease h.task) h.held) now).1
    ((rewrites_renewal _ _ _).stored_iff hs.src now x)
  have hok := hs.turns i
  rw [hi] at hok
  refine hsrc.put i fun tb htb => ?_
  rw [(renew_keeps h _).2] at htb
  rw [(renew_keeps h _).1]
  exact hok tb htb

/-- The delivery of another task. -/
theorem deliver_other {i : ℕ} {h : Handling} (hinj : w.transferID.Injective)
    {gen : ℕ → String} (hgen : gen 1 ≠ w.transferID x) (hne : h.task.id ≠ x) (now : Time)
    (answered : Bool) : (s.deliver w i h gen now answered).Sound w x := by
  have hT : w.transferID h.task.id ≠ w.transferID x := fun he => hne (hinj he)
  have hdst := hs.destination (hs.modify_invariant (w.delivery i h.task gen) now).2 (by
    apply modify_stored_iff hs.dst
    · simp [(delivery_rest w i gen h.task).1]
    · simp [delivery_inserts, hT.symm, hgen.symm])
  have hdel : ∀ b : Bool, { s with
      dst := (modify s.dst (w.delivery i h.task gen) now).1
      delivered := if b then h.task.id :: s.delivered else s.delivered }.Sound w x := by
    intro b
    cases b with
    | false => exact hdst
    | true =>
      have hmem : x ∈ h.task.id :: s.delivered ↔ x ∈ s.delivered := by simp [hne.symm]
      exact
        { src := hdst.src
          dst := hdst.dst
          once := (List.count_cons_of_ne hne).trans_le hs.once
          known := fun h => hmem.mpr (hdst.known h)
          kept := fun h hd => hdst.kept h (hmem.mp hd)
          deleted := fun h => hmem.mpr (hs.deleted h)
          turns := fun j => (hs.turns j).mono id hmem.mpr }
  refine (hdel _).put i fun tb htb => ⟨fun hx => absurd hx hne, fun t ht hid => ?_⟩
  -- a tombstone the worker has is the one of its own task
  rcases deliveryReturns_returned htb with ⟨md, hmd, rfl⟩ | ⟨e, -, -, rfl⟩
  · have hids := modify_insertedTasks hs.dst hmd
    rw [delivery_inserts] at hids
    have hhead := congrArg List.head? hids
    rw [List.head?_map, ht] at hhead
    exact absurd ((Option.some.inj hhead).symm.trans hid) hT
  · cases ht

/-- The delivery of the task itself, while it is stored at the source. -/
theorem deliver_same {i : ℕ} {h : Handling} {gen : ℕ → String}
    (hgen : ¬s.dst.Stored (gen 1)) (hx : h.task.id = x) (hstored : s.src.Stored x) (now : Time)
    (answered : Bool) : (s.deliver w i h gen now answered).Sound w x := by
  have hdst := (hs.modify_invariant (w.delivery i h.task gen) now).2
  cases hr : (modify s.dst (w.delivery i h.task gen) now).2 with
  | error f =>
    have hfail : (modify s.dst (w.delivery i h.task gen) now).1 = s.dst :=
      modify_failed hs.dst (by rw [hr]; rfl)
    have hsame := hs.destination hdst (by rw [hfail])
    unfold Sys.deliver
    simp only [hr]
    refine hsame.put i fun tb htb => ⟨fun _ => ?_, fun _ _ _ => hx⟩
    rcases deliveryReturns_returned htb with ⟨md, hmd, -⟩ | ⟨e, he, hcol, -⟩
    · cases hmd
    · rw [he] at hr
      obtain ⟨td, htd, hst⟩ := modify_collides hs.dst hr (delivery_rest w i gen h.task).2 hcol
      have hid := List.mem_map_of_mem (f := TaskData.id) htd
      rw [delivery_inserts, List.mem_pair] at hid
      rcases hid with hid | hid
      · rw [hid, hx] at hst
        exact hs.known hst
      · rw [hid] at hst
        exact absurd hst hgen
  | ok md =>
    have hok : (modify s.dst (w.delivery i h.task gen) now).2.isOk = true := by rw [hr]; rfl
    obtain ⟨td, htd, hid⟩ : ∃ td ∈ (w.delivery i h.task gen).inserts, td.id = w.transferID x := by
      rw [← List.mem_map, delivery_inserts, hx]
      exact List.mem_cons_self
    obtain ⟨hnew, hafter⟩ := modify_stores hs.dst hok htd
    rw [hid] at hnew hafter
    have hfirst : x ∉ s.delivered := fun hd => hnew (hs.kept hstored hd)
    have hmem : x ∈ h.task.id :: s.delivered := by simp [hx]
    have hdel : { s with
        dst := (modify s.dst (w.delivery i h.task gen) now).1
        delivered := h.task.id :: s.delivered }.Sound w x :=
      { src := hs.src
        dst := hdst
        once := by
          rw [hx, List.count_cons_self, List.count_eq_zero_of_not_mem hfirst]
        known := fun _ => hmem
        kept := fun _ _ => hafter
        deleted := fun _ => hmem
        turns := fun j => (hs.turns j).mono id fun _ => hmem }
    unfold Sys.deliver
    simp only [hr]
    exact hdel.put i fun tb htb => ⟨fun _ => hmem, fun _ _ _ => hx⟩

theorem applyCalls (now : Time) {calls : List Worker.Call}
    (hcalls : ∀ m, .modify m ∈ calls → Rewrites m) :
    { s with src := applyCalls s.src now calls }.Sound w x := by
  induction calls generalizing s with
  | nil => exact hs
  | cons c calls ih =>
    have htail : ∀ m, .modify m ∈ calls → Rewrites m :=
      fun m hm => hcalls m (List.mem_cons_of_mem _ hm)
    cases c with
    | modify m =>
      exact ih (hs.source (hs.modify_invariant m now).1
        ((hcalls m List.mem_cons_self).stored_iff hs.src now x)) htail
    | _ => exact ih hs htail

theorem retry (i : ℕ) (h : Handling) (e : Err) (now : Time) : (s.retry w i h e now).Sound w x :=
  (hs.applyCalls now fun _ hm => rewrites_handleSentinelErrors hm).put i trivial

/-- The source task of a worker that has delivered it is deleted, or nothing is. -/
theorem deleteSource {h : Handling} (hd : h.task.id = x → x ∈ s.delivered) {m : Modification}
    (hm : m.inserts = [] ∧ m.deletes = [⟨h.task.id, h.held.task.version, h.task.queue⟩])
    (now : Time) :
    { s with src := (modify s.src m now).1 }.Sound w x ∧
      ((modify s.src m now).2.isOk = true → h.task.id = x → ¬(modify s.src m now).1.Stored x) := by
  have hsrc := (hs.modify_invariant m now).1
  have hgone : (modify s.src m now).2.isOk = true → h.task.id = x →
      ¬(modify s.src m now).1.Stored x := by
    intro hok hx
    have := modify_deleted hs.src hok (r := ⟨h.task.id, h.held.task.version, h.task.queue⟩)
      (by simp [hm.2])
    rwa [hx, ← EQMem.not_stored] at this
  refine ⟨?_, hgone⟩
  by_cases hx : h.task.id = x
  · cases hok : (modify s.src m now).2.isOk with
    | false => exact hs.source hsrc (by rw [modify_failed hs.src hok])
    | true =>
      have hno := hgone hok hx
      exact
        { hs with
          src := hsrc
          kept := fun h => absurd h hno
          deleted := fun _ => hd hx
          turns := fun j => (hs.turns j).mono (fun _ => hno) id }
  · refine hs.source hsrc ?_
    apply modify_stored_iff hs.src
    · simpa [hm.2] using Ne.symm hx
    · simp [hm.1]

/-- A commit deletes the task of its worker, which has been delivered. -/
theorem commit {i : ℕ} {h : Handling} {tb : Option Task} (hi : s.turns i = .handling h)
    (htb : h.stage = .returned tb) (now : Time) (answered : Bool) :
    (s.commit w i h tb now answered).Sound w x := by
  have hok := hs.turns i
  rw [hi] at hok
  obtain ⟨hd, ht⟩ := hok tb htb
  unfold Sys.commit
  extract_lets answer fin s'
  obtain ⟨hsucc, hmod⟩ := finish_modification h (w.srcID i) answer
  have hs' : s'.Sound w x ∧
      (fin.succeeded = true → h.task.id = x → ¬s'.src.Stored x) := by
    cases hfin : fin.modification with
    | none =>
      have : s' = s := by simp only [s', hfin]
      refine ⟨this ▸ hs, fun hsu => ?_⟩
      obtain ⟨m, hm, -⟩ := hsucc hsu
      cases hm.symm.trans hfin
    | some m =>
      have hs'eq : s' = { s with src := (modify s.src m now).1 } := by simp only [s', hfin]
      obtain ⟨hsound, hgone⟩ := hs.deleteSource hd (hmod m hfin) now
      rw [hs'eq]
      refine ⟨hsound, fun hsu => hgone ?_⟩
      obtain ⟨m', hm', ha⟩ := hsucc hsu
      cases hm'.symm.trans hfin
      cases hr : w.reply m answered (modify s.src m now).2 with
      | ok resp => exact reply_ok hr
      | error e =>
        simp only [answer, hr] at ha
        cases ha
  obtain ⟨hsound, hgone⟩ := hs'
  refine hsound.put i ?_
  cases tb with
  | none => trivial
  | some t =>
    dsimp only
    split_ifs with hsu
    · exact fun hid => hgone hsu (ht t rfl hid)
    · trivial

/-- A tombstone is deleted after its source task. -/
theorem cleanUp {i : ℕ} {t : Task} (hi : s.turns i = .cleaning t) (now : Time) :
    (s.cleanUp w i t now).Sound w x := by
  have hok := hs.turns i
  rw [hi] at hok
  have hdst := (hs.modify_invariant (newModification (w.dstID i) [t.delete]) now).2
  by_cases hT : t.id = w.transferID x
  · have hgone := hok hT
    have hclean : { s with
        dst := (modify s.dst (newModification (w.dstID i) [t.delete]) now).1 }.Sound w x :=
      { hs with
        dst := hdst
        known := fun _ => hs.deleted hgone
        kept := fun h => absurd h hgone }
    exact hclean.put i trivial
  · refine (hs.destination hdst ?_).put i trivial
    apply modify_stored_iff hs.dst
    · simpa [newModification, Task.delete, Task.idVersion] using Ne.symm hT
    · simp [newModification, Task.delete]

end Sys.Sound

/-! ## Runs -/

section Runs
variable (w : HandoffWorker) (x : String)

/-- Generated IDs are new, and no one but the workers deletes or inserts the source task or its
tombstone. -/
def Event.legal (s : Sys) : Event → Bool
  | .deliver _ gen _ _ => gen 1 ≠ w.transferID x && !decide (s.dst.Stored (gen 1))
  | .source c => !c.deletes s.src x && !c.inserts s.src x
  | .destination c =>
    !c.deletes s.dst (w.transferID x) && !c.inserts s.dst (w.transferID x)
  | _ => true

def Event.timely (s : Sys) : Event → Bool
  | .deliver i _ _ _ =>
    match s.turns i with
    | .handling h => decide (s.src.Stored h.task.id)
    | _ => true
  | _ => true

/-- The task has come to the source, and no worker has anything to do with it. -/
structure Sys.Fresh (s : Sys) : Prop where
  src : Invariant s.src
  dst : Invariant s.dst
  stored : s.src.Stored x
  unmarked : ¬s.dst.Stored (w.transferID x)
  undelivered : x ∉ s.delivered
  unhandled : ∀ i h, s.turns i = .handling h →
    h.task.id ≠ x ∧ ∀ t, h.stage = .returned (some t) → t.id ≠ w.transferID x
  uncleaned : ∀ i t, s.turns i = .cleaning t → t.id ≠ w.transferID x

variable {w x}

theorem Sys.Fresh.sound {s : Sys} (h : s.Fresh w x) : s.Sound w x where
  src := h.src
  dst := h.dst
  once := by rw [List.count_eq_zero_of_not_mem h.undelivered]; exact Nat.zero_le 1
  known hm := absurd hm h.unmarked
  kept _ hd := absurd hd h.undelivered
  deleted hg := absurd h.stored hg
  turns i := by
    cases hi : s.turns i with
    | idle => trivial
    | handling t =>
      refine fun tb htb => ⟨fun hx => absurd hx (h.unhandled i t hi).1, fun t' ht' hid => ?_⟩
      exact absurd hid ((h.unhandled i t hi).2 t' (by rw [htb, ht']))
    | cleaning t => exact fun hid => absurd hid (h.uncleaned i t hi)

theorem Sys.Sound.step {s : Sys} (hs : s.Sound w x) (hinj : w.transferID.Injective) {e : Event}
    (hl : e.legal w x s = true) (ht : e.timely s = true) : (step w s e).Sound w x := by
  cases e with
  | claim i attempts =>
    simp only [Handoff.step]
    split
    · exact hs.claim i attempts
    · exact hs
  | renew i now answered =>
    simp only [Handoff.step]
    split
    · next h hi =>
      split_ifs
      · exact hs
      · exact hs.renew hi now answered
    · exact hs
  | deliver i gen now answered =>
    simp only [Handoff.step]
    split
    · next h hi =>
      simp only [Event.legal, Bool.and_eq_true, decide_eq_true_eq, Bool.not_eq_true',
        decide_eq_false_iff_not] at hl
      simp only [Event.timely, hi, decide_eq_true_eq] at ht
      split_ifs
      · by_cases hx : h.task.id = x
        · exact hs.deliver_same hl.2 hx (hx ▸ ht) now answered
        · exact hs.deliver_other hinj hl.1 hx now answered
      · exact hs
    · exact hs
  | retry i now =>
    simp only [Handoff.step]
    split
    · split
      · split_ifs
        · exact hs
        · exact hs.retry i _ _ now
      · exact hs
    · exact hs
  | commit i now answered =>
    simp only [Handoff.step]
    split
    · next h hi =>
      split
      · next tb htb =>
        split_ifs
        · exact hs
        · exact hs.commit hi htb now answered
      · exact hs
    · exact hs
  | cleanUp i now =>
    simp only [Handoff.step]
    split
    · next t hi => exact hs.cleanUp hi now
    · exact hs
  | stop i => exact hs.put i trivial
  | source c =>
    simp only [Event.legal, Bool.and_eq_true, Bool.not_eq_true'] at hl
    exact hs.source (c.run_invariant hs.src) (c.stored_iff hs.src hl.1 hl.2)
  | destination c =>
    simp only [Event.legal, Bool.and_eq_true, Bool.not_eq_true'] at hl
    exact hs.destination (c.run_invariant hs.dst) (c.stored_iff hs.dst hl.1 hl.2)

/-- If no delivery of a task is made after it has left the source, then at most one inbox task is
inserted for it, and it leaves the source only once one has been. -/
theorem handoff_exactly_once (hinj : w.transferID.Injective) {s : Sys} (hs : s.Fresh w x)
    {events : List Event} (hlegal : Along (step w) (fun s e => e.legal w x s = true) s events)
    (htimely : Along (step w) (fun s e => e.timely s = true) s events) :
    (run w s events).delivered.count x ≤ 1 ∧
      (¬(run w s events).src.Stored x → x ∈ (run w s events).delivered) := by
  have hboth : Along (step w) (fun s e => e.legal w x s = true ∧ e.timely s = true) s events :=
    along_and.mpr ⟨hlegal, htimely⟩
  have hsound := hboth.invariant (I := Sys.Sound w x) (fun _ _ hs he => hs.step hinj he.1 he.2) hs.sound
  exact ⟨hsound.once, hsound.deleted⟩

end Runs

def handoff : HandoffWorker where
  inbox := "in"
  graveyard := "in/_graveyard/gc=0"
  sum := id
  opts := { qs := ["q"], lease := 10 }
  srcID i := if i = 0 then "w" else "v"
  dstID i := if i = 0 then "w'" else "v'"
  errText _ := ""
  inbox_ne := by decide
  ttl_pos := by decide

def oneTask : Sys where
  src := Eqmem.run {} [.modify insertOne 5]
  dst := {}
  turns _ := .idle
  delivered := []

theorem handoff_transferID_injective : handoff.transferID.Injective := by
  intro a b h
  simpa [HandoffWorker.transferID, handoff] using h

theorem oneTask_fresh : oneTask.Fresh handoff "t" where
  src := run_invariant invariant_empty _
  dst := invariant_empty
  stored := by decide
  unmarked := by decide
  undelivered := List.not_mem_nil
  unhandled _ h hi := by cases (show Phase.idle = .handling h from hi)
  uncleaned _ t hi := by cases (show Phase.idle = .cleaning t from hi)

/-- A delivery, with its tombstone in the way of the next. -/
def claimedTwice : List Event :=
  [.claim 0 (firstVisit 6), .deliver 0 (fun _ => "i") 7 true, .claim 1 (firstVisit 20),
    .deliver 1 (fun _ => "j") 21 true, .commit 1 22 true]

theorem handoff_exactly_once_again :
    (run handoff oneTask claimedTwice).delivered.count "t" ≤ 1 ∧
      (¬(run handoff oneTask claimedTwice).src.Stored "t" →
        "t" ∈ (run handoff oneTask claimedTwice).delivered) :=
  handoff_exactly_once handoff_transferID_injective oneTask_fresh (by decide)
    (by decide)

/-- The first worker delivers once the second has delivered and cleaned up. -/
def slowDelivery : List Event :=
  [.claim 0 (firstVisit 6), .claim 1 (firstVisit 20), .deliver 1 (fun _ => "i") 21 true,
    .commit 1 22 true, .cleanUp 1 23, .deliver 0 (fun _ => "j") 24 true]

theorem delivered_twice :
    handoff.transferID.Injective ∧ oneTask.Fresh handoff "t" ∧
      Along (step handoff) (fun s e => e.legal handoff "t" s = true) oneTask slowDelivery ∧
      (run handoff oneTask slowDelivery).delivered = ["t", "t"] ∧
      (run handoff oneTask slowDelivery).dst.Stored "i" ∧
      (run handoff oneTask slowDelivery).dst.Stored "j" :=
  ⟨handoff_transferID_injective, oneTask_fresh, by decide, by decide,
    by decide, by decide⟩

end EntroQ.Handoff
