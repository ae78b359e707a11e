import EntroQ.Eqmem.DocTable
import EntroQ.Eqmem.Modify

/-! # What a modification finds

The locks a modification prepares cover every record its operations name, so what it finds is
what the tables hold at the places named. -/

namespace EntroQ.Eqmem
open Foundation Docset

/-- The locks cover what the operations name, and nothing nameless. -/
structure Prepared.Covers (p : Prepared) : Prop where
  queues : "" ∉ p.queues
  namespaces : "" ∉ p.namespaces
  refs : ∀ r ∈ p.taskRefs, r.1 ≠ "" → r.1 ∈ p.queues
  targets : ∀ c ∈ p.mod.changes, c.task.queue ≠ "" → c.task.queue ∈ p.queues
  docs : ∀ r ∈ p.docRefs, r.1 ≠ "" → r.1 ∈ p.namespaces
  arrives : ∀ a ∈ p.mod.docArrives, a.docID.ns ≠ "" → a.docID.ns ∈ p.namespaces

theorem misplacedInsIDs_some (qByID : FMap String String) (mod : Modification) (i q : String)
    (h : (misplacedInsIDs qByID mod).lookup i = some q) :
    ∃ ins ∈ mod.inserts, ins.id = i ∧ misplacedQueue qByID ins = some q := by
  unfold misplacedInsIDs at h
  generalize mod.inserts = l at h ⊢
  induction l using List.reverseRecOn with
  | nil => simp at h
  | append_singleton l ins ih =>
    rw [List.foldl_append, List.foldl_cons, List.foldl_nil] at h
    have hrest : (∃ ins' ∈ l, ins'.id = i ∧ misplacedQueue qByID ins' = some q) →
        ∃ ins' ∈ l ++ [ins], ins'.id = i ∧ misplacedQueue qByID ins' = some q :=
      fun ⟨ins', hm, h1⟩ => ⟨ins', List.mem_append_left _ hm, h1⟩
    cases hq : misplacedQueue qByID ins with
    | none =>
      rw [hq] at h
      exact hrest (ih h)
    | some q' =>
      rw [hq, FMap.lookup_insert] at h
      split_ifs at h with he
      · cases h
        exact ⟨ins, by simp, he.symm, hq⟩
      · exact hrest (ih h)

theorem misplacedInsIDs_eq (qByID : FMap String String) (mod : Modification) (ins : TaskData)
    (hins : ins ∈ mod.inserts) (hn : (mod.inserts.map TaskData.id).Nodup) :
    (misplacedInsIDs qByID mod).lookup ins.id = misplacedQueue qByID ins := by
  cases hq : (misplacedInsIDs qByID mod).lookup ins.id with
  | some q =>
    obtain ⟨ins', hm, hid, hq'⟩ := misplacedInsIDs_some _ _ _ _ hq
    rw [← hq', List.inj_on_of_nodup_map hn hm hins hid]
  | none =>
    cases hq' : misplacedQueue qByID ins with
    | none => rfl
    | some q =>
      exfalso
      unfold misplacedInsIDs at hq
      have key : ∀ (f : FMap String String → TaskData → FMap String String),
          (∀ m x, ins.id ∈ m → ins.id ∈ f m x) → (∀ m, ins.id ∈ f m ins) →
          ∀ (l : List TaskData) (m : FMap String String), (ins ∈ l ∨ ins.id ∈ m) →
            ins.id ∈ l.foldl f m := by
        intro f hkeep hown l
        induction l with
        | nil => intro m hm; simpa using hm
        | cons x l ih =>
          intro m hm
          rw [List.foldl_cons]
          apply ih
          rcases hm with hm | hm
          · rcases List.mem_cons.mp hm with rfl | hm
            · exact .inr (hown m)
            · exact .inl hm
          · exact .inr (hkeep m x hm)
      refine Finmap.lookup_eq_none.mp hq (key _ (fun m x hm => ?_) (fun m => ?_) _ ∅ (.inl hins))
      · cases misplacedQueue qByID x <;> simp [hm]
      · simp [hq']

theorem mem_prepQueues (qByID : FMap String String) (mod : Modification) (q : String) :
    q ∈ prepQueues qByID mod ↔ q ≠ "" ∧
      ((∃ ins ∈ mod.inserts, misplacedQueue qByID ins = some q ∨ ins.queue = q) ∨
        (∃ c ∈ mod.changes, c.task.fromQueue = q ∨ c.task.queue = q) ∨
        (∃ d ∈ mod.deletes, d.queue = q) ∨ (∃ d ∈ mod.depends, d.queue = q) ∨
        ∃ a ∈ mod.arrives, a.taskID.queue = q) := by
  unfold prepQueues
  simp only [List.mem_dedup, List.mem_filter, List.mem_append, List.mem_flatMap, List.mem_map,
    Option.mem_toList, List.mem_cons, List.not_mem_nil, or_false, decide_eq_true_eq]
  simp only [eq_comm, and_comm, or_assoc]

theorem mem_prepNamespaces (mod : Modification) (n : String) :
    n ∈ prepNamespaces mod ↔ n ≠ "" ∧
      ((∃ d ∈ mod.docInserts, d.ns = n) ∨ (∃ c ∈ mod.docChanges, c.doc.ns = n) ∨
        (∃ d ∈ mod.docDeletes, d.ns = n) ∨ (∃ d ∈ mod.docDepends, d.ns = n) ∨
        ∃ a ∈ mod.docArrives, a.docID.ns = n) := by
  unfold prepNamespaces
  simp only [List.mem_dedup, List.mem_filter, List.mem_append, List.mem_map, decide_eq_true_eq,
    or_assoc, and_comm]

theorem modPrep_covers (s : EQMem) (mod : Modification) (replay : Bool) :
    (modPrep s mod replay).Covers := by
  have hq : ∀ q, q ∈ (modPrep s mod replay).queues ↔ _ :=
    fun q => mem_prepQueues s.qByID (modPrep s mod replay).mod q
  have hn : ∀ n, n ∈ (modPrep s mod replay).namespaces ↔ _ :=
    fun n => mem_prepNamespaces (modPrep s mod replay).mod n
  constructor
  · rw [hq]
    exact fun h => h.1 rfl
  · rw [hn]
    exact fun h => h.1 rfl
  · intro r hr hne
    rw [hq]
    refine ⟨hne, ?_⟩
    simp only [Prepared.taskRefs, List.mem_append, List.mem_map, List.mem_flatMap, List.mem_cons,
      Option.mem_toList, Option.map_eq_some_iff] at hr
    rcases hr with (((⟨d, hd, rfl⟩ | ⟨d, hd, rfl⟩) | ⟨c, hc, rfl⟩) | ⟨a, ha, rfl⟩) |
      ⟨t, ht, rfl | ⟨q, hmq, rfl⟩⟩
    · exact .inr (.inr (.inl ⟨d, hd, rfl⟩))
    · exact .inr (.inr (.inr (.inl ⟨d, hd, rfl⟩)))
    · exact .inr (.inl ⟨c, hc, .inl rfl⟩)
    · exact .inr (.inr (.inr (.inr ⟨a, ha, rfl⟩)))
    · exact .inl ⟨t, ht, .inr rfl⟩
    · obtain ⟨ins, hins, -, hmis⟩ := misplacedInsIDs_some _ _ _ _ hmq
      exact .inl ⟨ins, hins, .inl hmis⟩
  · intro c hc hne
    rw [hq]
    exact ⟨hne, .inr (.inl ⟨c, hc, .inr rfl⟩)⟩
  · intro r hr hne
    rw [hn]
    refine ⟨hne, ?_⟩
    simp only [Prepared.docRefs, List.mem_append, List.mem_map] at hr
    rcases hr with ((⟨d, hd, rfl⟩ | ⟨d, hd, rfl⟩) | ⟨c, hc, rfl⟩) | ⟨d, hd, rfl⟩
    · exact .inr (.inr (.inl ⟨d, hd, rfl⟩))
    · exact .inr (.inr (.inr (.inl ⟨d, hd, rfl⟩)))
    · exact .inr (.inl ⟨c, hc, rfl⟩)
    · exact .inl ⟨d, hd, rfl⟩
  · intro a ha hne
    rw [hn]
    exact ⟨hne, .inr (.inr (.inr (.inr ⟨a, ha, rfl⟩)))⟩

namespace Prepared
variable {p : Prepared} {s : EQMem}

theorem addFound_of_stored (h : s.Indexed) {found : FMap String Task} {r : String × String}
    (hr : r.1 ≠ "" → r.1 ∈ p.queues) (i : String) (t : Task) :
    (p.addFound s found r).lookup i = some t ↔
      if s.task i = some t ∧ r = (t.queue, i) then True
      else (found.lookup i = some t ∧ ∀ t', s.task i = some t' → r ≠ (t'.queue, i)) := by
  unfold addFound
  split_ifs with hskip hhit hhit
  · obtain ⟨ht, rfl⟩ := hhit
    obtain ⟨-, hqn, hin⟩ := h.task_named ht
    rcases hskip with hs | hs | hs
    · exact absurd hs hqn
    · exact absurd hs hin
    · exact absurd (hr hqn) hs
  · refine ⟨fun hf => ⟨hf, ?_⟩, fun hf => hf.1⟩
    rintro t' ht' rfl
    obtain ⟨-, hqn, hin⟩ := h.task_named ht'
    rcases hskip with hs | hs | hs
    · exact absurd hs hqn
    · exact absurd hs hin
    · exact absurd (hr hqn) hs
  · obtain ⟨ht, rfl⟩ := hhit
    rw [(h.stored_iff _ _ _).mpr ⟨ht, rfl⟩]
    simp [(h.task_named ht).1]
  · cases hst : s.stored r.1 r.2 with
    | none =>
      refine ⟨fun hf => ⟨hf, ?_⟩, fun hf => hf.1⟩
      rintro t' ht' rfl
      rw [(h.stored_iff _ _ _).mpr ⟨ht', rfl⟩] at hst
      cases hst
    | some t0 =>
      obtain ⟨ht0, hq0⟩ := (h.stored_iff _ _ _).mp hst
      obtain ⟨hid, -, -⟩ := h.task_named ht0
      simp only [FMap.lookup_insert, hid]
      split_ifs with hi
      · subst hi
        constructor
        · intro he
          cases he
          exact absurd ⟨ht0, by rw [hq0]⟩ hhit
        · rintro ⟨-, hno⟩
          exact absurd (by rw [hq0]) (hno t0 ht0)
      · refine ⟨fun hf => ⟨hf, ?_⟩, fun hf => hf.1⟩
        rintro t' - rfl
        exact hi rfl

theorem Covers.found_iff (hc : p.Covers) (h : s.Indexed) (i : String) (t : Task) :
    (p.found s).lookup i = some t ↔ s.task i = some t ∧ (t.queue, i) ∈ p.taskRefs := by
  have key : ∀ refs : List (String × String), (∀ r ∈ refs, r.1 ≠ "" → r.1 ∈ p.queues) →
      ((refs.foldl (p.addFound s) ∅).lookup i = some t ↔
        s.task i = some t ∧ (t.queue, i) ∈ refs) := by
    intro refs hrefs
    induction refs using List.reverseRecOn with
    | nil => simp
    | append_singleton l r ih =>
      rw [List.foldl_append, List.foldl_cons, List.foldl_nil, List.mem_append, List.mem_singleton,
        addFound_of_stored h (hrefs r (by simp)),
        ih (fun r hr => hrefs r (List.mem_append_left _ hr))]
      split_ifs with hhit
      · exact ⟨fun _ => ⟨hhit.1, .inr hhit.2.symm⟩, fun _ => trivial⟩
      · constructor
        · rintro ⟨⟨h1, h2⟩, -⟩
          exact ⟨h1, .inl h2⟩
        · rintro ⟨h1, h2 | h2⟩
          · refine ⟨⟨h1, h2⟩, fun t' ht' he => hhit ⟨h1, ?_⟩⟩
            rw [h1] at ht'
            cases ht'
            exact he
          · exact absurd ⟨h1, h2.symm⟩ hhit
  exact key p.taskRefs hc.refs

/-- The IDs of the task operations, each of which only one operation may name. -/
def taskIDs (p : Prepared) : List String :=
  p.mod.deletes.map TaskID.id ++ p.mod.depends.map TaskID.id ++
    p.mod.changes.map (fun c => c.task.id) ++ p.mod.arrives.map (fun a => a.taskID.id) ++
    p.mod.inserts.map TaskData.id

def storedRefs (p : Prepared) : List (String × String) :=
  p.mod.deletes.map (fun d => (d.queue, d.id)) ++ p.mod.depends.map (fun d => (d.queue, d.id)) ++
    p.mod.changes.map (fun c => (c.task.fromQueue, c.task.id)) ++
    p.mod.arrives.map (fun a => (a.taskID.queue, a.taskID.id))

theorem taskIDs_eq (p : Prepared) :
    p.taskIDs = p.storedRefs.map Prod.snd ++ p.mod.inserts.map TaskData.id := by
  simp [taskIDs, storedRefs, Function.comp_def]

theorem mem_taskRefs (p : Prepared) (r : String × String) :
    r ∈ p.taskRefs ↔ r ∈ p.storedRefs ∨
      ∃ t ∈ p.mod.inserts, r.2 = t.id ∧ (r.1 = t.queue ∨ p.misplaced.lookup t.id = some r.1) := by
  unfold taskRefs
  rw [List.mem_append]
  refine or_congr Iff.rfl ?_
  simp only [List.mem_flatMap, List.mem_cons, Option.mem_toList, Option.map_eq_some_iff]
  refine exists_congr fun t => and_congr Iff.rfl ?_
  constructor
  · rintro (rfl | ⟨q, hq, rfl⟩)
    · exact ⟨rfl, .inl rfl⟩
    · exact ⟨rfl, .inr hq⟩
  · rintro ⟨h1, h2 | h2⟩
    · exact .inl (Prod.ext h2 h1)
    · exact .inr ⟨r.1, h2, Prod.ext rfl h1.symm⟩

theorem Covers.found_stored (hc : p.Covers) (h : s.Indexed) (hn : p.taskIDs.Nodup) {q i : String}
    (hr : (q, i) ∈ p.storedRefs) (t : Task) :
    (p.found s).lookup i = some t ↔ s.task i = some t ∧ t.queue = q := by
  rw [hc.found_iff h, p.mem_taskRefs]
  rw [taskIDs_eq, List.nodup_append'] at hn
  obtain ⟨hn1, -, hdis⟩ := hn
  refine and_congr Iff.rfl ⟨?_, ?_⟩
  · rintro (h1 | ⟨ins, hins, hid, -⟩)
    · exact congrArg Prod.fst (List.inj_on_of_nodup_map hn1 h1 hr rfl)
    · exact absurd (hid ▸ List.mem_map_of_mem hins) (hdis (List.mem_map_of_mem hr))
  · rintro rfl
    exact .inl hr

theorem Covers.found_insert (hc : p.Covers) (h : s.Indexed) (hn : p.taskIDs.Nodup)
    {ins : TaskData} (hi : ins ∈ p.mod.inserts) (t : Task) :
    (p.found s).lookup ins.id = some t ↔
      s.task ins.id = some t ∧
        (t.queue = ins.queue ∨ p.misplaced.lookup ins.id = some t.queue) := by
  rw [hc.found_iff h, p.mem_taskRefs]
  rw [taskIDs_eq, List.nodup_append'] at hn
  obtain ⟨-, hn2, hdis⟩ := hn
  refine and_congr Iff.rfl ⟨?_, ?_⟩
  · rintro (h1 | ⟨ins', hins', hid, hq⟩)
    · exact absurd (List.mem_map_of_mem hi) (hdis (List.mem_map_of_mem h1))
    · rwa [List.inj_on_of_nodup_map hn2 hi hins' hid]
  · intro hq
    exact .inr ⟨ins, hi, rfl, hq⟩

theorem addFoundDoc_eq (hc : p.Covers) (h : s.DocsValid)
    (hids : s.DocsNamed) (m : FMap String Doc) {r : String × String}
    (hr : r ∈ p.docRefs) :
    p.addFoundDoc s m r = ((s.docAt r).map (m.insert (docKey r.1 r.2))).getD m := by
  unfold addFoundDoc
  have hdoc : s.docAt r = s.doc? r.1 r.2 := rfl
  rw [← hdoc]
  cases hd : s.docAt r with
  | none => split_ifs <;> rfl
  | some d =>
    obtain ⟨-, hid, hns⟩ := h.docAt_named hd
    rw [if_neg]
    · simp [hid]
    · rintro (he | he | he)
      · exact hns he
      · exact hids r d hd he
      · exact he (hc.docs r hr hns)

/-- Each doc operation finds what is stored where it looks, if no two have the same key. -/
theorem Covers.foundDocs_eq (hc : p.Covers) (h : s.DocsValid)
    (hids : s.DocsNamed)
    (hn : (p.docRefs.map (fun r => docKey r.1 r.2)).Nodup) {r : String × String}
    (hr : r ∈ p.docRefs) : (p.foundDocs s).lookup (docKey r.1 r.2) = s.docAt r := by
  have key : ∀ refs : List (String × String), (∀ r ∈ refs, r ∈ p.docRefs) →
      (refs.map (fun r => docKey r.1 r.2)).Nodup →
      (∀ k, k ∉ refs.map (fun r => docKey r.1 r.2) →
        (refs.foldl (p.addFoundDoc s) ∅).lookup k = none) ∧
      ∀ r ∈ refs, (refs.foldl (p.addFoundDoc s) ∅).lookup (docKey r.1 r.2) = s.docAt r := by
    intro refs hrefs hnd
    induction refs using List.reverseRecOn with
    | nil => simp
    | append_singleton l r0 ih =>
      rw [List.map_append, List.map_singleton, List.nodup_append'] at hnd
      obtain ⟨ih1, ih2⟩ := ih (fun r hr => hrefs r (List.mem_append_left _ hr)) hnd.1
      have hnew : docKey r0.1 r0.2 ∉ l.map (fun r => docKey r.1 r.2) :=
        fun hm => hnd.2.2 hm (List.mem_singleton_self _)
      rw [List.foldl_append, List.foldl_cons, List.foldl_nil,
        addFoundDoc_eq hc h hids _ (hrefs r0 (by simp))]
      have hold : ∀ k, k ≠ docKey r0.1 r0.2 →
          (((s.docAt r0).map ((l.foldl (p.addFoundDoc s) ∅).insert (docKey r0.1 r0.2))).getD
            (l.foldl (p.addFoundDoc s) ∅)).lookup k =
          (l.foldl (p.addFoundDoc s) ∅).lookup k := by
        intro k hk
        cases s.docAt r0 with
        | none => rfl
        | some d => simp [hk]
      refine ⟨fun k hk => ?_, fun r hr => ?_⟩
      · rw [List.map_append, List.map_singleton, List.mem_append, List.mem_singleton,
          not_or] at hk
        rw [hold k hk.2, ih1 k hk.1]
      · rcases List.mem_append.mp hr with hr | hr
        · rw [hold _ (fun he => hnew (he ▸ List.mem_map_of_mem hr)), ih2 r hr]
        · rw [List.mem_singleton.mp hr]
          cases hd : s.docAt r0 with
          | none => exact ih1 _ hnew
          | some d => simp
  exact (key p.docRefs (fun _ h => h) hn).2 r hr

end Prepared
end EntroQ.Eqmem
