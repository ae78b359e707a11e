import EntroQ.Eqmem.TaskTable

/-! # The doc table

The namespaces together are a table of docs by namespace and ID, a table of locks by set, and
the number of docs each set has. Writes change the tables as they say, and move the counts by
what they add and remove. -/

namespace EntroQ.Eqmem
open Foundation Docset

namespace EQMem
variable (s : EQMem)

/-- The doc under a namespace and ID. -/
def docAt (p : String × String) : Option Doc := s.doc? p.1 p.2

/-- The number of docs the set has. -/
def count (g : SetName) : ℤ :=
  match s.namespaces.lookup g.ns with
  | some n => n.count g.key
  | none => 0

structure DocsValid (s : EQMem) : Prop where
  valid : ∀ name n, s.namespaces.lookup name = some n → name ≠ "" ∧ n.name = name ∧ n.Valid

/-- Every stored doc has an ID. -/
def DocsNamed (s : EQMem) : Prop := ∀ p d, s.docAt p = some d → p.2 ≠ ""

theorem docsValid_empty : DocsValid {} := ⟨fun name n h => by simp at h⟩

variable {s}

theorem DocsValid.docAt_named (h : s.DocsValid) {p : String × String} {d : Doc}
    (hd : s.docAt p = some d) : d.ns = p.1 ∧ d.id = p.2 ∧ p.1 ≠ "" := by
  obtain ⟨n, hn, hd⟩ := Option.bind_eq_some_iff.mp hd
  obtain ⟨hne, hname, hv⟩ := h.valid _ _ hn
  obtain ⟨h1, h2⟩ := hv.named _ _ hd
  exact ⟨h2.trans hname, h1, hne⟩

theorem lockOf_eq (g : SetName) : s.lockOf g = (s.lock? g).getD absent := by
  unfold lockOf lock?
  cases s.namespaces.lookup g.ns with
  | none => rfl
  | some n => exact DocNamespace.lock_eq g.key

/-- No namespace goes without a name. -/
theorem DocsValid.lockOf_nameless (h : s.DocsValid) (key : String) :
    s.lockOf ⟨"", key⟩ = absent := by
  unfold lockOf
  cases hn : s.namespaces.lookup "" with
  | none => rfl
  | some n => exact absurd rfl (h.valid _ _ hn).1

theorem count_eq_members (g : SetName) : s.count g = (s.members g).length := by
  unfold count members
  cases s.namespaces.lookup g.ns <;> rfl

theorem DocsValid.mem_members (h : s.DocsValid) (g : SetName) (d : Doc) :
    d ∈ s.members g ↔ s.docAt (g.ns, d.id) = some d ∧ d.key = g.key := by
  unfold members docAt doc?
  cases hn : s.namespaces.lookup g.ns with
  | none => simp
  | some n => simpa using (h.valid _ _ hn).2.2.mem_members g.key d

theorem DocsValid.occupant_isSome_iff (h : s.DocsValid) (g : SetName) (secondary : String) :
    (s.occupant g secondary).isSome = true ↔
      ∃ d, s.docAt (g.ns, d.id) = some d ∧ d.key = g.key ∧ d.secondaryKey = secondary := by
  cases hn : s.namespaces.lookup g.ns with
  | none => simp [occupant, docAt, doc?, hn]
  | some n =>
    simpa [occupant, docAt, doc?, hn] using (h.valid _ _ hn).2.2.occupant_isSome_iff g.key secondary

theorem DocsValid.members_nodup (h : s.DocsValid) (g : SetName) : (s.members g).Nodup := by
  unfold members
  cases hn : s.namespaces.lookup g.ns with
  | none => exact List.nodup_nil
  | some n => exact (h.valid _ _ hn).2.2.members_nodup g.key

theorem DocsValid.members_eq {s' : EQMem} (h : s.DocsValid) (h' : s'.DocsValid) (g : SetName)
    (hd : ∀ d, d.key = g.key →
      (s'.docAt (g.ns, d.id) = some d ↔ s.docAt (g.ns, d.id) = some d)) :
    s'.members g = s.members g := by
  have hmem : ∀ d, d ∈ s'.members g ↔ d ∈ s.members g := by
    intro d
    rw [h'.mem_members, h.mem_members]
    exact and_congr_left fun hk => hd d hk
  cases hn : s.namespaces.lookup g.ns with
  | none =>
    have hnil : s.members g = [] := by rw [members, hn]
    rw [hnil, List.eq_nil_iff_forall_not_mem]
    intro d hin
    rw [hmem, hnil] at hin
    cases hin
  | some n =>
    cases hn' : s'.namespaces.lookup g.ns with
    | none =>
      have hnil : s'.members g = [] := by rw [members, hn']
      rw [hnil, eq_comm, List.eq_nil_iff_forall_not_mem]
      intro d hin
      rw [← hmem, hnil] at hin
      cases hin
    | some n' =>
      rw [members, members, hn, hn']
      apply (h.valid _ _ hn).2.2.members_congr (h'.valid _ _ hn').2.2
      intro d hk
      simpa only [docAt, doc?, hn, hn', Option.bind_some] using hd d hk

theorem DocsValid.count_eq {s' : EQMem} (h : s.DocsValid) (h' : s'.DocsValid) (g : SetName)
    (hd : ∀ id, (∃ d, s'.docAt (g.ns, id) = some d ∧ d.key = g.key) ↔
      ∃ d, s.docAt (g.ns, id) = some d ∧ d.key = g.key) : s'.count g = s.count g := by
  have hids : ∀ {s : EQMem}, s.DocsValid → ((s.members g).map Doc.id).Nodup ∧
      ∀ id, id ∈ (s.members g).map Doc.id ↔ ∃ d, s.docAt (g.ns, id) = some d ∧ d.key = g.key := by
    intro s h
    refine ⟨List.Nodup.map_on ?_ (h.members_nodup g), fun id => ?_⟩
    · intro d hd d' hd' he
      rw [h.mem_members] at hd hd'
      rw [he, hd'.1] at hd
      exact (Option.some.inj hd.1).symm
    · rw [List.mem_map]
      constructor
      · rintro ⟨d, hd, rfl⟩
        exact ⟨d, (h.mem_members g d).mp hd⟩
      · rintro ⟨d, hd, hk⟩
        obtain ⟨-, rfl, -⟩ := h.docAt_named hd
        exact ⟨d, (h.mem_members g d).mpr ⟨hd, hk⟩, rfl⟩
  have hperm : ((s'.members g).map Doc.id).Perm ((s.members g).map Doc.id) := by
    rw [List.perm_ext_iff_of_nodup (hids h').1 (hids h).1]
    intro id
    rw [(hids h').2, (hids h).2, hd]
  have hlen := hperm.length_eq
  rw [List.length_map, List.length_map] at hlen
  rw [count_eq_members, count_eq_members, hlen]

theorem DocsValid.members_congr {s' : EQMem} (h : s.DocsValid) (h' : s'.DocsValid)
    (hd : s'.docAt = s.docAt) : s'.members = s.members := by
  funext g
  exact h.members_eq h' g fun d _ => by rw [hd]

structure SameDocs (s s' : EQMem) : Prop where
  docAt : s'.docAt = s.docAt
  lock? : s'.lock? = s.lock?
  count : s'.count = s.count

theorem SameDocs.lockOf {s' : EQMem} (h : SameDocs s s') : s'.lockOf = s.lockOf := by
  funext g
  rw [lockOf_eq, lockOf_eq, h.lock?]

theorem SameDocs.trans {s' s'' : EQMem} (h : SameDocs s s') (h' : SameDocs s' s'') :
    SameDocs s s'' :=
  ⟨h'.docAt.trans h.docAt, h'.lock?.trans h.lock?, h'.count.trans h.count⟩

/-! ## Locking and unlocking -/

/-- Locking makes only namespaces that hold nothing, so a reading that takes a missing namespace
for an empty one does not change. -/
theorem elim_lockNamespaces {β : Type*} (ns : List String) (dflt : β) (f : DocNamespace → β)
    (hf : ∀ k, f (newDocNamespace k) = dflt) (k : String) :
    ((s.lockNamespaces ns).namespaces.lookup k).elim dflt f =
      (s.namespaces.lookup k).elim dflt f := by
  change ((Registry.acquire newDocNamespace ns s.namespaces).lookup k).elim dflt f = _
  rw [Registry.lookup_acquire]
  split_ifs
  · cases s.namespaces.lookup k <;> simp [hf]
  · rfl

theorem members_newDocNamespace (k key : String) : (newDocNamespace k).members key = [] := by
  simp [newDocNamespace, DocNamespace.members, DocNamespace.ascendFrom,
    OrderedTree.ascendGreaterOrEqual, OrderedTree.empty]

theorem members_lockNamespaces (ns : List String) :
    (s.lockNamespaces ns).members = s.members := by
  funext g
  have := elim_lockNamespaces (s := s) ns [] (fun n => n.members g.key)
    (fun k => members_newDocNamespace k g.key) g.ns
  unfold members
  cases h1 : (s.lockNamespaces ns).namespaces.lookup g.ns <;>
    cases h2 : s.namespaces.lookup g.ns <;> simp_all

theorem occupant_eq (g : SetName) (secondary : String) :
    s.occupant g secondary = (s.members g).find? (fun d => d.secondaryKey == secondary) := by
  unfold occupant members
  cases s.namespaces.lookup g.ns <;> rfl

theorem occupant_lockNamespaces (ns : List String) :
    (s.lockNamespaces ns).occupant = s.occupant := by
  funext g secondary
  rw [occupant_eq, occupant_eq, members_lockNamespaces]

theorem sameDocs_lockNamespaces (ns : List String) : SameDocs s (s.lockNamespaces ns) := by
  constructor
  · funext p
    have := elim_lockNamespaces (s := s) ns none (fun n => n.byID.lookup p.2)
      (fun k => by simp [newDocNamespace]) p.1
    unfold docAt doc?
    cases h1 : (s.lockNamespaces ns).namespaces.lookup p.1 <;>
      cases h2 : s.namespaces.lookup p.1 <;> simp_all
  · funext g
    have := elim_lockNamespaces (s := s) ns none (fun n => n.lock? g.key)
      (fun k => by simp [newDocNamespace, DocNamespace.lock?, OrderedTree.get, OrderedTree.empty])
      g.ns
    unfold EQMem.lock?
    cases h1 : (s.lockNamespaces ns).namespaces.lookup g.ns <;>
      cases h2 : s.namespaces.lookup g.ns <;> simp_all
  · funext g
    rw [count_eq_members, count_eq_members, members_lockNamespaces]

theorem DocsValid.lockNamespaces (h : s.DocsValid) {ns : List String} (hns : "" ∉ ns) :
    (s.lockNamespaces ns).DocsValid := by
  constructor
  intro name n hn
  change (Registry.acquire newDocNamespace ns s.namespaces).lookup name = some n at hn
  rw [Registry.lookup_acquire] at hn
  split_ifs at hn with hm
  · cases hl : s.namespaces.lookup name with
    | none =>
      rw [hl] at hn
      cases hn
      exact ⟨fun he => hns (he ▸ hm), rfl, DocNamespace.valid_new name⟩
    | some n' =>
      rw [hl] at hn
      cases hn
      exact h.valid name n' hl
  · exact h.valid name n hn

theorem lockNamespaces_present (ns : List String) {name : String} (hn : name ∈ ns) :
    ∃ n, (s.lockNamespaces ns).namespaces.lookup name = some n :=
  ⟨_, by rw [EQMem.lockNamespaces, Registry.lookup_acquire, if_pos hn]⟩

theorem idle_iff (n : DocNamespace) :
    n.idle = true ↔ (∀ id, n.byID.lookup id = none) ∧ ∀ key, n.lock? key = none := by
  rw [DocNamespace.idle, decide_eq_true_iff, DocNamespace.len, Nat.add_eq_zero_iff,
    FMap.card_keys_eq_zero_iff, OrderedTree.len, List.length_eq_zero_iff]
  refine and_congr Iff.rfl ⟨fun h key => ?_, fun h => ?_⟩
  · simp [DocNamespace.lock?, OrderedTree.get, h]
  · rw [List.eq_nil_iff_forall_not_mem]
    intro e he
    rw [DocNamespace.mem_locks_iff, h] at he
    cases he

theorem DocsValid.sameDocs_unlockNamespaces (h : s.DocsValid) (ns : List String) :
    SameDocs s (s.unlockNamespaces ns) := by
  have hlook : ∀ k, (s.unlockNamespaces ns).namespaces.lookup k = s.namespaces.lookup k ∨
      (s.unlockNamespaces ns).namespaces.lookup k = none ∧
        ∃ n, s.namespaces.lookup k = some n ∧ n.idle = true := by
    intro k
    change (Registry.release DocNamespace.idle ns s.namespaces).lookup k = _ ∨
      (Registry.release DocNamespace.idle ns s.namespaces).lookup k = none ∧ _
    rw [Registry.lookup_release]
    split_ifs
    · cases hl : s.namespaces.lookup k with
      | none => exact .inl rfl
      | some n =>
        cases hi : n.idle
        · exact .inl (by simp [Option.filter, hi])
        · exact .inr ⟨by simp [Option.filter, hi], n, rfl, hi⟩
    · exact .inl rfl
  constructor
  · funext p
    unfold docAt doc?
    rcases hlook p.1 with he | ⟨he, n, hn, hi⟩
    · rw [he]
    · rw [he, hn]
      exact (((idle_iff n).mp hi).1 p.2).symm
  · funext g
    unfold EQMem.lock?
    rcases hlook g.ns with he | ⟨he, n, hn, hi⟩
    · rw [he]
    · rw [he, hn]
      exact (((idle_iff n).mp hi).2 g.key).symm
  · funext g
    unfold EQMem.count
    rcases hlook g.ns with he | ⟨he, n, hn, hi⟩
    · rw [he]
    · rw [he, hn]
      have hm : n.members g.key = [] := by
        rw [List.eq_nil_iff_forall_not_mem]
        intro d hd
        rw [(h.valid _ _ hn).2.2.mem_members, ((idle_iff n).mp hi).1] at hd
        cases hd.1
      simp [DocNamespace.count, hm]

theorem DocsValid.unlockNamespaces (h : s.DocsValid) (ns : List String) :
    (s.unlockNamespaces ns).DocsValid := by
  constructor
  intro name n hn
  change (Registry.release DocNamespace.idle ns s.namespaces).lookup name = some n at hn
  rw [Registry.lookup_release] at hn
  split_ifs at hn
  · exact h.valid name n (Option.filter_eq_some_iff.mp hn).1
  · exact h.valid name n hn

/-! ## One namespace replaced -/

structure HoldsAt (s : EQMem) (k : String) (n : DocNamespace) : Prop where
  docAt : ∀ id, s.docAt (k, id) = n.byID.lookup id
  lock? : ∀ key, s.lock? ⟨k, key⟩ = n.lock? key
  count : ∀ key, s.count ⟨k, key⟩ = n.count key

theorem holdsAt_of_lookup {k : String} {n : DocNamespace} (hn : s.namespaces.lookup k = some n) :
    s.HoldsAt k n := by
  constructor
  · intro id
    simp [docAt, doc?, hn]
  · intro key
    simp [EQMem.lock?, hn]
  · intro key
    simp [EQMem.count, hn]

/-- Two stores hold the same but in one namespace. -/
structure SameBut (s s' : EQMem) (k : String) : Prop where
  docAt : ∀ p, p.1 ≠ k → s'.docAt p = s.docAt p
  lock? : ∀ g, g.ns ≠ k → s'.lock? g = s.lock? g
  count : ∀ g, g.ns ≠ k → s'.count g = s.count g

theorem DocsValid.replace (h : s.DocsValid) {k : String} {n n' : DocNamespace}
    (hn : s.namespaces.lookup k = some n) (hv : n'.Valid) (hname : n'.name = n.name) :
    EQMem.DocsValid { s with namespaces := s.namespaces.insert k n' } ∧
      EQMem.HoldsAt { s with namespaces := s.namespaces.insert k n' } k n' ∧
      EQMem.SameBut s { s with namespaces := s.namespaces.insert k n' } k := by
  obtain ⟨hne, hk, -⟩ := h.valid k n hn
  have hother : ∀ k', k' ≠ k → (s.namespaces.insert k n').lookup k' = s.namespaces.lookup k' :=
    fun k' hk' => by rw [FMap.lookup_insert, if_neg hk']
  refine ⟨⟨fun name m hm => ?_⟩, holdsAt_of_lookup (by simp), ⟨?_, ?_, ?_⟩⟩
  · rw [FMap.lookup_insert] at hm
    split_ifs at hm with he
    · cases hm
      exact ⟨he ▸ hne, (hname.trans hk).trans he.symm, hv⟩
    · exact h.valid name m hm
  · intro p hp
    simp [EQMem.docAt, doc?, hother p.1 hp]
  · intro g hg
    simp [EQMem.lock?, hother g.ns hg]
  · intro g hg
    simp [EQMem.count, hother g.ns hg]

end EQMem

/-! ## Writes to docs -/

namespace DocWrite

def place : DocWrite → String × String
  | .delete ns id => (ns, id)
  | .set d => (d.ns, d.id)

def result : DocWrite → Option Doc
  | .delete _ _ => none
  | .set d => some d

def effect (D : String × String → Option Doc) (w : DocWrite) : String × String → Option Doc :=
  Function.update D w.place w.result

def inSet (g : SetName) (d : Option Doc) : ℤ :=
  if d.any (fun d => d.ns == g.ns && d.key == g.key) then 1 else 0

def delta (D : String × String → Option Doc) (g : SetName) (w : DocWrite) : ℤ :=
  inSet g w.result - inSet g (D w.place)

def onNamespace (n : DocNamespace) : DocWrite → DocNamespace
  | .delete _ id => n.delete id
  | .set d => n.set d.id d

theorem run_eq {locked : List String} {namespaces : FMap String DocNamespace} {n : DocNamespace}
    (w : DocWrite) (hw : w.place.1 ∈ locked) (hn : namespaces.lookup w.place.1 = some n) :
    w.run locked namespaces = some (namespaces.insert w.place.1 (w.onNamespace n)) := by
  cases w with
  | delete ns id => exact modify_eq_some hw hn rfl
  | set d => exact modify_eq_some hw hn rfl

theorem inSet_of_ns {g : SetName} {d : Option Doc} {k : String} (hd : ∀ e, d = some e → e.ns = k) :
    inSet g d = if g.ns = k then (if d.any (fun d => d.key == g.key) then 1 else 0) else 0 := by
  unfold inSet
  cases d with
  | none => simp
  | some e =>
    have he := hd e rfl
    by_cases hg : g.ns = k
    · simp [he, hg]
    · simp [he, hg, Ne.symm hg]

theorem onNamespace_spec {n : DocNamespace} (hv : n.Valid) (w : DocWrite)
    (hname : n.name = w.place.1) :
    (w.onNamespace n).Valid ∧ (w.onNamespace n).name = n.name ∧
      (w.onNamespace n).locks = n.locks ∧
      (∀ id, (w.onNamespace n).byID.lookup id =
        if id = w.place.2 then w.result else n.byID.lookup id) ∧
      ∀ k, (w.onNamespace n).count k =
        n.count k + (if w.result.any (fun d => d.key == k) then 1 else 0) - n.inSet w.place.2 k := by
  cases w with
  | delete ns id =>
    refine ⟨hv.delete id, DocNamespace.name_delete id, DocNamespace.locks_delete id, ?_, ?_⟩
    · intro i
      change (n.delete id).byID.lookup i = _
      rw [DocNamespace.byID_delete]
      exact FMap.lookup_erase _ _ _
    · intro k
      change (n.delete id).count k = _
      rw [hv.count_delete]
      simp [result, place]
  | set d =>
    have hns : d.ns = n.name := hname.symm
    refine ⟨hv.set rfl hns, rfl, rfl, fun i => FMap.lookup_insert _ _ _ _, fun k => ?_⟩
    change (n.set d.id d).count k = _
    rw [hv.count_set rfl hns]
    simp only [result, place, Option.any_some, beq_iff_eq]
    omega

end DocWrite

variable {s : EQMem}

theorem EQMem.DocsValid.run_write (h : s.DocsValid) {locked : List String}
    (hp : ∀ k ∈ locked, ∃ n, s.namespaces.lookup k = some n) (w : DocWrite)
    (hw : w.place.1 ∈ locked) :
    ∃ n', w.run locked s.namespaces = some (s.namespaces.insert w.place.1 n') ∧
      EQMem.DocsValid { s with namespaces := s.namespaces.insert w.place.1 n' } ∧
      EQMem.docAt { s with namespaces := s.namespaces.insert w.place.1 n' } = w.effect s.docAt ∧
      EQMem.lock? { s with namespaces := s.namespaces.insert w.place.1 n' } = s.lock? ∧
      ∀ g, EQMem.count { s with namespaces := s.namespaces.insert w.place.1 n' } g =
        s.count g + w.delta s.docAt g := by
  obtain ⟨n, hn⟩ := hp _ hw
  obtain ⟨-, hname, hv⟩ := h.valid _ _ hn
  obtain ⟨hv', hname', hlocks, hdocs, hcount⟩ := w.onNamespace_spec hv hname
  obtain ⟨hvalid, hat, hbut⟩ := h.replace hn hv' hname'
  have hold := EQMem.holdsAt_of_lookup hn
  refine ⟨w.onNamespace n, w.run_eq hw hn, hvalid, ?_, ?_, ?_⟩
  · funext ⟨k, id⟩
    unfold DocWrite.effect
    by_cases hk : k = w.place.1
    · subst hk
      rw [hat.docAt, hdocs]
      split_ifs with hi
      · rw [hi, Prod.mk.eta, Function.update_self]
      · rw [Function.update_of_ne (fun he => hi (by rw [← he])), hold.docAt]
    · rw [hbut.docAt _ hk, Function.update_of_ne (fun he => hk (by rw [← he]))]
  · funext ⟨k, key⟩
    by_cases hk : k = w.place.1
    · subst hk
      rw [hat.lock?, hold.lock?, DocNamespace.lock?, hlocks]
      rfl
    · exact hbut.lock? _ hk
  · rintro ⟨k, key⟩
    have hres : ∀ e, w.result = some e → e.ns = w.place.1 := by
      intro e he
      cases w with
      | delete ns id => cases he
      | set d => cases he; rfl
    have hprev : ∀ e, s.docAt w.place = some e → e.ns = w.place.1 :=
      fun e he => (h.docAt_named he).1
    rw [DocWrite.delta, DocWrite.inSet_of_ns hres, DocWrite.inSet_of_ns hprev]
    by_cases hk : k = w.place.1
    · subst hk
      have hdoc : s.docAt w.place = n.byID.lookup w.place.2 := hold.docAt w.place.2
      rw [hat.count, hold.count, hcount, hdoc]
      simp only [if_true, DocNamespace.inSet]
      omega
    · rw [hbut.count _ hk]
      simp [hk]

def docEffects (D : String × String → Option Doc) (ws : List DocWrite) :
    String × String → Option Doc :=
  ws.foldl DocWrite.effect D

theorem docEffects_of_notMem (D : String × String → Option Doc) (ws : List DocWrite)
    (p : String × String) (h : p ∉ ws.map DocWrite.place) : docEffects D ws p = D p :=
  writes_of_notMem DocWrite.place DocWrite.result D ws p h

theorem docEffects_of_mem (D : String × String → Option Doc) (ws : List DocWrite)
    (hn : (ws.map DocWrite.place).Nodup) (w : DocWrite) (hw : w ∈ ws) :
    docEffects D ws w.place = w.result :=
  writes_of_mem DocWrite.place DocWrite.result D ws hn w hw

/-- Writes at different places: the tables change as they say, and the counts move by the sum
of what each adds to what was there before. -/
theorem EQMem.DocsValid.run_writes (h : s.DocsValid) {locked : List String}
    (hp : ∀ k ∈ locked, ∃ n, s.namespaces.lookup k = some n) (ws : List DocWrite)
    (hw : ∀ w ∈ ws, w.place.1 ∈ locked) (hn : (ws.map DocWrite.place).Nodup) :
    ∃ ns, ws.foldlM (DocWrite.run locked) s.namespaces = some ns ∧
      EQMem.DocsValid { s with namespaces := ns } ∧
      EQMem.docAt { s with namespaces := ns } = docEffects s.docAt ws ∧
      EQMem.lock? { s with namespaces := ns } = s.lock? ∧
      (∀ g, EQMem.count { s with namespaces := ns } g =
        s.count g + (ws.map (DocWrite.delta s.docAt g)).sum) ∧
      (∀ k ∈ locked, ∃ n, ns.lookup k = some n) ∧
      ∀ k, k ∉ locked → ns.lookup k = s.namespaces.lookup k := by
  induction ws generalizing s with
  | nil => exact ⟨s.namespaces, rfl, h, rfl, rfl, fun g => by simp, hp, fun _ _ => rfl⟩
  | cons w ws ih =>
    obtain ⟨hw1, hw2⟩ := List.forall_mem_cons.mp hw
    rw [List.map_cons, List.nodup_cons] at hn
    obtain ⟨n', hr1, hv1, hd1, hl1, hc1⟩ := h.run_write hp w hw1
    have hp1 : ∀ k ∈ locked, ∃ n, (s.namespaces.insert w.place.1 n').lookup k = some n := by
      intro k hk
      rw [FMap.lookup_insert]
      split_ifs
      · exact ⟨_, rfl⟩
      · exact hp k hk
    obtain ⟨ns, hr2, hv2, hd2, hl2, hc2, hp2, hf2⟩ := ih hv1 hp1 hw2 hn.2
    refine ⟨ns, ?_, hv2, ?_, hl2.trans hl1, ?_, hp2, ?_⟩
    · rw [List.foldlM_cons, hr1]
      exact hr2
    · rw [hd1] at hd2
      exact hd2
    · intro g
      rw [hd1] at hc2
      have hdelta : ws.map (DocWrite.delta (w.effect s.docAt) g) =
          ws.map (DocWrite.delta s.docAt g) := by
        apply List.map_congr_left
        intro v hv
        have hne : v.place ≠ w.place := fun he => hn.1 (he ▸ List.mem_map_of_mem hv)
        rw [DocWrite.delta, DocWrite.delta, DocWrite.effect, Function.update_of_ne hne]
      have hcg := hc2 g
      rw [hdelta] at hcg
      have h1 := hc1 g
      change EQMem.count { s with namespaces := ns } g = _ at hcg
      rw [hcg, h1, List.map_cons, List.sum_cons]
      omega
    · intro k hk
      have hne : k ≠ w.place.1 := fun he => hk (he ▸ hw1)
      rw [hf2 k hk]
      exact (FMap.lookup_insert _ _ _ _).trans (if_neg hne)

/-! ## Writes to locks -/

def lockEffects (L : SetName → Option Lock) (ls : List (SetName × Lock)) :
    SetName → Option Lock :=
  ls.foldl (fun L gl => Function.update L gl.1 (some gl.2)) L

theorem lockEffects_of_notMem (L : SetName → Option Lock) (ls : List (SetName × Lock))
    (g : SetName) (h : g ∉ ls.map Prod.fst) : lockEffects L ls g = L g :=
  writes_of_notMem Prod.fst (fun gl => some gl.2) L ls g h

theorem lockEffects_of_mem (L : SetName → Option Lock) (ls : List (SetName × Lock))
    (hn : (ls.map Prod.fst).Nodup) (gl : SetName × Lock) (hg : gl ∈ ls) :
    lockEffects L ls gl.1 = some gl.2 :=
  writes_of_mem Prod.fst (fun gl => some gl.2) L ls hn gl hg

theorem EQMem.DocsValid.relock (h : s.DocsValid) {k : String} {n : DocNamespace}
    (hn : s.namespaces.lookup k = some n) (n' : DocNamespace) (hv : n'.Valid)
    (hname : n'.name = n.name) (hdocs : n'.byID = n.byID)
    (hcount : ∀ key, n'.count key = n.count key) :
    EQMem.DocsValid { s with namespaces := s.namespaces.insert k n' } ∧
      EQMem.docAt { s with namespaces := s.namespaces.insert k n' } = s.docAt ∧
      EQMem.count { s with namespaces := s.namespaces.insert k n' } = s.count ∧
      ∀ g, EQMem.lock? { s with namespaces := s.namespaces.insert k n' } g =
        if g.ns = k then n'.lock? g.key else s.lock? g := by
  obtain ⟨hvalid, hat, hbut⟩ := h.replace hn hv hname
  have hold := EQMem.holdsAt_of_lookup hn
  refine ⟨hvalid, ?_, ?_, ?_⟩
  · funext ⟨k', id⟩
    by_cases hk : k' = k
    · subst hk
      rw [hat.docAt, hold.docAt, hdocs]
    · exact hbut.docAt _ hk
  · funext ⟨k', key⟩
    by_cases hk : k' = k
    · subst hk
      rw [hat.count, hold.count, hcount]
    · exact hbut.count _ hk
  · rintro ⟨k', key⟩
    split_ifs with hk
    · cases hk
      exact hat.lock? key
    · exact hbut.lock? _ hk

theorem EQMem.DocsValid.setLock (h : s.DocsValid) {g : SetName} {n : DocNamespace}
    (hn : s.namespaces.lookup g.ns = some n) (n' : DocNamespace) (l : Option Lock)
    (hv : n'.Valid) (hname : n'.name = n.name) (hdocs : n'.byID = n.byID)
    (hcount : ∀ k, n'.count k = n.count k)
    (hlock : ∀ k, n'.lock? k = if k = g.key then l else n.lock? k) :
    EQMem.DocsValid { s with namespaces := s.namespaces.insert g.ns n' } ∧
      EQMem.docAt { s with namespaces := s.namespaces.insert g.ns n' } = s.docAt ∧
      EQMem.lock? { s with namespaces := s.namespaces.insert g.ns n' } =
        Function.update s.lock? g l ∧
      EQMem.count { s with namespaces := s.namespaces.insert g.ns n' } = s.count := by
  obtain ⟨hvalid, hdoc, hcnt, hl⟩ := h.relock hn n' hv hname hdocs hcount
  refine ⟨hvalid, hdoc, ?_, hcnt⟩
  funext g'
  rw [hl, hlock]
  by_cases hg : g' = g
  · subst hg
    simp
  · rw [Function.update_of_ne hg]
    obtain ⟨k, key⟩ := g
    obtain ⟨k', key'⟩ := g'
    split_ifs with hk hkey
    · cases hk
      cases hkey
      exact absurd rfl hg
    · cases hk
      exact ((EQMem.holdsAt_of_lookup hn).lock? key').symm
    · rfl

theorem EQMem.DocsValid.run_locks (h : s.DocsValid) {locked : List String}
    (hp : ∀ k ∈ locked, ∃ n, s.namespaces.lookup k = some n) (ls : List (SetName × Lock))
    (hl : ∀ gl ∈ ls, gl.1.ns ∈ locked) :
    ∃ ns, ls.foldlM (writeLock locked) s.namespaces = some ns ∧
      EQMem.DocsValid { s with namespaces := ns } ∧
      EQMem.docAt { s with namespaces := ns } = s.docAt ∧
      EQMem.lock? { s with namespaces := ns } = lockEffects s.lock? ls ∧
      EQMem.count { s with namespaces := ns } = s.count ∧
      ∀ k, k ∉ locked → ns.lookup k = s.namespaces.lookup k := by
  induction ls generalizing s with
  | nil => exact ⟨s.namespaces, rfl, h, rfl, rfl, rfl, fun _ _ => rfl⟩
  | cons gl ls ih =>
    obtain ⟨hl1, hl2⟩ := List.forall_mem_cons.mp hl
    obtain ⟨n, hn⟩ := hp _ hl1
    obtain ⟨-, -, hv⟩ := h.valid _ _ hn
    obtain ⟨hv1, hd1, hk1, hc1⟩ := h.setLock hn (n.setLock gl.1.key gl.2) (some gl.2)
      (hv.setLock _ _) rfl rfl (fun _ => rfl) (fun k => DocNamespace.lock?_setLock _ _ _)
    have hp1 : ∀ k ∈ locked,
        ∃ m, (s.namespaces.insert gl.1.ns (n.setLock gl.1.key gl.2)).lookup k = some m := by
      intro k hk
      rw [FMap.lookup_insert]
      split_ifs
      · exact ⟨_, rfl⟩
      · exact hp k hk
    obtain ⟨ns, hr2, hv2, hd2, hk2, hc2, hf2⟩ := ih hv1 hp1 hl2
    refine ⟨ns, ?_, hv2, hd2.trans hd1, ?_, hc2.trans hc1, ?_⟩
    · have hr1 : writeLock locked s.namespaces gl =
          some (s.namespaces.insert gl.1.ns (n.setLock gl.1.key gl.2)) :=
        modify_eq_some hl1 hn rfl
      rw [List.foldlM_cons, hr1]
      exact hr2
    · rw [hk1] at hk2
      exact hk2
    · intro k hk
      have hne : k ≠ gl.1.ns := fun he => hk (he ▸ hl1)
      rw [hf2 k hk]
      exact (FMap.lookup_insert _ _ _ _).trans (if_neg hne)

end EntroQ.Eqmem
