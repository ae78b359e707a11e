import EntroQ.Eqmem.Report
import EntroQ.Worker.DoModify

/-! # The versions a result is committed at

Renewal moves the version of the task, of every set that is held, and of its members. A result is
built from the versions its handler was given, so `fixVersions` moves them before the commit. It
looks docs up by ID, among those that were listed with the sets, and sets by key; a depend that
names a set is looked up as if it named a doc. -/

namespace EntroQ.Worker
open Foundation Docset Eqmem

/-- A hold as claims give it: each set once, each doc in one set, at the version of its set. -/
structure Held.Claimed (h : Held) : Prop where
  names : (h.sets.map fun g => (g.ns, g.key)).Nodup
  ids : ((h.sets.flatMap DocSet.docs).map fun d => (d.ns, d.id)).Nodup
  members : ∀ g ∈ h.sets, ∀ d ∈ g.docs, d.ns = g.ns ∧ d.version = g.version ∧ d.id ≠ ""

/-- A renewal succeeds and its response names everything that is held. -/
def Renews (h h' : Held) : Prop := ∃ resp, h.renewed resp = .ok h'

/-- The doc of that name is stored in the set, listed with it or not. -/
def Member (s : EQMem) (g : DocSet) (ns id : String) : Prop :=
  (s.docAt (ns, id)).map (fun d => (d.ns, d.key)) = some (g.ns, g.key)

instance (s : EQMem) (g : DocSet) (ns id : String) : Decidable (Member s g ns id) :=
  inferInstanceAs (Decidable (_ = _))

/-- The tasks that the operations name, each as its operation names it. -/
def namedTasks (m : Modification) : List TaskID := m.written ++ m.depends

/-- The docs that changes, deletes and depends name, and the sets that depends name. -/
def namedDocs (m : Modification) : List DocID :=
  m.docChanges.map (fun c => newDocID c.doc.ns c.doc.id c.doc.version) ++ m.docDeletes ++ m.docDepends

/-- Every operation on the task, a set that is held or a member of one has its version in the
hold. -/
structure Carries (s : EQMem) (h : Held) (m : Modification) : Prop where
  tasks : ∀ r ∈ namedTasks m, r.id = h.task.id → r.version = h.task.version
  docs : ∀ r ∈ namedDocs m, ∀ g ∈ h.sets, Member s g r.ns r.id → r.version = g.version
  setDepends : ∀ r ∈ m.docDepends, r.isSetRef = true → ∀ g ∈ h.sets, r.ns = g.ns → r.key = g.key →
    r.version = g.version
  docArrives : ∀ a ∈ m.docArrives, ∀ g ∈ h.sets, a.docID.ns = g.ns → a.docID.key = g.key →
    a.docID.version = g.version

/-- The backend holds for the worker what the worker holds, and what was listed with a set is in it
still. -/
structure StillHeld (s : EQMem) (h : Held) : Prop where
  task : ∃ t, s.task h.task.id = some t ∧ t.version = h.task.version
  sets : ∀ g ∈ h.sets, (s.lockOf ⟨g.ns, g.key⟩).stored = true ∧
    (s.lockOf ⟨g.ns, g.key⟩).version = g.version
  listed : ∀ g ∈ h.sets, ∀ d ∈ g.docs, Member s g d.ns d.id

/-! ## Renewals -/

section Relocked
variable {gs gs' : List DocSet}
  (h : List.Forall₂ (fun g g' => ∃ l, g' = relocked g l) gs gs')
include h

theorem relocked_names : gs'.map (fun g => (g.ns, g.key)) = gs.map fun g => (g.ns, g.key) := by
  induction h with
  | nil => rfl
  | cons hg _ ih =>
    obtain ⟨l, rfl⟩ := hg
    rw [List.map_cons, List.map_cons, ih]
    rfl

theorem relocked_ids : (gs'.flatMap DocSet.docs).map (fun d => (d.ns, d.id)) =
    (gs.flatMap DocSet.docs).map fun d => (d.ns, d.id) := by
  induction h with
  | nil => rfl
  | cons hg _ ih =>
    obtain ⟨l, rfl⟩ := hg
    rw [List.flatMap_cons, List.flatMap_cons, List.map_append, List.map_append, ih]
    simp [relocked, Function.comp_def]

theorem relocked_members (hm : ∀ g ∈ gs, ∀ d ∈ g.docs, d.ns = g.ns ∧ d.version = g.version ∧
    d.id ≠ "") : ∀ g ∈ gs', ∀ d ∈ g.docs, d.ns = g.ns ∧ d.version = g.version ∧ d.id ≠ "" := by
  induction h with
  | nil => simp
  | @cons g g' gs gs' hg _ ih =>
    obtain ⟨l, rfl⟩ := hg
    rw [List.forall_mem_cons] at hm ⊢
    refine ⟨?_, ih hm.2⟩
    intro d hd
    obtain ⟨d₀, hd₀, rfl⟩ := List.mem_map.mp hd
    obtain ⟨hns, -, hid⟩ := hm.1 d₀ hd₀
    exact ⟨hns, rfl, hid⟩

end Relocked

theorem Held.Claimed.renewed {h h' : Held} (hc : h.Claimed) (hr : Renews h h') : h'.Claimed := by
  obtain ⟨resp, hr⟩ := hr
  obtain ⟨-, hsets⟩ := renewed_ok hr
  exact ⟨by rw [relocked_names hsets]; exact hc.names, by rw [relocked_ids hsets]; exact hc.ids,
    relocked_members hsets hc.members⟩

/-- Whatever number of renewals there were, the hold names the same task, sets and docs. -/
theorem renewals_keep {h h' : Held} (hc : h.Claimed) (hr : Relation.ReflTransGen Renews h h') :
    h'.Claimed ∧ h'.task.id = h.task.id ∧
      h'.sets.map (fun g => (g.ns, g.key)) = h.sets.map (fun g => (g.ns, g.key)) ∧
      (h'.sets.flatMap DocSet.docs).map (fun d => (d.ns, d.id)) =
        (h.sets.flatMap DocSet.docs).map fun d => (d.ns, d.id) := by
  induction hr with
  | refl => exact ⟨hc, rfl, rfl, rfl⟩
  | tail _ hstep ih =>
    obtain ⟨hc', hid, hnames, hids⟩ := ih
    obtain ⟨resp, hr⟩ := hstep
    obtain ⟨hid', hsets⟩ := renewed_ok hr
    exact ⟨hc'.renewed ⟨resp, hr⟩, hid'.trans hid, (relocked_names hsets).trans hnames,
      (relocked_ids hsets).trans hids⟩

/-! ## Lookups -/

theorem find_eq_some_of_unique {α : Type} {l : List α} {p : α → Bool} {x : α} (hx : x ∈ l)
    (hp : p x = true) (hu : ∀ y ∈ l, p y = true → y = x) : l.find? p = some x := by
  obtain ⟨y, hy⟩ := Option.isSome_iff_exists.mp (List.find?_isSome.mpr ⟨x, hx, hp⟩)
  rw [hy, hu y (List.mem_of_find?_eq_some hy) (List.find?_some hy)]

theorem Held.Claimed.setVersion_eq {h : Held} (hc : h.Claimed) {g : DocSet} (hg : g ∈ h.sets) :
    setVersion h.sets g.ns g.key = some g.version := by
  have hfind : (h.sets.reverse.find? fun g' => g'.ns == g.ns && g'.key == g.key) = some g := by
    apply find_eq_some_of_unique (List.mem_reverse.mpr hg) (by simp)
    intro g' hg' hname
    rw [Bool.and_eq_true, beq_iff_eq, beq_iff_eq] at hname
    exact List.inj_on_of_nodup_map hc.names (List.mem_reverse.mp hg') hg
      (Prod.ext hname.1 hname.2)
  rw [setVersion, hfind]
  rfl

theorem Held.Claimed.docVersion_eq {h : Held} (hc : h.Claimed) {g : DocSet} (hg : g ∈ h.sets) {d : Doc}
    (hd : d ∈ g.docs) : docVersion h.sets d.ns d.id = some g.version := by
  have hin : d ∈ h.sets.flatMap DocSet.docs := List.mem_flatMap.mpr ⟨g, hg, hd⟩
  have hfind : ((h.sets.flatMap DocSet.docs).reverse.find? fun d' =>
      d'.ns == d.ns && d'.id == d.id) = some d := by
    apply find_eq_some_of_unique (List.mem_reverse.mpr hin) (by simp)
    intro d' hd' hname
    rw [Bool.and_eq_true, beq_iff_eq, beq_iff_eq] at hname
    exact List.inj_on_of_nodup_map hc.ids (List.mem_reverse.mp hd') hin (Prod.ext hname.1 hname.2)
  rw [docVersion, hfind, Option.map_some, (hc.members g hg d hd).2.1]

theorem docVersion_eq_none {sets : List DocSet} {ns id : String} :
    docVersion sets ns id = none ↔
      (ns, id) ∉ (sets.flatMap DocSet.docs).map fun d => (d.ns, d.id) := by
  simp [docVersion, List.mem_map]

theorem Held.Claimed.docVersion_none {h : Held} (hc : h.Claimed) (ns : String) :
    docVersion h.sets ns "" = none := by
  rw [docVersion_eq_none, List.mem_map]
  rintro ⟨d, hd, hname⟩
  obtain ⟨g, hg, hdg⟩ := List.mem_flatMap.mp hd
  exact (hc.members g hg d hdg).2.2 (Prod.mk.inj hname).2

/-- A doc is stored in one set. -/
theorem Member.unique {s : EQMem} {h : Held} (hc : h.Claimed) {g g' : DocSet} (hg : g ∈ h.sets)
    (hg' : g' ∈ h.sets) {ns id : String} (hm : Member s g ns id) (hm' : Member s g' ns id) :
    g = g' :=
  List.inj_on_of_nodup_map hc.names hg hg' (Option.some.inj (hm.symm.trans hm'))

/-- A member that was listed is found at the version of its set. -/
theorem StillHeld.docVersion_member {s : EQMem} {h : Held} (hs : StillHeld s h) (hc : h.Claimed)
    {g : DocSet} (hg : g ∈ h.sets) {ns id : String} (hm : Member s g ns id) :
    docVersion h.sets ns id = none ∨ docVersion h.sets ns id = some g.version := by
  by_cases hlist : (ns, id) ∈ (h.sets.flatMap DocSet.docs).map fun d => (d.ns, d.id)
  · obtain ⟨d, hd, hname⟩ := List.mem_map.mp hlist
    obtain ⟨rfl, rfl⟩ := Prod.mk.inj hname
    obtain ⟨g', hg', hdg⟩ := List.mem_flatMap.mp hd
    have heq := hm.unique hc hg hg' (hs.listed g' hg' d hdg)
    subst heq
    exact .inr (hc.docVersion_eq hg hdg)
  · exact .inl (docVersion_eq_none.mpr hlist)

/-! ## Fixing versions -/

theorem namedTasks_fixVersions (m : Modification) (task : Task) (sets : List DocSet) :
    namedTasks (fixVersions m task sets) = (namedTasks m).map fun r =>
      if r.id = task.id then { r with version := task.version } else r := by
  have horigin : (fun c : TaskChange => (if c.task.id = task.id then
      { c with task := { c.task with version := task.version } } else c).origin) = fun c =>
        if c.origin.id = task.id then { c.origin with version := task.version } else c.origin := by
    funext c
    unfold TaskChange.origin
    split_ifs <;> rfl
  simp only [namedTasks, Modification.written, fixVersions, List.map_append, List.map_map,
    Function.comp_def, horigin]

theorem namedDocs_fixVersions (m : Modification) (task : Task) (sets : List DocSet) :
    namedDocs (fixVersions m task sets) = (namedDocs m).map fun r =>
      { r with version := (docVersion sets r.ns r.id).getD r.version } := by
  simp only [namedDocs, fixVersions, List.map_append, List.map_map, Function.comp_def, newDocID]

/-- What is left behind are depends on sets by key, and operations on members that were not
listed. -/
theorem fixVersions_carries {s : EQMem} {h : Held} (hc : h.Claimed) (hs : StillHeld s h)
    (m : Modification) :
    Carries s h (fixVersions m h.task h.sets) ↔
      (∀ r ∈ m.docDepends, r.isSetRef = true → ∀ g ∈ h.sets, r.ns = g.ns → r.key = g.key →
        r.version = g.version) ∧
      ∀ r ∈ namedDocs m, docVersion h.sets r.ns r.id = none → ∀ g ∈ h.sets,
        Member s g r.ns r.id → r.version = g.version := by
  have hset (r : DocID) (href : r.isSetRef = true) :
      (docVersion h.sets r.ns r.id).getD r.version = r.version := by
    rw [DocID.isSetRef, Bool.and_eq_true, beq_iff_eq] at href
    rw [href.1, hc.docVersion_none, Option.getD_none]
  constructor
  · intro hcar
    refine ⟨fun r hr href g hg hns hkey => ?_, fun r hr hnone g hg hm => ?_⟩
    · rw [← hset r href]
      exact hcar.setDepends _ (List.mem_map.mpr ⟨r, hr, rfl⟩) href g hg hns hkey
    · have hr' : { r with version := (docVersion h.sets r.ns r.id).getD r.version } ∈
          namedDocs (fixVersions m h.task h.sets) := by
        rw [namedDocs_fixVersions]
        exact List.mem_map.mpr ⟨r, hr, rfl⟩
      have hver := hcar.docs _ hr' g hg hm
      rwa [hnone] at hver
  · rintro ⟨hdep, hunlisted⟩
    constructor
    · intro r hr hid
      rw [namedTasks_fixVersions] at hr
      obtain ⟨r₀, -, rfl⟩ := List.mem_map.mp hr
      split_ifs at hid ⊢ with heq
      · rfl
      · exact absurd hid heq
    · intro r hr g hg hm
      rw [namedDocs_fixVersions] at hr
      obtain ⟨r₀, hr₀, rfl⟩ := List.mem_map.mp hr
      dsimp only at hm ⊢
      rcases hs.docVersion_member hc hg hm with hnone | hsome
      · rw [hnone]
        exact hunlisted r₀ hr₀ hnone g hg hm
      · rw [hsome, Option.getD_some]
    · intro r hr href g hg hns hkey
      obtain ⟨r₀, hr₀, rfl⟩ := List.mem_map.mp hr
      dsimp only at hns hkey ⊢
      rw [hset r₀ href]
      exact hdep r₀ hr₀ href g hg hns hkey
    · intro a ha g hg hns hkey
      obtain ⟨a₀, -, rfl⟩ := List.mem_map.mp ha
      dsimp only at hns hkey ⊢
      rw [hns, hkey, hc.setVersion_eq hg, Option.getD_some]

/-! ## The commit -/

/-- A modification with the same operations carries the same versions. -/
theorem Carries.congr {s : EQMem} {h : Held} {m m' : Modification} (hcar : Carries s h m)
    (h1 : namedTasks m' = namedTasks m) (h2 : namedDocs m' = namedDocs m)
    (h3 : m'.docDepends = m.docDepends) (h4 : m'.docArrives = m.docArrives) : Carries s h m' where
  tasks := h1 ▸ hcar.tasks
  docs := h2 ▸ hcar.docs
  setDepends := h3 ▸ hcar.setDepends
  docArrives := h4 ▸ hcar.docArrives

theorem Carries.resetClaims {s : EQMem} {h : Held} {m : Modification} (hcar : Carries s h m)
    (cs : List TaskChange) :
    Carries s h (cs.foldl (fun m c => m.resetClaimsOf c.task.id) m) := by
  induction cs generalizing m with
  | nil => exact hcar
  | cons c cs ih => exact ih (hcar.congr rfl rfl rfl rfl)

/-- The releases are at the versions held. -/
theorem Carries.releasing {s : EQMem} {h : Held} {m : Modification} (hc : h.Claimed)
    (hcar : Carries s h m) : Carries s h (releasing m h.sets) := by
  unfold Worker.releasing
  split_ifs
  · exact hcar
  · refine ⟨?_, hcar.docs, hcar.setDepends, ?_⟩
    · intro r hr
      rw [namedTasks, Modification.written, arriving, List.map_nil, List.append_nil] at hr
      exact hcar.tasks r hr
    · intro a ha g hg hns hkey
      rcases List.mem_append.mp ha with ha | ha
      · exact hcar.docArrives a ha g hg hns hkey
      · obtain ⟨g', hg', rfl⟩ := List.mem_map.mp ha
        rw [List.inj_on_of_nodup_map hc.names (List.mem_of_mem_filter hg') hg
          (Prod.ext hns hkey)]
        rfl

/-- What a `DoModify` handler's result is sent to the backend as. -/
def committed (claimant : String) (r : Result) (final : Held) : Modification :=
  newModification claimant [withModification (finishModification (some r) final)]

theorem committed_carries {s : EQMem} {h : Held} (hc : h.Claimed) (claimant : String) (r : Result)
    (hcar : Carries s h (fixVersions (newModification "" r.mods) h.task h.sets)) :
    Carries s h (committed claimant r h) := by
  have hresult : Carries s h (if r.mods.isEmpty then newModification "" []
      else resultModification h r.mods) := by
    split_ifs
    · constructor <;> intro _ hx <;> cases hx
    · exact hcar.resetClaims _
  exact (hresult.releasing hc).congr rfl rfl rfl rfl

/-- The operation looks for the task in another queue than it is in. -/
def Misplaced (s : EQMem) (r : TaskID) : Prop := ∀ t, s.task r.id = some t → t.queue ≠ r.queue

/-- Nothing the error reports is on account of the version of what is held: no member, no set,
and the task only where it is looked for in the wrong queue. -/
structure NotOnVersions (s : EQMem) (h : Held) (m : Modification) (e : DependencyError) :
    Prop where
  changes : ∀ r ∈ e.changes, r.id = h.task.id → ∃ o ∈ m.moved, o.id = r.id ∧ Misplaced s o
  tasks : ∀ r ∈ e.deletes ++ e.depends ++ e.arrives, r.id = h.task.id → Misplaced s r
  docs : ∀ r ∈ e.docChanges ++ e.docDeletes ++ e.docDepends, ∀ g ∈ h.sets, ¬Member s g r.ns r.id
  sets : ∀ r ∈ e.docDepends ++ e.docArrives, r.isSetRef = true → ∀ g ∈ h.sets,
    ¬(r.ns = g.ns ∧ r.key = g.key)

section Refused
variable {s : EQMem} {h : Held} (hs : StillHeld s h)
include hs

theorem StillHeld.misplaced {r : TaskID} (hid : r.id = h.task.id)
    (hver : r.version = h.task.version) (hno : ¬s.HasTask r) : Misplaced s r := by
  obtain ⟨t, ht, hv⟩ := hs.task
  intro t' ht' hq
  rw [hid, ht] at ht'
  cases ht'
  exact hno ⟨t, by rw [hid, ht], hq, hv.trans hver.symm⟩

theorem StillHeld.hasDoc {g : DocSet} (hg : g ∈ h.sets) {ns id : String} (hm : Member s g ns id)
    (m : Modification) : ∃ d, s.HasDoc m ns id g.version d := by
  obtain ⟨d, hd, hset⟩ := Option.map_eq_some_iff.mp hm
  obtain ⟨hns, hkey⟩ := Prod.mk.inj hset
  refine ⟨d, hd, .inr ?_⟩
  rw [hns, hkey]
  exact (hs.sets g hg).2

theorem StillHeld.atLock {g : DocSet} (hg : g ∈ h.sets) {r : DocID} (hns : r.ns = g.ns)
    (hkey : r.key = g.key) (hver : r.version = g.version) : AtLock s.lockOf r := by
  refine ⟨?_, ?_⟩
  · rw [hns, hkey]
    exact (hs.sets g hg).1
  · rw [hns, hkey, hver]
    exact (hs.sets g hg).2

theorem commit_notOnVersions (hi : Invariant s) {m : Modification} (hcar : Carries s h m)
    {now : Time} {e : DependencyError} (he : (modify s m now).2 = .error (.dependency e)) :
    NotOnVersions s h m e := by
  have hrep := modify_reports hi he
  have hchg {c : DocChange} (hc : c ∈ m.docChanges) :
      newDocID c.doc.ns c.doc.id c.doc.version ∈ namedDocs m :=
    List.mem_append_left _ (List.mem_append_left _ (List.mem_map.mpr ⟨c, hc, rfl⟩))
  have hdel {r : DocID} (hr : r ∈ m.docDeletes) : r ∈ namedDocs m :=
    List.mem_append_left _ (List.mem_append_right _ hr)
  constructor
  · intro r hr hid
    obtain ⟨o, ho, hoid, -, hno⟩ := (hrep.changes r.id r.version).mp ⟨r, hr, rfl, rfl⟩
    have hnamed : o ∈ namedTasks m := by
      refine List.mem_append_left _ ?_
      rw [Modification.written, List.append_assoc]
      exact List.mem_append_right _ ho
    exact ⟨o, ho, hoid, hs.misplaced (hoid.trans hid) (hcar.tasks o hnamed (hoid.trans hid)) hno⟩
  · intro r hr hid
    rw [hrep.arrives, List.append_nil] at hr
    rcases List.mem_append.mp hr with hr | hr
    · obtain ⟨hm, hno⟩ := (hrep.deletes r).mp hr
      refine hs.misplaced hid (hcar.tasks r ?_ hid) hno
      exact List.mem_append_left _ (List.mem_append_left _ (List.mem_append_left _ hm))
    · obtain ⟨hm, hno⟩ := (hrep.depends r).mp hr
      exact hs.misplaced hid (hcar.tasks r (List.mem_append_right _ hm) hid) hno
  · intro r hr g hg hm
    obtain ⟨d, hd⟩ := hs.hasDoc hg hm m
    rcases List.mem_append.mp hr with hr | hr
    · rcases List.mem_append.mp hr with hr | hr
      · obtain ⟨c, hc, rfl, hno⟩ := (hrep.docChanges r).mp hr
        apply hno d
        rwa [← hcar.docs _ (hchg hc) g hg hm] at hd
      · obtain ⟨hr, hno⟩ := (hrep.docDeletes r).mp hr
        apply hno d
        rwa [← hcar.docs r (hdel hr) g hg hm] at hd
    · obtain ⟨hr, hno⟩ := (hrep.docDepends r).mp hr
      -- a stored doc has an ID, so the depend is on a doc
      have href : ¬r.isSetRef = true := by
        rw [DocID.isSetRef, Bool.and_eq_true, beq_iff_eq]
        exact fun hx => hi.docIDs _ d hd.1 hx.1
      unfold EQMem.HasDepend DependHolds at hno
      rw [if_neg href] at hno
      apply hno
      rw [hcar.docs r (List.mem_append_right _ hr) g hg hm]
      exact ⟨d, hd⟩
  · rintro r hr href g hg ⟨hns, hkey⟩
    rcases List.mem_append.mp hr with hr | hr
    · obtain ⟨hr, hno⟩ := (hrep.docDepends r).mp hr
      unfold EQMem.HasDepend DependHolds at hno
      rw [if_pos href] at hno
      exact hno (hs.atLock hg hns hkey (hcar.setDepends r hr href g hg hns hkey))
    · obtain ⟨a, ha, rfl, hno⟩ := (hrep.docArrives r).mp hr
      exact hno (hs.atLock hg hns hkey (hcar.docArrives a ha g hg hns hkey))

end Refused

/-- What `fixVersions` does not look up is at the version it was first given at: a set that is
depended on by its key, and one with a member that is named and was not listed. -/
structure Unmoved (s : EQMem) (h h' : Held) (m : Modification) : Prop where
  setDepends : ∀ r ∈ m.docDepends, r.isSetRef = true → ∀ g ∈ h'.sets, r.ns = g.ns →
    r.key = g.key → setVersion h.sets g.ns g.key = some g.version
  unlisted : ∀ r ∈ namedDocs m, docVersion h.sets r.ns r.id = none → ∀ g ∈ h'.sets,
    Member s g r.ns r.id → setVersion h.sets g.ns g.key = some g.version

/-- After any number of renewals, a result built from the versions first given is committed at
the versions held, and so never refused on their account, exactly if no renewal has moved a set
that the result depends on by its key, or one with a member that it names and that the claim has
not listed. -/
theorem commit_versions_iff {s : EQMem} (hreach : Reachable s) {h h' : Held} (hc : h.Claimed)
    (hr : Relation.ReflTransGen Renews h h') (hs : StillHeld s h') (r : Result)
    (hb : Carries s h (newModification "" r.mods)) :
    (Carries s h' (fixVersions (newModification "" r.mods) h'.task h'.sets) ∧
      ∀ claimant now e,
        (modify s (committed claimant r h') now).2 = .error (.dependency e) →
        NotOnVersions s h' (committed claimant r h') e) ↔
    Unmoved s h h' (newModification "" r.mods) := by
  obtain ⟨hc', -, hnames, hids⟩ := renewals_keep hc hr
  -- a set that is held was held from the start, at the version the result names
  have hfirst {g' : DocSet} (hg' : g' ∈ h'.sets) :
      ∃ g ∈ h.sets, g.ns = g'.ns ∧ g.key = g'.key ∧
        setVersion h.sets g'.ns g'.key = some g.version := by
    have hmem : (g'.ns, g'.key) ∈ h.sets.map fun g => (g.ns, g.key) := by
      rw [← hnames]
      exact List.mem_map.mpr ⟨g', hg', rfl⟩
    obtain ⟨g, hg, hname⟩ := List.mem_map.mp hmem
    obtain ⟨hns, hkey⟩ := Prod.mk.inj hname
    exact ⟨g, hg, hns, hkey, by rw [← hns, ← hkey, hc.setVersion_eq hg]⟩
  have hsets {d : DocID} (hd : d ∈ (newModification "" r.mods).docDepends)
      (href : d.isSetRef = true) {g' : DocSet} (hg' : g' ∈ h'.sets) (hns : d.ns = g'.ns)
      (hkey : d.key = g'.key) :
      d.version = g'.version ↔ setVersion h.sets g'.ns g'.key = some g'.version := by
    obtain ⟨g, hg, hgns, hgkey, hver⟩ := hfirst hg'
    rw [hver, Option.some.injEq,
      hb.setDepends d hd href g hg (hns.trans hgns.symm) (hkey.trans hgkey.symm)]
  have hdocs {d : DocID} (hd : d ∈ namedDocs (newModification "" r.mods)) {g' : DocSet}
      (hg' : g' ∈ h'.sets) (hm : Member s g' d.ns d.id) :
      d.version = g'.version ↔ setVersion h.sets g'.ns g'.key = some g'.version := by
    obtain ⟨g, hg, hgns, hgkey, hver⟩ := hfirst hg'
    have hm₀ : Member s g d.ns d.id := by rwa [Member, hgns, hgkey]
    rw [hver, Option.some.injEq, hb.docs d hd g hg hm₀]
  have hunlisted (ns id : String) :
      docVersion h'.sets ns id = none ↔ docVersion h.sets ns id = none := by
    rw [docVersion_eq_none, docVersion_eq_none, hids]
  have hcarries := fixVersions_carries hc' hs (newModification "" r.mods)
  constructor
  · rintro ⟨hcar, -⟩
    obtain ⟨hdep, hdoc⟩ := hcarries.mp hcar
    exact
      { setDepends := fun d hd href g hg hns hkey =>
          (hsets hd href hg hns hkey).mp (hdep d hd href g hg hns hkey)
        unlisted := fun d hd hnone g hg hm =>
          (hdocs hd hg hm).mp (hdoc d hd ((hunlisted _ _).mpr hnone) g hg hm) }
  · intro hun
    have hcar := hcarries.mpr
      ⟨fun d hd href g hg hns hkey =>
          (hsets hd href hg hns hkey).mpr (hun.setDepends d hd href g hg hns hkey),
        fun d hd hnone g hg hm =>
          (hdocs hd hg hm).mpr (hun.unlisted d hd ((hunlisted _ _).mp hnone) g hg hm)⟩
    exact ⟨hcar, fun claimant now e he =>
      commit_notOnVersions hs hreach.invariant (committed_carries hc' claimant r hcar) he⟩

/-- A task and a doc set as claims give them, with the docs that are listed with the set. -/
def holdAt (version : Int32) (atTime : Time) (docs : List Doc) : Held where
  task :=
    { queue := "q", id := "t", version, atTime, claimant := "w", claims := 1, created := 5
      modified := 10 }
  sets := [{ ns := "n", key := "k", version, claimant := "w", atTime, numDocs := 1, docs }]

def memberAt (version : Int32) (atTime : Time) : Doc :=
  { ns := "n", id := "d", version, claimant := "w", atTime, key := "k", created := 5, modified := 5 }

def firstHold : Held := holdAt 1 30 [memberAt 1 30]

/-- The same hold, of a claim that asked for the set without its members. -/
def bareHold : Held := holdAt 1 30 []

/-- The holds after one renewal. -/
def renewedHold : Held := holdAt 2 40 [memberAt 2 40]
def renewedBare : Held := holdAt 2 40 []

def renewedCalls (omitMembers : Bool) : List Eqmem.Call :=
  [.modify { claimant := "c", inserts := [{ queue := "q", id := "t" }]
             docInserts := [{ ns := "n", id := "d", key := "k" }] } 5,
   .tryClaim { queues := ["q"], claimant := "w", duration := 20 } [⟨"q", 10, fun _ => 0⟩],
   .claimDocs { sets := [{ ns := "n", key := "k", omitMembers }], claimant := "w"
                taskToMatch := some ⟨"t", 1, "q"⟩ } 10,
   .modify (renewal "w" 20 firstHold) 20]

theorem firstHold_claimed : firstHold.Claimed :=
  ⟨by decide, by decide, by decide⟩

theorem firstHold_renews : Renews firstHold renewedHold :=
  ⟨{ changedTasks := [renewedHold.task], changedSets := renewedHold.sets }, by decide⟩

theorem bareHold_renews : Renews bareHold renewedBare :=
  ⟨{ changedTasks := [renewedBare.task], changedSets := renewedBare.sets }, by decide⟩

theorem renewedCalls_hold : StillHeld (run {} (renewedCalls false)) renewedHold where
  task := ⟨_, rfl, by decide⟩
  sets := by decide
  listed := by decide

theorem renewedCalls_bare : StillHeld (run {} (renewedCalls true)) renewedBare where
  task := ⟨_, rfl, by decide⟩
  sets := by decide
  listed := by decide

def changeAndDelete : Result where
  mods := [(firstHold.sets.flatMap DocSet.docs).foldr (fun d arg => arg ∘ d.change []) id,
    firstHold.task.delete]

theorem commit_versions_changeAndDelete :
    Carries (run {} (renewedCalls false)) renewedHold
      (fixVersions (newModification "" changeAndDelete.mods) renewedHold.task renewedHold.sets) ∧
    (modify (run {} (renewedCalls false)) (committed "w" changeAndDelete renewedHold) 25).2.isOk =
      true :=
  ⟨((commit_versions_iff ⟨renewedCalls false, rfl⟩ firstHold_claimed (.single firstHold_renews)
      renewedCalls_hold changeAndDelete ⟨by decide, by decide, by decide, by decide⟩).mpr
        ⟨by decide, by decide⟩).1, by decide⟩

/-- Done with the task, provided that the set is as it was. -/
def dependAndDelete : Result where
  mods := [fun m => { m with docDepends := m.docDepends ++ [newDocSetRef "n" "k" 1] },
    firstHold.task.delete]

/-- A change of the member that the claim did not list, at the version of its set. -/
def changeUnlisted : Result where
  mods := [(memberAt 1 30).change []]

/-- One renewal, and a result that depends on a set the worker holds is refused for that set's
version, and so is one that changes a member the claim did not list. -/
theorem left_behind :
    (Renews firstHold renewedHold ∧
      Carries (run {} (renewedCalls false)) firstHold (newModification "" dependAndDelete.mods) ∧
      StillHeld (run {} (renewedCalls false)) renewedHold ∧
      (match (modify (run {} (renewedCalls false)) (committed "w" dependAndDelete renewedHold) 25).2
        with
        | .error (.dependency e) => e.docDepends
        | _ => []) = [newDocSetRef "n" "k" 1]) ∧
    Renews bareHold renewedBare ∧
      Carries (run {} (renewedCalls true)) bareHold (newModification "" changeUnlisted.mods) ∧
      StillHeld (run {} (renewedCalls true)) renewedBare ∧
      (match (modify (run {} (renewedCalls true)) (committed "w" changeUnlisted renewedBare) 25).2
        with
        | .error (.dependency e) => e.docChanges
        | _ => []) = [newDocID "n" "d" 1] :=
  ⟨⟨firstHold_renews, ⟨by decide, by decide, by decide, by decide⟩, renewedCalls_hold, by decide⟩,
    bareHold_renews, ⟨by decide, by decide, by decide, by decide⟩, renewedCalls_bare, by decide⟩

end EntroQ.Worker
