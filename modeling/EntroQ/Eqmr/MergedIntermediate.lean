import EntroQ.Foundation.Playback

/-! # Merging runs

The merge holds one record of every run that has not ended, and gives the least of them again and
again. What it gives is decided by what the readers of the runs give, however they come by it: if
all of them end, it gives all of their records and ends, and if one of them fails it fails. -/

namespace EntroQ.Eqmr
open Foundation

/-- The record of a run that comes next, with the run's number. -/
structure IntermediateCursor (α : Type) where
  record : α
  order : ℕ

/-- The readers by the number of their runs, and the heap as a list in any order. -/
structure MergedIntermediate (ρ α : Type) where
  readers : List ρ := []
  heap : List (IntermediateCursor α) := []

/-- Why the runs are not merged: one is not opened, or its first record is not read. -/
inductive MergeError (ε : Type)
  | opening (order : ℕ) (e : ε)
  | reading (order : ℕ) (e : ε)

variable {ε ρ α β : Type}

section Model
variable (lt : α → α → Bool)

def IntermediateCursor.less (a b : IntermediateCursor α) : Bool :=
  if lt a.record b.record then true
  else if lt b.record a.record then false
  else decide (a.order < b.order)

def popLeast : List (IntermediateCursor α) →
    Option (IntermediateCursor α × List (IntermediateCursor α))
  | [] => none
  | c :: cs =>
    match popLeast cs with
    | none => some (c, [])
    | some (least, rest) => if least.less lt c then some (least, c :: rest) else some (c, cs)

variable (readNext : EStateM ε ρ α) (isEOF : ε → Bool)

def openMergedFrom (openRun : β → Except ε ρ) (merged : MergedIntermediate ρ α) :
    List β → Except (MergeError ε) (MergedIntermediate ρ α)
  | [] => .ok merged
  | run :: runs =>
    let i := merged.readers.length
    match openRun run with
    | .error e => .error (.opening i e)
    | .ok reader =>
      match readNext reader with
      | .ok record reader =>
        openMergedFrom openRun { readers := merged.readers ++ [reader]
                                 heap := ⟨record, i⟩ :: merged.heap } runs
      | .error e reader =>
        if isEOF e then
          openMergedFrom openRun { merged with readers := merged.readers ++ [reader] } runs
        else .error (.reading i e)

def openMergedIntermediate (openRun : β → Except ε ρ) (runs : List β) :
    Except (MergeError ε) (MergedIntermediate ρ α) :=
  openMergedFrom readNext isEOF openRun {} runs

def MergedIntermediate.next (eof : ε) (m : MergedIntermediate ρ α) :
    EStateM.Result ε (MergedIntermediate ρ α) α :=
  match popLeast lt m.heap with
  | none => .error eof m
  | some (cursor, rest) =>
    match m.readers[cursor.order]? with
    -- every cursor has a reader
    | none => .error eof m
    | some reader =>
      match readNext reader with
      | .ok record reader =>
        .ok cursor.record { readers := m.readers.set cursor.order reader
                            heap := { cursor with record } :: rest }
      | .error e reader =>
        let m := { readers := m.readers.set cursor.order reader, heap := rest }
        if isEOF e then .ok cursor.record m else .error e m

end Model

/-! ## What the readers still give -/

/-- The records of a run that the merge has not given yet, and how its reader ends. -/
structure Track (ε ρ α : Type) where
  rest : List α
  last : ε
  left : ρ

section Least
variable {lt : α → α → Bool}

theorem popLeast_eq_none {cs : List (IntermediateCursor α)} (h : popLeast lt cs = none) :
    cs = [] := by
  cases cs with
  | nil => rfl
  | cons c cs =>
    rw [popLeast] at h
    split at h
    · cases h
    · split_ifs at h

theorem popLeast_perm {cs rest : List (IntermediateCursor α)} {c : IntermediateCursor α}
    (h : popLeast lt cs = some (c, rest)) : cs.Perm (c :: rest) := by
  induction cs generalizing c rest with
  | nil => cases h
  | cons d cs ih =>
    rw [popLeast] at h
    split at h
    next hnone =>
      cases h
      rw [popLeast_eq_none hnone]
    next least others hsome =>
      split_ifs at h
      · cases h
        exact ((ih hsome).cons d).trans (List.Perm.swap _ _ _)
      · cases h
        rfl

theorem IntermediateCursor.le_of_less [LinearOrder α] (hlt : ∀ a b, lt a b = true ↔ a < b)
    {a b : IntermediateCursor α} (h : a.less lt b = true) : a.record ≤ b.record := by
  unfold IntermediateCursor.less at h
  split_ifs at h with hab hba
  · exact ((hlt _ _).mp hab).le
  · exact not_lt.mp fun hgt => hba ((hlt _ _).mpr hgt)

theorem IntermediateCursor.le_of_not_less [LinearOrder α]
    (hlt : ∀ a b, lt a b = true ↔ a < b) {a b : IntermediateCursor α}
    (h : ¬a.less lt b = true) : b.record ≤ a.record := by
  unfold IntermediateCursor.less at h
  split_ifs at h with hab hba
  · exact absurd rfl h
  · exact ((hlt _ _).mp hba).le
  · exact not_lt.mp fun hgt => hab ((hlt _ _).mpr hgt)

theorem popLeast_le [LinearOrder α] (hlt : ∀ a b, lt a b = true ↔ a < b)
    {cs rest : List (IntermediateCursor α)} {c : IntermediateCursor α}
    (h : popLeast lt cs = some (c, rest)) : ∀ d ∈ cs, c.record ≤ d.record := by
  induction cs generalizing c rest with
  | nil => cases h
  | cons b cs ih =>
    rw [popLeast] at h
    split at h
    next hnone =>
      cases h
      simp [popLeast_eq_none hnone]
    next least others hsome =>
      have hleast := ih hsome
      split_ifs at h with hle
      · cases h
        exact List.forall_mem_cons.mpr ⟨IntermediateCursor.le_of_less hlt hle, hleast⟩
      · cases h
        have hb := IntermediateCursor.le_of_not_less hlt hle
        exact List.forall_mem_cons.mpr ⟨le_rfl, fun d hd => hb.trans (hleast d hd)⟩

end Least

variable {readNext : EStateM ε ρ α} {isEOF : ε → Bool} {lt : α → α → Bool} {eof : ε}

variable (readNext isEOF) in
/-- The reader of a run whose first record is in the heap, or which has ended. -/
def Track.Follows (t : Track ε ρ α) (reader : ρ) : Prop :=
  match t.rest with
  | [] => reader = t.left ∧ isEOF t.last = true
  | _ :: xs => Plays readNext reader xs t.last t.left

variable (readNext isEOF) in
/-- The merge is to give what the tracks say. -/
structure MergedIntermediate.Follows (m : MergedIntermediate ρ α) (ts : List (Track ε ρ α)) :
    Prop where
  length : m.readers.length = ts.length
  readers : ∀ (i : ℕ) (t : Track ε ρ α), ts[i]? = some t → ∃ r, m.readers[i]? = some r ∧
    Track.Follows readNext isEOF t r
  heads : ∀ c ∈ m.heap, ∃ t xs, ts[c.order]? = some t ∧ t.rest = c.record :: xs
  nodup : (m.heap.map (·.order)).Nodup
  covers : ∀ (i : ℕ) (t : Track ε ρ α), ts[i]? = some t → t.rest ≠ [] → i ∈ m.heap.map (·.order)

/-- Taking the head off one of the lists. -/
theorem perm_set_tail {ls : List (List α)} {i : ℕ} {x : α} {xs : List α}
    (h : ls[i]? = some (x :: xs)) : ls.flatten.Perm (x :: (ls.set i xs).flatten) := by
  induction ls generalizing i with
  | nil => cases h
  | cons l ls ih =>
    cases i with
    | zero =>
      cases h
      simp
    | succ i =>
      rw [List.getElem?_cons_succ] at h
      rw [List.set_cons_succ, List.flatten_cons, List.flatten_cons]
      exact ((ih h).append_left l).trans List.perm_middle

theorem map_set_of_eq {γ : Type} {ts : List β} {i : ℕ} {t t' : β} {f : β → γ}
    (ht : ts[i]? = some t) (hf : f t' = f t) : (ts.set i t').map f = ts.map f := by
  apply List.ext_getElem?
  intro j
  rw [List.getElem?_map, List.getElem?_map, List.getElem?_set]
  split_ifs with hij hj
  · subst hij
    rw [ht, Option.map_some, Option.map_some, hf]
  · subst hij
    rw [List.getElem?_eq_none (not_lt.mp hj)]
  · rfl

def remaining (ts : List (Track ε ρ α)) : List α := (ts.map Track.rest).flatten

theorem remaining_set {ts : List (Track ε ρ α)} {i : ℕ} {t : Track ε ρ α} {x : α} {xs : List α}
    (ht : ts[i]? = some t) (hx : t.rest = x :: xs) :
    (remaining ts).Perm (x :: remaining (ts.set i { t with rest := xs })) := by
  have hget : (ts.map Track.rest)[i]? = some (x :: xs) := by
    rw [List.getElem?_map, ht, Option.map_some, hx]
  rw [remaining, remaining, List.map_set]
  exact perm_set_tail hget

namespace MergedIntermediate.Follows
variable {m : MergedIntermediate ρ α} {ts : List (Track ε ρ α)} {c : IntermediateCursor α}
  {others : List (IntermediateCursor α)}

/-- After a record of a run has been given, with the reader and the cursor of the run moved on. -/
theorem advance (h : m.Follows readNext isEOF ts) (hpop : popLeast lt m.heap = some (c, others))
    {t : Track ε ρ α} {xs : List α} (ht : ts[c.order]? = some t) {r : ρ}
    (hr : Track.Follows readNext isEOF { t with rest := xs } r)
    {heap : List (IntermediateCursor α)}
    (hheap : heap = (xs.head?.map fun x => ⟨x, c.order⟩).toList ++ others) :
    MergedIntermediate.Follows readNext isEOF { readers := m.readers.set c.order r, heap }
      (ts.set c.order { t with rest := xs }) := by
  have hperm := popLeast_perm hpop
  have hnodup := (hperm.map (·.order)).nodup_iff.mp h.nodup
  obtain ⟨hout, hothers⟩ := List.nodup_cons.mp hnodup
  obtain ⟨hi, -⟩ := List.getElem?_eq_some_iff.mp ht
  have hlength := h.length
  refine ⟨by simp [hlength], ?_, ?_, ?_, ?_⟩
  · intro i t' ht'
    dsimp only
    rw [List.getElem?_set] at ht' ⊢
    split_ifs at ht' ⊢ with heq
    · cases ht'
      exact ⟨r, rfl, hr⟩
    · omega
    · exact h.readers i t' ht'
  · intro d hd
    rw [hheap] at hd
    rcases List.mem_append.mp hd with hd | hd
    · cases xs with
      | nil => cases hd
      | cons x xs =>
        rw [List.mem_singleton.mp hd]
        exact ⟨_, xs, List.getElem?_set_self hi, rfl⟩
    · have hne : c.order ≠ d.order := fun heq =>
        hout (List.mem_map.mpr ⟨d, hd, heq.symm⟩)
      rw [List.getElem?_set_ne hne]
      exact h.heads d (hperm.mem_iff.mpr (List.mem_cons_of_mem c hd))
  · rw [hheap]
    cases xs with
    | nil => exact hothers
    | cons x xs => exact List.nodup_cons.mpr ⟨hout, hothers⟩
  · intro i t' ht' hne
    rw [hheap, List.map_append, List.mem_append]
    rw [List.getElem?_set] at ht'
    split_ifs at ht' with heq
    · cases ht'
      left
      cases xs with
      | nil => exact absurd rfl hne
      | cons x xs => exact List.mem_singleton.mpr heq.symm
    · right
      have hmem := (hperm.map (·.order)).mem_iff.mp (h.covers i t' ht' hne)
      rcases List.mem_cons.mp hmem with hc | hmem
      · exact absurd hc.symm heq
      · exact hmem

theorem ended (h : m.Follows readNext isEOF ts) (hheap : m.heap = []) :
    remaining ts = [] ∧ (∀ t ∈ ts, isEOF t.last = true) ∧ m.readers = ts.map Track.left := by
  have hrest (i : ℕ) (t : Track ε ρ α) (ht : ts[i]? = some t) : t.rest = [] := by
    by_contra hne
    have hmem := h.covers i t ht hne
    rw [hheap] at hmem
    cases hmem
  have hreader (i : ℕ) (t : Track ε ρ α) (ht : ts[i]? = some t) :
      m.readers[i]? = some t.left ∧ isEOF t.last = true := by
    obtain ⟨r, hr, hfollows⟩ := h.readers i t ht
    rw [Track.Follows, hrest i t ht] at hfollows
    rw [← hfollows.1]
    exact ⟨hr, hfollows.2⟩
  refine ⟨?_, ?_, ?_⟩
  · rw [remaining, List.flatten_eq_nil_iff]
    intro l hl
    obtain ⟨t, ht, rfl⟩ := List.mem_map.mp hl
    obtain ⟨i, hi⟩ := List.getElem?_of_mem ht
    exact hrest i t hi
  · intro t ht
    obtain ⟨i, hi⟩ := List.getElem?_of_mem ht
    exact (hreader i t hi).2
  · apply List.ext_getElem?
    intro i
    rw [List.getElem?_map]
    cases hi : ts[i]? with
    | none =>
      rw [List.getElem?_eq_none_iff] at hi
      rw [List.getElem?_eq_none (h.length.symm ▸ hi), Option.map_none]
    | some t => rw [(hreader i t hi).1, Option.map_some]

/-- The merge gives the least record of all and moves on, or it fails as the run of that record
does. -/
theorem step (h : m.Follows readNext isEOF ts) (hpop : popLeast lt m.heap = some (c, others)) :
    ∃ t xs, ts[c.order]? = some t ∧ t.rest = c.record :: xs ∧
      ((isEOF t.last = false ∧ ∃ m', m.next lt readNext isEOF eof = .error t.last m') ∨
        ∃ m', m.next lt readNext isEOF eof = .ok c.record m' ∧
          m'.Follows readNext isEOF (ts.set c.order { t with rest := xs })) := by
  obtain ⟨t, xs, ht, hrest⟩ := h.heads c ((popLeast_perm hpop).mem_iff.mpr List.mem_cons_self)
  obtain ⟨r, hr, hplays⟩ := h.readers c.order t ht
  rw [Track.Follows, hrest] at hplays
  dsimp only at hplays
  refine ⟨t, xs, ht, hrest, ?_⟩
  cases xs with
  | nil =>
    have hnext := hplays.next_nil
    simp only [MergedIntermediate.next, hpop, hr, hnext]
    cases heof : isEOF t.last with
    | false => exact .inl ⟨rfl, _, rfl⟩
    | true =>
      have hended : Track.Follows readNext isEOF { t with rest := [] } t.left := ⟨rfl, heof⟩
      exact .inr ⟨_, rfl, h.advance hpop ht hended rfl⟩
  | cons x xs =>
    obtain ⟨r', hnext, hplays⟩ := hplays.next_cons
    simp only [MergedIntermediate.next, hpop, hr, hnext]
    have hreader : Track.Follows readNext isEOF { t with rest := x :: xs } r' := hplays
    exact .inr ⟨_, rfl, h.advance hpop ht hreader rfl⟩

theorem next_none (hpop : popLeast lt m.heap = none) :
    m.next lt readNext isEOF eof = .error eof m := by
  rw [MergedIntermediate.next, hpop]

/-- All of the records are given if all of the runs end, and otherwise the merge fails. -/
theorem plays (h : m.Follows readNext isEOF ts) :
    ∃ out e m', Plays (MergedIntermediate.next lt readNext isEOF eof) m out e m' ∧
      ((∀ last ∈ ts.map Track.last, isEOF last = true) →
        e = eof ∧ out.Perm (remaining ts) ∧ m'.readers = ts.map Track.left) ∧
      ((∃ last ∈ ts.map Track.last, isEOF last = false) → isEOF e = false) := by
  induction hn : (remaining ts).length using Nat.strong_induction_on generalizing m ts with
  | _ n ih =>
    cases hpop : popLeast lt m.heap with
    | none =>
      obtain ⟨hnil, hends, hreaders⟩ := h.ended (popLeast_eq_none hpop)
      refine ⟨[], eof, m, Plays.stop (next_none hpop), ?_, ?_⟩
      · intro _
        rw [hnil]
        exact ⟨rfl, List.Perm.refl _, hreaders⟩
      · rintro ⟨last, hlast, hfalse⟩
        obtain ⟨t, ht, rfl⟩ := List.mem_map.mp hlast
        rw [hends t ht] at hfalse
        cases hfalse
    | some popped =>
      obtain ⟨c, others⟩ := popped
      obtain ⟨t, xs, ht, hrest, ⟨hfail, m', herr⟩ | ⟨m', hok, hm'⟩⟩ := h.step hpop
      · refine ⟨[], t.last, m', Plays.stop herr, ?_, fun _ => hfail⟩
        intro hends
        have hlast := hends t.last (List.mem_map_of_mem (List.mem_of_getElem? ht))
        rw [hfail] at hlast
        cases hlast
      · have hperm := remaining_set ht hrest
        have hlen := hperm.length_eq
        rw [List.length_cons] at hlen
        obtain ⟨out, e, m'', hplays, hall, hfails⟩ := ih _ (by omega) hm' rfl
        have hlast : (ts.set c.order { t with rest := xs }).map Track.last = ts.map Track.last :=
          map_set_of_eq ht rfl
        have hleft : (ts.set c.order { t with rest := xs }).map Track.left = ts.map Track.left :=
          map_set_of_eq ht rfl
        rw [hlast] at hall hfails
        rw [hleft] at hall
        refine ⟨c.record :: out, e, m'', Plays.item hok hplays, ?_, hfails⟩
        intro hends
        obtain ⟨he, hout, hreaders⟩ := hall hends
        exact ⟨he, (hout.cons c.record).trans hperm.symm, hreaders⟩

theorem least [LinearOrder α] (hlt : ∀ a b, lt a b = true ↔ a < b)
    (h : m.Follows readNext isEOF ts) (hsorted : ∀ t ∈ ts, t.rest.Pairwise (· ≤ ·))
    (hpop : popLeast lt m.heap = some (c, others)) : ∀ y ∈ remaining ts, c.record ≤ y := by
  intro y hy
  obtain ⟨l, hl, hyl⟩ := List.mem_flatten.mp hy
  obtain ⟨t, ht, rfl⟩ := List.mem_map.mp hl
  obtain ⟨i, hi⟩ := List.getElem?_of_mem ht
  obtain ⟨d, hd, rfl⟩ := List.mem_map.mp (h.covers i t hi (List.ne_nil_of_mem hyl))
  obtain ⟨t', xs, ht', hrest⟩ := h.heads d hd
  cases hi.symm.trans ht'
  have hcd := popLeast_le hlt hpop d hd
  have hsort := hsorted t ht
  rw [hrest] at hyl hsort
  rcases List.mem_cons.mp hyl with rfl | hyxs
  · exact hcd
  · exact hcd.trans ((List.pairwise_cons.mp hsort).1 y hyxs)

theorem plays_sorted [LinearOrder α] (hlt : ∀ a b, lt a b = true ↔ a < b)
    (h : m.Follows readNext isEOF ts) (hsorted : ∀ t ∈ ts, t.rest.Pairwise (· ≤ ·))
    {out : List α} {e : ε} {m' : MergedIntermediate ρ α}
    (hplays : Plays (MergedIntermediate.next lt readNext isEOF eof) m out e m') :
    out.Pairwise (· ≤ ·) ∧ ∀ y ∈ out, y ∈ remaining ts := by
  induction out generalizing m ts with
  | nil => exact ⟨List.Pairwise.nil, by simp⟩
  | cons x out ih =>
    obtain ⟨m₁, hnext, hrun⟩ := hplays.next_cons
    cases hpop : popLeast lt m.heap with
    | none =>
      rw [next_none hpop] at hnext
      cases hnext
    | some popped =>
      obtain ⟨c, others⟩ := popped
      obtain ⟨t, xs, ht, hrest, ⟨-, m', herr⟩ | ⟨m', hok, hm'⟩⟩ := h.step hpop
      · rw [herr] at hnext
        cases hnext
      · rw [hok] at hnext
        cases hnext
        have hmem (y : α) := (remaining_set ht hrest).mem_iff (a := y)
        have hsorted' : ∀ t' ∈ ts.set c.order { t with rest := xs }, t'.rest.Pairwise (· ≤ ·) := by
          intro t' ht'
          rcases List.mem_or_eq_of_mem_set ht' with hmem | rfl
          · exact hsorted t' hmem
          · have hsort := hsorted t (List.mem_of_getElem? ht)
            rw [hrest] at hsort
            exact (List.pairwise_cons.mp hsort).2
        obtain ⟨hout, hin⟩ := ih hm' hsorted' hrun
        have hin' (y : α) (hy : y ∈ out) : y ∈ remaining ts :=
          (hmem y).mpr (List.mem_cons_of_mem _ (hin y hy))
        refine ⟨List.pairwise_cons.mpr ⟨fun y hy => h.least hlt hsorted hpop y (hin' y hy), hout⟩, ?_⟩
        exact List.forall_mem_cons.mpr ⟨(hmem _).mpr List.mem_cons_self, hin'⟩

/-- One more run, whose first record has been read. -/
theorem push (h : m.Follows readNext isEOF ts) {t : Track ε ρ α} {r : ρ}
    (hr : Track.Follows readNext isEOF t r) {heap : List (IntermediateCursor α)}
    (hheap : heap = (t.rest.head?.map fun x => ⟨x, m.readers.length⟩).toList ++ m.heap) :
    MergedIntermediate.Follows readNext isEOF { readers := m.readers ++ [r], heap }
      (ts ++ [t]) := by
  have hlength := h.length
  have hold {i : ℕ} {t' : Track ε ρ α} (ht' : ts[i]? = some t') : (ts ++ [t])[i]? = some t' := by
    obtain ⟨hi, -⟩ := List.getElem?_eq_some_iff.mp ht'
    rwa [List.getElem?_append_left hi]
  have hnew {i : ℕ} {t' : Track ε ρ α} (ht' : (ts ++ [t])[i]? = some t') :
      ts[i]? = some t' ∨ (i = ts.length ∧ t' = t) := by
    by_cases hi : i < ts.length
    · rw [List.getElem?_append_left hi] at ht'
      exact .inl ht'
    · rw [List.getElem?_append_right (not_lt.mp hi), List.getElem?_singleton] at ht'
      split_ifs at ht' with hzero
      exact .inr ⟨by omega, (Option.some.inj ht').symm⟩
  have horder (d : IntermediateCursor α) (hd : d ∈ m.heap) : d.order < ts.length := by
    obtain ⟨t', xs, ht', -⟩ := h.heads d hd
    exact (List.getElem?_eq_some_iff.mp ht').1
  refine ⟨by simp [hlength], ?_, ?_, ?_, ?_⟩
  · intro i t' ht'
    rcases hnew ht' with hin | ⟨rfl, rfl⟩
    · obtain ⟨r', hr', hfollows⟩ := h.readers i t' hin
      refine ⟨r', ?_, hfollows⟩
      obtain ⟨hi, -⟩ := List.getElem?_eq_some_iff.mp hr'
      dsimp only
      rwa [List.getElem?_append_left hi]
    · refine ⟨r, ?_, hr⟩
      dsimp only
      rw [← hlength, List.getElem?_concat_length]
  · intro d hd
    rw [hheap] at hd
    rcases List.mem_append.mp hd with hd | hd
    · cases hrest : t.rest with
      | nil =>
        rw [hrest] at hd
        cases hd
      | cons x xs =>
        rw [hrest] at hd
        rw [List.mem_singleton.mp hd]
        refine ⟨t, xs, ?_, hrest⟩
        dsimp only
        rw [hlength, List.getElem?_concat_length]
    · obtain ⟨t', xs, ht', hrest⟩ := h.heads d hd
      exact ⟨t', xs, hold ht', hrest⟩
  · rw [hheap]
    cases t.rest with
    | nil => exact h.nodup
    | cons x xs =>
      refine List.nodup_cons.mpr ⟨?_, h.nodup⟩
      intro hmem
      obtain ⟨d, hd, heq⟩ := List.mem_map.mp hmem
      have := horder d hd
      dsimp only at heq
      omega
  · intro i t' ht' hne
    rw [hheap, List.map_append, List.mem_append]
    rcases hnew ht' with hin | ⟨rfl, rfl⟩
    · exact .inr (h.covers i t' hin hne)
    · left
      cases hrest : t'.rest with
      | nil => exact absurd hrest hne
      | cons x xs => exact List.mem_singleton.mpr hlength.symm

end MergedIntermediate.Follows

/-- Once the merge has ended it stays so. -/
theorem next_again {m m' : MergedIntermediate ρ α} {out : List α} {e : ε}
    (h : Plays (MergedIntermediate.next lt readNext isEOF eof) m out e m') (he : isEOF e = true) :
    m'.next lt readNext isEOF eof = .error e m' := by
  induction out generalizing m with
  | nil =>
    have hnext := h.next_nil
    have hagain := hnext
    unfold MergedIntermediate.next at hnext
    split at hnext
    · cases hnext
      exact hagain
    · split at hnext
      · cases hnext
        exact hagain
      · split at hnext
        · cases hnext
        · dsimp only at hnext
          split_ifs at hnext with heof
          · cases hnext
            exact absurd he heof
  | cons x out ih =>
    obtain ⟨m₁, -, hrest⟩ := h.next_cons
    exact ih hrest

/-! ## Opening -/

section Opening
variable {openRun : β → Except ε ρ} {runs : List β}

/-- A run that is not opened leaves nothing to merge. -/
theorem openMergedFrom_error {run : β} (hrun : run ∈ runs) {e : ε} (h : openRun run = .error e)
    (m : MergedIntermediate ρ α) :
    ∃ e, openMergedFrom readNext isEOF openRun m runs = .error e := by
  induction runs generalizing m with
  | nil => cases hrun
  | cons first runs ih =>
    unfold openMergedFrom
    rcases List.mem_cons.mp hrun with rfl | hrun
    · rw [h]
      exact ⟨_, rfl⟩
    · cases openRun first with
      | error e => exact ⟨_, rfl⟩
      | ok reader =>
        dsimp only
        cases readNext reader with
        | ok record reader => exact ih hrun _
        | error e reader =>
          dsimp only
          split_ifs
          · exact ih hrun _
          · exact ⟨_, rfl⟩

variable (readNext openRun) in
/-- The run is opened, and its reader gives what the track says. -/
def Opens (run : β) (t : Track ε ρ α) : Prop :=
  ∃ r, openRun run = .ok r ∧ Plays readNext r t.rest t.last t.left

theorem openMergedFrom_first {run : β} {t : Track ε ρ α} (hrun : Opens readNext openRun run t)
    {m : MergedIntermediate ρ α} {ts : List (Track ε ρ α)} (h : m.Follows readNext isEOF ts) :
    (∃ m₁, m₁.Follows readNext isEOF (ts ++ [t]) ∧
      openMergedFrom readNext isEOF openRun m (run :: runs) =
        openMergedFrom readNext isEOF openRun m₁ runs) ∨
    (∃ e, openMergedFrom readNext isEOF openRun m (run :: runs) = .error e) ∧
      isEOF t.last = false := by
  obtain ⟨r, hok, hplays⟩ := hrun
  rw [openMergedFrom, hok]
  cases hrest : t.rest with
  | nil =>
    rw [hrest] at hplays
    have hnext := hplays.next_nil
    simp only [hnext]
    cases heof : isEOF t.last with
    | true =>
      have hended : Track.Follows readNext isEOF t t.left := by
        rw [Track.Follows, hrest]
        exact ⟨rfl, heof⟩
      exact .inl ⟨_, h.push hended (by rw [hrest]; rfl), rfl⟩
    | false => exact .inr ⟨⟨_, rfl⟩, rfl⟩
  | cons x xs =>
    rw [hrest] at hplays
    obtain ⟨r', hnext, hplays⟩ := hplays.next_cons
    have hreader : Track.Follows readNext isEOF t r' := by
      rw [Track.Follows, hrest]
      exact hplays
    simp only [hnext]
    exact .inl ⟨_, h.push hreader (by rw [hrest]; rfl), rfl⟩

/-- Runs that are opened are merged, unless one of them fails at its first record. -/
theorem openMergedFrom_follows {new : List (Track ε ρ α)}
    (hopen : List.Forall₂ (Opens readNext openRun) runs new) {m : MergedIntermediate ρ α}
    {ts : List (Track ε ρ α)} (h : m.Follows readNext isEOF ts) :
    (∃ m', openMergedFrom readNext isEOF openRun m runs = .ok m' ∧
      m'.Follows readNext isEOF (ts ++ new)) ∨
    (∃ e, openMergedFrom readNext isEOF openRun m runs = .error e) ∧
      ∃ t ∈ new, isEOF t.last = false := by
  induction hopen generalizing m ts with
  | nil => exact .inl ⟨m, rfl, by rwa [List.append_nil]⟩
  | @cons run t runs new hrun hruns ih =>
    rcases openMergedFrom_first hrun h with ⟨m₁, hm₁, heq⟩ | ⟨herr, hfails⟩
    · rw [heq]
      rcases ih hm₁ with ⟨m', hm', hfollows⟩ | ⟨herr, t', ht', hfails⟩
      · rw [List.append_assoc, List.singleton_append] at hfollows
        exact .inl ⟨m', hm', hfollows⟩
      · exact .inr ⟨herr, t', List.mem_cons_of_mem t ht', hfails⟩
    · exact .inr ⟨herr, t, List.mem_cons_self, hfails⟩

theorem follows_nil : MergedIntermediate.Follows readNext isEOF ({} : MergedIntermediate ρ α) [] :=
  ⟨rfl, by simp, by simp, List.nodup_nil, by simp⟩

/-- Runs that all end give all of their records. -/
theorem openMergedIntermediate_ended {ts : List (Track ε ρ α)}
    (hopen : List.Forall₂ (Opens readNext openRun) runs ts)
    (hends : ∀ t ∈ ts, isEOF t.last = true) :
    ∃ m out m', openMergedIntermediate readNext isEOF openRun runs = .ok m ∧
      m.Follows readNext isEOF ts ∧
      Plays (MergedIntermediate.next lt readNext isEOF eof) m out eof m' ∧
      out.Perm (remaining ts) ∧ m'.readers = ts.map Track.left := by
  rcases openMergedFrom_follows hopen follows_nil with ⟨m, hm, hfollows⟩ | ⟨-, t, ht, hfails⟩
  · obtain ⟨out, e, m', hplays, hall, -⟩ := hfollows.plays
    obtain ⟨rfl, hout, hreaders⟩ := hall fun last hlast => by
      obtain ⟨t, ht, rfl⟩ := List.mem_map.mp hlast
      exact hends t ht
    exact ⟨m, out, m', hm, hfollows, hplays, hout, hreaders⟩
  · rw [hends t ht] at hfails
    cases hfails

/-- If one of them fails, the merge does not end. -/
theorem openMergedIntermediate_failed {ts : List (Track ε ρ α)}
    (hopen : List.Forall₂ (Opens readNext openRun) runs ts) {t : Track ε ρ α} (ht : t ∈ ts)
    (hfails : isEOF t.last = false) {m m' : MergedIntermediate ρ α} {out : List α} {e : ε}
    (hm : openMergedIntermediate readNext isEOF openRun runs = .ok m)
    (hplays : Plays (MergedIntermediate.next lt readNext isEOF eof) m out e m') :
    isEOF e = false := by
  rcases openMergedFrom_follows hopen follows_nil with ⟨m₁, hm₁, hfollows⟩ | ⟨⟨e₁, herr⟩, -⟩
  · cases hm.symm.trans hm₁
    obtain ⟨out', e', m'', hplays', -, hfail⟩ := hfollows.plays
    obtain ⟨-, rfl, -⟩ := hplays.unique hplays'
    exact hfail ⟨t.last, List.mem_map_of_mem ht, hfails⟩
  · cases hm.symm.trans herr

end Opening
end EntroQ.Eqmr
