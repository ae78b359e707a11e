import EntroQ.Eqmr.Intermediate
import EntroQ.Foundation.Playback

/-! # Reducing a stream

A reducer asks for the values of its key one at a time and may stop at any point. The stream looks
one record ahead to see where a key ends, and what a reducer leaves is read before its result is
written. Whatever the reducers ask for, each key of the stream has its own values. -/

namespace EntroQ.Eqmr
open Foundation

/-- A reducer at work: it returns, or asks for the next value and goes on with that, or with nothing
and the error of the stream. -/
inductive Reducing (ε φ : Type)
  | returns (result : Except φ String)
  | next (k : Option String → Option ε → Reducing ε φ)

/-- The merged stream with the record that was read ahead, and its error. -/
structure GroupedIntermediate (ε μ : Type) where
  merged : μ
  peek : Option IntermediateRecord := none
  err : Option ε := none

/-- Why a reduction stops. -/
inductive ReduceFailure (ε φ δ : Type)
  | read (e : ε)
  | reduce (key : String) (e : φ)
  | drain (key : String) (e : ε)
  | write (key : String) (e : δ)

/-- What is seen of a reduction. -/
inductive ReduceEvent
  | called (key : String)
  | read (key value : String)
  | wrote (key result : String)

variable {ε μ φ δ σ : Type}

section Model
variable (mergedNext : EStateM ε μ IntermediateRecord) (isEOF : ε → Bool)

namespace GroupedIntermediate
variable (g : GroupedIntermediate ε μ)

def load : Bool × GroupedIntermediate ε μ :=
  if g.peek.isSome then (true, g)
  else if g.err.isSome then (false, g)
  else
    match mergedNext g.merged with
    | .ok record merged => (true, { g with merged, peek := some record })
    | .error e merged => (false, { g with merged, err := if isEOF e then none else some e })

def nextGroup : Option String × GroupedIntermediate ε μ :=
  let (loaded, g) := g.load mergedNext isEOF
  (if loaded then g.peek.map (·.primary) else none, g)

def groupNext (key : String) : Option String × GroupedIntermediate ε μ :=
  let (loaded, g) := g.load mergedNext isEOF
  match g.peek with
  | some record =>
    if !loaded || record.primary ≠ key then (none, g)
    else (some record.value, { g with peek := none })
  | none => (none, g)

/-- Read the values of the key that are left, within so many steps. -/
def drain (key : String) :
    ℕ → GroupedIntermediate ε μ → Option (List String × Option ε × GroupedIntermediate ε μ)
  | 0, _ => none
  | n + 1, g =>
    match g.groupNext mergedNext isEOF key with
    | (some v, g) => (drain key n g).map fun (vs, rest) => (v :: vs, rest)
    | (none, g) => some ([], g.err, g)

end GroupedIntermediate

/-- What the reducer returns, and the values it has read. -/
def Reducing.run (key : String) :
    Reducing ε φ → GroupedIntermediate ε μ →
      Except φ String × List String × GroupedIntermediate ε μ
  | .returns result, g => (result, [], g)
  | .next k, g =>
    let (v, g) := g.groupNext mergedNext isEOF key
    let (result, vs, g) := (k v g.err).run key g
    (result, v.toList ++ vs, g)

variable (reduceFn : String → Reducing ε φ) (write : String → String → σ → Except δ σ)

/-- The loop of `reduceIntermediate` within so many steps: its outcome, the sink and what was
seen. -/
def reduceGrouped : ℕ → GroupedIntermediate ε μ → σ →
    Option (Except (ReduceFailure ε φ δ) Unit × σ × List ReduceEvent)
  | 0, _, _ => none
  | n + 1, g, sink =>
    match g.nextGroup mergedNext isEOF with
    | (none, g) =>
      match g.err with
      | some e => some (.error (.read e), sink, [])
      | none => some (.ok (), sink, [])
    | (some key, g) =>
      let (result, vs, g) := (reduceFn key).run mergedNext isEOF key g
      let seen := .called key :: vs.map (.read key)
      match result with
      | .error e => some (.error (.reduce key e), sink, seen)
      | .ok result =>
        match g.drain mergedNext isEOF key n with
        | none => none
        | some (vs, some e, _) => some (.error (.drain key e), sink, seen ++ vs.map (.read key))
        | some (vs, none, g) =>
          let seen := seen ++ vs.map (.read key)
          match write key result sink with
          | .error e => some (.error (.write key e), sink, seen)
          | .ok sink =>
            (reduceGrouped n g sink).map fun (outcome, sink, rest) =>
              (outcome, sink, seen ++ .wrote key result :: rest)

end Model

/-! ## What a reduction is -/

/-- What the reducer returns if it is given these values and then the end, with the values it has
read. -/
def Reducing.feed : Reducing ε φ → List String → Option ε → Except φ String × List String
  | .returns result, _, _ => (result, [])
  | .next k, [], fail => (k none fail).feed [] fail
  | .next k, v :: vs, fail =>
    let (result, taken) := (k (some v) none).feed vs fail
    (result, v :: taken)

section Spec
variable (reduceFn : String → Reducing ε φ) (write : String → String → σ → Except δ σ)
  (values : String → List String) (fail : Option ε)

/-- The keys are reduced one after the other, each with its values. A failure of the stream comes
with the last of them, whose result is not written then. -/
def reduceKeys : List String → σ → Except (ReduceFailure ε φ δ) Unit × σ × List ReduceEvent
  | [], sink =>
    match fail with
    | some e => (.error (.read e), sink, [])
    | none => (.ok (), sink, [])
  | key :: keys, sink =>
    let last := if keys.isEmpty then fail else none
    match (reduceFn key).feed (values key) last with
    | (.error e, taken) =>
      (.error (.reduce key e), sink, .called key :: taken.map (.read key))
    | (.ok result, _) =>
      let seen := .called key :: (values key).map (.read key)
      match last with
      | some e => (.error (.drain key e), sink, seen)
      | none =>
        match write key result sink with
        | .error e => (.error (.write key e), sink, seen)
        | .ok sink =>
          let (outcome, sink, rest) := reduceKeys keys sink
          (outcome, sink, seen ++ .wrote key result :: rest)

def calls (events : List ReduceEvent) : List String :=
  events.filterMap fun
    | .called key => some key
    | _ => none

theorem calls_group (key : String) (vs : List String) (rest : List ReduceEvent) :
    calls (.called key :: vs.map (.read key) ++ rest) = key :: calls rest := by
  simp [calls, List.filterMap_append, List.filterMap_map]

/-- The reducer is called for one key after the other, and for all of them if nothing fails. -/
theorem reduceKeys_calls (keys : List String) (sink : σ) :
    calls (reduceKeys reduceFn write values fail keys sink).2.2 <+: keys ∧
      ((reduceKeys reduceFn write values fail keys sink).1 = .ok () →
        calls (reduceKeys reduceFn write values fail keys sink).2.2 = keys) := by
  induction keys generalizing sink with
  | nil => cases fail <;> exact ⟨List.nil_prefix, fun _ => rfl⟩
  | cons key keys ih =>
    have hone (vs : List String) : calls (.called key :: vs.map (.read key)) = [key] := by
      have h := calls_group key vs []
      rwa [List.append_nil] at h
    have hfirst : [key] <+: key :: keys := List.prefix_append [key] keys
    rw [reduceKeys]
    dsimp only
    split
    · dsimp only
      rw [hone]
      exact ⟨hfirst, nofun⟩
    · split
      · dsimp only
        rw [hone]
        exact ⟨hfirst, nofun⟩
      · split
        · dsimp only
          rw [hone]
          exact ⟨hfirst, nofun⟩
        · next sink' _ =>
          obtain ⟨hcut, hall⟩ := ih sink'
          dsimp only
          rw [calls_group]
          refine ⟨(List.prefix_cons_inj key).mpr hcut, fun hok => ?_⟩
          exact congrArg _ (hall hok)

/-- A result is written once all values of the key have been read, and not for the last key of a
stream that fails. -/
theorem reduceKeys_wrote (keys : List String) (sink : σ) {key result : String}
    (h : .wrote key result ∈ (reduceKeys reduceFn write values fail keys sink).2.2) :
    (∃ before after, (reduceKeys reduceFn write values fail keys sink).2.2 =
      before ++ (.called key :: (values key).map (.read key) ++ .wrote key result :: after)) ∧
      (fail.isSome → key ∈ keys.dropLast) := by
  induction keys generalizing sink with
  | nil => cases fail <;> cases h
  | cons first keys ih =>
    have hnot (vs : List String) : ReduceEvent.wrote key result ∉
        ReduceEvent.called first :: vs.map (ReduceEvent.read first) := by simp
    rw [reduceKeys] at h ⊢
    dsimp only at h ⊢
    split at h
    · exact absurd h (hnot _)
    · next written _ _ =>
      split at h
      · exact absurd h (hnot _)
      · next hlast =>
        split at h
        · exact absurd h (hnot _)
        · next sink' hwrite =>
          dsimp only at h ⊢
          have hmore : fail.isSome → keys ≠ [] := by
            rintro hfail rfl
            rw [List.isEmpty_nil, if_pos rfl] at hlast
            rw [hlast] at hfail
            cases hfail
          rcases List.mem_append.mp h with h | h
          · exact absurd h (hnot _)
          rcases List.mem_cons.mp h with heq | h
          · cases heq
            refine ⟨⟨[], _, rfl⟩, fun hfail => ?_⟩
            rw [List.dropLast_cons_of_ne_nil (hmore hfail)]
            exact List.mem_cons_self
          · obtain ⟨⟨before, after, heq⟩, hdrop⟩ := ih sink' h
            refine ⟨⟨.called first :: (values first).map (.read first) ++ .wrote first written :: before,
              after, by rw [heq]; simp⟩, fun hfail => ?_⟩
            rw [List.dropLast_cons_of_ne_nil (hmore hfail)]
            exact List.mem_cons_of_mem first (hdrop hfail)

/-- The result of a key, from all of its values. -/
def resultOf : Reducer := fun key values => ((reduceFn key).feed values none).1.toOption

/-- A sink that takes every result. -/
def stage (key result : String) (staged : List KV) : Except Empty (List KV) :=
  .ok (staged ++ [⟨key, result⟩])

theorem reduceKeys_stage (keys : List String) (staged : List KV) :
    (reduceKeys reduceFn stage values none keys staged).1.toOption.map
        (fun _ => (reduceKeys reduceFn stage values none keys staged).2.1) =
      (keys.mapM fun key => (resultOf reduceFn key (values key)).map fun result => ⟨key, result⟩).map
        (staged ++ ·) := by
  induction keys generalizing staged with
  | nil => simp [reduceKeys, Except.toOption]
  | cons key keys ih =>
    rw [reduceKeys, List.mapM_cons, resultOf, ite_self]
    rcases (reduceFn key).feed (values key) none with ⟨e | result, taken⟩
    · rfl
    · refine (ih (staged ++ [⟨key, result⟩])).trans ?_
      generalize List.mapM (m := Option) _ keys = rest
      cases rest <;> simp [Except.toOption]

end Spec

/-! ## The stream -/

section Stream
variable (mergedNext : EStateM ε μ IntermediateRecord) (isEOF : ε → Bool)

/-- The records come, and then the failure or the end, which comes again if it is asked for. -/
def Gives (m : μ) (records : List IntermediateRecord) (fail : Option ε) : Prop :=
  ∃ e m', Plays mergedNext m records e m' ∧ fail = (if isEOF e then none else some e) ∧
    (isEOF e = true → mergedNext m' = .error e m')

/-- The records still to come, with the one that was read ahead. -/
inductive GroupedIntermediate.Streams (g : GroupedIntermediate ε μ) :
    List IntermediateRecord → Option ε → Prop
  | live {records : List IntermediateRecord} {fail : Option ε} (herr : g.err = none)
      (h : Gives mergedNext isEOF g.merged records fail) : Streams g (g.peek.toList ++ records) fail
  | failed (e : ε) (hpeek : g.peek = none) (herr : g.err = some e) : Streams g [] (some e)

end Stream

namespace GroupedIntermediate.Streams
variable {mergedNext : EStateM ε μ IntermediateRecord} {isEOF : ε → Bool}
  {g : GroupedIntermediate ε μ} {x : IntermediateRecord} {xs : List IntermediateRecord}
  {fail : Option ε}

theorem ahead {m : μ} (h : Gives mergedNext isEOF m xs fail) (x : IntermediateRecord) :
    Streams mergedNext isEOF { merged := m, peek := some x } (x :: xs) fail :=
  .live rfl h

theorem behind {m : μ} (h : Gives mergedNext isEOF m xs fail) :
    Streams mergedNext isEOF { merged := m } xs fail :=
  .live rfl h

theorem load_cons (h : g.Streams mergedNext isEOF (x :: xs) fail) :
    ∃ m, g.load mergedNext isEOF = (true, { merged := m, peek := some x }) ∧
      Gives mergedNext isEOF m xs fail := by
  obtain ⟨merged, peek, err⟩ := g
  generalize hl : x :: xs = l at h
  cases h with
  | failed e hpeek herr => cases hl
  | live herr h =>
    dsimp only at herr hl h
    subst herr
    cases peek with
    | some y =>
      cases hl
      exact ⟨merged, rfl, h⟩
    | none =>
      obtain ⟨e, m', hplays, hfail, hagain⟩ := h
      rw [Option.toList_none, List.nil_append] at hl
      rw [← hl] at hplays
      obtain ⟨m, hnext, hplays⟩ := hplays.next_cons
      refine ⟨m, ?_, e, m', hplays, hfail, hagain⟩
      simp [load, hnext]

theorem load_nil (h : g.Streams mergedNext isEOF [] fail) :
    ∃ g', g.load mergedNext isEOF = (false, g') ∧ g'.peek = none ∧ g'.err = fail ∧
      g'.Streams mergedNext isEOF [] fail := by
  obtain ⟨merged, peek, err⟩ := g
  generalize hl : [] = l at h
  cases h with
  | failed e hpeek herr =>
    dsimp only at hpeek herr
    subst hpeek herr
    exact ⟨_, rfl, rfl, rfl, .failed e rfl rfl⟩
  | live herr h =>
    dsimp only at herr hl h
    subst herr
    cases peek with
    | some y => cases hl
    | none =>
      obtain ⟨e, m', hplays, hfail, hagain⟩ := h
      rw [Option.toList_none, List.nil_append] at hl
      subst hl
      have hnext := hplays.next_nil
      refine ⟨{ merged := m', err := fail }, ?_, rfl, rfl, ?_⟩
      · simp [load, hnext, hfail]
      · change Streams mergedNext isEOF _ [] fail
        cases heof : isEOF e with
        | true =>
          rw [heof, if_pos rfl] at hfail
          subst hfail
          exact behind ⟨e, m', Plays.stop (hagain heof), by rw [heof]; rfl, hagain⟩
        | false =>
          rw [heof] at hfail
          subst hfail
          exact .failed e rfl rfl

theorem nextGroup_cons (h : g.Streams mergedNext isEOF (x :: xs) fail) :
    ∃ g', g.nextGroup mergedNext isEOF = (some x.primary, g') ∧
      g'.Streams mergedNext isEOF (x :: xs) fail := by
  obtain ⟨m, hload, hm⟩ := h.load_cons
  exact ⟨_, by rw [nextGroup, hload]; rfl, ahead hm x⟩

theorem nextGroup_nil (h : g.Streams mergedNext isEOF [] fail) :
    ∃ g', g.nextGroup mergedNext isEOF = (none, g') ∧ g'.err = fail := by
  obtain ⟨g', hload, -, herr, -⟩ := h.load_nil
  exact ⟨g', by rw [nextGroup, hload]; rfl, herr⟩

theorem groupNext_cons (h : g.Streams mergedNext isEOF (x :: xs) fail) :
    ∃ m, g.groupNext mergedNext isEOF x.primary = (some x.value, { merged := m }) ∧
      Streams mergedNext isEOF { merged := m } xs fail := by
  obtain ⟨m, hload, hm⟩ := h.load_cons
  refine ⟨m, ?_, behind hm⟩
  rw [groupNext, hload]
  simp

theorem groupNext_other (h : g.Streams mergedNext isEOF xs fail) {key : String}
    (hkey : ∀ y ∈ xs.head?, y.primary ≠ key) :
    ∃ g', g.groupNext mergedNext isEOF key = (none, g') ∧
      g'.err = (if xs.isEmpty then fail else none) ∧ g'.Streams mergedNext isEOF xs fail := by
  cases xs with
  | nil =>
    obtain ⟨g', hload, hpeek, herr, hg'⟩ := h.load_nil
    refine ⟨g', ?_, herr, hg'⟩
    rw [groupNext, hload]
    simp only [hpeek]
  | cons x xs =>
    obtain ⟨m, hload, hm⟩ := h.load_cons
    refine ⟨{ merged := m, peek := some x }, ?_, rfl, ahead hm x⟩
    rw [groupNext, hload]
    simp [hkey x rfl]

end GroupedIntermediate.Streams

/-! ## One key -/

section Reduce
variable {mergedNext : EStateM ε μ IntermediateRecord} {isEOF : ε → Bool} {fail : Option ε}
  {key : String} {rest : List IntermediateRecord}

/-- The reducer has the values of its key, and leaves those it did not ask for. -/
theorem Reducing.run_eq (tree : Reducing ε φ) (hrest : ∀ y ∈ rest.head?, y.primary ≠ key)
    {g : GroupedIntermediate ε μ} {group : List IntermediateRecord}
    (hgroup : ∀ r ∈ group, r.primary = key)
    (h : g.Streams mergedNext isEOF (group ++ rest) fail) :
    ∃ g' left, tree.run mergedNext isEOF key g =
        ((tree.feed (group.map (·.value)) (if rest.isEmpty then fail else none)).1,
          (tree.feed (group.map (·.value)) (if rest.isEmpty then fail else none)).2, g') ∧
      group.map (·.value) =
        (tree.feed (group.map (·.value)) (if rest.isEmpty then fail else none)).2 ++
          left.map (·.value) ∧
      (∀ r ∈ left, r.primary = key) ∧ g'.Streams mergedNext isEOF (left ++ rest) fail := by
  induction tree generalizing g group with
  | returns result => exact ⟨g, group, rfl, rfl, hgroup, h⟩
  | next k ih =>
    cases group with
    | nil =>
      obtain ⟨g', hnext, herr, hg'⟩ := h.groupNext_other hrest
      obtain ⟨g'', left, hrun, hleft, hkey, hg''⟩ := ih none _ (by simp) hg'
      refine ⟨g'', left, ?_, hleft, hkey, hg''⟩
      rw [Reducing.run, hnext]
      dsimp only
      rw [List.nil_append] at herr
      rw [herr, hrun]
      rfl
    | cons r group =>
      obtain ⟨hr, hgroup⟩ := List.forall_mem_cons.mp hgroup
      subst hr
      obtain ⟨m, hnext, hm⟩ := h.groupNext_cons
      obtain ⟨g'', left, hrun, hleft, hkey, hg''⟩ := ih (some r.value) none hgroup hm
      refine ⟨g'', left, ?_, ?_, hkey, hg''⟩
      · rw [Reducing.run, hnext]
        dsimp only
        rw [hrun]
        rfl
      · rw [List.map_cons, Reducing.feed, List.cons_append, ← hleft]

theorem drain_eq (hrest : ∀ y ∈ rest.head?, y.primary ≠ key) {g : GroupedIntermediate ε μ}
    {left : List IntermediateRecord} (hleft : ∀ r ∈ left, r.primary = key)
    (h : g.Streams mergedNext isEOF (left ++ rest) fail) {n : ℕ} (hn : left.length < n) :
    ∃ g', g.drain mergedNext isEOF key n =
        some (left.map (·.value), (if rest.isEmpty then fail else none), g') ∧
      g'.Streams mergedNext isEOF rest fail := by
  induction left generalizing g n with
  | nil =>
    obtain ⟨m, rfl⟩ := Nat.exists_eq_add_one_of_ne_zero (Nat.ne_of_gt hn)
    obtain ⟨g', hnext, herr, hg'⟩ := h.groupNext_other hrest
    rw [List.nil_append] at herr
    refine ⟨g', ?_, hg'⟩
    rw [GroupedIntermediate.drain, hnext]
    simp only [herr, List.map_nil]
  | cons r left ih =>
    obtain ⟨m, rfl⟩ := Nat.exists_eq_add_one_of_ne_zero (Nat.ne_of_gt (Nat.zero_lt_of_lt hn))
    obtain ⟨hr, hleft⟩ := List.forall_mem_cons.mp hleft
    subst hr
    obtain ⟨m', hnext, hm'⟩ := h.groupNext_cons
    obtain ⟨g', hdrain, hg'⟩ := ih hleft hm' (Nat.lt_of_succ_lt_succ hn)
    refine ⟨g', ?_, hg'⟩
    rw [GroupedIntermediate.drain, hnext]
    dsimp only
    rw [hdrain]
    rfl

/-! ## All keys -/

/-- The records of each key in a stream that has them one key after the other. -/
structure Groups (keys : List String) (group : String → List IntermediateRecord) : Prop where
  nodup : keys.Nodup
  nonempty : ∀ key ∈ keys, group key ≠ []
  same : ∀ key ∈ keys, ∀ r ∈ group key, r.primary = key

namespace Groups
variable {keys : List String} {group : String → List IntermediateRecord}

theorem tail (h : Groups (key :: keys) group) : Groups keys group :=
  ⟨(List.nodup_cons.mp h.nodup).2, fun k hk => h.nonempty k (List.mem_cons_of_mem key hk),
    fun k hk => h.same k (List.mem_cons_of_mem key hk)⟩

theorem mem_primary (h : Groups keys group) {r : IntermediateRecord} (hr : r ∈ keys.flatMap group) :
    r.primary ∈ keys := by
  obtain ⟨k, hk, hrk⟩ := List.mem_flatMap.mp hr
  rwa [h.same k hk r hrk]

theorem head_ne (h : Groups (key :: keys) group) :
    ∀ y ∈ (keys.flatMap group).head?, y.primary ≠ key := by
  intro y hy heq
  have hmem := h.tail.mem_primary (List.mem_of_mem_head? hy)
  rw [heq] at hmem
  exact (List.nodup_cons.mp h.nodup).1 hmem

theorem isEmpty (h : Groups keys group) : (keys.flatMap group).isEmpty = keys.isEmpty := by
  cases keys with
  | nil => rfl
  | cons key keys =>
    obtain ⟨r, rs, hrs⟩ := List.exists_cons_of_ne_nil (h.nonempty key List.mem_cons_self)
    rw [List.flatMap_cons, hrs]
    rfl

end Groups

variable (reduceFn : String → Reducing ε φ) (write : String → String → σ → Except δ σ)

theorem reduceGrouped_eq {keys : List String} {group : String → List IntermediateRecord}
    (hgroups : Groups keys group) {g : GroupedIntermediate ε μ}
    (h : g.Streams mergedNext isEOF (keys.flatMap group) fail) (sink : σ) {n : ℕ}
    (hn : (keys.flatMap group).length + 1 < n) :
    reduceGrouped mergedNext isEOF reduceFn write n g sink =
      some (reduceKeys reduceFn write (fun key => (group key).map (·.value)) fail keys sink) := by
  induction keys generalizing g sink n with
  | nil =>
    obtain ⟨m, rfl⟩ := Nat.exists_eq_add_one_of_ne_zero (Nat.ne_of_gt (Nat.zero_lt_of_lt hn))
    obtain ⟨g', hnext, herr⟩ := h.nextGroup_nil
    rw [reduceGrouped, hnext]
    dsimp only
    rw [herr]
    cases fail with
    | none => rfl
    | some e => rfl
  | cons key keys ih =>
    obtain ⟨m, rfl⟩ := Nat.exists_eq_add_one_of_ne_zero (Nat.ne_of_gt (Nat.zero_lt_of_lt hn))
    have hne := hgroups.nonempty key List.mem_cons_self
    have hsame := hgroups.same key List.mem_cons_self
    have hpos := List.length_pos_of_ne_nil hne
    rw [List.flatMap_cons] at h hn
    rw [List.length_append] at hn
    obtain ⟨r, rs, hrs⟩ := List.exists_cons_of_ne_nil hne
    have hr : r.primary = key := hsame r (by rw [hrs]; exact List.mem_cons_self)
    have hstream := h
    rw [hrs, List.cons_append] at hstream
    obtain ⟨g₁, hnext, hg₁⟩ := hstream.nextGroup_cons
    rw [← List.cons_append, ← hrs] at hg₁
    obtain ⟨g₂, left, hrun, hleft, hkey, hg₂⟩ :=
      (reduceFn key).run_eq hgroups.head_ne hsame hg₁
    rw [hgroups.tail.isEmpty] at hrun hleft
    rw [reduceGrouped, hnext, hr, reduceKeys]
    dsimp only
    rw [hrun]
    generalize hfeed : (reduceFn key).feed ((group key).map (·.value))
      (if keys.isEmpty then fail else none) = fed at hrun hleft ⊢
    obtain ⟨result, taken⟩ := fed
    dsimp only at hleft ⊢
    cases result with
    | error e => rfl
    | ok result =>
      have hlen : left.length < m := by
        have hl := congrArg List.length hleft
        rw [List.length_append, List.length_map, List.length_map] at hl
        omega
      obtain ⟨g₃, hdrain, hg₃⟩ := drain_eq hgroups.head_ne hkey hg₂ hlen
      rw [hgroups.tail.isEmpty] at hdrain
      dsimp only
      rw [hdrain]
      have hseen : ReduceEvent.called key :: taken.map (ReduceEvent.read key) ++
          (left.map (·.value)).map (ReduceEvent.read key) =
            ReduceEvent.called key :: ((group key).map (·.value)).map (ReduceEvent.read key) := by
        rw [List.cons_append, ← List.map_append, ← hleft]
      generalize (if keys.isEmpty then fail else none) = last at hdrain ⊢
      cases last with
      | some e =>
        dsimp only
        rw [hseen]
      | none =>
        dsimp only
        rw [hseen]
        cases write key result sink with
        | error e => rfl
        | ok sink =>
          dsimp only
          rw [ih hgroups.tail hg₃ sink (by omega)]
          rfl

end Reduce
end EntroQ.Eqmr
