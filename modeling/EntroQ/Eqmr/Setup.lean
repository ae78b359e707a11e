import EntroQ.Eqmr.RunCodec
import EntroQ.Eqmr.System

/-! # Setting up a run

A call stages the docs of its splits in batches and then creates the run and its map tasks in one
Modify. It may be cut off after any of its Modifies and made again, with what the source lists then.
A batch that fails because docs of it are there is taken to be there whole. -/

namespace EntroQ.Eqmr
open Foundation

structure Descriptor where
  name : String
  driver : String
  identity : String
  deriving DecidableEq

/-- Given what is wrong with a text of that name, if anything. -/
def Descriptor.validate (validText : String → String → Option Text) (d : Descriptor) :
    Option Text :=
  [("name", d.name), ("driver", d.driver), ("identity", d.identity)].findSome? fun (what, val) =>
    if val = "" then some ⟨"descriptor %s is required", [.str what]⟩
    else validText ("descriptor " ++ what) val

/-- What tells a run from another. -/
structure Wanted where
  mapShards : ℤ
  reduceParts : ℤ
  source : Descriptor
  store : Descriptor
  sink : Descriptor
  deriving DecidableEq

/-- The value of a map task. -/
structure MapRef where
  key : String
  reduceShards : ℤ
  source : Descriptor
  store : Descriptor
  deriving DecidableEq

/-- What a prefix holds: the run with its number of splits, the split docs by the number in their
ID, and the map tasks. -/
structure Prefixed (σ : Type) where
  run : Option (Wanted × ℕ) := none
  splits : ℕ → Option σ := fun _ => none
  mapTasks : List MapRef := []

/-- A call, with what the source lists, if it can, and the number of Modifies it comes to make. -/
structure SetupCall (σ : Type) where
  want : Wanted
  listed : Except Text (List σ)
  modifies : ℕ

inductive SetupError
  | text (t : Text)
  | wrapped (format : String) (t : Text)
  | cutOff

def batchSize : ℕ := 250

section Setup
variable {σ : Type}

/-- The docs of each flush, from the `i`th split on. -/
def batches (i : ℕ) (staged : List (σ × ℕ)) : List σ → List (List (σ × ℕ))
  | [] => if staged.isEmpty then [] else [staged]
  | split :: splits =>
    let staged := staged ++ [(split, i)]
    if batchSize ≤ staged.length then staged :: batches (i + 1) [] splits
    else batches (i + 1) staged splits

/-- A flush, whose Modify puts all of the docs or fails. One that fails on colliding IDs is passed
over. -/
def Prefixed.flush (s : Prefixed σ) (staged : List (σ × ℕ)) : Prefixed σ :=
  if staged.any fun x => (s.splits x.2).isSome then s
  else { s with splits := fun i => ((staged.find? (·.2 = i)).map Prod.fst).or (s.splits i) }

def Wanted.mapRef (want : Wanted) (i : ℕ) : MapRef where
  key := splitDocKey i
  reduceShards := want.reduceParts
  source := want.source
  store := want.store

def Prefixed.start (s : Prefixed σ) (want : Wanted) (splits : ℕ) : Prefixed σ :=
  { s with
    run := some (want, splits)
    mapTasks := s.mapTasks ++ (List.range splits).map want.mapRef }

variable (validText : String → String → Option Text) (runPrefix : String)

def Prefixed.setup (s : Prefixed σ) (c : SetupCall σ) : Prefixed σ × Except SetupError Unit :=
  if c.want.reduceParts ≤ 0 then
    (s, .error (.text ⟨"eqmr setup: ReduceShards must be set with WithReduceShards; it fixes the " ++
      "document layout when the map phase writes its output", []⟩))
  else if let some e := c.want.source.validate validText then
    (s, .error (.wrapped "eqmr setup source: %w" e))
  else if let some e := c.want.store.validate validText then
    (s, .error (.wrapped "eqmr setup: %w" e))
  else if let some e := c.want.sink.validate validText then
    (s, .error (.wrapped "eqmr setup sink: %w" e))
  else match s.run with
  | some (st, _) =>
    if st = c.want then (s, .ok ())
    else (s, .error (.text ⟨"eqmr setup: prefix %q already holds a different run", [.str runPrefix]⟩))
  | none =>
    match c.listed with
    | .error e => (s, .error (.wrapped "eqmr setup: list splits: %w" e))
    | .ok [] => (s, .error (.text ⟨"eqmr setup: no input", []⟩))
    | .ok splits =>
      let flushes := batches 0 [] splits
      let s := (flushes.take c.modifies).foldl Prefixed.flush s
      if c.modifies ≤ flushes.length then (s, .error .cutOff)
      else (s.start c.want splits.length, .ok ())

def setups (calls : List (SetupCall σ)) : Prefixed σ :=
  after (fun s c => (s.setup validText runPrefix c).1) {} calls

structure Prefixed.SetUpFor (s : Prefixed σ) (want : Wanted) (splits : List σ) : Prop where
  docs : ∀ i, s.splits i = splits[i]?
  tasks : s.mapTasks = (List.range splits.length).map want.mapRef

/-- Of the docs of each batch none is there, or all are and with the contents of the list; and there
are none besides. -/
structure Prefixed.Clear (s : Prefixed σ) (splits : List σ) : Prop where
  batch : ∀ b, (∀ i < splits.length, i / batchSize = b → s.splits i = none) ∨
    ∀ i < splits.length, i / batchSize = b → s.splits i = splits[i]?
  besides : ∀ i, splits.length ≤ i → s.splits i = none

/-! ## What the batches leave -/

theorem flush_splits (s : Prefixed σ) (staged : List (σ × ℕ)) (j : ℕ) :
    (s.flush staged).splits j =
      if ∃ y ∈ staged, (s.splits y.2).isSome then s.splits j
      else ((staged.find? (·.2 = j)).map Prod.fst).or (s.splits j) := by
  unfold Prefixed.flush
  simp only [List.any_eq_true]
  split_ifs <;> rfl

theorem find_other {l : List (σ × ℕ)} {j : ℕ} (h : ∀ y ∈ l, y.2 / batchSize ≠ j / batchSize) :
    l.find? (·.2 = j) = none :=
  List.find?_eq_none.mpr fun y hy => by simpa using fun he => h y hy (by rw [he])

theorem flush_splits_other (s : Prefixed σ) {staged : List (σ × ℕ)} {j : ℕ}
    (h : ∀ y ∈ staged, y.2 / batchSize ≠ j / batchSize) :
    (s.flush staged).splits j = s.splits j := by
  rw [flush_splits, find_other h]
  simp

/-- Nothing of a batch is put if any of it is there, and else all of it is. -/
theorem batches_splits (s : Prefixed σ) (splits : List σ) {i : ℕ} {staged : List (σ × ℕ)}
    (hlen : staged.length = i % batchSize) (hst : ∀ y ∈ staged, y.2 / batchSize = i / batchSize)
    (j : ℕ) :
    ((batches i staged splits).foldl Prefixed.flush s).splits j =
      if ∃ y ∈ staged ++ splits.zipIdx i,
          y.2 / batchSize = j / batchSize ∧ (s.splits y.2).isSome then s.splits j
      else (((staged ++ splits.zipIdx i).find? (·.2 = j)).map Prod.fst).or (s.splits j) := by
  induction splits generalizing i staged s with
  | nil =>
    have hone : (batches i staged []).foldl Prefixed.flush s = s.flush staged := by
      cases staged <;> rfl
    rw [hone, List.zipIdx_nil, List.append_nil]
    by_cases hj : i / batchSize = j / batchSize
    · rw [flush_splits]
      refine if_congr (exists_congr fun y => and_congr_right fun hy => ?_) rfl rfl
      simp [hst y hy, hj]
    · have hne : ∀ y ∈ staged, y.2 / batchSize ≠ j / batchSize := fun y hy => (hst y hy) ▸ hj
      rw [flush_splits_other s hne, find_other hne]
      simp
  | cons split splits ih =>
    have hin : ∀ y ∈ staged ++ [(split, i)], y.2 / batchSize = i / batchSize := by
      intro y hy
      rcases List.mem_append.mp hy with hy | hy
      · exact hst y hy
      · rw [List.mem_singleton.mp hy]
    have hall : staged ++ (split :: splits).zipIdx i =
        (staged ++ [(split, i)]) ++ splits.zipIdx (i + 1) := by
      rw [List.zipIdx_cons, List.append_assoc]
      rfl
    rw [hall, batches]
    have hl : (staged ++ [(split, i)]).length = i % batchSize + 1 := by simp [hlen]
    by_cases hfull : batchSize ≤ (staged ++ [(split, i)]).length
    · -- the batch is full, and the next is of splits that come after it
      have hnext : (i + 1) % batchSize = 0 ∧ (i + 1) / batchSize = i / batchSize + 1 := by
        simp only [batchSize] at hl hfull ⊢
        omega
      have hlater : ∀ y ∈ splits.zipIdx (i + 1), i / batchSize < y.2 / batchSize := by
        intro y hy
        have hle := Nat.div_le_div_right (c := batchSize) (List.le_snd_of_mem_zipIdx hy)
        omega
      rw [if_pos hfull]
      generalize staged ++ [(split, i)] = full at hin
      rw [List.foldl_cons, ih (s.flush full) (by simp [hnext.1]) (by simp), List.nil_append]
      by_cases hj : i / batchSize = j / batchSize
      · have hno : ∀ y ∈ splits.zipIdx (i + 1), y.2 / batchSize ≠ j / batchSize := fun y hy =>
          hj ▸ (hlater y hy).ne'
        rw [if_neg fun ⟨y, hy, he, _⟩ => hno y hy he, find_other hno, List.find?_append, find_other hno,
          flush_splits]
        refine (Option.none_or ..).trans (if_congr ⟨?_, ?_⟩ rfl (by simp))
        · rintro ⟨y, hy, hs⟩
          exact ⟨y, List.mem_append_left _ hy, (hin y hy).trans hj, hs⟩
        · rintro ⟨y, hy, he, hs⟩
          rcases List.mem_append.mp hy with hy | hy
          · exact ⟨y, hy, hs⟩
          · exact absurd he (hno y hy)
      · have hother : ∀ k, k / batchSize = j / batchSize → (s.flush full).splits k = s.splits k :=
          fun k hk => flush_splits_other s fun y hy => (hin y hy) ▸ hk ▸ hj
        have hno : ∀ y ∈ full, y.2 / batchSize ≠ j / batchSize := fun y hy => (hin y hy) ▸ hj
        rw [hother j rfl, List.find?_append, find_other hno, Option.none_or]
        refine if_congr ⟨?_, ?_⟩ rfl rfl
        · rintro ⟨y, hy, he, hs⟩
          exact ⟨y, List.mem_append_right _ hy, he, hother _ he ▸ hs⟩
        · rintro ⟨y, hy, he, hs⟩
          rcases List.mem_append.mp hy with hy | hy
          · exact absurd he (hno y hy)
          · exact ⟨y, hy, he, (hother _ he).symm ▸ hs⟩
    · rw [if_neg hfull]
      have hnext : (i + 1) % batchSize = i % batchSize + 1 ∧ (i + 1) / batchSize = i / batchSize := by
        simp only [batchSize] at hl hfull ⊢
        omega
      exact ih s (hl.trans hnext.1.symm) fun y hy => (hin y hy).trans hnext.2.symm

theorem find_zipIdx (splits : List σ) (j : ℕ) :
    (splits.zipIdx.find? (·.2 = j)).map Prod.fst = splits[j]? := by
  cases hf : splits.zipIdx.find? (·.2 = j) with
  | some y =>
    have hj : y.2 = j := by simpa using List.find?_some hf
    exact hj ▸ (List.mem_zipIdx_iff_getElem?.mp (List.mem_of_find?_eq_some hf)).symm
  | none =>
    symm
    by_contra hne
    obtain ⟨v, hv⟩ := Option.ne_none_iff_exists'.mp hne
    simpa using List.find?_eq_none.mp hf (v, j) (List.mem_zipIdx_iff_getElem?.mpr hv)

theorem batches_leave (s : Prefixed σ) (splits : List σ) (j : ℕ) :
    ((batches 0 [] splits).foldl Prefixed.flush s).splits j =
      if ∃ i < splits.length, i / batchSize = j / batchSize ∧ (s.splits i).isSome then s.splits j
      else splits[j]?.or (s.splits j) := by
  rw [batches_splits s splits rfl (by simp), List.nil_append, find_zipIdx]
  refine if_congr ⟨?_, ?_⟩ rfl rfl
  · rintro ⟨y, hy, h⟩
    exact ⟨y.2, List.snd_lt_of_mem_zipIdx hy, h⟩
  · rintro ⟨i, hi, h⟩
    exact ⟨(splits[i], i), List.mem_zipIdx_iff_getElem?.mpr (List.getElem?_eq_getElem hi), h⟩

/-- The batches leave the docs of the list exactly if the store was clear for it. -/
theorem batches_exact_iff (s : Prefixed σ) (splits : List σ) :
    (∀ j, ((batches 0 [] splits).foldl Prefixed.flush s).splits j = splits[j]?) ↔
      s.Clear splits := by
  simp only [batches_leave]
  constructor
  · intro h
    refine ⟨fun b => ?_, fun i hi => ?_⟩
    · by_cases hb : ∃ i < splits.length, i / batchSize = b ∧ (s.splits i).isSome
      · refine .inr fun i hi he => ?_
        have hi := h i
        rwa [he, if_pos hb] at hi
      · refine .inl fun i hi he => ?_
        simpa using fun hs => hb ⟨i, hi, he, hs⟩
    · have hj := h i
      rw [List.getElem?_eq_none hi, Option.none_or, ite_self] at hj
      exact hj
  · rintro ⟨hbatch, hbesides⟩ j
    split_ifs with hb
    · obtain ⟨i, hi, he, hs⟩ := hb
      rcases Nat.lt_or_ge j splits.length with hj | hj
      · rcases hbatch (j / batchSize) with h | h
        · rw [h i hi he] at hs
          cases hs
        · exact h j hj rfl
      · rw [hbesides j hj, List.getElem?_eq_none hj]
    · rcases Nat.lt_or_ge j splits.length with hj | hj
      · rw [List.getElem?_eq_getElem hj, Option.some_or]
      · rw [hbesides j hj, Option.or_none]

/-! ## Calls -/

variable {validText runPrefix}

theorem flush_run (l : List (List (σ × ℕ))) (s : Prefixed σ) :
    (l.foldl Prefixed.flush s).run = s.run ∧
      (l.foldl Prefixed.flush s).mapTasks = s.mapTasks := by
  induction l generalizing s with
  | nil => exact ⟨rfl, rfl⟩
  | cons staged l ih =>
    obtain ⟨hrun, htasks⟩ := ih (s.flush staged)
    rw [List.foldl_cons, hrun, htasks, Prefixed.flush]
    split_ifs <;> exact ⟨rfl, rfl⟩

/-- A call creates no run, or stages all of its batches and creates it. -/
theorem setup_cases (s : Prefixed σ) (c : SetupCall σ) :
    (s.setup validText runPrefix c).1.run = s.run ∧
        (s.setup validText runPrefix c).1.mapTasks = s.mapTasks ∨
      s.run = none ∧ ∃ splits, c.listed = .ok splits ∧ (s.setup validText runPrefix c).1 =
        ((batches 0 [] splits).foldl Prefixed.flush s).start c.want splits.length := by
  unfold Prefixed.setup
  iterate 4
    split
    · exact .inl ⟨rfl, rfl⟩
  split
  · split <;> exact .inl ⟨rfl, rfl⟩
  next hrun =>
  split
  · exact .inl ⟨rfl, rfl⟩
  · exact .inl ⟨rfl, rfl⟩
  next splits _ hlist =>
  dsimp only
  split
  · exact .inl (flush_run _ s)
  next hall =>
  rw [List.take_of_length_le (Nat.le_of_not_le hall)]
  exact .inr ⟨hrun, splits, hlist, rfl⟩

theorem setups_noTasks (calls : List (SetupCall σ))
    (h : (setups validText runPrefix calls).run = none) :
    (setups validText runPrefix calls).mapTasks = [] := by
  refine after_invariant (I := fun s : Prefixed σ => s.run = none → s.mapTasks = [])
    (fun s c hs h => ?_) (fun _ => rfl) calls h
  rcases setup_cases s c with ⟨hrun, htasks⟩ | ⟨-, splits, -, he⟩
  · exact htasks.trans (hs (hrun.symm.trans h))
  · rw [he] at h
    cases h

end Setup

/-- The call that creates a run leaves the docs and the map tasks of its splits exactly if calls
before it left, of each of its batches, nothing or all of it, and nothing besides. -/
theorem setUpFor_iff {σ : Type} (validText : String → String → Option Text) (runPrefix : String)
    (calls : List (SetupCall σ)) (call : SetupCall σ) (splits : List σ)
    (hlist : call.listed = .ok splits) (hnew : (setups validText runPrefix calls).run = none)
    (hcreates : (setups validText runPrefix (calls ++ [call])).run ≠ none) :
    (setups validText runPrefix (calls ++ [call])).SetUpFor call.want splits ↔
      (setups validText runPrefix calls).Clear splits := by
  have hone : setups validText runPrefix (calls ++ [call]) =
      ((setups validText runPrefix calls).setup validText runPrefix call).1 := after_append ..
  rw [hone] at hcreates ⊢
  have htasks := setups_noTasks calls hnew
  generalize setups validText runPrefix calls = s at *
  rcases setup_cases s call with ⟨hrun, -⟩ | ⟨-, splits', hlist', he⟩
  · exact absurd (hrun.trans hnew) hcreates
  · cases hlist.symm.trans hlist'
    rw [he, ← batches_exact_iff]
    refine ⟨fun h => h.docs, fun h => ⟨h, ?_⟩⟩
    change (List.foldl _ s _).mapTasks ++ _ = _
    rw [(flush_run _ s).2, htasks, List.nil_append]

def wantedRun : Wanted where
  mapShards := 0
  reduceParts := 1
  source := ⟨"in", "source", "files"⟩
  store := ⟨"mid", "store", "docs"⟩
  sink := ⟨"out", "sink", "docs"⟩

/-- The source lists one split, and the call is cut off when its doc is staged. -/
def abandoned : SetupCall String := { want := wantedRun, listed := .ok ["a"], modifies := 1 }

def relaunched : SetupCall String := { want := wantedRun, listed := .ok ["b", "c"], modifies := 2 }

/-- The run has the first call's split in place of its first, and none in place of its second. -/
theorem relaunched_notSetUp :
    (setups (fun _ _ => none) "p" [abandoned]).run = none ∧
      (setups (fun _ _ => none) "p" [abandoned, relaunched]).run = some (wantedRun, 2) ∧
      (setups (fun _ _ => none) "p" [abandoned, relaunched]).splits 0 = some "a" ∧
      (setups (fun _ _ => none) "p" [abandoned, relaunched]).splits 1 = none ∧
      (setups (fun _ _ => none) "p" [abandoned, relaunched]).mapTasks.map MapRef.key =
        ["split/000000", "split/000001"] ∧
      ¬(setups (fun _ _ => none) "p" [abandoned, relaunched]).SetUpFor wantedRun ["b", "c"] := by
  have hfirst : (setups (fun _ _ => none) "p" [abandoned, relaunched]).splits 0 = some "a" := by
    decide
  refine ⟨by decide, by decide, hfirst, by decide, by decide, fun h => ?_⟩
  rw [h.docs 0] at hfirst
  exact absurd hfirst (by decide)

/-- Cut off with its docs staged, and launched again with the same list. -/
theorem setUpFor_iff_resumed :
    (setups (fun _ _ => none) "p" [{ relaunched with modifies := 1 }, relaunched]).SetUpFor
      wantedRun ["b", "c"] := by
  have hdocs : ∀ i, (setups (fun _ _ => none) "p" [{ relaunched with modifies := 1 }]).splits i =
      ["b", "c"][i]? :=
    (batches_exact_iff {} ["b", "c"]).mpr ⟨fun _ => .inl fun _ _ _ => rfl, fun _ _ => rfl⟩
  refine (setUpFor_iff (fun _ _ => none) "p" [_] relaunched ["b", "c"] rfl (by decide)
    (by decide)).mpr ⟨fun _ => .inr fun i _ _ => hdocs i, fun i hi => ?_⟩
  rw [hdocs, List.getElem?_eq_none hi]

end EntroQ.Eqmr
