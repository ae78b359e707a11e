import EntroQ.Foundation.CleanPath
import EntroQ.Foundation.PrefixCode
import EntroQ.Queues.Fold
import EntroQ.Queues.PathCodec

/-! # Names in a namespace

A namespace is put before a name by joining paths, and a joined path is cleaned: raw pieces that
are empty or dots go, and a dot-dot takes the piece before it along, whatever the escapes. A name
keeps its components, and the namespace its text, exactly if there are no such pieces. -/

namespace EntroQ.Queues
open Foundation Utf8

def pathJoin (elems : List GoString) : GoString := CleanPath.join (octet '/') (octet '.') elems

def tryAddNamespace (qname ns : GoString) : GoString :=
  match namespaceOf qname with
  | some _ => qname
  | none => pathJoin [text "/ns=" ++ escapeComponent ns, qname]

/-- The name with a slash at its front. -/
def slashed (q : GoString) : GoString := CleanPath.slashed (octet '/') q

/-- An empty piece, a dot or a dot-dot. -/
def special (p : GoString) : Bool := CleanPath.special (octet '.') p

theorem special_iff (p : GoString) :
    special p = true ↔ p = [] ∨ p = [octet '.'] ∨ p = [octet '.', octet '.'] := by
  simp [special, CleanPath.special]

/-- A piece with anything but dots is plain. -/
theorem special_eq_false {p : GoString} {b : UInt8} (hb : b ≠ octet '.') (hp : b ∈ p) :
    special p = false := by
  rw [← Bool.not_eq_true, special_iff]
  rintro (rfl | rfl | rfl) <;> simp [hb] at hp

/-! ## The namespace of a name -/

def firstParam (t : GoString) : GoString :=
  (Escaped.splitFrom (octet '\\') (octet ';') false
    ((Escaped.splitFrom (octet '\\') (octet '/') false t).headD [])).headD []

theorem text_ns :
    text "/ns=" = octet '/' :: text "ns=" ∧ text "ns=" = text "ns" ++ [octet '='] := by
  decide

theorem whole_ns {sep : Char} (h : octet sep ∉ text "ns=") :
    Escaped.Whole (octet '\\') (octet sep) (text "ns=") := by
  have hescape : octet '\\' ∉ text "ns=" := by decide
  apply Escaped.whole_of_plain
  intro c hc
  exact ⟨ne_of_mem_of_not_mem hc hescape, ne_of_mem_of_not_mem hc h⟩

theorem rawComponents_ns (t : GoString) :
    rawComponents (text "/ns=" ++ t) = [] :: (rawComponents t).modifyHead (text "ns=" ++ ·) := by
  rw [rawComponents, text_ns.1, List.cons_append, Escaped.splitFrom_separator,
    (whole_ns (by decide)).splitFrom_append]
  rfl

theorem unescape_ns (p : GoString) : unescape (text "ns=" ++ p) = text "ns=" ++ unescape p := by
  rw [unescape_eq, unescape_eq, text, runes_encode_append, ← encode_append]
  simp [Escaped.unescapeFrom]

theorem keyVal_sanitize (raw : GoString) : keyVal (sanitize raw) = keyVal raw := by
  rw [keyVal, unescape, runes_sanitize]
  rfl

theorem keyVal_ns (p : GoString) : keyVal (text "ns=" ++ p) = some (text "ns", unescape p) := by
  rw [keyVal, unescape_ns, text_ns.2, List.append_assoc, List.singleton_append]
  exact cut_append (by decide) _

/-- The name of a component is read from its first raw parameter. -/
theorem componentParams_ns (c : GoString) :
    ∃ ps, componentParams (text "ns=" ++ c) =
      (text "ns", unescape ((Escaped.splitFrom (octet '\\') (octet ';') false c).headD [])) :: ps := by
  have hne : Escaped.splitFrom (octet '\\') (octet ';') false c ≠ [] := Escaped.splitFrom_ne_nil c
  rw [componentParams, splitUnescaped_eq (by decide), (whole_ns (by decide)).splitFrom_append]
  cases hsplit : Escaped.splitFrom (octet '\\') (octet ';') false c with
  | nil => exact absurd hsplit hne
  | cons p ps =>
    rw [List.modifyHead_cons, List.map_cons,
      List.filterMap_cons_some ((keyVal_sanitize _).trans (keyVal_ns p))]
    exact ⟨_, rfl⟩

theorem namespaceOf_ns (t : GoString) :
    namespaceOf (text "/ns=" ++ t) = some (unescape (firstParam t)) := by
  obtain ⟨c, cs, ht⟩ := exists_rawComponents t
  obtain ⟨ps, hps⟩ := componentParams_ns c
  have hlist : paramList (text "/ns=" ++ t) = componentParams (text "ns=" ++ c) ++
      (cs.map sanitize).flatMap componentParams := by
    rw [paramList, splitUnescaped_eq (by decide), ← rawComponents, rawComponents_ns, ht,
      List.modifyHead_cons, List.map_cons, List.tail_cons, List.map_cons, List.flatMap_cons,
      componentParams_sanitize]
  have hfirst : firstParam t =
      (Escaped.splitFrom (octet '\\') (octet ';') false c).headD [] := by
    rw [firstParam, ← rawComponents, ht]
    rfl
  have hne : text "/ns=" ++ t ≠ [] := by
    rw [text_ns.1]
    exact List.cons_ne_nil _ _
  rw [namespaceOf, if_neg hne, if_neg (not_not.mpr (List.prefix_append _ _)), lookup_pathParams,
    hlist, hps, hfirst]
  simp [valuesOf, given]

theorem namespaceOf_eq_none_iff (q : GoString) : namespaceOf q = none ↔ ¬text "/ns=" <+: q := by
  constructor
  · rintro h ⟨t, rfl⟩
    rw [namespaceOf_ns] at h
    exact absurd h (by simp)
  · intro h
    rw [namespaceOf, if_pos h]
    simp

/-! ## Slashes

Each slash of a name begins a component or is part of one, so the components have as many slashes
as the name. -/

theorem unescape_sanitize (s : GoString) : unescape (sanitize s) = unescape s := by
  rw [unescape, runes_sanitize, ← unescape]

theorem count_unescape (s : GoString) :
    (unescape s).count (octet '/') = s.count (octet '/') := by
  rw [unescape_eq, count_encode (by decide), Escaped.count_unescapeFrom (by decide),
    count_runes (by decide)]

theorem rawComponents_slash (s : GoString) :
    rawComponents (octet '/' :: s) = [] :: rawComponents s := Escaped.splitFrom_separator s

section Rooted
variable {s : GoString} {cs : List GoString} (h : rawComponents s = [] :: cs)
include h

theorem pathComponents_rooted : pathComponents s = cs.map fun c => octet '/' :: unescape c := by
  by_cases hs : s = []
  · subst hs
    obtain rfl : cs = [] := (List.cons.inj h).2.symm
    rfl
  · have hempty : sanitize [] = ([] : GoString) := rfl
    rw [pathComponents, if_neg hs, splitUnescaped_eq (by decide), ← rawComponents, h, List.map_cons,
      hempty]
    simp [unescape_sanitize]

theorem count_pathComponents :
    (pathComponents s).flatten.count (octet '/') = s.count (octet '/') := by
  have hs : s = cs.flatMap (octet '/' :: ·) := by
    rw [← Escaped.join_nil_cons, ← h, rawComponents, Escaped.join_splitFrom]
  rw [pathComponents_rooted h, hs]
  clear h hs
  induction cs with
  | nil => rfl
  | cons c cs ih => simp [count_unescape, ih]

end Rooted

theorem rawComponents_slashed (q : GoString) : ∃ cs, rawComponents (slashed q) = [] :: cs := by
  cases q with
  | nil => exact ⟨[], rfl⟩
  | cons c q =>
    rw [slashed, CleanPath.slashed]
    split_ifs with hc
    · subst hc
      exact ⟨_, rawComponents_slash q⟩
    · exact ⟨_, rawComponents_slash (c :: q)⟩

/-! ## Joining -/

/-- The component of the namespace, without its slash. -/
def nsComponent (ns : GoString) : GoString := text "ns=" ++ escapeComponent ns

theorem tryAddNamespace_eq {q : GoString} (hq : namespaceOf q = none) (ns : GoString) :
    tryAddNamespace q ns =
      CleanPath.clean (octet '/') (octet '.') (octet '/' :: (nsComponent ns ++ slashed q)) := by
  rw [tryAddNamespace, hq, slashed, ← CleanPath.clean_slashed, nsComponent]
  simp [pathJoin, CleanPath.join, text_ns.1]

/-- Where a name was put in the namespace asked for and kept its components, it lost no slash. -/
theorem count_le_of_kept {r q ns : GoString} (hns : namespaceOf r = some ns)
    (htail : (pathComponents r).tail = pathComponents (slashed q)) :
    (octet '/' :: (nsComponent ns ++ slashed q)).count (octet '/') ≤ r.count (octet '/') := by
  have hr : text "/ns=" <+: r := by
    by_contra hno
    rw [(namespaceOf_eq_none_iff r).mpr hno] at hns
    exact absurd hns (by simp)
  obtain ⟨t, rfl⟩ := hr
  obtain ⟨c, cs, ht⟩ := exists_rawComponents t
  obtain ⟨ds, hds⟩ := rawComponents_slashed q
  have hraw : rawComponents (text "/ns=" ++ t) = [] :: (text "ns=" ++ c) :: cs := by
    rw [rawComponents_ns, ht, List.modifyHead_cons]
  have hfirst : ns.count (octet '/') ≤ c.count (octet '/') := by
    rw [namespaceOf_ns, Option.some.injEq] at hns
    rw [← hns, count_unescape, firstParam, ← rawComponents, ht]
    exact (Escaped.headD_splitFrom_prefix c).sublist.count_le _
  have hescape : (escapeComponent ns).count (octet '/') = ns.count (octet '/') :=
    Escaped.count_escape (by decide) ns
  have hq := count_pathComponents hds
  have hcount := count_pathComponents hraw
  rw [pathComponents_rooted hraw, List.map_cons, List.tail_cons] at htail
  rw [pathComponents_rooted hraw, List.map_cons, htail, List.flatten_cons, List.count_append, hq,
    List.count_cons_self, count_unescape, List.count_append] at hcount
  rw [← hcount, nsComponent, List.count_cons_self, List.count_append, List.count_append, hescape]
  omega

theorem plain_of_kept {q ns : GoString} (hq : namespaceOf q = none)
    (hns : namespaceOf (tryAddNamespace q ns) = some ns)
    (htail : (pathComponents (tryAddNamespace q ns)).tail = pathComponents (slashed q)) :
    ∀ p ∈ (nsComponent ns ++ slashed q).splitOn (octet '/'), special p = false := by
  have hle := count_le_of_kept hns htail
  rw [tryAddNamespace_eq hq] at hle
  by_contra hspecial
  simp only [not_forall, Bool.not_eq_false] at hspecial
  obtain ⟨p, hp, hspecial⟩ := hspecial
  by_cases hlen : 1 < ((nsComponent ns ++ slashed q).splitOn (octet '/')).length
  · exact absurd (CleanPath.count_clean_lt hlen ⟨p, hp, hspecial⟩) (not_lt.mpr hle)
  · -- a single piece is the component of the namespace
    have hone : (nsComponent ns ++ slashed q).splitOn (octet '/') = [p] := by
      cases hpieces : (nsComponent ns ++ slashed q).splitOn (octet '/') with
      | nil => exact absurd hpieces (List.splitOn_ne_nil _ _)
      | cons a l =>
        rw [hpieces] at hp hlen
        obtain rfl : l = [] := by
          rw [List.length_cons] at hlen
          exact List.eq_nil_of_length_eq_zero (by omega)
        rw [List.mem_singleton.mp hp]
    have hjoin : [octet '/'].intercalate [p] = nsComponent ns ++ slashed q := by
      rw [← hone, List.intercalate_splitOn]
    rw [List.intercalate_singleton] at hjoin
    have hns : octet 'n' ∈ nsComponent ns ++ slashed q := by
      simp [nsComponent, show octet 'n' ∈ text "ns=" by decide]
    rw [hjoin, special_eq_false (by decide) hns] at hspecial
    exact absurd hspecial (by decide)

theorem kept_of_plain {q ns : GoString} (hq : namespaceOf q = none) (hvalid : Valid ns)
    (hplain : ∀ p ∈ (nsComponent ns ++ slashed q).splitOn (octet '/'), special p = false) :
    namespaceOf (tryAddNamespace q ns) = some ns ∧
      (pathComponents (tryAddNamespace q ns)).tail = pathComponents (slashed q) := by
  obtain ⟨ds, hds⟩ := rawComponents_slashed q
  have hwhole : Escaped.Whole (octet '\\') (octet '/') (escapeComponent ns) :=
    whole_escapeComponent (by decide) (by decide) ns
  have hraw : rawComponents (escapeComponent ns ++ slashed q) = escapeComponent ns :: ds := by
    rw [rawComponents, hwhole.splitFrom_append, ← rawComponents, hds, List.modifyHead_cons,
      List.append_nil]
  have hadd : tryAddNamespace q ns = text "/ns=" ++ (escapeComponent ns ++ slashed q) := by
    rw [tryAddNamespace_eq hq, CleanPath.clean_of_plain hplain, nsComponent, text_ns.1,
      List.cons_append, List.append_assoc]
  constructor
  · have hfirst : firstParam (escapeComponent ns ++ slashed q) = escapeComponent ns := by
      have hsemi : Escaped.Whole (octet '\\') (octet ';') (escapeComponent ns) :=
        whole_escapeComponent (by decide) (by decide) ns
      have hsplit := hsemi.splitFrom_append []
      rw [List.append_nil] at hsplit
      rw [firstParam, ← rawComponents, hraw, List.headD_cons, hsplit]
      simp [Escaped.splitFrom]
    rw [hadd, namespaceOf_ns, hfirst, unescape_escapeComponent hvalid]
  · have hrooted : rawComponents (text "/ns=" ++ (escapeComponent ns ++ slashed q)) =
        [] :: (text "ns=" ++ escapeComponent ns) :: ds := by
      rw [rawComponents_ns, hraw, List.modifyHead_cons]
    rw [hadd, pathComponents_rooted hrooted, pathComponents_rooted hds, List.map_cons,
      List.tail_cons]

/-! ## Pieces of the namespace -/

theorem special_escapeComponent (d : GoString) : special (escapeComponent d) = special d := by
  have hinj : Function.Injective escapeComponent := Escaped.escape_injective (by decide)
  have hsame : ∀ x ∈ [[], [octet '.'], [octet '.', octet '.']],
      (escapeComponent d = x ↔ d = x) := by
    intro x hx
    have hx : escapeComponent x = x := by
      revert x
      decide
    have hiff : escapeComponent d = escapeComponent x ↔ d = x := hinj.eq_iff
    rwa [hx] at hiff
  rw [Bool.eq_iff_iff, special_iff, special_iff, hsame _ (by simp), hsame _ (by simp),
    hsame _ (by simp)]

/-- A slash of the namespace is behind a backslash. -/
theorem plain_before_slash (a : GoString) {x : GoString} (hx : octet '/' ∉ x) :
    ∀ p ∈ (x ++ (escapeComponent a ++ [octet '\\'])).splitOn (octet '/'), special p = false := by
  have hend {y : GoString} (hy : octet '/' ∉ y) :
      ∀ p ∈ (y ++ [octet '\\']).splitOn (octet '/'), special p = false := by
    have hno : octet '/' ∉ y ++ [octet '\\'] := by
      simp [hy, show octet '/' ≠ octet '\\' by decide]
    rw [List.splitOn_eq_singleton hno]
    intro p hp
    rw [List.mem_singleton.mp hp]
    exact special_eq_false (show octet '\\' ≠ octet '.' by decide) (by simp)
  induction a generalizing x with
  | nil => exact hend hx
  | cons c a ih =>
    rw [escapeComponent, Escaped.escape_cons, ← escapeComponent]
    by_cases hc : c = octet '/'
    · rw [hc, if_pos (by decide)]
      have hcut : x ++ ([octet '\\', octet '/'] ++ escapeComponent a ++ [octet '\\']) =
          (x ++ [octet '\\']) ++ octet '/' :: ([] ++ (escapeComponent a ++ [octet '\\'])) := by
        simp
      rw [hcut, List.splitOn_append_cons_self]
      intro p hp
      rcases List.mem_append.mp hp with hp | hp
      · exact hend hx p hp
      · exact ih (by simp) p hp
    · have hx' : octet '/' ∉ x ++ if structural c = true then [octet '\\', c] else [c] := by
        split_ifs <;> simp [hx, Ne.symm hc, show octet '/' ≠ octet '\\' by decide]
      have hassoc := ih hx'
      rwa [List.append_assoc, ← List.append_assoc (if structural c = true then _ else _)] at hassoc

theorem slash_notMem_escapeComponent {d : GoString} (hd : octet '/' ∉ d) :
    octet '/' ∉ escapeComponent d := by
  rw [← List.count_eq_zero] at hd ⊢
  rw [← hd]
  exact Escaped.count_escape (by decide) d

theorem slash_notMem_of_special {d : GoString} (hd : special d = true) : octet '/' ∉ d := by
  intro h
  rw [special_eq_false (by decide) h] at hd
  exact absurd hd (by decide)

theorem exists_last_slash {s : GoString} (h : octet '/' ∈ s) :
    ∃ a d, s = a ++ octet '/' :: d ∧ octet '/' ∉ d := by
  obtain ⟨d, a, hs, hd⟩ := List.eq_append_cons_of_mem (List.mem_reverse.mpr h)
  refine ⟨a.reverse, d.reverse, ?_, by simpa using hd⟩
  rw [← List.reverse_inj, hs]
  simp

theorem suffix_slash_iff {a d d' : GoString} (hd : octet '/' ∉ d) (hd' : octet '/' ∉ d') :
    octet '/' :: d' <:+ a ++ octet '/' :: d ↔ d' = d := by
  constructor
  · rintro ⟨b, hb⟩
    have hrev := congrArg List.reverse hb
    simp only [List.reverse_append, List.reverse_cons, List.append_assoc,
      List.singleton_append] at hrev
    exact List.reverse_inj.mp
      (append_separator_inj (by simpa using hd') (by simpa using hd) hrev).1
  · rintro rfl
    exact ⟨a, rfl⟩

/-- The pieces of the namespace are plain, unless what follows its last slash is not. -/
theorem nsComponent_plain_iff (ns : GoString) :
    (∀ p ∈ (nsComponent ns).splitOn (octet '/'), special p = false) ↔
      ∀ d, special d = true → ¬octet '/' :: d <:+ ns := by
  by_cases hslash : octet '/' ∈ ns
  · obtain ⟨a, d, rfl, hd⟩ := exists_last_slash hslash
    have hns : nsComponent (a ++ octet '/' :: d) =
        (text "ns=" ++ (escapeComponent a ++ [octet '\\'])) ++ octet '/' :: escapeComponent d := by
      rw [nsComponent, escapeComponent, Escaped.escape_append, Escaped.escape_cons,
        if_pos (by decide)]
      simp [escapeComponent]
    rw [hns, List.splitOn_append_cons_self,
      List.splitOn_eq_singleton (slash_notMem_escapeComponent hd), List.forall_mem_append]
    rw [and_iff_right (plain_before_slash a (by decide))]
    simp only [List.mem_singleton, forall_eq, special_escapeComponent]
    constructor
    · intro hplain d' hd' hsuffix
      rw [(suffix_slash_iff hd (slash_notMem_of_special hd')).mp hsuffix, hplain] at hd'
      exact absurd hd' (by decide)
    · intro h
      rw [← Bool.not_eq_true]
      intro hspecial
      exact h d hspecial ((suffix_slash_iff hd hd).mpr rfl)
  · have hno : octet '/' ∉ nsComponent ns := by
      simp [nsComponent, slash_notMem_escapeComponent hslash,
        show octet '/' ∉ text "ns=" by decide]
    rw [List.splitOn_eq_singleton hno]
    apply iff_of_true
    · intro p hp
      rw [List.mem_singleton.mp hp]
      exact special_eq_false (show octet 'n' ≠ octet '.' by decide)
        (List.mem_append_left _ (by decide))
    · rintro d - ⟨b, rfl⟩
      exact hslash (by simp)

/-- The pieces of a name between its slashes, escaped ones too. -/
def rawPieces (q : GoString) : List GoString := CleanPath.follows (octet '/') q

/-- A name is put in the namespace, keeps its components and is left alone from then on exactly if
the namespace is UTF-8 and does not end in a slash with an empty piece or dots, and no raw piece of
the name is empty or dots. -/
theorem tryAddNamespace_iff {q : GoString} (hq : namespaceOf q = none) (ns : GoString) :
    (namespaceOf (tryAddNamespace q ns) = some ns ∧
        (pathComponents (tryAddNamespace q ns)).tail = pathComponents (slashed q) ∧
        ∀ ns', tryAddNamespace (tryAddNamespace q ns) ns' = tryAddNamespace q ns) ↔
      Valid ns ∧ (∀ d, special d = true → ¬octet '/' :: d <:+ ns) ∧
        ∀ p ∈ rawPieces q, special p = false := by
  rw [← nsComponent_plain_iff, ← List.forall_mem_append, rawPieces, ← CleanPath.splitOn_slashed,
    ← slashed]
  constructor
  · rintro ⟨hns, htail, -⟩
    refine ⟨?_, plain_of_kept hq hns htail⟩
    have hr : text "/ns=" <+: tryAddNamespace q ns := by
      by_contra hno
      rw [(namespaceOf_eq_none_iff _).mpr hno] at hns
      exact absurd hns (by simp)
    obtain ⟨t, ht⟩ := hr
    rw [← ht, namespaceOf_ns, Option.some.injEq] at hns
    rw [← hns, unescape_eq]
    exact valid_encode _
  · rintro ⟨hvalid, hplain⟩
    obtain ⟨hns, htail⟩ := kept_of_plain hq hvalid hplain
    refine ⟨hns, htail, fun ns' => ?_⟩
    rw [tryAddNamespace, hns]

theorem tryAddNamespace_iff_plain :
    namespaceOf (text "jobs/a;b") = none ∧
      namespaceOf (tryAddNamespace (text "jobs/a;b") (text "t;1/é")) = some (text "t;1/é") := by
  refine ⟨by decide, ?_⟩
  refine ((tryAddNamespace_iff (by decide : namespaceOf (text "jobs/a;b") = none)
    (text "t;1/é")).mpr ⟨by decide, ?_, by decide⟩).1
  intro d hd
  rcases (special_iff d).mp hd with rfl | rfl | rfl <;> decide

/-- A name leaves the namespace it is put in. -/
theorem tryAddNamespace_escapes :
    tryAddNamespace (text "../ns=b/x") (text "a") = text "/ns=b/x" ∧
      namespaceOf (text "../ns=b/x") = none ∧
      namespaceOf (tryAddNamespace (text "../ns=b/x") (text "a")) = some (text "b") := by
  decide

end EntroQ.Queues
