import EntroQ.Queues.Path

/-! # Folding a parameter

Folding a key replaces the components that have a parameter with it. The components are those of
the octets, cut at the slashes that are not escaped; a component that is kept is written rune by
rune, so its octets stay the same exactly if they are UTF-8. -/

namespace EntroQ.Queues
open Foundation Utf8

def rawComponents (path : GoString) : List GoString :=
  Escaped.splitFrom (octet '\\') (octet '/') false path

def carries (key component : GoString) : Bool :=
  decide (key ∈ (componentParams component).map Prod.fst)

/-- Components behind a slash that have the key are replaced, the others kept. -/
def folded (key : GoString) : List GoString → List GoString
  | [] => []
  | first :: rest => first :: rest.map fun c => if carries key c then text "*" else c

/-- The components without those that are replaced. -/
def unfolded (key : GoString) : List GoString → List GoString
  | [] => []
  | first :: rest => first :: rest.filter fun c => !carries key c

theorem splitUnescaped_sanitize (s : GoString) (separator : Char) :
    splitUnescaped (sanitize s) separator = splitUnescaped s separator := by
  unfold splitUnescaped
  rw [runes_sanitize]

theorem componentParams_sanitize (c : GoString) :
    componentParams (sanitize c) = componentParams c := by
  rw [componentParams, splitUnescaped_sanitize, ← componentParams]

theorem carries_sanitize (key c : GoString) : carries key (sanitize c) = carries key c := by
  rw [carries, componentParams_sanitize, ← carries]

theorem foldComponent_eq_carries (key c : GoString) :
    foldComponent key c = if carries key c then text "*" else c := by
  rw [foldComponent_eq, carries]
  simp only [decide_eq_true_eq]

theorem carries_foldComponent (key c : GoString) : carries key (foldComponent key c) = false := by
  rw [foldComponent_eq_carries]
  split_ifs with h
  · rfl
  · simpa using h

theorem foldComponent_of_carries {key c : GoString} (h : carries key c = false) :
    foldComponent key c = c := by
  rw [foldComponent_eq_carries, h]
  rfl

theorem valid_foldComponent (key c : GoString) : Valid (foldComponent key (sanitize c)) := by
  rw [foldComponent_eq_carries]
  split_ifs
  · exact valid_encode _
  · exact valid_sanitize c

theorem foldComponent_again (key c : GoString) :
    foldComponent key (sanitize (foldComponent key (sanitize c))) =
      foldComponent key (sanitize c) := by
  rw [show sanitize _ = foldComponent key (sanitize c) from valid_foldComponent key c]
  exact foldComponent_of_carries (carries_foldComponent key _)

theorem valuesOf_eq_nil {key : GoString} {ps : List (GoString × GoString)}
    (h : key ∉ ps.map Prod.fst) : valuesOf key ps = [] := by
  rw [valuesOf, List.map_eq_nil_iff, List.filter_eq_nil_iff]
  intro p hp heq
  exact h (List.mem_map.mpr ⟨p, hp, of_decide_eq_true heq⟩)

theorem exists_rawComponents (path : GoString) :
    ∃ first rest, rawComponents path = first :: rest :=
  List.exists_cons_of_ne_nil (Escaped.splitFrom_ne_nil path)

section Fold
variable {path key first : GoString} {rest : List GoString}
  (h : rawComponents path = first :: rest)
include h

theorem foldPathParam_eq :
    foldPathParam path key =
      [octet '/'].intercalate
        (sanitize first :: rest.map fun c => foldComponent key (sanitize c)) := by
  have hsplit : splitUnescaped path '/' = sanitize first :: rest.map sanitize := by
    rw [splitUnescaped_eq (by decide), ← rawComponents, h, List.map_cons]
  rw [foldPathParam, hsplit]
  simp only [List.map_map, Function.comp_def]

theorem rawComponents_foldPathParam :
    rawComponents (foldPathParam path key) =
      sanitize first :: rest.map fun c => foldComponent key (sanitize c) := by
  have hparts : Escaped.Parts (octet '\\') (octet '/') false (first :: rest) := by
    rw [← h]
    exact Escaped.parts_splitFrom path
  have hsane := parts_sanitize (by decide) (by decide) hparts
  rw [List.map_cons] at hsane
  have hfold : ∀ c, foldComponent key c = c ∨
      Escaped.Whole (octet '\\') (octet '/') (foldComponent key c) := by
    intro c
    rw [foldComponent_eq_carries]
    split_ifs
    · exact .inr (Escaped.whole_singleton (by decide) (by decide))
    · exact .inl rfl
  have hjoin := (hsane.map hfold).splitFrom_join
  rw [List.map_map] at hjoin
  rw [foldPathParam_eq h]
  exact hjoin

theorem splitUnescaped_foldPathParam :
    splitUnescaped (foldPathParam path key) '/' =
      sanitize first :: rest.map fun c => foldComponent key (sanitize c) := by
  rw [splitUnescaped_eq (by decide), ← rawComponents, rawComponents_foldPathParam h]
  apply map_sanitize
  intro p hp
  rcases List.mem_cons.mp hp with rfl | hp
  · exact valid_sanitize first
  · obtain ⟨c, -, rfl⟩ := List.mem_map.mp hp
    exact valid_foldComponent key c

/-- What is replaced has no parameters. -/
theorem paramList_foldPathParam :
    paramList (foldPathParam path key) =
      (rest.filter fun c => !carries key c).flatMap componentParams := by
  rw [paramList, splitUnescaped_foldPathParam h, List.tail_cons, List.flatMap_map]
  clear h
  induction rest with
  | nil => rfl
  | cons c rest ih =>
    rw [List.flatMap_cons, ih, foldComponent_eq_carries, carries_sanitize, List.filter_cons]
    cases carries key c with
    | true =>
      have hstar : componentParams (text "*") = [] := by decide
      simp [hstar]
    | false => simp [componentParams_sanitize]

theorem paramList_unfolded :
    paramList ([octet '/'].intercalate (unfolded key (rawComponents path))) =
      (rest.filter fun c => !carries key c).flatMap componentParams := by
  have hparts : Escaped.Parts (octet '\\') (octet '/') false (first :: rest) := by
    rw [← h]
    exact Escaped.parts_splitFrom path
  rw [paramList, splitUnescaped_eq (by decide), h, unfolded,
    (hparts.filter fun c => !carries key c).splitFrom_join, List.map_cons, List.tail_cons,
    List.flatMap_map]
  simp only [componentParams_sanitize]

/-- The result is the name with the components replaced exactly if those that are kept are
UTF-8. -/
theorem rawComponents_foldPathParam_iff :
    rawComponents (foldPathParam path key) = folded key (rawComponents path) ↔
      ∀ c ∈ unfolded key (rawComponents path), Valid c := by
  rw [rawComponents_foldPathParam h, h, folded, unfolded, List.cons.injEq, List.map_inj_left,
    List.forall_mem_cons]
  refine and_congr_right fun _ => ?_
  simp only [List.mem_filter, and_imp]
  refine forall₂_congr fun c _ => ?_
  rw [foldComponent_eq_carries, carries_sanitize]
  cases carries key c with
  | true => simp
  | false => simp [Valid]

end Fold

/-- Folding keeps the number of components, leaves no value for the key and the parameters of the
other components as they are, and does nothing a second time. The components that do not have the
key keep their octets exactly if they are UTF-8. -/
theorem foldPathParam_exact (path key : GoString) :
    (rawComponents (foldPathParam path key)).length = (rawComponents path).length ∧
    (rawComponents (foldPathParam path key) = folded key (rawComponents path) ↔
      ∀ c ∈ unfolded key (rawComponents path), Valid c) ∧
    (pathParams (foldPathParam path key)).lookup key = none ∧
    pathParams (foldPathParam path key) =
      pathParams ([octet '/'].intercalate (unfolded key (rawComponents path))) ∧
    foldPathParam (foldPathParam path key) key = foldPathParam path key := by
  obtain ⟨first, rest, h⟩ := exists_rawComponents path
  refine ⟨?_, rawComponents_foldPathParam_iff h, ?_, ?_, ?_⟩
  · rw [rawComponents_foldPathParam h, h]
    simp
  · have hnone : key ∉ (paramList (foldPathParam path key)).map Prod.fst := by
      rw [paramList_foldPathParam h, List.map_flatMap, List.mem_flatMap]
      rintro ⟨c, hc, hkey⟩
      have hcarries := (List.mem_filter.mp hc).2
      rw [carries, decide_eq_true hkey] at hcarries
      exact absurd hcarries (by decide)
    rw [lookup_pathParams, valuesOf_eq_nil hnone]
    rfl
  · apply Finmap.ext_lookup
    intro k
    rw [lookup_pathParams, lookup_pathParams, paramList_foldPathParam h, paramList_unfolded h]
  · rw [foldPathParam_eq (rawComponents_foldPathParam h), foldPathParam_eq h, List.map_map,
      show sanitize (sanitize first) = sanitize first from valid_sanitize first]
    simp only [Function.comp_def, foldComponent_again]

/-- A component that is no UTF-8 is kept with another octet sequence. -/
theorem foldPathParam_replaced :
    foldPathParam (octet '/' :: 0xff :: text "/k=v") (text "k") = text "/�/*" ∧
      folded (text "k") (rawComponents (octet '/' :: 0xff :: text "/k=v")) =
        [[], [0xff], text "*"] ∧
      rawComponents (text "/�/*") ≠ [[], [0xff], text "*"] := by
  decide

end EntroQ.Queues
