import EntroQ.Queues.Path

/-! # Names made of escaped components

A component that was escaped when the name was made is read back from it, at both levels: names
are cut at slashes, components with parameters at semicolons. Both read runes, so octets that are
no UTF-8 come back as replacement characters. -/

namespace EntroQ.Queues
open Foundation Utf8

def structuralRune (c : Char) : Bool := c == '/' || c == ';' || c == '\\'

theorem escapeComponent_encode (cs : List Char) :
    escapeComponent (encode cs) = encode (Escaped.escape '\\' structuralRune cs) := by
  apply escape_encode (by decide)
  · intro c hc
    simp only [structural, structuralRune, Bool.beq_eq_decide_eq,
      octet_eq_iff hc (by decide : '/'.toNat < 128), octet_eq_iff hc (by decide : ';'.toNat < 128),
      octet_eq_iff hc (by decide : '\\'.toNat < 128)]
  · intro b hb
    simp [structural, ne_octet_of_high hb (by decide : '/'.toNat < 128),
      ne_octet_of_high hb (by decide : ';'.toNat < 128),
      ne_octet_of_high hb (by decide : '\\'.toNat < 128)]
  · intro c hc
    have hne (d : Char) (hd : d.toNat < 128) : c ≠ d := fun h => hc (h ▸ hd)
    simp [structuralRune, hne '/' (by decide), hne ';' (by decide), hne '\\' (by decide)]

theorem valid_escapeComponent {c : GoString} (h : Valid c) : Valid (escapeComponent c) := by
  rw [← encode_runes h, escapeComponent_encode]
  exact valid_encode _

theorem whole_escapeComponent {sep : Char} (hsep : structural (octet sep) = true)
    (hne : octet sep ≠ octet '\\') (c : GoString) :
    Escaped.Whole (octet '\\') (octet sep) (escapeComponent c) :=
  Escaped.whole_escape (by decide) hsep hne c

theorem unescape_escapeComponent {c : GoString} (h : Valid c) : unescape (escapeComponent c) = c := by
  rw [unescape_eq, ← encode_runes h, escapeComponent_encode, runes_encode]
  have hc := Escaped.unescapeFrom_escape_append (show structuralRune '\\' = true from rfl) (runes c) []
  rw [List.append_nil] at hc
  rw [hc]
  simp [Escaped.unescapeFrom]

/-- A parameter as it stands in a name. -/
def escapeParam (p : GoString × GoString) : GoString :=
  escapeComponent p.1 ++ octet '=' :: escapeComponent p.2

theorem escapeParam_encode (ks vs : List Char) :
    escapeParam (encode ks, encode vs) =
      encode (Escaped.escape '\\' structuralRune ks ++
        '=' :: Escaped.escape '\\' structuralRune vs) := by
  rw [encode_append, encode_ascii_cons (by decide), ← escapeComponent_encode,
    ← escapeComponent_encode]
  rfl

theorem unescape_escapeParam {p : GoString × GoString} (hk : Valid p.1) (hv : Valid p.2) :
    unescape (escapeParam p) = p.1 ++ octet '=' :: p.2 := by
  have hesc : structuralRune '\\' = true := rfl
  have hval := Escaped.unescapeFrom_escape_append hesc (runes p.2) []
  have hkey := Escaped.unescapeFrom_escape_append hesc (runes p.1)
    ('=' :: Escaped.escape '\\' structuralRune (runes p.2))
  have hparam : escapeParam p = escapeParam (encode (runes p.1), encode (runes p.2)) := by
    rw [encode_runes hk, encode_runes hv]
  rw [List.append_nil] at hval
  rw [unescape_eq, hparam, escapeParam_encode, runes_encode, hkey, Escaped.unescapeFrom,
    if_neg (by decide), hval, Escaped.unescapeFrom, List.append_nil, encode_append,
    encode_ascii_cons (by decide), encode_runes hk, encode_runes hv]

theorem valid_escapeParam {p : GoString × GoString} (hk : Valid p.1) (hv : Valid p.2) :
    Valid (escapeParam p) := by
  have h := ((valid_escapeComponent hk).append (valid_octet (by decide : '='.toNat < 128))).append
    (valid_escapeComponent hv)
  rwa [List.append_assoc] at h

theorem whole_escapeParam {sep : Char} (hsep : structural (octet sep) = true)
    (hesc : octet sep ≠ octet '\\') (heq : octet '=' ≠ octet sep) (p : GoString × GoString) :
    Escaped.Whole (octet '\\') (octet sep) (escapeParam p) := by
  have h := ((whole_escapeComponent hsep hesc p.1).append
    (Escaped.whole_singleton (by decide) heq)).append (whole_escapeComponent hsep hesc p.2)
  rwa [List.append_assoc] at h

theorem cut_append {key : GoString} {sep : UInt8} (h : sep ∉ key) (val : GoString) :
    cut (key ++ sep :: val) sep = some (key, val) := by
  have hkey : ∀ b ∈ key, decide (b ≠ sep) = true := by
    intro b hb
    rw [decide_eq_true_iff]
    rintro rfl
    exact h hb
  rw [cut, if_pos (by simp), List.takeWhile_append_of_pos hkey, List.dropWhile_append_of_pos hkey]
  simp

theorem keyVal_escapeParam {p : GoString × GoString} (hk : Valid p.1) (hv : Valid p.2)
    (heq : octet '=' ∉ p.1) : keyVal (escapeParam p) = some p := by
  rw [keyVal, unescape_escapeParam hk hv, cut_append heq]

/-! ## Reading names back -/

/-- A component of parameters. -/
def escapeParams (ps : List (GoString × GoString)) : GoString :=
  [octet ';'].intercalate (ps.map escapeParam)

theorem componentParams_escapeParams {ps : List (GoString × GoString)}
    (h : ∀ p ∈ ps, Valid p.1 ∧ Valid p.2 ∧ octet '=' ∉ p.1) :
    componentParams (escapeParams ps) = ps := by
  cases ps with
  | nil => rfl
  | cons p ps =>
    have hwhole : ∀ q ∈ (p :: ps).map escapeParam,
        Escaped.Whole (octet '\\') (octet ';') q := by
      intro q hq
      obtain ⟨r, -, rfl⟩ := List.mem_map.mp hq
      exact whole_escapeParam (by decide) (by decide) (by decide) r
    have hvalid : ∀ q ∈ (p :: ps).map escapeParam, Valid q := by
      intro q hq
      obtain ⟨r, hr, rfl⟩ := List.mem_map.mp hq
      exact valid_escapeParam (h r hr).1 (h r hr).2.1
    have hread : ∀ q ∈ p :: ps, (keyVal ∘ escapeParam) q = some q := fun q hq =>
      keyVal_escapeParam (h q hq).1 (h q hq).2.1 (h q hq).2.2
    rw [componentParams, splitUnescaped_eq (by decide), escapeParams,
      Escaped.splitFrom_join_whole (by simp) hwhole, map_sanitize hvalid, List.filterMap_map,
      List.filterMap_congr hread, List.filterMap_some]

/-- A name of whole components, each behind a slash, is split into them. -/
theorem splitUnescaped_flatMap {β : Type*} (f : β → GoString) {xs : List β}
    (hwhole : ∀ x ∈ xs, Escaped.Whole (octet '\\') (octet '/') (f x))
    (hvalid : ∀ x ∈ xs, Valid (f x)) :
    splitUnescaped (xs.flatMap fun x => octet '/' :: f x) '/' = [] :: xs.map f := by
  have hsplit : Escaped.splitFrom (octet '\\') (octet '/') false
      ((xs.map f).flatMap (octet '/' :: ·)) = [] :: xs.map f :=
    Escaped.splitFrom_flatMap (List.forall_mem_map.mpr hwhole)
  rw [List.flatMap_map] at hsplit
  rw [splitUnescaped_eq (by decide), hsplit, List.map_cons,
    map_sanitize (List.forall_mem_map.mpr hvalid)]
  rfl

theorem pathComponents_escaped {cs : List GoString} (h : ∀ c ∈ cs, Valid c) :
    pathComponents (cs.flatMap fun c => octet '/' :: escapeComponent c) =
      cs.map (octet '/' :: ·) := by
  cases cs with
  | nil => rfl
  | cons c cs =>
    rw [pathComponents, if_neg (by simp), splitUnescaped_flatMap escapeComponent
      (fun d _ => whole_escapeComponent (by decide) (by decide) d)
      fun d hd => valid_escapeComponent (h d hd)]
    simp only [ne_eq, not_true_eq_false, if_false, List.nil_append, List.map_map]
    apply List.map_congr_left
    intro d hd
    simp only [Function.comp_apply, unescape_escapeComponent (h d hd)]

theorem paramList_escaped {components : List (List (GoString × GoString))}
    (h : ∀ ps ∈ components, ∀ p ∈ ps, Valid p.1 ∧ Valid p.2 ∧ octet '=' ∉ p.1) :
    paramList (components.flatMap fun ps => octet '/' :: escapeParams ps) = components.flatten := by
  have hwhole : ∀ ps ∈ components, Escaped.Whole (octet '\\') (octet '/') (escapeParams ps) := by
    intro ps _
    apply Escaped.whole_join (by decide) (by decide)
    exact List.forall_mem_map.mpr fun p _ =>
      whole_escapeParam (by decide) (by decide) (by decide) p
  have hvalid : ∀ ps ∈ components, Valid (escapeParams ps) := by
    intro ps hps
    apply valid_join (by decide)
    exact List.forall_mem_map.mpr fun p hp =>
      valid_escapeParam (h ps hps p hp).1 (h ps hps p hp).2.1
  rw [paramList, splitUnescaped_flatMap escapeParams hwhole hvalid, List.tail_cons,
    List.flatMap_map, ← List.flatMap_id]
  exact List.flatMap_congr fun ps hps => componentParams_escapeParams (h ps hps)

/-- A name made of escaped components gives them back, and one made of escaped parameters has for
each key its values in order and no other key, if they are UTF-8. -/
theorem path_round_trip :
    (∀ cs : List GoString, (∀ c ∈ cs, c ≠ [] ∧ Valid c) →
      pathComponents (cs.flatMap fun c => octet '/' :: escapeComponent c) =
        cs.map (octet '/' :: ·)) ∧
    ∀ components : List (List (GoString × GoString)),
      (∀ ps ∈ components, ∀ p ∈ ps, Valid p.1 ∧ Valid p.2 ∧ octet '=' ∉ p.1) →
      ∀ key, (pathParams (components.flatMap fun ps => octet '/' :: escapeParams ps)).lookup key =
        given (valuesOf key components.flatten) := by
  constructor
  · intro cs h
    exact pathComponents_escaped fun c hc => (h c hc).2
  · intro components h key
    rw [lookup_pathParams, paramList_escaped h]

theorem path_round_trip_backslashes :
    pathComponents ([text "a\\", text "/;é\\/"].flatMap fun c => octet '/' :: escapeComponent c) =
        [text "/a\\", text "//;é\\/"] ∧
      (pathParams (
          [[(text "k;", text "v=\\"), (text "", text "/")], [], [(text "k;", text "")]].flatMap
            fun ps => octet '/' :: escapeParams ps)).lookup (text "k;") =
        some [text "v=\\", text ""] := by
  refine ⟨path_round_trip.1 [text "a\\", text "/;é\\/"] (by decide), ?_⟩
  have h := path_round_trip.2
    [[(text "k;", text "v=\\"), (text "", text "/")], [], [(text "k;", text "")]]
    (by decide) (text "k;")
  rw [h]
  decide

/-- A value that is no UTF-8 comes back as another. -/
theorem pathParams_replaced :
    (pathParams ([[(text "k", [0xff])]].flatMap fun ps => octet '/' :: escapeParams ps)).lookup
        (text "k") = some [text "�"] ∧
      given (valuesOf (text "k") [[(text "k", [0xff])]].flatten) = some [[0xff]] ∧
      text "�" ≠ [0xff] := by
  decide

end EntroQ.Queues
