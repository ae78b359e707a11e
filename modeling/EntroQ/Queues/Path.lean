import EntroQ.Foundation.FiniteMap
import EntroQ.Foundation.Utf8

/-! # Queue names as paths

Queue names are Go strings: octets that are UTF-8 as a rule, read rune by rune. The functions that
cut them keep what they cut escaped, so that a component can be cut again before its escapes go. -/

namespace EntroQ.Queues
open Foundation Utf8

abbrev GoString := List UInt8

/-- The octets of a constant of the source. -/
def text (s : String) : GoString := encode s.toList

/-- The characters that are structural within a component, each replaced by itself behind a
backslash. -/
def structural (b : UInt8) : Bool := b == octet '/' || b == octet ';' || b == octet '\\'

def escapeComponent (c : GoString) : GoString := Escaped.escape (octet '\\') structural c

/-- What a loop that splits has at hand. -/
structure Splitting where
  parts : List GoString := []
  part : GoString := []
  escaped : Bool := false

def Splitting.next (separator : Char) (st : Splitting) (r : Char) : Splitting :=
  if r = separator ∧ st.escaped = false then
    { st with parts := st.parts ++ [st.part], part := [] }
  else
    { st with
      part := st.part ++ String.utf8EncodeChar r
      escaped := decide (r = '\\') && !st.escaped }

def splitUnescaped (s : GoString) (separator : Char) : List GoString :=
  let st := (runes s).foldl (Splitting.next separator) {}
  st.parts ++ [st.part]

structure Unescaping where
  value : GoString := []
  escaped : Bool := false

def Unescaping.next (st : Unescaping) (r : Char) : Unescaping :=
  if st.escaped then { value := st.value ++ String.utf8EncodeChar r, escaped := false }
  else if r = '\\' then { st with escaped := true }
  else { st with value := st.value ++ String.utf8EncodeChar r }

/-- A last backslash that quotes nothing is dropped. -/
def unescape (s : GoString) : GoString := ((runes s).foldl Unescaping.next {}).value

def pathComponents (qname : GoString) : List GoString :=
  if qname = [] then []
  else
    match splitUnescaped qname '/' with
    | [] => []
    | first :: rest =>
      (if first ≠ [] then [unescape first] else []) ++
        rest.map fun part => octet '/' :: unescape part

/-- The texts before and after the first separator, if there is one. -/
def cut (s : GoString) (sep : UInt8) : Option (GoString × GoString) :=
  if sep ∈ s then some (s.takeWhile (· ≠ sep), (s.dropWhile (· ≠ sep)).tail) else none

/-- A raw parameter without an equals sign is none. -/
def keyVal (rawKeyVal : GoString) : Option (GoString × GoString) :=
  cut (unescape rawKeyVal) (octet '=')

section Visit
variable {σ : Type*} (visit : σ → GoString → GoString → σ × Bool)

def visitKeyVals : List GoString → σ → σ
  | [], st => st
  | rawKeyVal :: rest, st =>
    match keyVal rawKeyVal with
    | none => visitKeyVals rest st
    | some (key, val) =>
      match visit st key val with
      | (st, true) => visitKeyVals rest st
      | (st, false) => st

/-- The parameters of a component go to the visitor in order, until it returns false. -/
def visitComponentParams (component : GoString) (st : σ) : σ :=
  visitKeyVals visit (splitUnescaped component ';') st

end Visit

abbrev Params := FMap GoString (List GoString)

def appendParam (params : Params) (key val : GoString) : Params × Bool :=
  (params.insert key ((params.lookup key).getD [] ++ [val]), true)

/-- A name without parameters has none, whether the source returns an empty map or no map. -/
def pathParams (qname : GoString) : Params :=
  (splitUnescaped qname '/').tail.foldl
    (fun params component => visitComponentParams appendParam component params) ∅

/-- The component as it stands after the visit: an asterisk once a parameter has the key. -/
def foldComponent (key component : GoString) : GoString :=
  visitComponentParams
    (fun cell paramKey _ => if paramKey ≠ key then (cell, true) else (text "*", false))
    component component

def foldPathParam (path key : GoString) : GoString :=
  match splitUnescaped path '/' with
  | [] => []
  | first :: rest => [octet '/'].intercalate (first :: rest.map (foldComponent key))

/-- Only a name that begins with a namespace has one: the first `ns` parameter. -/
def namespaceOf (qname : GoString) : Option GoString :=
  if qname = [] then none
  else if ¬text "/ns=" <+: qname then none
  else
    match (pathParams qname).lookup (text "ns") with
    | some (ns :: _) => some ns
    | _ => none

/-! ## Splitting and unescaping -/

section Split
variable {separator : Char}

theorem foldl_splitting (rs : List Char) (st : Splitting) :
    (rs.foldl (Splitting.next separator) st).parts ++
        [(rs.foldl (Splitting.next separator) st).part] =
      st.parts ++ ((Escaped.splitFrom '\\' separator st.escaped rs).map encode).modifyHead
        (st.part ++ ·) := by
  induction rs generalizing st with
  | nil => simp [Escaped.splitFrom, encode]
  | cons r rs ih =>
    rw [List.foldl_cons, ih]
    by_cases h : r = separator ∧ st.escaped = false
    · obtain ⟨rfl, he⟩ := h
      rw [Splitting.next, if_pos ⟨rfl, he⟩, he, Escaped.splitFrom_separator]
      cases Escaped.splitFrom '\\' r false rs <;> simp [encode]
    · rw [Splitting.next, if_neg h, Escaped.splitFrom_cons h, Escaped.quotes]
      cases Escaped.splitFrom '\\' separator (decide (r = '\\') && !st.escaped) rs <;>
        simp [encode]

/-- A text is split at the separators that are not escaped, and written rune by rune. -/
theorem splitUnescaped_eq (hsep : separator.toNat < 128) (s : GoString) :
    splitUnescaped s separator =
      (Escaped.splitFrom (octet '\\') (octet separator) false s).map sanitize := by
  have h : splitUnescaped s separator =
      ((Escaped.splitFrom '\\' separator false (runes s)).map encode).modifyHead ([] ++ ·) :=
    foldl_splitting (runes s) {}
  rw [h, splitFrom_runes (by decide) hsep, List.map_map]
  cases Escaped.splitFrom (octet '\\') (octet separator) false s <;> rfl

theorem map_sanitize {ps : List GoString} (h : ∀ p ∈ ps, Valid p) : ps.map sanitize = ps := by
  conv_rhs => rw [← List.map_id ps]
  exact List.map_congr_left h

theorem foldl_unescaping (rs : List Char) (st : Unescaping) :
    (rs.foldl Unescaping.next st).value =
      st.value ++ encode (Escaped.unescapeFrom '\\' st.escaped rs) := by
  induction rs generalizing st with
  | nil => cases h : st.escaped <;> simp [Escaped.unescapeFrom, encode]
  | cons r rs ih =>
    rw [List.foldl_cons, ih]
    unfold Unescaping.next
    cases h : st.escaped with
    | true => simp [Escaped.unescapeFrom, encode]
    | false =>
      by_cases hr : r = '\\'
      · simp [Escaped.unescapeFrom, hr]
      · simp [Escaped.unescapeFrom, hr, encode]

theorem unescape_eq (s : GoString) :
    unescape s = encode (Escaped.unescapeFrom '\\' false (runes s)) :=
  (foldl_unescaping (runes s) {}).trans (List.nil_append _)

end Split

/-! ## The parameters of a component and of a name -/

def componentParams (component : GoString) : List (GoString × GoString) :=
  (splitUnescaped component ';').filterMap keyVal

/-- The parameters of a name, in order. -/
def paramList (qname : GoString) : List (GoString × GoString) :=
  (splitUnescaped qname '/').tail.flatMap componentParams

def valuesOf (key : GoString) (params : List (GoString × GoString)) : List GoString :=
  (params.filter fun p => p.1 = key).map Prod.snd

section Visit
variable {σ : Type*}

theorem visitKeyVals_all (f : σ → GoString → GoString → σ) (raws : List GoString) (st : σ) :
    visitKeyVals (fun st key val => (f st key val, true)) raws st =
      (raws.filterMap keyVal).foldl (fun st p => f st p.1 p.2) st := by
  induction raws generalizing st with
  | nil => rfl
  | cons raw raws ih =>
    rw [visitKeyVals]
    cases hcut : keyVal raw with
    | none => simpa [hcut] using ih st
    | some p => simpa [hcut] using ih (f st p.1 p.2)

theorem visitKeyVals_find (key : GoString) (raws : List GoString) (cell : GoString) :
    visitKeyVals (fun cell paramKey _ => if paramKey ≠ key then (cell, true) else (text "*", false))
        raws cell =
      if key ∈ (raws.filterMap keyVal).map Prod.fst then text "*"
      else cell := by
  induction raws with
  | nil => rfl
  | cons raw raws ih =>
    rw [visitKeyVals]
    cases hcut : keyVal raw with
    | none =>
      rw [List.filterMap_cons_none hcut]
      exact ih
    | some p =>
      rw [List.filterMap_cons_some hcut, List.map_cons]
      by_cases hp : p.1 = key
      · simp [hp]
      · have hmem : key ∈ p.1 :: (raws.filterMap keyVal).map Prod.fst ↔
            key ∈ (raws.filterMap keyVal).map Prod.fst := by
          simp [Ne.symm hp]
        rw [if_congr hmem rfl rfl, ← ih]
        simp [hp]

end Visit

theorem foldComponent_eq (key component : GoString) :
    foldComponent key component =
      if key ∈ (componentParams component).map Prod.fst then text "*" else component :=
  visitKeyVals_find key _ component

/-- The values of a key in a map that has no key without values. -/
def given (vs : List GoString) : Option (List GoString) := if vs = [] then none else some vs

theorem getD_given (vs : List GoString) : (given vs).getD [] = vs := by
  unfold given
  split_ifs with h
  · rw [h]
    rfl
  · rfl

theorem foldl_appendParam (key : GoString) (ps : List (GoString × GoString)) (params : Params)
    (vs : List GoString) (h : params.lookup key = given vs) :
    (ps.foldl (fun params p => (appendParam params p.1 p.2).1) params).lookup key =
      given (vs ++ valuesOf key ps) := by
  induction ps generalizing params vs with
  | nil => simpa [valuesOf] using h
  | cons p ps ih =>
    rw [List.foldl_cons]
    by_cases hp : p.1 = key
    · have hnext : ((appendParam params p.1 p.2).1).lookup key = given (vs ++ [p.2]) := by
        rw [appendParam, FMap.lookup_insert, if_pos hp.symm, hp, h, getD_given]
        simp [given]
      rw [ih _ _ hnext]
      simp [valuesOf, hp]
    · have hnext : ((appendParam params p.1 p.2).1).lookup key = given vs := by
        rw [appendParam, FMap.lookup_insert, if_neg (Ne.symm hp), h]
      rw [ih _ _ hnext]
      simp [valuesOf, hp]

theorem lookup_pathParams (qname key : GoString) :
    (pathParams qname).lookup key = given (valuesOf key (paramList qname)) := by
  have hall : pathParams qname =
      (paramList qname).foldl (fun params p => (appendParam params p.1 p.2).1) ∅ := by
    rw [pathParams, paramList, List.foldl_flatMap]
    apply congrArg (fun f => List.foldl f ∅ (splitUnescaped qname '/').tail)
    funext params component
    exact visitKeyVals_all (fun params key val => (appendParam params key val).1) _ params
  rw [hall, foldl_appendParam key _ ∅ [] (by simp [given]), List.nil_append]

end EntroQ.Queues
