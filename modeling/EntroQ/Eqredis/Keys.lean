import EntroQ.Foundation.PrefixCode
import EntroQ.Docset.Lock

/-! # Redis keys

All keys share one prefix. After it a key names its kind, up to the first colon, and the rest of it
is the name of the object, so that the kinds tell keys apart whatever the names are. In the key of a
doc or of a set's lock the namespace is escaped, so the first slash ends it, and the ID or primary
key follows as it is. -/

namespace EntroQ.Eqredis
open Foundation Docset

def keyPrefix : String := "\x7beq\x7d:"

def taskKey (id : String) : String := keyPrefix ++ "t:" ++ id
def queueKey (name : String) : String := keyPrefix ++ "q:" ++ name
def qsclaimedKey (name : String) : String := keyPrefix ++ "qsclaimed:" ++ name
def qsclaimsKey (name : String) : String := keyPrefix ++ "qsclaims:" ++ name
def queuesKey : String := keyPrefix ++ "qs"
def namespacesKey : String := keyPrefix ++ "ns"
def docNSIndexKey (ns : String) : String := keyPrefix ++ "dnsidx:" ++ ns
def lockIndexKey (ns : String) : String := keyPrefix ++ "dlidx:" ++ ns
def heldGroupsKey (ns : String) : String := keyPrefix ++ "dlheld:" ++ ns
/-- The claims of docs from before doc sets had locks. -/
def nsclaimedKey (ns : String) : String := keyPrefix ++ "nsclaimed:" ++ ns
def docLocksMigratedKey : String := keyPrefix ++ "migrated:doclocks"
def docFieldsMigratedKey : String := keyPrefix ++ "migrated:docfields"
def claimsIndexMigratedKey : String := keyPrefix ++ "migrated:claimsindex"

/-- The escaper's word for a letter of a namespace. -/
def docKeyEscape (c : Char) : List Char :=
  if c = '%' then ['%', '2', '5'] else if c = '/' then ['%', '2', 'F'] else [c]

def docKeyEscaper (ns : String) : String := String.ofList (ns.toList.flatMap docKeyEscape)

def docKey (ns id : String) : String := keyPrefix ++ "d:" ++ docKeyEscaper ns ++ "/" ++ id
def lockKey (g : SetName) : String := keyPrefix ++ "dl:" ++ docKeyEscaper g.ns ++ "/" ++ g.key

def docIndexSep : String := "\x00"

def docIndexMember (keyPrimary keySecondary id : String) : String :=
  keyPrimary ++ docIndexSep ++ keySecondary ++ docIndexSep ++ id

/-- The entries of a set in the index of its namespace: from the first text on, before the
second. -/
def setMembersRange (key : String) : String × String := (key ++ docIndexSep, key ++ "\x01")

def occupantRange (key secondary : String) : String × String :=
  (key ++ docIndexSep ++ secondary ++ docIndexSep, key ++ docIndexSep ++ secondary ++ "\x01")

/-- The place a doc holds in its set. -/
def occupantKey (ns key secondary : String) : String :=
  ns ++ docIndexSep ++ key ++ docIndexSep ++ secondary

/-- The parts of an index entry. What follows the second separator is the ID. -/
def parseDocIndexMember (member : String) : String × String × String :=
  let parts := member.toList.splitOn '\x00'
  match parts with
  | k :: s :: id :: rest =>
    (String.ofList k, String.ofList s, String.ofList (['\x00'].intercalate (id :: rest)))
  | _ => (member, "", "")

theorem docKeyEscape_code : PrefixCode docKeyEscape where
  nonempty c := by
    unfold docKeyEscape
    split_ifs <;> simp
  unique a b x y h := by
    unfold docKeyEscape at h
    split_ifs at h <;> grind

theorem slash_notMem_docKeyEscaper (ns : String) : '/' ∉ (docKeyEscaper ns).toList := by
  rw [docKeyEscaper, String.toList_ofList, List.mem_flatMap]
  rintro ⟨c, -, hc⟩
  unfold docKeyEscape at hc
  split_ifs at hc <;> grind

theorem docKeyEscaper_injective : Function.Injective docKeyEscaper := by
  intro ns ns' h
  have hl := congrArg String.toList h
  rw [docKeyEscaper, docKeyEscaper, String.toList_ofList, String.toList_ofList] at hl
  exact String.toList_inj.mp (docKeyEscape_code.flatMap_injective hl)

/-! ## The layout of the database -/

/-- What the backend keeps in the database. -/
inductive Place
  | task (id : String)
  | ready (queue : String)
  | claimed (queue : String)
  | claims (queue : String)
  | doc (ns id : String)
  | lock (g : SetName)
  | docIndex (ns : String)
  | lockIndex (ns : String)
  | heldGroups (ns : String)
  | docClaims (ns : String)
  | queues
  | namespaces
  | docLocksMigrated
  | docFieldsMigrated
  | claimsIndexMigrated
  deriving DecidableEq

namespace Place

def key : Place → String
  | task id => taskKey id
  | ready queue => queueKey queue
  | claimed queue => qsclaimedKey queue
  | claims queue => qsclaimsKey queue
  | doc ns id => docKey ns id
  | lock g => lockKey g
  | docIndex ns => docNSIndexKey ns
  | lockIndex ns => lockIndexKey ns
  | heldGroups ns => heldGroupsKey ns
  | docClaims ns => nsclaimedKey ns
  | queues => queuesKey
  | namespaces => namespacesKey
  | docLocksMigrated => docLocksMigratedKey
  | docFieldsMigrated => docFieldsMigratedKey
  | claimsIndexMigrated => claimsIndexMigratedKey

/-- What stands between the common prefix and the next colon. -/
def kind : Place → String
  | task _ => "t"
  | ready _ => "q"
  | claimed _ => "qsclaimed"
  | claims _ => "qsclaims"
  | doc _ _ => "d"
  | lock _ => "dl"
  | docIndex _ => "dnsidx"
  | lockIndex _ => "dlidx"
  | heldGroups _ => "dlheld"
  | docClaims _ => "nsclaimed"
  | queues => "qs"
  | namespaces => "ns"
  | docLocksMigrated | docFieldsMigrated | claimsIndexMigrated => "migrated"

/-- What follows that colon, if there is one. -/
def body : Place → Option String
  | task name | ready name | claimed name | claims name | docIndex name | lockIndex name
  | heldGroups name | docClaims name => some name
  | doc ns id => some (docKeyEscaper ns ++ ("/" ++ id))
  | lock g => some (docKeyEscaper g.ns ++ ("/" ++ g.key))
  | queues | namespaces => none
  | docLocksMigrated => some "doclocks"
  | docFieldsMigrated => some "docfields"
  | claimsIndexMigrated => some "claimsindex"

theorem key_eq (p : Place) :
    p.key = keyPrefix ++ (p.kind ++ (p.body.map (":" ++ ·)).getD "") := by
  have split (kind name : String) :
      keyPrefix ++ (kind ++ ":") ++ name = keyPrefix ++ (kind ++ (":" ++ name)) := by
    rw [String.append_assoc, String.append_assoc]
  cases p with
  | task id => exact split "t" id
  | ready queue => exact split "q" queue
  | claimed queue => exact split "qsclaimed" queue
  | claims queue => exact split "qsclaims" queue
  | doc ns id =>
    rw [key, docKey, String.append_assoc, String.append_assoc]
    exact split "d" _
  | lock g =>
    rw [key, lockKey, String.append_assoc, String.append_assoc]
    exact split "dl" _
  | docIndex ns => exact split "dnsidx" ns
  | lockIndex ns => exact split "dlidx" ns
  | heldGroups ns => exact split "dlheld" ns
  | docClaims ns => exact split "nsclaimed" ns
  | queues | namespaces | docLocksMigrated | docFieldsMigrated | claimsIndexMigrated => rfl

theorem colon_notMem_kind (p : Place) : ':' ∉ p.kind.toList := by
  cases p <;> simp [kind]

theorem parts_eq {p p' : Place} (h : p.key = p'.key) : p.kind = p'.kind ∧ p.body = p'.body := by
  have hl := congrArg String.toList h
  simp only [key_eq, String.toList_append, List.append_cancel_left_eq] at hl
  have hp := p.colon_notMem_kind
  have hp' := p'.colon_notMem_kind
  cases hb : p.body with
  | none =>
    cases hb' : p'.body with
    | none =>
      simp [hb, hb'] at hl
      exact ⟨String.toList_inj.mp hl, rfl⟩
    | some b' =>
      simp [hb, hb'] at hl
      simp [hl] at hp
  | some b =>
    cases hb' : p'.body with
    | none =>
      simp [hb, hb'] at hl
      simp [← hl] at hp'
    | some b' =>
      simp only [hb, hb', Option.map_some, Option.getD_some, String.toList_append] at hl
      obtain ⟨hkind, hbody⟩ := append_separator_inj hp hp' hl
      exact ⟨String.toList_inj.mp hkind, congrArg some (String.toList_inj.mp hbody)⟩

/-- A namespace and what follows it can be told from their text. -/
theorem escaped_inj {ns ns' x x' : String}
    (h : docKeyEscaper ns ++ ("/" ++ x) = docKeyEscaper ns' ++ ("/" ++ x')) : ns = ns' ∧ x = x' := by
  have hl := congrArg String.toList h
  simp only [String.toList_append] at hl
  obtain ⟨hns, hx⟩ := append_separator_inj (slash_notMem_docKeyEscaper ns)
    (slash_notMem_docKeyEscaper ns') hl
  exact ⟨docKeyEscaper_injective (String.toList_inj.mp hns), String.toList_inj.mp hx⟩

@[simp] theorem key_inj {p p' : Place} : p.key = p'.key ↔ p = p' := by
  refine ⟨fun h => ?_, congrArg key⟩
  obtain ⟨hkind, hbody⟩ := parts_eq h
  -- Places of different kinds are told apart by the kind, and what is left is of one kind.
  cases p <;> cases p' <;> simp [kind] at hkind <;> simp [body] at hbody ⊢
  case doc.doc => exact escaped_inj hbody
  case lock.lock g g' =>
    obtain ⟨hns, hkey⟩ := escaped_inj hbody
    cases g
    cases g'
    simp_all
  all_goals exact hbody

/-- No two things share a key. -/
theorem key_injective : Function.Injective key := fun _ _ => key_inj.mp

end Place

/-! ## Keys as places -/

@[simp] theorem taskKey_eq (id : String) : taskKey id = (Place.task id).key := rfl
@[simp] theorem queueKey_eq (q : String) : queueKey q = (Place.ready q).key := rfl
@[simp] theorem qsclaimedKey_eq (q : String) : qsclaimedKey q = (Place.claimed q).key := rfl
@[simp] theorem qsclaimsKey_eq (q : String) : qsclaimsKey q = (Place.claims q).key := rfl
@[simp] theorem docKey_eq (ns id : String) : docKey ns id = (Place.doc ns id).key := rfl
@[simp] theorem lockKey_eq (g : SetName) : lockKey g = (Place.lock g).key := rfl
@[simp] theorem docNSIndexKey_eq (ns : String) : docNSIndexKey ns = (Place.docIndex ns).key := rfl
@[simp] theorem lockIndexKey_eq (ns : String) : lockIndexKey ns = (Place.lockIndex ns).key := rfl
@[simp] theorem heldGroupsKey_eq (ns : String) : heldGroupsKey ns = (Place.heldGroups ns).key := rfl
@[simp] theorem queuesKey_eq : queuesKey = Place.queues.key := rfl
@[simp] theorem namespacesKey_eq : namespacesKey = Place.namespaces.key := rfl

end EntroQ.Eqredis
