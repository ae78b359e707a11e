import EntroQ.Eqredis.Modify

/-! # Which doc an operation is checked against

The docs read for a modification are filed under namespace, slash and ID, which does not tell all
docs apart: the docs ("a/b", "c") and ("a", "b/c") are filed under one name, and the operations on
both are checked against whichever was filed. -/

namespace EntroQ.Eqredis
open Foundation Docset

/-- The stored docs, by namespace and ID. -/
def docAt (db : Redis) (r : String × String) : Option DocFields := docHash db (docKey r.1 r.2)

section Filing
variable {m : FMap String String} {l : List (String × String)} {k K : String}

end Filing

section Own
variable {mod : Modification}

end Own

end EntroQ.Eqredis
