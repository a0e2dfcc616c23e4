/-
  JSON documents.

  Numbers with a fraction or an exponent are kept apart from integers, which have any
  size.  The entries of an object keep the order in which their keys first came, and a key
  that comes again replaces the value (`Json.insert`).
-/

namespace BoxScript

/-- A JSON document. -/
inductive Json where
  | null
  | bool (b : Bool)
  | int (n : Int)
  | num (x : Float)
  | text (s : String)
  | list (items : List Json)
  | object (entries : List (String × Json))
  deriving Inhabited, Repr

namespace Json

/-- The entries with `key` bound to `value`: in the place of the key if it is there, and
    else at the end. -/
def insert (entries : List (String × Json)) (key : String) (value : Json) :
    List (String × Json) :=
  match entries with
  | [] => [(key, value)]
  | (k, v) :: rest => if k = key then (k, value) :: rest else (k, v) :: insert rest key value

/-- The value of a key of an object. -/
def get? : Json → String → Option Json
  | object entries, key => entries.lookup key
  | _, _ => none

end Json

end BoxScript
