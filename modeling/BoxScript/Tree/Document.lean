/-
  Trees as JSON documents.

  A node is an object with its class under `type` and one entry for each field; lists and
  scalars are themselves.

  * `Tree.toJson?` writes a tree;
  * `Tree.ofJson` reads one.  It ignores entries that are no field of the class, takes the
    default of a field that is missing, reads the fields in their order and stops at the
    first fault (`DocumentError`).

  Both stop at a depth of nesting that is given to them.
-/
import BoxScript.Json.Basic
import BoxScript.Tree.Shape

namespace BoxScript

/-- Why a document is no tree. -/
inductive DocumentError where
  /-- An object whose `type` is no class of nodes. -/
  | unknownClass (name : Json)
  /-- An object whose `type` is a list or an object, which can name nothing. -/
  | unusableClass (name : Json)
  /-- A node without fields that it must have. -/
  | missingFields (shape : Shape) (names : List String)
  /-- Lists and objects are nested too deep. -/
  | tooDeep
  deriving Inhabited, Repr

namespace Json

/-- A scalar as messages give it. -/
def inspectScalar : Json → String
  | null => "None"
  | bool b => if b then "True" else "False"
  | int n => toString n
  | num x => Number.literal x
  | text s => Text.quoted s
  | list _ => "list"
  | object _ => "dict"

end Json

namespace DocumentError

/-- Names in quotes, with commas and a last `and`. -/
def enumerate : List String → String
  | [] => ""
  | [a] => Text.quoted a
  | [a, b] => Text.quoted a ++ " and " ++ Text.quoted b
  | names =>
    let quotes := names.map Text.quoted
    ", ".intercalate quotes.dropLast ++ ", and " ++ quotes.getLast?.getD ""

/-- The wording of an error. -/
def message : DocumentError → String
  | unknownClass name => "unknown AST node type: " ++ name.inspectScalar
  | unusableClass name => "unhashable type: " ++ Text.quoted name.inspectScalar
  | missingFields shape names =>
    shape.name ++ ".__init__() missing " ++ toString names.length ++ " required positional " ++
      (if names.length = 1 then "argument: " else "arguments: ") ++ enumerate names
  | tooDeep => "nested too deeply"

end DocumentError

namespace Tree

/-- The document of a tree that is nested at most `depth` deep. -/
def toJson? : (depth : Nat) → Tree → Option Json
  | 0, _ => none
  | depth + 1, t =>
    match t with
    | null => some .null
    | bool b => some (.bool b)
    | int n => some (.int n)
    | num x => some (.num x)
    | text s => some (.text s)
    | list items => (items.mapM (toJson? depth)).map .list
    | node => do
      let (shape, contents) ← node.parts?
      let values ← contents.mapM (toJson? depth)
      return .object (("type", .text shape.name) :: (shape.fields.map Field.name).zip values)

/-- The class that the entries of an object name. -/
def shapeOf (entries : List (String × Json)) : Except DocumentError Shape :=
  match (entries.lookup "type").getD .null with
  | .text name =>
    match Shape.ofName? name with
    | some shape => .ok shape
    | none => .error (.unknownClass (.text name))
  | .list items => .error (.unusableClass (.list items))
  | .object fields => .error (.unusableClass (.object fields))
  | scalar => .error (.unknownClass scalar)

/-- The content of a field: its entry as `read` reads it, or its default; `none` if it has
    neither. -/
def fieldContent (read : Json → Except DocumentError Tree) (entries : List (String × Json))
    (field : Field) : Except DocumentError (Option Tree) :=
  match entries.lookup field.name with
  | some value => (read value).map some
  | none => .ok field.default?

/-- The node of a class with the given contents, one for each field. -/
def assemble (shape : Shape) (contents : List (Option Tree)) : Except DocumentError Tree :=
  let missing := (shape.fields.zip contents).filterMap fun (field, content) =>
    if content.isNone then some field.name else none
  match shape.build? (contents.filterMap id) with
  | some node => .ok node
  | none => .error (.missingFields shape missing)

/-- The tree of a document that is nested at most `depth` deep. -/
def ofJson : (depth : Nat) → Json → Except DocumentError Tree
  | 0, _ => .error .tooDeep
  | depth + 1, doc =>
    match doc with
    | .null => .ok null
    | .bool b => .ok (bool b)
    | .int n => .ok (int n)
    | .num x => .ok (num x)
    | .text s => .ok (text s)
    | .list items => (items.mapM (ofJson depth)).map list
    | .object entries => do
      let shape ← shapeOf entries
      let contents ← shape.fields.mapM (fieldContent (ofJson depth) entries)
      assemble shape contents

end Tree

end BoxScript
