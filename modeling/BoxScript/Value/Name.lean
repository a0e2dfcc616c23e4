/-
  Names, and the keys by which they are told apart.

  A field for a name can hold any tree.  A text is the name of that text, and any other tree is a
  name as well, unless there is a list in it.  Numbers that are equal are one name, also a whole
  number and an integer, and so are true and 1, and false and 0; a text is never the name of
  anything else.

  * `Key` is what names are compared by, and `Tree.key?` the key of a tree;
  * `Name` is a key with the text that messages give.
-/
import BoxScript.Tree.Shape

namespace BoxScript

/-- A scalar in a key, or the class of a node. -/
inductive Key.Part where
  | null
  | int (n : Int)
  | num (x : Float)
  | text (s : String)
  | node (shape : Shape)
  deriving DecidableEq, Repr

/-- What names are compared by: a scalar, or the class of a node and then the parts of what its
    fields hold, in order. -/
structure Key where
  parts : List Key.Part
  deriving DecidableEq, Repr

/-- The key of a text. -/
def Key.ofText (s : String) : Key := ⟨[.text s]⟩

instance : Coe String Key := ⟨Key.ofText⟩

/-- A name: its key, and its text as messages give it. -/
structure Name where
  key : Key
  text : String
  deriving DecidableEq, Repr

namespace Name

/-- The name of a text. -/
def ofText (s : String) : Name := ⟨s, s⟩

instance : Coe String Name := ⟨ofText⟩

/-- The name in quotes if it is that of a text. -/
def inspect (n : Name) : String :=
  match n.key.parts with
  | [.text s] => Text.quoted s
  | _ => n.text

@[simp] theorem key_ofText (s : String) : (ofText s).key = Key.ofText s := rfl

@[simp] theorem text_ofText (s : String) : (ofText s).text = s := rfl

end Name

@[simp] theorem Key.ofText_inj {s t : String} : Key.ofText s = Key.ofText t ↔ s = t := by
  simp [Key.ofText]

namespace Tree

/-- The parts of the key of a tree; `none` if there is a list in it. -/
def keyParts? (t : Tree) : Option (List Key.Part) :=
  match t with
  | null => some [.null]
  | bool b => some [.int (if b then 1 else 0)]
  | int n => some [.int n]
  | num x => some [match Number.whole? x with
    | some n => .int n
    | none => .num x]
  | text s => some [.text s]
  | list _ => none
  | node =>
    match h : node.parts? with
    | some (shape, contents) => do
      let parts ← contents.attach.mapM fun part =>
        have := sizeOf_lt_of_parts? h part.1 part.2
        keyParts? part.1
      return .node shape :: parts.flatten
    | none => none
termination_by sizeOf t

/-- The key of a tree; `none` if there is a list in it. -/
def key? (t : Tree) : Option Key := t.keyParts?.map Key.mk

@[simp] theorem key?_text (s : String) : (text s).key? = some (Key.ofText s) := by
  simp [key?, keyParts?, Key.ofText]

/-- A tree as messages give it: a text itself, and any other tree as it is written.  `none` if it
    is nested `depth` deep or deeper. -/
def spelling? (depth : Nat) : Tree → Option String
  | text s => some s
  | t => t.inspect depth

end Tree

end BoxScript
