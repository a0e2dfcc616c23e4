/-
  The text of values.

  * `Store.display?` is the text that `print` shows.  The elements of an array are joined by
    commas, and an array inside another value stands in brackets;
  * `Store.inspect?` is the text that tells values of different types apart.

  An array or object that reaches itself has no text: both stop, with `none`, at a depth of
  nesting that is given to them.
-/
import BoxScript.Store.Basic

namespace BoxScript.Store

/-- Brackets around the text of a nested array. -/
def bracketed (v : Value) (text : String) : String :=
  match v with
  | .array _ => "[" ++ text ++ "]"
  | _ => text

/-- The text that `print` shows for a value nested less than `depth` deep. -/
def display? (s : Store) : (depth : Nat) → Value → Option String
  | 0, _ => none
  | depth + 1, v =>
    match v with
    | .null => some "null"
    | .boolean b => some (if b then "true" else "false")
    | .number x => some (Number.display x)
    | .string t => some t
    | .array r => do
      let texts ← (s.items r).toList.mapM fun item =>
        (display? s depth item).map (bracketed item)
      return ", ".intercalate texts
    | .object r => do
      let texts ← (s.entries r).mapM fun (name, item) =>
        (display? s depth item).map fun text => name.text ++ ": " ++ bracketed item text
      return "\x7b" ++ ", ".intercalate texts ++ "\x7d"
    | .function f => some ("<function " ++ f.name ++ ">")
    | .native f => some ("<native " ++ f.name ++ ">")
    | .datum t => t.inspect depth

/-- The text that tells a value, nested less than `depth` deep, from values of other
    types. -/
def inspect? (s : Store) : (depth : Nat) → Value → Option String
  | 0, _ => none
  | depth + 1, v =>
    match v with
    | .boolean b => some (if b then "True" else "False")
    | .number x => some (Number.literal x)
    | .string t => some (Text.quoted t)
    | .array r => do
      let texts ← (s.items r).toList.mapM (inspect? s depth)
      return "Array([" ++ ", ".intercalate texts ++ "])"
    | .object r => do
      let texts ← (s.entries r).mapM fun (name, item) =>
        (inspect? s depth item).map fun text => name.inspect ++ ": " ++ text
      return "Object(\x7b" ++ ", ".intercalate texts ++ "\x7d)"
    | v => s.display? (depth + 1) v

end BoxScript.Store
