/-
  Line ends of text files.
-/
namespace BoxScript.Text

/-- The characters with each carriage return, alone or before a line feed, turned into one
    line feed. -/
def unifyLineEnds : List Char → List Char
  | [] => []
  | '\r' :: '\n' :: rest => '\n' :: unifyLineEnds rest
  | '\r' :: rest => '\n' :: unifyLineEnds rest
  | c :: rest => c :: unifyLineEnds rest

/-- The text that a file with these contents holds. -/
def ofFile (contents : String) : String := String.ofList (unifyLineEnds contents.toList)

end BoxScript.Text
