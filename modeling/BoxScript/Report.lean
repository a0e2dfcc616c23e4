/-
  Reported errors: the name of the error, a message, and the place if there is one.
  `Report.text` is the line that a user reads.
-/

namespace BoxScript

/-- An error as a user reads it.  A place has a line and, as a rule, a column. -/
structure Report where
  name : String
  message : String
  line : Option Int := none
  column : Option Int := none
  deriving DecidableEq, Repr

namespace Report

/-- The column as it is written after its line. -/
def columnText : Option Int → String
  | some n => toString n
  | none => "None"

/-- The text of a report: name, message, and the place if the line is known. -/
def text (r : Report) : String :=
  let body := r.name ++ ": " ++ r.message
  match r.line with
  | some line => body ++ " at line " ++ toString line ++ ", column " ++ columnText r.column
  | none => body

end Report

end BoxScript
