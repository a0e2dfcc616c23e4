/-
  Where parsing stops.

  * `Expectation` is what the grammar wants at a place, with its wording;
  * `Complaint` is the way in which a token violates the grammar;
  * `Obstacle` is why a token list has no tree: a violation with its token, a number that
    cannot be read, nesting beyond the limit, or a list that is not closed.
-/
import BoxScript.Report
import BoxScript.Text.Quoted
import BoxScript.Token.Basic

namespace BoxScript

/-- What the grammar wants at a place. -/
inductive Expectation where
  | variableName | boxEquals | boxEnd
  | constantName | noChangeEquals | noChangeEnd
  | arrayName | boxesEquals | boxesEnd
  | arrayOpen | arrayClose | indexClose | groupClose | argumentsClose
  | conditionDoIt | whileDoIt | bodyEnd
  | loopVariable | loopEquals | loopTo | loopDoIt
  | functionName | paramsOpen | parameterName | signatureDoIt
  | returnEnd | assignmentEnd
  deriving DecidableEq, Repr

/-- The wording of an expectation. -/
def Expectation.phrase : Expectation → String
  | variableName => "variable name"
  | boxEquals => "'=' in box declaration"
  | boxEnd => "'end' after box declaration"
  | constantName => "constant name"
  | noChangeEquals => "'=' in noChange declaration"
  | noChangeEnd => "'end' after noChange declaration"
  | arrayName => "array name"
  | boxesEquals => "'=' in boxes declaration"
  | boxesEnd => "'end' after boxes declaration"
  | arrayOpen => "'[' to start array literal"
  | arrayClose => "']' to end array literal"
  | indexClose => "']' after array index"
  | groupClose => "')'"
  | argumentsClose => "')' after function arguments"
  | conditionDoIt => "'doIt' after condition"
  | whileDoIt => "'doIt' after while condition"
  | bodyEnd => "'end'"
  | loopVariable => "loop variable"
  | loopEquals => "'=' after loop variable"
  | loopTo => "'to'"
  | loopDoIt => "'doIt'"
  | functionName => "function name"
  | paramsOpen => "'(' after function name"
  | parameterName => "parameter name"
  | signatureDoIt => "'doIt' after function signature"
  | returnEnd => "'end' after return"
  | assignmentEnd => "'end' after assignment"

/-- The way in which a token violates the grammar. -/
inductive Complaint where
  | expected (what : Expectation)
  | statementStart
  | afterName
  | inExpression
  | assignmentToCall
  deriving DecidableEq, Repr

/-- A token as messages give it. -/
def Token.describe (t : Token) : String :=
  if t.kind = .endOfInput then "end of input" else Text.quoted t.text

/-- The wording of a complaint about a token. -/
def Complaint.message (t : Token) : Complaint → String
  | expected what => "expected " ++ what.phrase ++ ", got " ++ t.describe
  | statementStart => "unexpected token " ++ t.describe ++ " at start of statement"
  | afterName => "unexpected token after identifier: " ++ t.describe
  | inExpression => "unexpected token in expression: " ++ t.describe
  | assignmentToCall => "cannot assign to the result of a call"

/-- Why a token list has no tree. -/
inductive Obstacle where
  /-- The token violates the grammar. -/
  | unexpected (complaint : Complaint) (token : Token)
  /-- The text of a number token is no number. -/
  | unreadableNumber (text : String)
  /-- The program is nested deeper than the limit. -/
  | tooDeep
  /-- The list does not end with the end of input. -/
  | unclosed
  deriving DecidableEq, Repr

/-- The report on a violation of the grammar by a token. -/
def Complaint.report (complaint : Complaint) (t : Token) : Report where
  name := "UnexpectedToken"
  message := complaint.message t
  line := t.line
  column := t.column

/-- The report on nesting beyond the limit. -/
def Report.tooDeep : Report where
  name := "StackOverflow"
  message := "program is nested too deeply to parse"

end BoxScript
