/-
  Statements and programs.

  * `statement` parses one statement; like `primary` it ties the knot one level of nesting
    at a time;
  * `parseTokens` is the tree of a token list that is closed by the end of input;
  * `parse` is the tree of a source text (`SyntaxError` tells why there is none).
-/
import BoxScript.Grammar.Expression
import BoxScript.Token.Scan

namespace BoxScript

namespace Grammar

open Parse

/-- Statements up to a token whose kind `closes` the body, at most `rounds` of them.  That
    token is left in place. -/
def statements (statement : Parse Tree) (closes : Kind → Bool) :
    (rounds : Nat) → Parse (List Tree)
  | 0 => return []
  | rounds + 1 => do
    let k ← kind
    if closes k then return []
    else if k = .endOfInput then refuse (.expected .bodyEnd)
    else
      let first ← statement
      return first :: (← statements statement closes rounds)

/-- A body up to a token that closes it, and that token. -/
def body (statement : Parse Tree) (closes : Kind → Bool) : Parse (Tree × Kind) := do
  let items ← statements statement closes ((← remaining) + 1)
  let closing ← advance
  return (.block (.list items), closing.kind)

/-- `box <name> [= <expression>] end` -/
def boxStatement (primary : Parse Tree) : Parse Tree := do
  discard advance
  let name ← expectName .variableName
  let initializer ← if (← kind) = .endKw then pure Tree.null else do
    discard (expect .equals .boxEquals)
    expression primary
  discard (expect .endKw .boxEnd)
  return .variableDeclaration (.text name) initializer (.bool false) (.bool false)

/-- `noChange <name> = <expression> end` -/
def noChangeStatement (primary : Parse Tree) : Parse Tree := do
  discard advance
  let name ← expectName .constantName
  discard (expect .equals .noChangeEquals)
  let initializer ← expression primary
  discard (expect .endKw .noChangeEnd)
  return .variableDeclaration (.text name) initializer (.bool true) (.bool false)

/-- `boxes <name> = <array> end` -/
def boxesStatement (primary : Parse Tree) : Parse Tree := do
  discard advance
  let name ← expectName .arrayName
  discard (expect .equals .boxesEquals)
  let initializer ← arrayLiteral primary
  discard (expect .endKw .boxesEnd)
  return .variableDeclaration (.text name) initializer (.bool false) (.bool true)

/-- The condition after `if` or `while`, turned round if the keyword is the negated one. -/
def test (primary : Parse Tree) (negated : Kind) : Parse Tree := do
  let keyword ← advance
  let inner ← condition primary
  return if keyword.kind = negated then .logicalExpression (.text "not") inner .null else inner

/-- `if|ifNot <condition> doIt <statements> [else [doIt] <statements>] end` -/
def ifStatement (primary statement : Parse Tree) : Parse Tree := do
  let condition ← test primary .ifNotKw
  discard (expect .doItKw .conditionDoIt)
  let (consequent, closing) ← body statement fun k => k = .endKw ∨ k = .elseKw
  if closing = .elseKw then
    skipIf .doItKw
    let (alternate, _) ← body statement fun k => k = .endKw
    return .ifStatement condition consequent alternate
  else return .ifStatement condition consequent .null

/-- `while|whileNot <condition> doIt <statements> end` -/
def whileStatement (primary statement : Parse Tree) : Parse Tree := do
  let condition ← test primary .whileNotKw
  discard (expect .doItKw .whileDoIt)
  let (inner, _) ← body statement fun k => k = .endKw
  return .whileStatement condition inner

/-- `for <name> = <expression> to <expression> doIt <statements> end` -/
def forStatement (primary statement : Parse Tree) : Parse Tree := do
  discard advance
  let name ← expectName .loopVariable
  discard (expect .equals .loopEquals)
  let start ← expression primary
  discard (expect .toKw .loopTo)
  let stop ← expression primary
  discard (expect .doItKw .loopDoIt)
  let (inner, _) ← body statement fun k => k = .endKw
  return .forStatement (.text name) start stop inner

/-- The further parameters of a function and the closing parenthesis, at most `rounds`
    parameters.  A comma after a parameter may be left out. -/
def parameters : (rounds : Nat) → Parse (List Tree)
  | 0 => return []
  | rounds + 1 => do
    if (← kind) = .endParams then
      discard advance
      return []
    else
      let name ← expectName .parameterName
      skipIf .comma
      return .text name :: (← parameters rounds)

/-- `function <name> ( <names> ) doIt <statements> end` -/
def functionStatement (statement : Parse Tree) : Parse Tree := do
  discard advance
  let name ← expectName .functionName
  discard (expect .beginParams .paramsOpen)
  let params ← parameters ((← remaining) + 1)
  discard (expect .doItKw .signatureDoIt)
  let (inner, _) ← body statement fun k => k = .endKw
  return .functionDeclaration (.text name) (.list params) inner

/-- `return [<expression>] end` -/
def returnStatement (primary : Parse Tree) : Parse Tree := do
  discard advance
  let argument ← if (← kind) = .endKw then pure Tree.null else expression primary
  discard (expect .endKw .returnEnd)
  return .returnStatement argument

/-- Can the tree stand before the `=` of an assignment? -/
def isTarget : Tree → Bool
  | .identifier _ | .arrayAccess _ _ => true
  | _ => false

/-- Is the tree a call? -/
def isCall : Tree → Bool
  | .callExpression _ _ => true
  | _ => false

/-- A statement that begins with a name: an assignment to the name or to an element, or a
    call. -/
def nameStatement (primary : Parse Tree) : Parse Tree := do
  let name ← advance
  let target ← named primary name.text
  if (← kind) = .equals then
    if isTarget target then
      discard advance
      let value ← expression primary
      discard (expect .endKw .assignmentEnd)
      return .assignmentExpression target value
    else refuse .assignmentToCall
  else if isCall target then return target
  else refuse .afterName

/-- A statement; `primary` and `deeper` parse the primaries and statements inside it. -/
def statementStep (primary deeper : Parse Tree) : Parse Tree := do
  match ← kind with
  | .boxKw => boxStatement primary
  | .noChangeKw => noChangeStatement primary
  | .boxesKw => boxesStatement primary
  | .ifKw | .ifNotKw => ifStatement primary deeper
  | .whileKw | .whileNotKw => whileStatement primary deeper
  | .forKw => forStatement primary deeper
  | .functionKw => functionStatement deeper
  | .returnKw => returnStatement primary
  | .identifier => nameStatement primary
  | _ =>
    if (← peek).isWordOperator then nameStatement primary
    else refuse .statementStart

/-- A statement with at most `depth` levels of nesting. -/
def statement : (depth : Nat) → Parse Tree
  | 0 => throw .tooDeep
  | depth + 1 => statementStep (primary depth) (statement depth)

/-- Statements up to the end of input. -/
def program (depth : Nat) : Parse Tree := do
  let items ← statements (statement depth) (fun k => k = .endOfInput) ((← remaining) + 1)
  return .program (.list items)

end Grammar

/-- The tree of a token list, with at most `depth` levels of nesting. -/
def parseTokens (depth : Nat) (tokens : List Token) : Except Obstacle Tree :=
  match Cursor.ofList? tokens with
  | none => .error .unclosed
  | some start =>
    match Grammar.program depth start with
    | .ok tree _ => .ok tree
    | .error obstacle _ => .error obstacle

/-- Why a source text has no tree. -/
inductive SyntaxError where
  | lexical (error : LexError)
  | grammatical (obstacle : Obstacle)
  deriving DecidableEq, Repr

/-- The report on an error.  Of the obstacles, two do not arise from the tokens of a text, and
    have none. -/
def SyntaxError.report? : SyntaxError → Option Report
  | lexical e => some e.report
  | grammatical (.unexpected complaint token) => some (complaint.report token)
  | grammatical .tooDeep => some .tooDeep
  | grammatical (.unreadableNumber _) | grammatical .unclosed => none

/-- The tree of a source text, with at most `depth` levels of nesting. -/
def parse (depth : Nat) (source : String) : Except SyntaxError Tree :=
  match scan source with
  | .error e => .error (.lexical e)
  | .ok lexemes =>
    match parseTokens depth (lexemes.map Lexeme.token) with
    | .error obstacle => .error (.grammatical obstacle)
    | .ok tree => .ok tree

end BoxScript
