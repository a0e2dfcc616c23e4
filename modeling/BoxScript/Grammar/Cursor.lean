/-
  The place that parsing has reached in a token list.

  A cursor stands on a token, so there is always one to look at; it never moves past the
  end of input.  `Parse` is the monad of parsers; a parser that stops leaves the cursor on
  the token at which it stopped.
-/
import BoxScript.Grammar.Error

namespace BoxScript

/-- A token list with a place in it: the token at the place, and those after it. -/
structure Cursor where
  current : Token
  later : List Token
  deriving DecidableEq, Repr

namespace Cursor

/-- The cursor on the first token of a list that ends with the end of input. -/
def ofList? (tokens : List Token) : Option Cursor :=
  match tokens, tokens.getLast? with
  | first :: later, some last => if last.kind = .endOfInput then some ⟨first, later⟩ else none
  | _, _ => none

/-- The tokens from the place on. -/
def tokens (c : Cursor) : List Token := c.current :: c.later

/-- The cursor on the next token; the end of input is never passed. -/
def next (c : Cursor) : Cursor :=
  if c.current.kind = .endOfInput then c
  else match c.later with
    | [] => c
    | t :: later => ⟨t, later⟩

/-- The token after the current one, or the current one if it is the last. -/
def lookahead (c : Cursor) : Token := c.later.head?.getD c.current

end Cursor

/-- Parsing a part of a token list. -/
abbrev Parse := EStateM Obstacle Cursor

namespace Parse

/-- The current token. -/
def peek : Parse Token := return (← get).current

/-- The kind of the current token. -/
def kind : Parse Kind := return (← get).current.kind

/-- The number of tokens after the current one, which bounds the rounds of every loop. -/
def remaining : Parse Nat := return (← get).later.length

/-- Takes the current token. -/
def advance : Parse Token := modifyGet fun c => (c.current, c.next)

/-- Stops with a complaint about the current token. -/
def refuse {α : Type} (complaint : Complaint) : Parse α := do
  throw (.unexpected complaint (← peek))

/-- Takes a token of the given kind. -/
def expect (kind : Kind) (what : Expectation) : Parse Token := do
  if (← Parse.kind) = kind then advance else refuse (.expected what)

/-- Takes a name: an identifier, or an operator that is spelled as a word. -/
def expectName (what : Expectation) : Parse String := do
  if (← peek).isWordOperator then return (← advance).text
  else return (← expect .identifier what).text

/-- Takes the current token if it is of the given kind. -/
def skipIf (kind : Kind) : Parse Unit := do
  if (← Parse.kind) = kind then discard advance

end Parse

end BoxScript
