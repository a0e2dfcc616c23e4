/-
  Tokens of the language.

  * `Kind` is the class of a token; `+` and `add` share the kind `plus`;
  * `Token` is a kind with its text and, if known, the place where it stands: it is all
    that the grammar looks at;
  * `Lexeme` is a token that was found in a source text, with the places of its two ends;
  * the tables `keywords`, `pairOperators` and `singleOperators` give the kind of a word and
    of an operator.
-/
import BoxScript.Position
import BoxScript.Text.Letter

namespace BoxScript

/-- The class of a token.  A token list that was not made by scanning a text can hold
    tokens of a class that the language does not have (`foreign`). -/
inductive Kind where
  | plus | minus | multiply | divide
  | equals | equalsEquals | notEquals
  | lessThan | lessThanOrEquals | greaterThan | greaterThanOrEquals
  | comma | openArray | closeArray | beginBlock | endBlock | beginParams | endParams
  | boxKw | boxesKw | noChangeKw | doItKw | endKw | notKw | andKw | orKw
  | ifKw | ifNotKw | elseKw | whileKw | whileNotKw | forKw | toKw | functionKw | returnKw
  | number | string | boolean | identifier | endOfInput
  | foreign (name : String)
  deriving DecidableEq, Repr

namespace Kind

/-- The words with a meaning of their own, the word spellings of operators among them. -/
def keywords : List (String × Kind) :=
  [("box", boxKw), ("boxes", boxesKw), ("noChange", noChangeKw), ("doIt", doItKw), ("end", endKw),
   ("true", boolean), ("false", boolean), ("not", notKw), ("and", andKw), ("or", orKw),
   ("if", ifKw), ("ifNot", ifNotKw), ("else", elseKw), ("while", whileKw),
   ("whileNot", whileNotKw), ("for", forKw), ("to", toKw), ("function", functionKw),
   ("return", returnKw),
   ("add", plus), ("subtract", minus), ("multiply", multiply), ("divide", divide),
   ("equal", equals), ("equals", equalsEquals), ("is", equalsEquals), ("notEqual", notEquals),
   ("lessThan", lessThan), ("lessThanOrEquals", lessThanOrEquals),
   ("greaterThan", greaterThan), ("greaterThanOrEquals", greaterThanOrEquals)]

/-- The operators of two characters. -/
def pairOperators : List ((Char × Char) × Kind) :=
  [(('=', '='), equalsEquals), (('!', '='), notEquals), (('<', '='), lessThanOrEquals),
   (('>', '='), greaterThanOrEquals)]

/-- The operators and marks of one character. -/
def singleOperators : List (Char × Kind) :=
  [('+', plus), ('-', minus), ('*', multiply), ('/', divide), ('=', equals), (',', comma),
   ('!', notEquals), ('[', openArray), (']', closeArray), ('<', lessThan), ('>', greaterThan),
   ('{', beginBlock), ('}', endBlock), ('(', beginParams), (')', endParams), (';', endKw)]

/-- The kind of a word: a keyword's own, and `identifier` for any other word. -/
def ofWord (word : String) : Kind := (keywords.lookup word).getD identifier

/-- The kind of an operator of two characters. -/
def ofPair? (c d : Char) : Option Kind := pairOperators.lookup (c, d)

/-- The kind of an operator or mark of one character. -/
def ofChar? (c : Char) : Option Kind := singleOperators.lookup c

/-- The operators of calculation. -/
def isArithmetic : Kind → Bool
  | plus | minus | multiply | divide => true
  | _ => false

/-- The operators that compare. -/
def isComparison : Kind → Bool
  | equalsEquals | notEquals | lessThan | lessThanOrEquals | greaterThan
  | greaterThanOrEquals => true
  | _ => false

/-- The operators that join conditions. -/
def isLogical : Kind → Bool
  | andKw | orKw => true
  | _ => false

/-- The operators that can be spelled as a word. -/
def isOperator (k : Kind) : Bool := k.isArithmetic || k.isComparison || k == equals

/-- The kinds that begin a further element of an array without a separator. -/
def startsElement : Kind → Bool
  | identifier | number | string | boolean | openArray | beginParams | minus | notKw => true
  | _ => false

end Kind

/-- A token as the grammar reads it. -/
structure Token where
  kind : Kind
  text : String
  line : Option Int := none
  column : Option Int := none
  deriving DecidableEq, Repr

/-- Is the token an operator that is spelled as a word?  Such a token serves as a name
    wherever no operator can stand. -/
def Token.isWordOperator (t : Token) : Bool := t.kind.isOperator && Text.isWord t.text

/-- A token with the places of its ends in the source.  The end of input, which closes
    every list of lexemes, has no end of its own. -/
structure Lexeme where
  kind : Kind
  text : String
  start : Position
  stop : Option Position
  deriving DecidableEq, Repr

/-- What the grammar reads of a lexeme. -/
def Lexeme.token (l : Lexeme) : Token :=
  ⟨l.kind, l.text, some (l.start.line : Int), some (l.start.column : Int)⟩

end BoxScript
