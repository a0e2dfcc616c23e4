/-
  Blank characters: what may stand between two tokens, and what is trimmed from a typed
  number.  The table holds the separators and the characters of bidirectional class
  WS, B or S.
-/
import BoxScript.Text.CodeRanges

namespace BoxScript.Text

/-- The blank characters. -/
def blanks : CodeRanges :=
  [(9, 13), (28, 32), (133, 133), (160, 160), (5760, 5760), (8192, 8202), (8232, 8233),
   (8239, 8239), (8287, 8287), (12288, 12288)]

/-- Is the character blank? -/
def isBlank (c : Char) : Bool := blanks.contains c.toNat

/-- The text without the blanks at its two ends. -/
def trimBlanks (cs : List Char) : List Char :=
  ((cs.dropWhile isBlank).reverse.dropWhile isBlank).reverse

end BoxScript.Text
