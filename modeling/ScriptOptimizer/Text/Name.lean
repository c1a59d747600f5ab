import ScriptOptimizer.Text.Value

/-!
# Identifier names

An identifier name is a letter, `_` or `$` followed by letters, digits, `_` and `$`. Only ASCII letters
and digits count.
-/

namespace ScriptOptimizer

/-- Whether a character can start an identifier name. -/
def isNameStart (c : Char) : Bool := c.isAlpha || c == '_' || c == '$'

/-- Whether a character can continue an identifier name. -/
def isNamePart (c : Char) : Bool := isNameStart c || c.isDigit

/-- Whether a list of characters is an identifier name. -/
def isNameChars : List Char → Bool
  | [] => false
  | c :: cs => isNameStart c && cs.all isNamePart

/-- Whether a string can be written as a bare identifier, property name or dotted member. -/
def isIdentifierName (s : String) : Bool := isNameChars s.toList

/-- The string of a value that is an identifier name. -/
def Text.identifierName? (t : Text) : Option String :=
  let s := t.shown
  if isIdentifierName s then some s else none

end ScriptOptimizer
