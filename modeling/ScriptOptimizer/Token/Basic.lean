import ScriptOptimizer.Position

/-!
# Tokens

A token is a piece of the source with its kind and its position. The end of the source is a token too.
-/

namespace ScriptOptimizer

inductive TokenKind where
  | comment | string | number | ident | punct | whitespace | eof
deriving DecidableEq, Repr, Inhabited

def TokenKind.name : TokenKind → String
  | comment => "Comment"
  | string => "String"
  | number => "Number"
  | ident => "Ident"
  | punct => "Punct"
  | whitespace => "Whitespace"
  | eof => "EOF"

/-- A piece of the source. -/
structure Token where
  kind : TokenKind
  text : String
  pos : Position
deriving DecidableEq, Repr, Inhabited

namespace Token

/-- Whether a token is the punctuation `text`. -/
def isPunct (t : Token) (text : String) : Bool := t.kind == .punct && t.text == text

/-- The text by which a message names a token. -/
def shown (t : Token) : String := if t.kind = .eof then "<EOF>" else t.text

def endLine (t : Token) : Nat := t.pos.line + t.text.toList.count '\n'

/-- Whether a token starts on a later line than the one before it ends. -/
def lineBreakBetween (before after : Token) : Bool := before.endLine < after.pos.line

/-- Whether a token means nothing to the grammar. -/
def isTrivia (t : Token) : Bool := t.kind == .comment || t.kind == .whitespace

end Token

/-- Words that never name a binding, a label or a variable. -/
def reservedWords : List String :=
  ["break", "case", "catch", "class", "const", "continue", "debugger", "default", "delete", "do",
    "else", "enum", "export", "extends", "false", "finally", "for", "function", "if", "import", "in",
    "instanceof", "new", "null", "return", "super", "switch", "this", "throw", "true", "try", "typeof",
    "var", "void", "while", "with", "yield"]

def isReserved (word : String) : Bool := reservedWords.contains word

end ScriptOptimizer
