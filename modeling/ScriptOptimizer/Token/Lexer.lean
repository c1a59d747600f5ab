import ScriptOptimizer.Diagnostic.Fault
import ScriptOptimizer.Text.Name
import ScriptOptimizer.Token.Basic

/-!
# Lexing

At each position the kinds of lexeme are tried in a fixed order: comment, string, number, identifier,
punctuation, whitespace. The first kind that has a lexeme there wins, whatever its length. Each rule
gives the number of characters of its lexeme, which is never zero.
-/

namespace ScriptOptimizer.Lexer

/-- The number of characters up to and including the end mark of a block comment. -/
def closeLength? : List Char → Option Nat
  | '*' :: '/' :: _ => some 2
  | _ :: cs => (closeLength? cs).map (· + 1)
  | [] => none

/-- A comment to the end of the line, or between `/*` and `*/`. -/
def commentLength? : List Char → Option Nat
  | '/' :: '/' :: cs => some (2 + (cs.takeWhile (· ≠ '\n')).length)
  | '/' :: '*' :: cs => (closeLength? cs).map (· + 2)
  | _ => none

/-- The number of characters of a string behind its opening quote, the closing one included. A
backslash takes the next character along. -/
def stringRest? (quote : Char) : List Char → Option Nat
  | [] => none
  | ['\\'] => none
  | '\\' :: c :: cs => if c = '\n' then none else (stringRest? quote cs).map (· + 2)
  | c :: cs =>
    if c = quote then some 1
    else if c = '\n' then none
    else (stringRest? quote cs).map (· + 1)

/-- A string in single or double quotes on one line. -/
def stringLength? : List Char → Option Nat
  | '"' :: cs => (stringRest? '"' cs).map (· + 1)
  | '\'' :: cs => (stringRest? '\'' cs).map (· + 1)
  | _ => none

/-- The number of leading characters with a property. -/
def runLength (p : Char → Bool) (cs : List Char) : Nat := (cs.takeWhile p).length

/-- A number in base 16, 8 or 2 with its base mark. -/
def basedLength? : List Char → Option Nat
  | '0' :: mark :: cs =>
    let n :=
      match mark with
      | 'x' | 'X' => runLength (fun c => (digitValue? c).isSome) cs
      | 'o' | 'O' => runLength (fun c => '0' ≤ c && c ≤ '7') cs
      | 'b' | 'B' => runLength (fun c => c == '0' || c == '1') cs
      | _ => 0
    if n = 0 then none else some (2 + n)
  | _ => none

/-- Digits with an optional point, or a point with digits. -/
def mantissaLength? (cs : List Char) : Option Nat :=
  let n := runLength Char.isDigit cs
  match n, cs.drop n with
  | 0, '.' :: rest => let m := runLength Char.isDigit rest; if m = 0 then none else some (1 + m)
  | 0, _ => none
  | n, '.' :: rest => some (n + 1 + runLength Char.isDigit rest)
  | n, _ => some n

/-- The length of an exponent, zero when there is none. -/
def exponentLength : List Char → Nat
  | e :: cs =>
    if e = 'e' ∨ e = 'E' then
      let sign := match cs with
        | '+' :: _ | '-' :: _ => 1
        | _ => 0
      let n := runLength Char.isDigit (cs.drop sign)
      if n = 0 then 0 else 1 + sign + n
    else 0
  | [] => 0

def numberLength? (cs : List Char) : Option Nat :=
  basedLength? cs <|> (mantissaLength? cs).map fun n => n + exponentLength (cs.drop n)

/-- An identifier or a word of the language. -/
def identLength? : List Char → Option Nat
  | c :: cs => if isNameStart c then some (1 + runLength isNamePart cs) else none
  | [] => none

/-- The punctuation marks, longer ones before their beginnings. -/
def marks : List String :=
  [">>>=", "...", "===", "!==", "**=", "<<=", ">>=", ">>>", "&&=", "||=", "??=", "=>", "==", "!=",
    "<=", ">=", "&&", "||", "??", "++", "--", "+=", "-=", "*=", "/=", "%=", "&=", "|=", "^=", "**",
    "<<", ">>", "-", "+", "*", "/", "%", "=", "<", ">", "!", "~", "&", "|", "^", "?", ":", ";", ",",
    ".", "(", ")", "\x7b", "\x7d", "[", "]"]

/-- A punctuation mark. -/
def punctLength? (cs : List Char) : Option Nat :=
  (marks.find? fun m => m.toList.isPrefixOf cs).map String.length

/-- Whether a character separates tokens. -/
def isSeparator (c : Char) : Bool := c == ' ' || c == '\t' || c == '\r' || c == '\n'

/-- A run of separators. -/
def whitespaceLength? (cs : List Char) : Option Nat :=
  let n := runLength isSeparator cs
  if n = 0 then none else some n

/-- The rules in the order in which they are tried. -/
def rules : List (TokenKind × (List Char → Option Nat)) :=
  [(.comment, commentLength?), (.string, stringLength?), (.number, numberLength?),
    (.ident, identLength?), (.punct, punctLength?), (.whitespace, whitespaceLength?)]

/-- The kind and length of the lexeme at the start of a text. -/
def lexeme? (cs : List Char) : Option (TokenKind × Nat) :=
  rules.findSome? fun r => (r.2 cs).map fun n => (r.1, n)

/-- The tokens of a text from a position on; every lexeme takes a character, so the length of the text
bounds the number of tokens. -/
def tokensWith : Nat → Position → List Char → Except Failure (List Token)
  | _, pos, [] => .ok [⟨.eof, "", pos⟩]
  | 0, pos, cs => .error ⟨.malformed (.unreadableText cs), pos⟩
  | fuel + 1, pos, cs =>
    match lexeme? cs with
    | none => .error ⟨.malformed (.unreadableText cs), pos⟩
    | some (kind, n) => do
      let text := cs.take n
      let rest ← tokensWith fuel (pos.advance text) (cs.drop n)
      return ⟨kind, String.ofList text, pos⟩ :: rest

/-- All tokens of a source, ending with the end token. -/
def tokens (file source : String) : Except Failure (List Token) :=
  let cs := source.toList
  tokensWith cs.length (.start file) cs

end ScriptOptimizer.Lexer
