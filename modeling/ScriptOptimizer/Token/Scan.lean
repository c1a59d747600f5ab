import ScriptOptimizer.Token.Lexer

/-!
# Semicolon insertion

The grammar sees the tokens without comments and whitespace, with the semicolons that line breaks stand
for: after `return`, `break` and `continue`, and in front of `++` and `--` behind an operand. Words that
introduce constructs outside the subset are refused here unless they name a property.
-/

namespace ScriptOptimizer.Scan

/-- The construct that a word introduces when the grammar has no production for it. -/
def unsupportedWord? : String → Option Unsupported
  | "try" | "catch" | "finally" => some .tryStatement
  | "switch" | "case" | "default" => some .switchStatement
  | "class" | "extends" | "super" => some .classForm
  | "with" => some .withStatement
  | "import" | "export" => some .moduleForm
  | "enum" => some .enumDeclaration
  | "debugger" => some .debuggerStatement
  | "yield" => some .yieldExpression
  | _ => none

/-- Whether a word between two tokens names a property, as in `a.default` or `default: 1` inside
braces. -/
def isPropertyName (before after : Option Token) : Bool :=
  match before with
  | none => false
  | some p =>
    p.isPunct "." ||
      (after.any (·.isPunct ":") && (p.isPunct "\x7b" || p.isPunct ","))

/-- Whether an expression can end with a token. -/
def endsOperand (t : Token) : Bool :=
  match t.kind with
  | .number | .string => true
  | .ident => ["this", "null", "true", "false"].contains t.text || !isReserved t.text
  | _ => t.isPunct ")" || t.isPunct "]" || t.isPunct "\x7d"

/-- The semicolon inserted right behind a token. -/
def semicolonAfter (t : Token) : Token :=
  { kind := .punct
    text := ";"
    pos := { t.pos with
      offset := t.pos.offset + t.text.utf8ByteSize
      column := t.pos.column + t.text.length } }

/-- Whether a line break in front of a token ends the statement. -/
def breaksBefore (before : Option Token) (t : Token) : Bool :=
  (t.isPunct "++" || t.isPunct "--") &&
    before.any fun p => p.lineBreakBetween t && endsOperand p

/-- The semicolons that a line break behind the word `t` stands for. -/
def insertedAfter (t : Token) (after : Option Token) : Except Failure (List Token) :=
  match after with
  | none => .ok []
  | some next =>
    if !t.lineBreakBetween next then .ok []
    else
      match t.text with
      | "return" | "break" | "continue" =>
        .ok (if next.isPunct ";" then [] else [semicolonAfter t])
      | "throw" => .error ⟨.malformed .lineBreakAfterThrow, next.pos⟩
      | _ => .ok []

/-- Inserts semicolons into the tokens behind `before`. -/
def insert (before : Option Token) : List Token → Except Failure (List Token)
  | [] => .ok []
  | t :: rest => do
    let after := rest.head?
    let isWord := t.kind == .ident && !isPropertyName before after
    if isWord then
      if let some what := unsupportedWord? t.text then
        throw ⟨.unsupported what, t.pos⟩
    let inFront := if breaksBefore before t then before.toList.map semicolonAfter else []
    let behind ← if isWord then insertedAfter t after else pure []
    return inFront ++ t :: (behind ++ (← insert (some t) rest))

/-- The tokens of a source as the grammar sees them. -/
def scan (file source : String) : Except Failure (List Token) := do
  let all ← Lexer.tokens file source
  insert none (all.filter fun t => !t.isTrivia)

end ScriptOptimizer.Scan
