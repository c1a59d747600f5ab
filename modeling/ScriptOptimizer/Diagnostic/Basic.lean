import ScriptOptimizer.Position

/-!
# Diagnostics

A diagnostic says what is wrong with an input and where. Its code fixes a description and a category.
Codes of unsupported constructs run from `E0100`, those of malformed input from `E0150`, those of broken
invariants of the optimizer from `E0900`.
-/

namespace ScriptOptimizer

/-- The severity of a diagnostic. -/
inductive Level where
  | error | warning | note | help
  | other (word : String)
deriving DecidableEq, Repr, Inhabited

namespace Level

/-- The word that a report shows for a severity. -/
def word : Level → String
  | error => "error"
  | warning => "warning"
  | note => "note"
  | help => "help"
  | other w => w

/-- The severity of a word. -/
def ofWord : String → Level
  | "error" => error
  | "warning" => warning
  | "note" => note
  | "help" => help
  | w => other w

end Level

/-- A statement about an input, with the span it is about and advice. -/
structure Diagnostic where
  level : Level := .error
  code : String := ""
  message : String := ""
  file : String := ""
  offset : Nat := 0
  line : Int := 0
  column : Int := 0
  length : Int := 0
  notes : List String := []
  suggestions : List String := []
  help : String := ""
deriving DecidableEq, Repr, Inhabited

namespace Diagnostic

/-- What a code stands for. -/
def description : String → String
  | "E0101" => "Labeled statements are not supported"
  | "E0102" => "Destructuring patterns are not supported"
  | "E0103" => "Spread and rest syntax is not supported"
  | "E0104" => "Generator functions are not supported"
  | "E0105" => "Invalid assignment target"
  | "E0106" => "Binding is read before its declaration"
  | "E0107" => "Input is nested too deeply"
  | "E0108" => "Block-scoped binding captured inside a loop"
  | "E0109" => "Function expression in a loop update"
  | "E0110" => "Statement form is not supported"
  | "E0150" => "Syntax error"
  | "E0900" => "Internal optimizer error"
  | _ => "Unknown error code"

/-- The range that a code falls into, by the order of texts. -/
def category (code : String) : String :=
  if "E0100" ≤ code ∧ code < "E0150" then "Unsupported"
  else if "E0150" ≤ code ∧ code < "E0200" then "Parser"
  else if "E0900" ≤ code ∧ code < "E1000" then "Internal"
  else "Unknown"

/-- An error of one column at a position. -/
def located (pos : Position) (code message : String) : Diagnostic :=
  { code, message, file := pos.file, offset := pos.offset, line := pos.line, column := pos.column
    length := 1 }

/-- Severity, code and message. -/
def title (d : Diagnostic) : String :=
  if d.code = "" then s!"{d.level.word}: {d.message}"
  else d.level.word ++ "[" ++ d.code ++ "]: " ++ d.message

/-- The diagnostic on one line, with file, line and column as far as they are known. -/
def summary (d : Diagnostic) : String :=
  let file := if d.file = "" then "" else d.file ++ ":"
  let place :=
    if 0 < d.line then s!"{d.line}:{d.column}: "
    else if d.file = "" then "" else " "
  file ++ place ++ d.title

end Diagnostic

end ScriptOptimizer
