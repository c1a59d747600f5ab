import ScriptOptimizer.Text.Hex
import ScriptOptimizer.Text.Printable

/-!
# Escaped text in messages

Messages show a piece of source between double quotes, with everything that has no visible form
escaped.
-/

namespace ScriptOptimizer.Escaped

/-- The characters shown for one character of the source. -/
def escapeChar (c : Char) : List Char :=
  if c = '"' then ['\\', '"']
  else if c = '\\' then ['\\', '\\']
  else if isPrintable c then [c]
  else
    match c.toNat with
    | 7 => ['\\', 'a']
    | 8 => ['\\', 'b']
    | 9 => ['\\', 't']
    | 10 => ['\\', 'n']
    | 11 => ['\\', 'v']
    | 12 => ['\\', 'f']
    | 13 => ['\\', 'r']
    | n => if n < 0x80 then '\\' :: 'x' :: hexDigits 2 n else '\\' :: 'u' :: hexDigits 4 n

/-- A text between double quotes. -/
def escape (s : String) : String :=
  String.ofList ('"' :: s.toList.flatMap escapeChar ++ ['"'])

/-- How many characters of the source a message shows. -/
def sampleLength : Nat := 16

/-- The start of a text, with dots when the text goes on. -/
def sample (cs : List Char) : String :=
  if sampleLength < cs.length then String.ofList (cs.take sampleLength) ++ "..." else String.ofList cs

end ScriptOptimizer.Escaped
