import ScriptOptimizer.Text.Hex
import ScriptOptimizer.Text.Value

/-!
# Quoted string literals

`encode` writes a string value as a double-quoted literal and `decode` reads the body of a literal of
either quote style. A backslash before a character outside ASCII keeps the first byte of the character
as a stray byte and turns each later byte into a replacement character.
-/

namespace ScriptOptimizer.Quoted

/-- The characters that stand for one character inside a literal. -/
def encodeChar (c : Char) : List Char :=
  if c = '"' then ['\\', '"']
  else if c = '\\' then ['\\', '\\']
  else if c = '\n' then ['\\', 'n']
  else if c = '\r' then ['\\', 'r']
  else if c = '\t' then ['\\', 't']
  else if c.toNat = 8 then ['\\', 'b']
  else if c.toNat = 12 then ['\\', 'f']
  else if c.toNat = 0x2028 ∨ c.toNat = 0x2029 then '\\' :: 'u' :: hexDigits 4 c.toNat
  else if c.toNat < 0x20 ∨ c.toNat = 0x7F then '\\' :: 'x' :: hexDigits 2 c.toNat
  else [c]

/-- The double-quoted literal of a string value. -/
def encode (t : Text) : String :=
  String.ofList ('"' :: (t.flatMap fun a => encodeChar a.shown) ++ ['"'])

/-- What can be wrong with an escape. -/
inductive EscapeFault where
  | hexadecimal
  | unicode
deriving DecidableEq, Repr

/-- The character of a code point; code points of no character give the replacement character. -/
def charOfCodePoint (n : Nat) : Char :=
  if n < 0xD800 ∨ (0xE000 ≤ n ∧ n < 0x110000) then Char.ofNat n else replacementChar

/-- What a backslash before `c` stands for when `c` starts no longer escape. -/
def simpleEscape (c : Char) : Text :=
  if c = 'n' then [.char '\n']
  else if c = 't' then [.char '\t']
  else if c = 'r' then [.char '\r']
  else if c = 'b' then [.char (Char.ofNat 8)]
  else if c = 'f' then [.char (Char.ofNat 12)]
  else if c = 'v' then [.char (Char.ofNat 11)]
  else if c = '0' then [.char (Char.ofNat 0)]
  else if c = '\n' then []
  else
    match String.utf8EncodeChar c with
    | first :: second :: later =>
      .stray first :: (second :: later).map fun _ => .char replacementChar
    | _ => [.char c]

/-- The value of the four or more digits of a Unicode escape. -/
def codePoint? (digits : List Char) : Option Nat := readBelow? 16 0x100000000 digits

/-- Reads the body of a literal. Each step reads a character or an escape, so the length of the body
bounds the number of steps. -/
def decodeWith : Nat → List Char → Except EscapeFault Text
  | 0, _ => .ok []
  | _, [] => .ok []
  | n + 1, '\\' :: 'x' :: rest =>
    match rest with
    | a :: b :: rest =>
      match readBelow? 16 256 [a, b] with
      | some v => do return .char (charOfCodePoint v) :: (← decodeWith n rest)
      | none => .error .hexadecimal
    | _ => .error .hexadecimal
  | n + 1, '\\' :: 'u' :: '{' :: rest =>
    if rest.contains '}' then
      match codePoint? (rest.takeWhile (· ≠ '}')) with
      | some v => do
        return .char (charOfCodePoint v) :: (← decodeWith n ((rest.dropWhile (· ≠ '}')).drop 1))
      | none => .error .unicode
    else .error .unicode
  | n + 1, '\\' :: 'u' :: rest =>
    match rest with
    | a :: b :: c :: d :: rest =>
      match codePoint? [a, b, c, d] with
      | some v => do return .char (charOfCodePoint v) :: (← decodeWith n rest)
      | none => .error .unicode
    | _ => .error .unicode
  | _ + 1, ['\\'] => .ok []
  | n + 1, '\\' :: c :: rest => do return simpleEscape c ++ (← decodeWith n rest)
  | n + 1, c :: rest => do return .char c :: (← decodeWith n rest)

/-- The value of the body of a literal. -/
def decode (body : List Char) : Except EscapeFault Text := decodeWith body.length body

/-- The value of a whole literal, its quotes included. -/
def decodeLiteral (literal : String) : Except EscapeFault Text :=
  decode ((literal.toList.drop 1).dropLast)

end ScriptOptimizer.Quoted
