/-!
# String values

The value of a string literal is a sequence of characters. An escape can also leave a single byte that
belongs to no character (see `Text.Quoted`), so the elements are characters and stray bytes. A stray
byte is shown as the replacement character.
-/

namespace ScriptOptimizer

/-- One element of a string value: a character, or a byte that belongs to none. -/
inductive Atom where
  | char (c : Char)
  | stray (byte : UInt8)
deriving DecidableEq, Repr, Inhabited

/-- A string value. -/
abbrev Text := List Atom

/-- The replacement character, U+FFFD. -/
def replacementChar : Char := Char.ofNat 0xFFFD

namespace Atom

/-- The character shown for an element. -/
def shown : Atom → Char
  | char c => c
  | stray _ => replacementChar

/-- The number of UTF-16 units of an element. -/
def units16 (a : Atom) : Nat := if a.shown.toNat < 0x10000 then 1 else 2

/-- The bytes of an element. -/
def bytes : Atom → List UInt8
  | char c => String.utf8EncodeChar c
  | stray b => [b]

end Atom

namespace Text

/-- The value that holds exactly the characters of a string. -/
def ofString (s : String) : Text := s.toList.map Atom.char

/-- The text shown for a value, a replacement character for each stray byte. -/
def shown (t : Text) : String := String.ofList (t.map Atom.shown)

/-- The length of a value in UTF-16 units. -/
def units16 (t : Text) : Nat := t.foldr (fun a n => a.units16 + n) 0

/-- The bytes of a value. -/
def bytes (t : Text) : List UInt8 := t.flatMap Atom.bytes

/-- Whether every element is an ASCII character. -/
def isAscii (t : Text) : Bool :=
  t.all fun
    | .char c => c.toNat < 0x80
    | .stray _ => false

/-- The order of byte sequences, by the first byte that differs and then by length. -/
def bytesLt : List UInt8 → List UInt8 → Bool
  | [], [] => false
  | [], _ :: _ => true
  | _ :: _, [] => false
  | a :: as, b :: bs => a < b || (a == b && bytesLt as bs)

/-- Whether a value comes before another in the order of their bytes. -/
def lt (s t : Text) : Bool := bytesLt s.bytes t.bytes

end Text

/-- The length of a string in UTF-16 units. -/
def units16 (s : String) : Nat := (Text.ofString s).units16

end ScriptOptimizer
