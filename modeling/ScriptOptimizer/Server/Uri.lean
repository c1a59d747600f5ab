import ScriptOptimizer.Text.Escaped
import ScriptOptimizer.Text.Value

/-!
# Document identifiers

A client names a document by a URI. Only its decoded path matters: scheme, host, query and fragment are
dropped.
-/

namespace ScriptOptimizer.Uri

/-- What can be wrong with a URI. -/
inductive Fault where
  | badEscape (text : String)
  | missingScheme
  | colonInFirstSegment
  | controlCharacter
deriving DecidableEq, Repr

/-- The words for a fault. -/
def Fault.message : Fault → String
  | badEscape text => "invalid URL escape " ++ Escaped.escape text
  | missingScheme => "missing protocol scheme"
  | colonInFirstSegment => "first path segment in URL cannot contain colon"
  | controlCharacter => "net/url: invalid control character in URL"

/-- A malformed URI: the whole, the part that was read, and what is wrong with it. -/
structure Malformed where
  uri : String
  part : String
  fault : Fault
deriving DecidableEq, Repr

/-- The message for a malformed URI. -/
def Malformed.message (m : Malformed) : String :=
  let part := Escaped.escape m.part
  s!"invalid URI {m.uri}: parse {part}: {m.fault.message}"

/-- The value of two hexadecimal digits. -/
def byte? (a b : Char) : Option UInt8 := (readDigits? 16 0 [a, b]).map UInt8.ofNat

/-- The bytes that a text with percent escapes stands for. -/
def unescape : List Char → Except Fault (List UInt8)
  | [] => .ok []
  | '%' :: a :: b :: rest =>
    match byte? a b with
    | some x => do return x :: (← unescape rest)
    | none => .error (.badEscape (String.ofList ['%', a, b]))
  | '%' :: rest => .error (.badEscape (String.ofList ('%' :: rest)))
  | c :: rest => do return String.utf8EncodeChar c ++ (← unescape rest)

/-- The characters of bytes, a replacement character for each byte that belongs to none. -/
def decodeBytes (bytes : ByteArray) : Nat → Nat → List Char
  | 0, _ => []
  | fuel + 1, i =>
    if i < bytes.size then
      match bytes.utf8DecodeChar? i with
      | some c => c :: decodeBytes bytes fuel (i + c.utf8Size)
      | none => replacementChar :: decodeBytes bytes fuel (i + 1)
    else []

def text (bytes : List UInt8) : String :=
  let array := ByteArray.mk bytes.toArray
  String.ofList (decodeBytes array (array.size + 1) 0)

/-- A text without its scheme, and whether it had one. -/
def dropScheme (started : Bool) (whole : List Char) : List Char → Except Fault (Bool × List Char)
  | [] => .ok (false, whole)
  | c :: rest =>
    if c.isAlpha || (started && (c.isDigit || c == '+' || c == '-' || c == '.')) then
      dropScheme true whole rest
    else if c = ':' then
      if started then .ok (true, rest) else .error .missingScheme
    else .ok (false, whole)

/-- The part in front of the first `c` and the part behind it. -/
def cut (c : Char) (s : List Char) : List Char × List Char :=
  (s.takeWhile (· ≠ c), (s.dropWhile (· ≠ c)).drop 1)

/-- A text without its host. -/
def dropHost (hasScheme : Bool) : List Char → List Char
  | '/' :: '/' :: '/' :: rest => if hasScheme then '/' :: rest else '/' :: '/' :: '/' :: rest
  | '/' :: '/' :: rest => rest.dropWhile (· ≠ '/')
  | s => s

/-- The bytes of the path of a URI without its fragment. -/
def pathBytes (s : List Char) : Except Fault (List UInt8) := do
  if s.any fun c => c.toNat < 0x20 || c.toNat == 0x7F then throw .controlCharacter
  let (hasScheme, rest) ← dropScheme false s s
  let rest := (cut '?' rest).1
  if rest.head? ≠ some '/' then
    if hasScheme then return []
    if (cut '/' rest).1.contains ':' then throw .colonInFirstSegment
  unescape (dropHost hasScheme rest)

def path (uri : String) : Except Malformed String := do
  let (front, fragment) := cut '#' uri.toList
  let bytes ← (pathBytes front).mapError fun fault => ⟨uri, String.ofList front, fault⟩
  let _ ← (unescape fragment).mapError fun fault => (⟨uri, uri, fault⟩ : Malformed)
  return text bytes

end ScriptOptimizer.Uri
