/-!
# Layout of printed source

A printer produces pieces; a layout turns pieces into text. The pretty layout writes optional spaces and
line breaks, the compact layout leaves them out. In both, two words, two plus signs and two minus signs
that would run together are kept apart by a space.
-/

namespace ScriptOptimizer

/-- What a printed tree can miss. -/
inductive Missing where
  | expression
  | statement
deriving DecidableEq, Repr

/-- The words for a missing node. -/
def Missing.message : Missing → String
  | expression => "ast: unknown expression <nil>"
  | statement => "ast: unknown statement <nil>"

/-- A piece of printed source. -/
inductive Piece where
  /-- Text that is glued to what stands before it. -/
  | glued (text : String)
  /-- Text that must not run together with what stands before it. -/
  | word (text : String)
  /-- An optional space. -/
  | space
  /-- An optional line break. -/
  | newline
  /-- More indentation from the next line on. -/
  | indent
  /-- Less indentation from the next line on. -/
  | dedent
  /-- A node that is not there. -/
  | missing (what : Missing)
deriving DecidableEq, Repr

/-- How pieces become text. -/
structure Layout where
  compact : Bool := false
  /-- The indentation of one level, two spaces when it is empty. -/
  indentation : String := ""

namespace Layout

/-- The indentation of one level. -/
def unit (l : Layout) : String := if l.indentation = "" then "  " else l.indentation

/-- Whether a character can be part of a word. -/
def isWordChar (c : Char) : Bool := c.isAlphanum || c == '_' || c == '$' || 0x80 ≤ c.toNat

/-- Whether two characters would run together. -/
def runTogether (before after : Char) : Bool :=
  (isWordChar before && isWordChar after) || ((before == '+' || before == '-') && before == after)

/-- The text written so far, its last character and the current indentation. -/
structure State where
  text : String := ""
  last : Option Char := none
  depth : Nat := 0

/-- Appends a text. -/
def State.write (s : State) (text : String) : State :=
  match text.toList.getLast? with
  | none => s
  | some c => { s with text := s.text ++ text, last := some c }

/-- Appends one piece. -/
def State.piece (l : Layout) (s : State) : Piece → Except Missing State
  | .glued text => .ok (s.write text)
  | .word text =>
    match s.last, text.toList.head? with
    | some a, some b => .ok ((if runTogether a b then s.write " " else s).write text)
    | _, _ => .ok (s.write text)
  | .space => .ok (if l.compact then s else s.write " ")
  | .newline =>
    .ok (if l.compact then s
      else (List.replicate s.depth l.unit).foldl State.write (s.write "\n"))
  | .indent => .ok { s with depth := s.depth + 1 }
  | .dedent => .ok { s with depth := s.depth - 1 }
  | .missing what => .error what

/-- The text without line breaks at its end. -/
def trimEnd (text : String) : String :=
  String.ofList ((text.toList.reverse.dropWhile (· = '\n')).reverse)

/-- The text of a list of pieces. -/
def render (l : Layout) (pieces : List Piece) : Except Missing String := do
  let s ← pieces.foldlM (State.piece l) {}
  return trimEnd s.text

end Layout

end ScriptOptimizer
