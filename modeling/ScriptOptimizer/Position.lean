/-!
# Positions in a source text

A position names a character of a source by file, byte offset, line and column. Offsets count bytes
from zero; lines and columns count from one, columns in characters. Only a line feed ends a line.
-/

namespace ScriptOptimizer

/-- A place in a source text. The default position stands for "no place". -/
structure Position where
  file : String := ""
  offset : Nat := 0
  line : Nat := 0
  column : Nat := 0
deriving DecidableEq, Repr, Inhabited

namespace Position

/-- The first character of a source. -/
def start (file : String) : Position := ⟨file, 0, 1, 1⟩

/-- The position behind one character. -/
def next (p : Position) (c : Char) : Position :=
  if c = '\n' then ⟨p.file, p.offset + c.utf8Size, p.line + 1, 1⟩
  else ⟨p.file, p.offset + c.utf8Size, p.line, p.column + 1⟩

/-- The position behind a run of characters. -/
def advance (p : Position) (cs : List Char) : Position := cs.foldl next p

end Position

end ScriptOptimizer
