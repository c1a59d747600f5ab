import ScriptOptimizer.Text.Value

/-!
# Blank characters

The characters with the White_Space property. A text of blanks only counts as empty when it is trimmed.
-/

namespace ScriptOptimizer

/-- Whether a character has the White_Space property. -/
def isBlank (c : Char) : Bool :=
  let n := c.toNat
  (9 ≤ n && n ≤ 13) || n == 0x20 || n == 0x85 || n == 0xA0 || n == 0x1680 ||
    (0x2000 ≤ n && n ≤ 0x200A) || n == 0x2028 || n == 0x2029 || n == 0x202F || n == 0x205F ||
    n == 0x3000

/-- Whether a string holds blanks only. -/
def isBlankString (s : String) : Bool := s.toList.all isBlank

/-- Whether a string value holds blanks only. -/
def Text.isBlank (t : Text) : Bool :=
  t.all fun
    | .char c => ScriptOptimizer.isBlank c
    | .stray _ => false

end ScriptOptimizer
