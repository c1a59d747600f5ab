import ScriptOptimizer.Number.Display
import ScriptOptimizer.Text.Name
import ScriptOptimizer.Text.Quoted

/-!
# Literals

The primitive values that a script can write down: numbers, strings, booleans, `null` and `undefined`.
-/

namespace ScriptOptimizer

/-- A primitive value. -/
inductive Literal where
  | number (value : Float)
  | string (value : Text)
  | bool (value : Bool)
  | null
  | undefined
deriving DecidableEq, Inhabited

namespace Literal

/-- Whether a literal counts as true in a condition. -/
def truthy : Literal → Bool
  | number x => !Number.isZero x && !Number.isNaN x
  | string t => !t.isEmpty
  | bool b => b
  | null | undefined => false

/-- Whether a literal is `null` or `undefined`. -/
def isNullish : Literal → Bool
  | null | undefined => true
  | _ => false

def isUndefined : Literal → Bool
  | undefined => true
  | _ => false

def isString : Literal → Bool
  | string _ => true
  | _ => false

/-- The literal as it is written in a script; `undefined` is written `void 0`. -/
def source : Literal → String
  | number x => Number.display x
  | string t => Quoted.encode t
  | bool b => if b then "true" else "false"
  | null => "null"
  | undefined => "void 0"

/-- The string that a literal converts to, which is also the property name it denotes. -/
def toText : Literal → Text
  | number x => Text.ofString (Number.display x)
  | string t => t
  | bool b => Text.ofString (if b then "true" else "false")
  | null => Text.ofString "null"
  | undefined => Text.ofString "undefined"

/-- Equality of values: numbers by value, so that zeros of either sign agree and a NaN differs from
itself, everything else structurally. -/
def same : Literal → Literal → Bool
  | number x, number y => x == y
  | a, b => decide (a = b)

end Literal

/-- The index that a property name denotes: at most nine decimal digits without a leading zero. -/
def arrayIndex? (key : Text) : Option Nat :=
  let name := key.shown
  let digits := name.toList
  if digits.length > 9 ∨ (digits.head? = some '0' ∧ digits.length ≠ 1) then none
  else if digits.isEmpty ∨ ¬ digits.all Char.isDigit then none
  else readDigits? 10 0 digits

end ScriptOptimizer
