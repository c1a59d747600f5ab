import ScriptOptimizer.IR.Basic
import ScriptOptimizer.Text.Blank

/-!
# Folding of literals

An operation on literals is replaced by its value where that value has a literal form. Numbers that are
not finite and the negative zero have none. Strings convert to numbers only when they are blank.
-/

namespace ScriptOptimizer

namespace Literal

/-- The number that a literal converts to, where that is certain. -/
def toNumber? : Literal → Option Float
  | number x => some x
  | bool b => some (if b then 1 else 0)
  | null => some 0
  | string t => if t.isBlank then some 0 else none
  | undefined => none

def ofNumber? (x : Float) : Option Literal :=
  if Number.isNaN x || Number.isInfinite x || Number.isNegativeZero x then none
  else some (number x)

def typeName : Literal → String
  | number _ => "number"
  | string _ => "string"
  | bool _ => "boolean"
  | null => "object"
  | undefined => "undefined"

/-- Equality without conversion. -/
def strictEquals : Literal → Literal → Bool
  | number x, number y => x == y
  | string s, string t => s = t
  | bool a, bool b => a == b
  | null, null | undefined, undefined => true
  | _, _ => false

def sameType (l r : Literal) : Bool := l.ctorIdx == r.ctorIdx

/-- Equality with conversion, where it is certain. -/
def looseEquals? (l r : Literal) : Option Bool :=
  if sameType l r then some (strictEquals l r)
  else if l.isNullish || r.isNullish then some (l.isNullish && r.isNullish)
  else if l.isString || r.isString then none
  else some (l.toNumber?.getD 0 == r.toNumber?.getD 0)

end Literal

namespace Fold

def text (s : String) : Literal := .string (Text.ofString s)

/-- An operation on the numbers of two literals. -/
def arithmetic? (f : Float → Float → Float) (l r : Literal) : Option Literal := do
  Literal.ofNumber? (f (← l.toNumber?) (← r.toNumber?))

/-- An operation on the 32-bit words of two literals. -/
def words? (f : UInt32 → UInt32 → Float) : Literal → Literal → Option Literal :=
  arithmetic? fun x y => f (Number.toWord x) (Number.toWord y)

/-- The distance of a shift: the low five bits of a word. -/
def distance (w : UInt32) : UInt32 := w &&& 31

/-- A shift to the right that repeats the sign. -/
def shiftSigned (w : UInt32) (n : UInt32) : UInt32 := (w.toInt32 >>> n.toInt32).toUInt32

/-- The order of two numbers or of two ASCII strings. -/
def compare? (numbers : Float → Float → Bool) (texts : Ordering → Bool) (l r : Literal) :
    Option Literal :=
  match l, r with
  | .string s, .string t =>
    if s.isAscii && t.isAscii then
      some (.bool (texts (if s.lt t then .lt else if t.lt s then .gt else .eq)))
    else none
  | .string _, _ | _, .string _ => none
  | _, _ => do return .bool (numbers (← l.toNumber?) (← r.toNumber?))

/-- The value of a unary operator on a literal. -/
def unary? (op : UnaryOp) (x : Literal) : Option Literal :=
  match op with
  | .not => some (.bool !x.truthy)
  | .void => some .undefined
  | .typeOf => some (text x.typeName)
  | .minus => do
    let n ← x.toNumber?
    if Number.isZero n then none else Literal.ofNumber? (-n)
  | .plus => do Literal.ofNumber? (← x.toNumber?)
  | .complement => do Literal.ofNumber? (Number.ofSignedWord (~~~ Number.toWord (← x.toNumber?)))
  | .delete | .other _ => none

/-- The value of a binary operator on two literals. -/
def binary? (op : BinaryOp) (l r : Literal) : Option Literal :=
  match op with
  | .add =>
    if l.isString || r.isString then some (.string (l.toText ++ r.toText))
    else arithmetic? (· + ·) l r
  | .subtract => arithmetic? (· - ·) l r
  | .multiply => arithmetic? (· * ·) l r
  | .divide => arithmetic? (· / ·) l r
  | .remainder => arithmetic? Number.remainder l r
  | .bitAnd => words? (fun a b => Number.ofSignedWord (a &&& b)) l r
  | .bitOr => words? (fun a b => Number.ofSignedWord (a ||| b)) l r
  | .bitXor => words? (fun a b => Number.ofSignedWord (a ^^^ b)) l r
  | .shiftLeft => words? (fun a b => Number.ofSignedWord (a <<< distance b)) l r
  | .shiftRight => words? (fun a b => Number.ofSignedWord (shiftSigned a (distance b))) l r
  | .shiftRightZero => words? (fun a b => Float.ofNat (a >>> distance b).toNat) l r
  | .same => some (.bool (l.strictEquals r))
  | .notSame => some (.bool !l.strictEquals r)
  | .equal => (l.looseEquals? r).map .bool
  | .notEqual => (l.looseEquals? r).map fun b => .bool !b
  | .less => compare? (fun a b => decide (a < b)) (· == .lt) l r
  | .greater => compare? (fun a b => decide (b < a)) (· == .gt) l r
  | .atMost => compare? (fun a b => decide (a ≤ b)) (· != .gt) l r
  | .atLeast => compare? (fun a b => decide (b ≤ a)) (· != .lt) l r
  | .nullish | .or | .and | .within | .instanceOf | .power | .other _ => none

/-- The operand that a logical operator with a known left operand evaluates to. -/
def logical? (op : BinaryOp) (l : Literal) (r : IR.Operand) : Option IR.Operand :=
  match op with
  | .and => some (if l.truthy then r else .literal l)
  | .or => some (if l.truthy then .literal l else r)
  | .nullish => some (if l.isNullish then r else .literal l)
  | _ => none

end Fold

end ScriptOptimizer
