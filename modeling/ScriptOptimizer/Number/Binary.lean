/-!
# Binary floating-point numbers

A finite number is `± mantissa * 2 ^ exponent`. This module takes numbers apart into these fields and
defines the operations that are exact on them: remainder and conversion to 32-bit integers.
-/

namespace ScriptOptimizer.Number

def signBit (x : Float) : Bool := x.toBits >>> 63 != 0

/-- The biased exponent field. -/
def exponentField (x : Float) : Nat := ((x.toBits >>> 52) &&& 0x7FF).toNat

def fractionField (x : Float) : Nat := (x.toBits &&& 0xFFFFFFFFFFFFF).toNat

/-- Whether a number is not a number. -/
def isNaN (x : Float) : Bool := exponentField x == 0x7FF && fractionField x != 0

/-- Whether a number is an infinity. -/
def isInfinite (x : Float) : Bool := exponentField x == 0x7FF && fractionField x == 0

/-- Whether a number is neither an infinity nor undefined. -/
def isFinite (x : Float) : Bool := exponentField x != 0x7FF

/-- Whether a number is a zero of either sign. -/
def isZero (x : Float) : Bool := exponentField x == 0 && fractionField x == 0

/-- Whether a number is a zero with its sign bit set. -/
def isNegativeZero (x : Float) : Bool := isZero x && signBit x

/-- Whether a number is below zero. -/
def isNegative (x : Float) : Bool := signBit x && !isNaN x && !isZero x

/-- The integer mantissa of a finite number. -/
def mantissa (x : Float) : Nat :=
  if exponentField x = 0 then fractionField x else 0x10000000000000 + fractionField x

/-- The exponent of two that scales the mantissa. -/
def exponent (x : Float) : Int := (max (exponentField x) 1 : Nat) - 1075

/-- The number `± m * 2 ^ e`, exact when it is representable. -/
def ofDyadic (negative : Bool) (m : Nat) (e : Int) : Float :=
  let x := (Float.ofNat m).scaleB e
  if negative then -x else x

/-- The remainder of a division that rounds its quotient toward zero; it has the sign of the dividend. -/
def remainder (x y : Float) : Float :=
  if isNaN x || isNaN y || isInfinite x || isZero y then Float.ofBits 0x7FF8000000000000
  else if isInfinite y || isZero x then x
  else
    let e := min (exponent x) (exponent y)
    let a := mantissa x * Nat.pow 2 (exponent x - e).toNat
    let b := mantissa y * Nat.pow 2 (exponent y - e).toNat
    ofDyadic (signBit x) (a % b) e

/-- The integer part of a finite number. -/
def truncate (x : Float) : Int :=
  let e := exponent x
  let n := if e < 0 then mantissa x / Nat.pow 2 (-e).toNat else mantissa x * Nat.pow 2 e.toNat
  if signBit x then -(n : Int) else n

/-- The 32-bit word of a number: its integer part modulo `2 ^ 32`, zero when it is not finite. -/
def toWord (x : Float) : UInt32 :=
  if exponentField x = 0x7FF then 0 else UInt32.ofNat ((truncate x % 0x100000000).toNat)

/-- The number of a word read with a sign. -/
def ofSignedWord (w : UInt32) : Float :=
  if w.toNat < 0x80000000 then Float.ofNat w.toNat else -Float.ofNat (0x100000000 - w.toNat)

end ScriptOptimizer.Number
