import ScriptOptimizer.Number.Shortest
import ScriptOptimizer.Text.Hex

/-!
# The text of a number

`display` writes a number with the fewest digits that read back, in positional notation from `1e-6` up
to but not including `1e21` and with an exponent otherwise. `read?` reads the numeric literals of a
script: decimal with optional fraction and exponent, and whole numbers in base 16, 8 and 2.
-/

namespace ScriptOptimizer.Number

/-- The digits of a natural number in base ten. -/
def decimalDigits (n : Nat) : List Char := Nat.toDigits 10 n

/-- A positive decimal in positional notation. -/
def positional (d : Decimal) : List Char :=
  let ds := decimalDigits d.digits
  if 0 ≤ d.exponent then ds ++ List.replicate d.exponent.toNat '0'
  else
    let places := (-d.exponent).toNat
    if places < ds.length then
      ds.take (ds.length - places) ++ '.' :: ds.drop (ds.length - places)
    else '0' :: '.' :: (List.replicate (places - ds.length) '0' ++ ds)

/-- A positive decimal with one digit before the point and an exponent with its sign. -/
def scientific (d : Decimal) : List Char :=
  let ds := decimalDigits d.digits
  let e := d.exponent + (ds.length - 1 : Nat)
  let mantissa :=
    match ds with
    | first :: second :: later => first :: '.' :: second :: later
    | _ => ds
  mantissa ++ 'e' :: (if e < 0 then '-' else '+') :: decimalDigits e.natAbs

/-- Whether a decimal is written positionally: its first digit stands at `10 ^ -6` up to `10 ^ 20`. -/
def isPositional (d : Decimal) : Bool :=
  let point := d.exponent + digitCount d.digits
  point ≤ 21 && -5 ≤ point

/-- The text of a number. Zeros of either sign are written alike. -/
def display (x : Float) : String :=
  if isNaN x then "NaN"
  else if isInfinite x then if signBit x then "-Infinity" else "Infinity"
  else if isZero x then "0"
  else
    let d := shortest x
    let text := String.ofList (if isPositional d then positional d else scientific d)
    if signBit x then "-" ++ text else text

/-- The number nearest to `digits * 10 ^ exponent`, `none` when it is beyond the finite numbers. -/
def ofDecimal? (digits : Nat) (exponent : Int) : Option Float :=
  if digits = 0 then some 0
  else
    let point := exponent + digitCount digits
    if 310 < point then none
    else if point < -330 then some 0
    else
      let x := Float.ofScientific digits (exponent < 0) exponent.natAbs
      if isFinite x then some x else none

/-- The number nearest to `mantissa * 2 ^ exponent`, `none` when it is beyond the finite numbers. -/
def ofBinary? (mantissa : Nat) (exponent : Int) : Option Float :=
  if mantissa = 0 then some 0
  else
    let top := exponent + mantissa.log2
    if 1024 < top then none
    else if top < -1080 then some 0
    else
      let x :=
        if 0 ≤ exponent then Float.ofScientific (mantissa * Nat.pow 2 exponent.toNat) false 0
        else
          Float.ofScientific (mantissa * Nat.pow 5 (-exponent).toNat) true (-exponent).toNat
      if isFinite x then some x else none

/-- Whether each underscore stands between two digits. -/
def underscoresSeparateDigits (isDigit : Char → Bool) (afterDigit : Bool) : List Char → Bool
  | [] => true
  | ['_'] => false
  | '_' :: c :: cs =>
    afterDigit && isDigit c && underscoresSeparateDigits isDigit true cs
  | c :: cs => underscoresSeparateDigits isDigit (isDigit c) cs

/-- The parts of a number in a positional notation: digits, point, digits, exponent. -/
structure Numeral where
  whole : List Char
  fraction : List Char
  exponent : Option Int

/-- Reads digits, an optional point with digits, and an optional exponent to the end of the text. -/
def numeral? (isDigit : Char → Bool) (mark : Char) (cs : List Char) : Option Numeral :=
  let whole := cs.takeWhile isDigit
  let rest := cs.dropWhile isDigit
  let (fraction, rest) :=
    match rest with
    | '.' :: rest => (rest.takeWhile isDigit, rest.dropWhile isDigit)
    | _ => ([], rest)
  if whole.isEmpty && fraction.isEmpty then none
  else
    match rest with
    | [] => some ⟨whole, fraction, none⟩
    | e :: rest =>
      if e.toLower ≠ mark then none
      else
        let (negative, digits) :=
          match rest with
          | '-' :: digits => (true, digits)
          | '+' :: digits => (false, digits)
          | _ => (false, rest)
        match digits with
        | [] => none
        | _ =>
          match readDigits? 10 0 digits with
          | some n => some ⟨whole, fraction, some (if negative then -(n : Int) else n)⟩
          | none => none

/-- A decimal number without sign. -/
def readDecimal? (cs : List Char) : Option Float := do
  let n ← numeral? Char.isDigit 'e' cs
  let digits ← readDigits? 10 0 (n.whole ++ n.fraction)
  ofDecimal? digits (n.exponent.getD 0 - n.fraction.length)

/-- A hexadecimal number with a binary exponent, without sign and base mark. -/
def readHexadecimal? (cs : List Char) : Option Float := do
  let n ← numeral? (fun c => (digitValue? c).isSome) 'p' cs
  let mantissa ← readDigits? 16 0 (n.whole ++ n.fraction)
  ofBinary? mantissa ((← n.exponent) - 4 * n.fraction.length)

/-- A number with optional sign, in the forms that are not a plain base-16, 8 or 2 literal. -/
def readSigned? (text : String) : Option Float :=
  let (negative, cs) :=
    match text.toList with
    | '-' :: cs => (true, cs)
    | '+' :: cs => (false, cs)
    | cs => (false, cs)
  let lower := cs.map Char.toLower
  let magnitude :=
    if lower = "inf".toList ∨ lower = "infinity".toList then some (Float.ofBits 0x7FF0000000000000)
    else
      match lower with
      | '0' :: 'x' :: digits =>
        if underscoresSeparateDigits (fun c => (digitValue? c).isSome) true digits then
          readHexadecimal? (digits.filter (· ≠ '_'))
        else none
      | _ =>
        if underscoresSeparateDigits Char.isDigit false lower then
          readDecimal? (lower.filter (· ≠ '_'))
        else none
  if lower = "nan".toList then
    if cs.length = text.length then some (Float.ofBits 0x7FF8000000000000) else none
  else magnitude.map fun x => if negative then -x else x

/-- Reads a numeric literal. -/
def read? (text : String) : Option Float :=
  match text.toList with
  | '0' :: mark :: digits =>
    let base :=
      match mark.toLower with
      | 'x' => 16
      | 'o' => 8
      | 'b' => 2
      | _ => 0
    if base = 0 then readSigned? text
    else (readBelow? base 0x10000000000000000 digits).bind fun n => ofBinary? n 0
  | _ => readSigned? text

end ScriptOptimizer.Number
