/-!
# Hexadecimal digits

Digits are written in lower case and read in either case.
-/

namespace ScriptOptimizer

/-- The hexadecimal digit of a number below sixteen. -/
def hexDigit (n : Nat) : Char :=
  if n < 10 then Char.ofNat (48 + n) else Char.ofNat (87 + n)

/-- The last `width` hexadecimal digits of a number, the most significant first. -/
def hexDigits : Nat → Nat → List Char
  | 0, _ => []
  | width + 1, n => hexDigits width (n / 16) ++ [hexDigit (n % 16)]

/-- The value of a digit in bases up to sixteen. -/
def digitValue? (c : Char) : Option Nat :=
  if '0' ≤ c ∧ c ≤ '9' then some (c.toNat - 48)
  else if 'a' ≤ c ∧ c ≤ 'f' then some (c.toNat - 87)
  else if 'A' ≤ c ∧ c ≤ 'F' then some (c.toNat - 55)
  else none

/-- The number that a list of digits writes in a base, continuing from `acc`. -/
def readDigits? (base : Nat) : Nat → List Char → Option Nat
  | acc, [] => some acc
  | acc, c :: cs =>
    match digitValue? c with
    | some d => if d < base then readDigits? base (acc * base + d) cs else none
    | none => none

/-- The number that a nonempty list of digits writes in a base, if it is below `bound`. -/
def readBelow? (base bound : Nat) (cs : List Char) : Option Nat :=
  match cs with
  | [] => none
  | _ => (readDigits? base 0 cs).filter (· < bound)

end ScriptOptimizer
