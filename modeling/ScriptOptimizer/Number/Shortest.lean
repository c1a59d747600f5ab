import ScriptOptimizer.Number.Binary

/-!
# Shortest decimal digits

The shortest decimal that reads back as a given number, and of those the nearest to it. A decimal reads
back as `m * 2 ^ q` when it lies between the midpoints to the two neighbours of that number; the
midpoints themselves count when `m` is even.
-/

namespace ScriptOptimizer.Number

/-- A positive decimal `digits * 10 ^ exponent`. -/
structure Decimal where
  digits : Nat
  exponent : Int
deriving DecidableEq, Repr

/-- A positive number and the interval of reals that round to it, as multiples of `1 / scale`. -/
structure Rounding where
  value : Nat
  low : Nat
  high : Nat
  scale : Nat
  closed : Bool

/-- The rounding interval of `m * 2 ^ q`; `narrow` says that the lower neighbour is only half as far
away as the upper one. -/
def Rounding.ofDyadic (m : Nat) (q : Int) (narrow : Bool) : Rounding :=
  let up := Nat.pow 2 (q - 2).toNat
  { value := 4 * m * up
    low := (if narrow then 4 * m - 1 else 4 * m - 2) * up
    high := (4 * m + 2) * up
    scale := Nat.pow 2 (2 - q).toNat
    closed := m % 2 = 0 }

/-- The rounding interval of a positive finite number. -/
def Rounding.ofFloat (x : Float) : Rounding :=
  .ofDyadic (mantissa x) (exponent x) (fractionField x = 0 ∧ 1 < exponentField x)

/-- Whether `d * 10 ^ k` rounds to the number. -/
def Rounding.contains (r : Rounding) (d : Nat) (k : Int) : Bool :=
  let n := d * Nat.pow 10 k.toNat * r.scale
  let s := Nat.pow 10 (-k).toNat
  if r.closed then r.low * s ≤ n && n ≤ r.high * s else r.low * s < n && n < r.high * s

/-- The greatest `d` with `d * 10 ^ k` at most the number. -/
def Rounding.floor (r : Rounding) (k : Int) : Nat :=
  r.value * Nat.pow 10 (-k).toNat / (r.scale * Nat.pow 10 k.toNat)

/-- Whether the number is nearer to `d * 10 ^ k` than to `(d + 1) * 10 ^ k`; of two equally near
decimals the even one counts as nearer. -/
def Rounding.nearerBelow (r : Rounding) (d : Nat) (k : Int) : Bool :=
  let v := 2 * r.value * Nat.pow 10 (-k).toNat
  let mid := (2 * d + 1) * Nat.pow 10 k.toNat * r.scale
  v < mid || (v == mid && d % 2 == 0)

/-- The decimal on the grid of `10 ^ k` that rounds to the number, the nearest if there are two. -/
def Rounding.onGrid? (r : Rounding) (k : Int) : Option Decimal :=
  let d := r.floor k
  match decide (d ≠ 0) && r.contains d k, r.contains (d + 1) k with
  | true, true => some ⟨if r.nearerBelow d k then d else d + 1, k⟩
  | true, false => some ⟨d, k⟩
  | false, true => some ⟨d + 1, k⟩
  | false, false => none

/-- The number of decimal digits. -/
def digitCount (n : Nat) : Nat := (Nat.toDigits 10 n).length

/-- The exponent `p` with `10 ^ (p - 1) ≤ value < 10 ^ p`. -/
def Rounding.magnitude (r : Rounding) : Int :=
  let whole := r.value / r.scale
  if whole ≠ 0 then digitCount whole
  else
    let inverse := (r.scale + r.value - 1) / r.value
    -- value lies in [1 / inverse, 1): only the number of leading zeros is left to find
    let guess : Int := 1 - digitCount inverse
    if r.value * Nat.pow 10 (-guess).toNat < r.scale then guess else guess + 1

/-- Removes trailing zeros of the digits; their number bounds the steps. -/
def Decimal.trimWith : Nat → Decimal → Decimal
  | 0, d => d
  | n + 1, d =>
    if d.digits % 10 = 0 ∧ d.digits ≠ 0 then trimWith n ⟨d.digits / 10, d.exponent + 1⟩ else d

/-- The same decimal without trailing zeros in its digits. -/
def Decimal.trim (d : Decimal) : Decimal := d.trimWith (digitCount d.digits)

/-- The shortest decimal that reads back as a positive finite number. -/
def shortest (x : Float) : Decimal :=
  let r := Rounding.ofFloat x
  let p := r.magnitude
  match (List.range 17).findSome? fun n : Nat => r.onGrid? (p - (n + 1 : Nat)) with
  | some d => d.trim
  | none => ⟨r.floor (p - 17), p - 17⟩

end ScriptOptimizer.Number
