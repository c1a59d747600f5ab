import Mathlib.Algebra.Order.Field.Power
import Mathlib.Algebra.Order.Ring.Rat
import Mathlib.Data.Nat.Cast.Order.Field
import Mathlib.Tactic.Linarith
import Mathlib.Tactic.NormNum
import Mathlib.Tactic.Positivity
import Mathlib.Tactic.Ring
import ScriptOptimizer.Number.Shortest

/-!
# Rounding to a number

The numbers of one sign stand in a row, and a rational number rounds to the one between whose midpoints it
lies; a midpoint itself rounds to the neighbour with the even mantissa. So nothing rounds to two numbers.
The shortest decimal of a number rounds to it: some decimal of 17 digits always does, since the midpoints
lie further apart than two such decimals.
-/

namespace ScriptOptimizer.Number

variable {z : ℚ} {n : Nat} {r : Rounding} {y : Float}

/-! ## The fields of a number -/

variable {x : Float}

/-- The place of a number among those of its sign, counted from zero. -/
def position (x : Float) : Nat := exponentField x * 2 ^ 52 + fractionField x

theorem exponentField_eq (x : Float) : exponentField x = x.toBits.toNat / 2 ^ 52 % 2 ^ 11 := by
  have hmask : (0x7FF : UInt64).toNat = 2 ^ 11 - 1 := rfl
  rw [exponentField, UInt64.toNat_and, UInt64.toNat_shiftRight, hmask, Nat.and_two_pow_sub_one_eq_mod,
    Nat.shiftRight_eq_div_pow]
  rfl

theorem fractionField_eq (x : Float) : fractionField x = x.toBits.toNat % 2 ^ 52 := by
  have hmask : (0xFFFFFFFFFFFFF : UInt64).toNat = 2 ^ 52 - 1 := rfl
  rw [fractionField, UInt64.toNat_and, hmask, Nat.and_two_pow_sub_one_eq_mod]

theorem signBit_eq (x : Float) : signBit x = decide (2 ^ 63 ≤ x.toBits.toNat) := by
  have hshift : (x.toBits >>> 63).toNat = x.toBits.toNat / 2 ^ 63 := by
    rw [UInt64.toNat_shiftRight, Nat.shiftRight_eq_div_pow]
    rfl
  have hz : x.toBits >>> 63 = 0 ↔ x.toBits.toNat < 2 ^ 63 := by
    rw [← UInt64.toNat_inj, hshift, UInt64.toNat_zero, Nat.div_eq_zero_iff]
    simp
  rw [signBit, bne, Bool.eq_iff_iff]
  simp [hz]

theorem fractionField_lt (x : Float) : fractionField x < 2 ^ 52 := by
  rw [fractionField_eq]
  exact Nat.mod_lt _ (by decide)

/-- Sign and place determine a number. -/
theorem eq_of_position (hs : signBit x = signBit y) (hp : position x = position y) : x = y := by
  have hbits : x.toBits.toNat = y.toBits.toNat := by
    rw [signBit_eq, signBit_eq, decide_eq_decide] at hs
    rw [position, position, exponentField_eq, exponentField_eq, fractionField_eq, fractionField_eq] at hp
    have hx := x.toBits.toNat_lt
    have hy := y.toBits.toNat_lt
    omega
  obtain ⟨⟨bx, vx⟩⟩ := x
  obtain ⟨⟨b, vy⟩⟩ := y
  obtain rfl : bx = b := UInt64.toNat_inj.mp hbits
  rfl

/-! ## Midpoints -/

/-- The mantissa of the number at a place. -/
def mantissaAt (n : Nat) : Nat := if n < 2 ^ 52 then n else 2 ^ 52 + n % 2 ^ 52

/-- The exponent of the number at a place. -/
def exponentAt (n : Nat) : Int := (max (n / 2 ^ 52) 1 : Nat) - 1075

theorem exponentField_eq_div (x : Float) : exponentField x = position x / 2 ^ 52 := by
  have hf := fractionField_lt x
  rw [position]
  omega

theorem fractionField_eq_mod (x : Float) : fractionField x = position x % 2 ^ 52 := by
  have hf := fractionField_lt x
  rw [position]
  omega

theorem mantissa_eq (x : Float) : mantissa x = mantissaAt (position x) := by
  rw [mantissa, mantissaAt, exponentField_eq_div, fractionField_eq_mod]
  have hd : position x / 2 ^ 52 = 0 ↔ position x < 2 ^ 52 := by omega
  simp only [hd]
  split
  · exact Nat.mod_eq_of_lt ‹_›
  · rfl

theorem exponent_eq (x : Float) : exponent x = exponentAt (position x) := by
  rw [exponent, exponentAt, exponentField_eq_div]

/-- Halfway between the number at a place and the next one. -/
def halfway (n : Nat) : ℚ := (4 * mantissaAt n + 2 : ℚ) * 2 ^ (exponentAt n - 2)

theorem mantissaAt_pos (hn : 0 < n) : 0 < mantissaAt n := by
  unfold mantissaAt
  split <;> omega

theorem mantissaAt_mod (n : Nat) : mantissaAt n % 2 = n % 2 := by
  unfold mantissaAt
  split <;> omega

/-- The midpoint below a number, by the distance to the next smaller one. -/
theorem halfway_pred (hn : 0 < n) :
    halfway (n - 1) = (4 * mantissaAt n - if n % 2 ^ 52 = 0 ∧ 1 < n / 2 ^ 52 then 1 else 2 : ℚ) *
      2 ^ (exponentAt n - 2) := by
  by_cases hnarrow : n % 2 ^ 52 = 0 ∧ 1 < n / 2 ^ 52
  · -- The next smaller number has the greatest mantissa and the exponent below.
    have hm : mantissaAt (n - 1) = 2 ^ 53 - 1 := by
      unfold mantissaAt
      split <;> omega
    have hm' : mantissaAt n = 2 ^ 52 := by
      unfold mantissaAt
      split <;> omega
    have he : exponentAt n = exponentAt (n - 1) + 1 := by
      unfold exponentAt
      omega
    rw [if_pos hnarrow, halfway, hm, hm', he, add_sub_right_comm, zpow_add_one₀ (by norm_num)]
    norm_num
    ring
  · have hm : mantissaAt n = mantissaAt (n - 1) + 1 := by
      unfold mantissaAt
      split <;> split <;> omega
    have he : exponentAt n = exponentAt (n - 1) := by
      unfold exponentAt
      omega
    rw [if_neg hnarrow, halfway, hm, he]
    push_cast
    ring

theorem halfway_strictMono : StrictMono halfway := by
  refine strictMono_nat_of_lt_succ fun n => ?_
  have hlow := halfway_pred n.succ_pos
  rw [Nat.succ_sub_one] at hlow
  rw [hlow, halfway]
  have hpos : (0 : ℚ) < 2 ^ (exponentAt (n + 1) - 2) := by positivity
  refine mul_lt_mul_of_pos_right ?_ hpos
  split <;> linarith

/-! ## Decimals -/

/-- The rational number of a decimal. -/
def Decimal.value (d : Decimal) : ℚ := d.digits * 10 ^ d.exponent

/-- A whole power as a quotient of natural ones. -/
theorem pow_toNat_div_pow_toNat (b : ℚ) (e : Int) :
    b ^ e.toNat / b ^ (-e).toNat = b ^ e := by
  obtain ⟨n, rfl | rfl⟩ := e.eq_nat_or_neg
  · simp
  · simp

namespace Rounding

/-- Whether a rational number rounds to the number. -/
def Holds (r : Rounding) (z : ℚ) : Prop :=
  if r.closed then (r.low / r.scale : ℚ) ≤ z ∧ z ≤ (r.high / r.scale : ℚ)
  else (r.low / r.scale : ℚ) < z ∧ z < (r.high / r.scale : ℚ)

theorem contains_iff (r : Rounding) (hr : 0 < r.scale) (d : Nat) (k : Int) :
    r.contains d k = true ↔ r.Holds (d * 10 ^ k) := by
  have hs : (0 : ℚ) < r.scale := by exact_mod_cast hr
  have hp : (0 : ℚ) < 10 ^ (-k).toNat := by positivity
  -- Both comparisons clear the same two denominators.
  have hle (a : Nat) : a * 10 ^ (-k).toNat ≤ d * 10 ^ k.toNat * r.scale ↔
      (a / r.scale : ℚ) ≤ d * 10 ^ k := by
    rw [← pow_toNat_div_pow_toNat 10 k, ← mul_div_assoc, div_le_div_iff₀ hs hp]
    exact_mod_cast Iff.rfl
  have hge (a : Nat) : d * 10 ^ k.toNat * r.scale ≤ a * 10 ^ (-k).toNat ↔
      (d * 10 ^ k : ℚ) ≤ a / r.scale := by
    rw [← pow_toNat_div_pow_toNat 10 k, ← mul_div_assoc, div_le_div_iff₀ hp hs]
    exact_mod_cast Iff.rfl
  unfold contains Holds
  cases r.closed with
  | true => simp [hle, hge]
  | false =>
    simp only [Bool.false_eq_true, if_false, Bool.and_eq_true, decide_eq_true_eq, Nat.pow_eq,
      ← not_le, hle, hge]

theorem scale_ofFloat_pos (x : Float) : 0 < (ofFloat x).scale := Nat.pow_pos (by decide)

theorem high_ofFloat (x : Float) : ((ofFloat x).high / (ofFloat x).scale : ℚ) = halfway (position x) := by
  have hpow := pow_toNat_div_pow_toNat 2 (exponent x - 2)
  rw [neg_sub] at hpow
  simp only [ofFloat, ofDyadic, Nat.pow_eq, Nat.cast_mul, Nat.cast_pow, mul_div_assoc]
  rw [halfway, ← mantissa_eq, ← exponent_eq, ← hpow]
  push_cast
  rfl

theorem low_ofFloat (hx : 0 < position x) :
    ((ofFloat x).low / (ofFloat x).scale : ℚ) = halfway (position x - 1) := by
  have hpow := pow_toNat_div_pow_toNat 2 (exponent x - 2)
  rw [neg_sub] at hpow
  have hm : 0 < mantissa x := mantissa_eq x ▸ mantissaAt_pos hx
  rw [halfway_pred hx, ← mantissa_eq, ← exponent_eq, ← hpow, ← exponentField_eq_div, ← fractionField_eq_mod]
  simp only [ofFloat, ofDyadic, Nat.pow_eq, Nat.cast_mul, Nat.cast_pow, mul_div_assoc, decide_eq_true_eq]
  have hone : 1 ≤ 4 * mantissa x := by omega
  have htwo : 2 ≤ 4 * mantissa x := by omega
  split
  · push_cast [Nat.cast_sub hone]
    rfl
  · push_cast [Nat.cast_sub htwo]
    rfl

theorem closed_ofFloat (x : Float) : (ofFloat x).closed = decide (position x % 2 = 0) := by
  simp only [ofFloat, ofDyadic, mantissa_eq, mantissaAt_mod]

/-- What rounds to a number lies between the midpoints to its neighbours. -/
theorem Holds.between (hx : 0 < position x) (h : (ofFloat x).Holds z) :
    halfway (position x - 1) ≤ z ∧ z ≤ halfway (position x) := by
  rw [Holds, low_ofFloat hx, high_ofFloat] at h
  split at h
  · exact h
  · exact ⟨h.1.le, h.2.le⟩

/-- A midpoint rounds to the neighbour with the even mantissa. -/
theorem Holds.even (hx : 0 < position x) (h : (ofFloat x).Holds z)
    (hz : z = halfway (position x - 1) ∨ z = halfway (position x)) : position x % 2 = 0 := by
  rw [Holds, low_ofFloat hx, high_ofFloat, closed_ofFloat] at h
  split at h
  · exact of_decide_eq_true ‹_›
  · obtain rfl | rfl := hz
    · exact absurd h.1 (lt_irrefl _)
    · exact absurd h.2 (lt_irrefl _)

/-- Nothing rounds to a number and to a greater one. -/
theorem Holds.not_position_lt (hx : 0 < position x) (h : (ofFloat x).Holds z)
    (k : (ofFloat y).Holds z) : ¬ position x < position y := by
  intro hlt
  have hy : 0 < position y := by omega
  have hmid := halfway_strictMono.monotone (by omega : position x ≤ position y - 1)
  have hz : z = halfway (position x) := le_antisymm (h.between hx).2 (hmid.trans (k.between hy).1)
  have hz' : z = halfway (position y - 1) := le_antisymm (hz ▸ hmid) (k.between hy).1
  have hadjacent : position x = position y - 1 := halfway_strictMono.injective (hz.symm.trans hz')
  have hevenx := h.even hx (.inr hz)
  have heveny := k.even hy (.inl hz')
  omega

/-- A number is determined by what rounds to it. -/
theorem Holds.position_eq (hx : 0 < position x) (hy : 0 < position y)
    (h : (ofFloat x).Holds z) (k : (ofFloat y).Holds z) : position x = position y :=
  le_antisymm (Nat.le_of_not_lt (k.not_position_lt hy h)) (Nat.le_of_not_lt (h.not_position_lt hx k))

/-! ## The shortest decimal -/

/-- The decimal of a grid rounds to the number. -/
theorem holds_of_onGrid? (hr : 0 < r.scale) {k : Int} {d : Decimal} (h : r.onGrid? k = some d) : r.Holds d.value:= by
  unfold onGrid? at h
  have hfloor := r.contains_iff hr (r.floor k) k
  have hnext := r.contains_iff hr (r.floor k + 1) k
  cases hb : decide (r.floor k ≠ 0) && r.contains (r.floor k) k with
  | false =>
    cases hc : r.contains (r.floor k + 1) k with
    | false => simp only [hb, hc, reduceCtorEq] at h
    | true =>
      simp only [hb, hc, Option.some.injEq] at h
      exact h ▸ hnext.mp hc
  | true =>
    have hf := hfloor.mp (Bool.and_eq_true_iff.mp hb).2
    cases hc : r.contains (r.floor k + 1) k with
    | false =>
      simp only [hb, hc, Option.some.injEq] at h
      exact h ▸ hf
    | true =>
      simp only [hb, hc, Option.some.injEq] at h
      subst h
      cases r.nearerBelow (r.floor k) k with
      | true => exact hf
      | false => exact hnext.mp hc

theorem lt_ten_pow_digitCount (n : Nat) : n < 10 ^ digitCount n :=
  (Nat.length_toDigits_le_iff (by decide) Nat.length_toDigits_pos).mp le_rfl

theorem ten_pow_digitCount_le (hn : n ≠ 0) : 10 ^ (digitCount n - 1) ≤ n := by
  have hpos : 0 < digitCount n := Nat.length_toDigits_pos
  obtain hone | hmore := Nat.lt_or_ge 1 (digitCount n)
  · by_contra hlt
    have hle := (Nat.length_toDigits_le_iff (b := 10) (n := n) (by decide) (by omega)).mpr (not_le.mp hlt)
    rw [← digitCount] at hle
    omega
  · have hzero : digitCount n - 1 = 0 := by omega
    rw [hzero]
    omega

theorem zpow_neg_natCast_le (hs : 0 < r.scale)
    (h : r.scale ≤ r.value * 10 ^ n) : (10 : ℚ) ^ (-(n : Int)) ≤ r.value / r.scale := by
  have hs' : (0 : ℚ) < r.scale := by exact_mod_cast hs
  rw [zpow_neg, zpow_natCast, ← one_div, div_le_div_iff₀ (by positivity) hs', one_mul]
  exact_mod_cast h

/-- The magnitude of a number is not too great. -/
theorem ten_zpow_magnitude_le (hs : 0 < r.scale) (hv : 0 < r.value) :
    (10 : ℚ) ^ (r.magnitude - 1) ≤ r.value / r.scale := by
  unfold magnitude
  simp only
  split
  · next hwhole =>
    have hcount : 0 < digitCount (r.value / r.scale) := Nat.length_toDigits_pos
    have hcast : ((digitCount (r.value / r.scale) : Nat) : Int) - 1 =
        ((digitCount (r.value / r.scale) - 1 : Nat) : Int) := by omega
    rw [hcast, zpow_natCast]
    calc (10 : ℚ) ^ (digitCount (r.value / r.scale) - 1)
      _ ≤ (r.value / r.scale : Nat) := by exact_mod_cast ten_pow_digitCount_le hwhole
      _ ≤ r.value / r.scale := Nat.cast_div_le
  · set inverse := (r.scale + r.value - 1) / r.value with hinverse
    have hcount : 0 < digitCount inverse := Nat.length_toDigits_pos
    split
    · -- The scale is at most the value times its rounded inverse.
      have hdiv := Nat.lt_mul_div_succ (r.scale + r.value - 1) hv
      rw [← hinverse, Nat.mul_add, Nat.mul_one] at hdiv
      have hbound : r.value * inverse ≤ r.value * 10 ^ digitCount inverse :=
        Nat.mul_le_mul_left _ (lt_ten_pow_digitCount inverse).le
      have hexp : (1 - (digitCount inverse : Int)) - 1 = -(digitCount inverse : Int) := by omega
      rw [hexp]
      exact zpow_neg_natCast_le hs (by omega)
    · next hge =>
      have hexp : (1 - (digitCount inverse : Int)) + 1 - 1 = -((digitCount inverse - 1 : Nat) : Int) := by
        omega
      have hnat : (-(1 - (digitCount inverse : Int))).toNat = digitCount inverse - 1 := by omega
      rw [hnat] at hge
      rw [hexp]
      exact zpow_neg_natCast_le hs (not_lt.mp hge)

/-- The decimal below a number on a grid. -/
theorem floor_le (r : Rounding) (hs : 0 < r.scale) (k : Int) :
    (r.floor k * 10 ^ k : ℚ) ≤ r.value / r.scale ∧
    (r.value / r.scale : ℚ) < (r.floor k + 1) * 10 ^ k := by
  have hs' : (0 : ℚ) < r.scale := by exact_mod_cast hs
  have hp : (0 : ℚ) < 10 ^ (-k).toNat := by positivity
  have hden : 0 < r.scale * 10 ^ k.toNat := by positivity
  have hle : r.floor k * (r.scale * 10 ^ k.toNat) ≤ r.value * 10 ^ (-k).toNat := Nat.div_mul_le_self ..
  have hlt : r.value * 10 ^ (-k).toNat < r.scale * 10 ^ k.toNat * (r.floor k + 1) :=
    Nat.lt_mul_div_succ _ hden
  rw [← pow_toNat_div_pow_toNat 10 k, ← mul_div_assoc, ← mul_div_assoc, div_le_div_iff₀ hp hs',
    div_lt_div_iff₀ hs' hp]
  constructor
  · calc (r.floor k * 10 ^ k.toNat * r.scale : ℚ)
      _ = (r.floor k * (r.scale * 10 ^ k.toNat) : Nat) := by push_cast; ring
      _ ≤ (r.value * 10 ^ (-k).toNat : Nat) := by exact_mod_cast hle
      _ = r.value * 10 ^ (-k).toNat := by push_cast; rfl
  · calc (r.value * 10 ^ (-k).toNat : ℚ)
      _ = (r.value * 10 ^ (-k).toNat : Nat) := by push_cast; rfl
      _ < (r.scale * 10 ^ k.toNat * (r.floor k + 1) : Nat) := by exact_mod_cast hlt
      _ = (r.floor k + 1) * 10 ^ k.toNat * r.scale := by push_cast; ring

theorem Holds.of_lt (hl : (r.low / r.scale : ℚ) < z) (hh : z < (r.high / r.scale : ℚ)) : r.Holds z:= by
  unfold Holds
  split
  · exact ⟨hl.le, hh.le⟩
  · exact ⟨hl, hh⟩

theorem value_ofFloat (x : Float) :
    ((ofFloat x).value / (ofFloat x).scale : ℚ) = 4 * mantissa x * 2 ^ (exponent x - 2) := by
  have hpow := pow_toNat_div_pow_toNat 2 (exponent x - 2)
  rw [neg_sub] at hpow
  simp only [ofFloat, ofDyadic, Nat.pow_eq, Nat.cast_mul, Nat.cast_pow, mul_div_assoc]
  rw [← hpow]
  push_cast
  rfl

/-- The interval of a number is wider than the grid of 17 digits. -/
theorem grid_lt_width (hx : 0 < position x) {g : ℚ} (hg : g * 10 ^ 16 ≤ (ofFloat x).value / (ofFloat x).scale) :
    g < (ofFloat x).high / (ofFloat x).scale - (ofFloat x).low / (ofFloat x).scale := by
  rw [value_ofFloat] at hg
  rw [high_ofFloat, low_ofFloat hx, halfway_pred hx, halfway, ← mantissa_eq, ← exponent_eq]
  have hu : (0 : ℚ) < 2 ^ (exponent x - 2) := by positivity
  set u : ℚ := 2 ^ (exponent x - 2)
  rw [mantissa_eq] at hg ⊢
  split
  · next hnarrow =>
    have hm : mantissaAt (position x) = 2 ^ 52 := by
      unfold mantissaAt
      split <;> omega
    rw [hm] at hg ⊢
    push_cast at hg ⊢
    linarith
  · have hm : mantissaAt (position x) < 2 ^ 53 := by
      unfold mantissaAt
      split <;> omega
    have hm' : (mantissaAt (position x) : ℚ) * u ≤ 2 ^ 53 * u := by
      refine mul_le_mul_of_nonneg_right ?_ hu.le
      exact_mod_cast hm.le
    linarith

theorem low_lt_value (hx : 0 < position x) :
    ((ofFloat x).low / (ofFloat x).scale : ℚ) < (ofFloat x).value / (ofFloat x).scale := by
  have hu : (0 : ℚ) < 2 ^ (exponent x - 2) := by positivity
  rw [low_ofFloat hx, value_ofFloat, halfway_pred hx, ← mantissa_eq, ← exponent_eq]
  refine mul_lt_mul_of_pos_right ?_ hu
  split <;> linarith

theorem value_lt_high (x : Float) :
    ((ofFloat x).value / (ofFloat x).scale : ℚ) < (ofFloat x).high / (ofFloat x).scale := by
  have hu : (0 : ℚ) < 2 ^ (exponent x - 2) := by positivity
  rw [high_ofFloat, value_ofFloat, halfway, ← mantissa_eq, ← exponent_eq]
  exact mul_lt_mul_of_pos_right (by linarith) hu

/-- Some decimal of 17 digits rounds to the number. -/
theorem exists_onGrid? (hx : 0 < position x) :
    ∃ d, (ofFloat x).onGrid? ((ofFloat x).magnitude - 17) = some d := by
  have hs := scale_ofFloat_pos x
  have hm : 0 < mantissa x := mantissa_eq x ▸ mantissaAt_pos hx
  have hv : 0 < (ofFloat x).value := Nat.mul_pos (by omega) (Nat.pow_pos (by decide))
  have hgrid : (10 : ℚ) ^ ((ofFloat x).magnitude - 17) * 10 ^ 16 ≤
      (ofFloat x).value / (ofFloat x).scale := by
    have hmag := ten_zpow_magnitude_le hs hv
    have hexp : (ofFloat x).magnitude - 1 = (ofFloat x).magnitude - 17 + (16 : Nat) := by omega
    rwa [hexp, zpow_add₀ (by norm_num), zpow_natCast] at hmag
  generalize (ofFloat x).magnitude - 17 = k at hgrid
  have hwidth := grid_lt_width hx hgrid
  obtain ⟨hle, hlt⟩ := (ofFloat x).floor_le hs k
  have hpos : (0 : ℚ) < 10 ^ k := by positivity
  have hne : (ofFloat x).floor k ≠ 0 := by
    intro hzero
    rw [hzero] at hlt
    push_cast at hlt
    linarith
  unfold onGrid?
  by_cases hbelow : ((ofFloat x).low / (ofFloat x).scale : ℚ) < (ofFloat x).floor k * 10 ^ k
  · have hcontains := ((ofFloat x).contains_iff hs _ k).mpr
      (.of_lt hbelow (lt_of_le_of_lt hle (value_lt_high x)))
    simp only [hcontains, hne, ne_eq, not_false_eq_true, decide_true, Bool.and_self]
    cases (ofFloat x).contains ((ofFloat x).floor k + 1) k <;> exact ⟨_, rfl⟩
  · -- The grid point below lies outside, so the one above, less than a width away, lies inside.
    have habove : (((ofFloat x).floor k + 1 : Nat) * 10 ^ k : ℚ) <
        (ofFloat x).high / (ofFloat x).scale := by
      push_cast
      linarith [not_lt.mp hbelow]
    have hcontains := ((ofFloat x).contains_iff hs ((ofFloat x).floor k + 1) k).mpr
      (.of_lt ((low_lt_value hx).trans (by push_cast; exact hlt)) habove)
    simp only [hcontains]
    cases decide ((ofFloat x).floor k ≠ 0) && (ofFloat x).contains ((ofFloat x).floor k) k <;>
      exact ⟨_, rfl⟩

end Rounding

theorem Decimal.value_trimWith (n : Nat) (d : Decimal) : (d.trimWith n).value = d.value := by
  induction n generalizing d with
  | zero => rfl
  | succ n ih =>
    rw [trimWith]
    split
    · next hz =>
      have hdigits : (d.digits : ℚ) = 10 * (d.digits / 10 : Nat) := by
        exact_mod_cast (Nat.mul_div_cancel' (Nat.dvd_of_mod_eq_zero hz.1)).symm
      rw [ih, value, value, zpow_add_one₀ (by norm_num), hdigits]
      ring
    · rfl

/-- The shortest decimal of a number rounds to it. -/
theorem holds_shortest (hx : 0 < position x) : (Rounding.ofFloat x).Holds (shortest x).value := by
  unfold shortest
  simp only
  split
  · next d hd =>
    obtain ⟨n, -, hn⟩ := List.exists_of_findSome?_eq_some hd
    rw [Decimal.trim, Decimal.value_trimWith]
    exact Rounding.holds_of_onGrid? (Rounding.scale_ofFloat_pos x) hn
  · next hnone =>
    obtain ⟨d, hd⟩ := Rounding.exists_onGrid? hx
    have hlast := List.findSome?_eq_none_iff.mp hnone 16 (by decide)
    rw [show (Rounding.ofFloat x).magnitude - ((16 + 1 : Nat) : Int) =
      (Rounding.ofFloat x).magnitude - 17 from rfl, hd] at hlast
    cases hlast

end ScriptOptimizer.Number
