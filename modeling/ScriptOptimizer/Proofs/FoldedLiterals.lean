import Mathlib.Data.List.TakeWhile
import Mathlib.Data.Rat.Floor
import ScriptOptimizer.Optimize.Fold
import ScriptOptimizer.Proofs.NumberText

/-!
# Folded literals

What the operators of the language mean on primitive values, and whether folding gives that meaning. The
conversions follow the language standard: white space does not count when a string is read as a number,
and the bitwise operators take the integer part of a number modulo `2 ^ 32`. Folding trims one character
more than the standard, U+0085, and the main statement says which folds this affects.
-/

namespace ScriptOptimizer

/-! ## The standard -/

namespace Standard

/-- White space and line terminators. -/
def isSpace : Atom → Bool
  | .char c =>
    c.toNat ∈ [9, 10, 11, 12, 13, 0x20, 0xA0, 0x1680, 0x2028, 0x2029, 0x202F, 0x205F, 0x3000, 0xFEFF] ||
      (0x2000 ≤ c.toNat && c.toNat ≤ 0x200A)
  | .stray _ => false

/-- A string without the white space at its ends. -/
def trim (t : Text) : Text := ((t.dropWhile isSpace).reverse.dropWhile isSpace).reverse

def nan : Float := Float.ofBits 0x7FF8000000000000

def infinity : Float := Float.ofBits 0x7FF0000000000000

/-- The number that a text in decimal notation without sign writes. -/
def decimal? (cs : List Char) : Option Float :=
  if cs = "Infinity".toList then some infinity
  else do
    let n ← Number.numeral? Char.isDigit 'e' cs
    let digits ← readDigits? 10 0 (n.whole ++ n.fraction)
    return (Number.ofDecimal? digits (n.exponent.getD 0 - n.fraction.length)).getD infinity

/-- The base that the character behind a leading zero marks. -/
def base? (mark : Char) : Option Nat :=
  if mark ∈ ['x', 'X'] then some 16
  else if mark ∈ ['o', 'O'] then some 8
  else if mark ∈ ['b', 'B'] then some 2
  else none

/-- The number that a text writes: a decimal with optional sign, or digits in base 16, 8 or 2. -/
def numeric? (cs : List Char) : Option Float :=
  match cs with
  | '+' :: cs => decimal? cs
  | '-' :: cs => (decimal? cs).map (-·)
  | '0' :: mark :: digits =>
    match base? mark with
    | some base => if digits = [] then none else (readDigits? base 0 digits).map Float.ofNat
    | none => decimal? cs
  | _ => decimal? cs

/-- The number that a primitive value converts to. -/
def toNumber : Literal → Float
  | .number x => x
  | .string t => if trim t = [] then 0 else (numeric? ((trim t).map Atom.shown)).getD nan
  | .bool b => if b then 1 else 0
  | .null => 0
  | .undefined => nan

/-- The string that a primitive value converts to. -/
def toText : Literal → Text
  | .number x => Text.ofString (Number.display x)
  | .string t => t
  | .bool true => Text.ofString "true"
  | .bool false => Text.ofString "false"
  | .null => Text.ofString "null"
  | .undefined => Text.ofString "undefined"

/-- The truth value that a primitive value converts to. -/
def toBoolean : Literal → Bool
  | .number x => x ≠ 0 ∧ x ≠ -0 ∧ x ≠ nan
  | .string t => t ≠ []
  | .bool b => b
  | .null | .undefined => false

/-- The value of a finite number. -/
def value (x : Float) : ℚ := (if Number.signBit x then -1 else 1) * Number.mantissa x * 2 ^ Number.exponent x

/-- The integer part of a number, zero for a number that is not finite. -/
def toInteger (x : Float) : Int :=
  if Number.isNaN x || Number.isInfinite x then 0
  else if value x < 0 then ⌈value x⌉ else ⌊value x⌋

/-- The integer that a value converts to, as a 32-bit integer with sign. -/
def toInt32 (l : Literal) : Int := (toInteger (toNumber l)).bmod (2 ^ 32)

/-- The integer that a value converts to, as a 32-bit integer without sign. -/
def toUint32 (l : Literal) : Nat := (toInteger (toNumber l) % 2 ^ 32).toNat

/-- An operation on the bits of 32-bit integers. -/
def bitwise (f : BitVec 32 → BitVec 32 → BitVec 32) (l r : Literal) : Literal :=
  .number (.ofInt (f (.ofInt 32 (toInt32 l)) (.ofInt 32 (toInt32 r))).toInt)

/-- The UTF-16 code units of an element; a stray byte is none of them. -/
def units : Atom → List Nat
  | .char c =>
    if c.toNat < 0x10000 then [c.toNat]
    else [0xD800 + (c.toNat - 0x10000) / 0x400, 0xDC00 + (c.toNat - 0x10000) % 0x400]
  | .stray b => [0x10000 + b.toNat]

def codeUnits (t : Text) : List Nat := t.flatMap units

/-- Equality without conversion. -/
def strictlyEqual : Literal → Literal → Bool
  | .number x, .number y => x == y
  | .string s, .string t => codeUnits s = codeUnits t
  | .bool a, .bool b => a = b
  | .null, .null | .undefined, .undefined => true
  | _, _ => false

/-- A truth value as a number. -/
def unboxed : Literal → Literal
  | .bool b => .number (toNumber (.bool b))
  | l => l

/-- Equality with conversion. -/
def looselyEqual (l r : Literal) : Bool :=
  if l.ctorIdx = r.ctorIdx then strictlyEqual l r
  else
    match unboxed l, unboxed r with
    | .null, .undefined | .undefined, .null => true
    | .number x, .string t => x == toNumber (.string t)
    | .string t, .number x => toNumber (.string t) == x
    | l, r => strictlyEqual l r

/-- An order of strings by their code units and of all other values by their numbers. -/
def relation (strings : List Nat → List Nat → Bool) (numbers : Float → Float → Bool) :
    Literal → Literal → Literal
  | .string s, .string t => .bool (strings (codeUnits s) (codeUnits t))
  | l, r => .bool (numbers (toNumber l) (toNumber r))

def typeName : Literal → String
  | .undefined => "undefined"
  | .null => "object"
  | .bool _ => "boolean"
  | .number _ => "number"
  | .string _ => "string"

/-- The value of a unary operator. -/
def unary? (op : UnaryOp) (x : Literal) : Option Literal :=
  match op with
  | .not => some (.bool !toBoolean x)
  | .void => some .undefined
  | .typeOf => some (.string (Text.ofString (typeName x)))
  | .minus => some (.number (-toNumber x))
  | .plus => some (.number (toNumber x))
  | .complement => some (bitwise (fun a _ => ~~~a) x x)
  | .delete | .other _ => none

/-- The value of a binary operator. -/
def binary? (op : BinaryOp) (l r : Literal) : Option Literal :=
  match op with
  | .add =>
    if l.isString ∨ r.isString then some (.string (toText l ++ toText r))
    else some (.number (toNumber l + toNumber r))
  | .subtract => some (.number (toNumber l - toNumber r))
  | .multiply => some (.number (toNumber l * toNumber r))
  | .divide => some (.number (toNumber l / toNumber r))
  | .remainder => some (.number (Number.remainder (toNumber l) (toNumber r)))
  | .bitAnd => some (bitwise (· &&& ·) l r)
  | .bitOr => some (bitwise (· ||| ·) l r)
  | .bitXor => some (bitwise (· ^^^ ·) l r)
  | .shiftLeft => some (.number (.ofInt ((toInt32 l * 2 ^ (toUint32 r % 32)).bmod (2 ^ 32))))
  | .shiftRight => some (.number (.ofInt (toInt32 l / 2 ^ (toUint32 r % 32))))
  | .shiftRightZero => some (.number (.ofInt (toUint32 l / 2 ^ (toUint32 r % 32))))
  | .same => some (.bool (strictlyEqual l r))
  | .notSame => some (.bool !strictlyEqual l r)
  | .equal => some (.bool (looselyEqual l r))
  | .notEqual => some (.bool !looselyEqual l r)
  | .less => some (relation (fun s t => s < t) (fun x y => x < y) l r)
  | .greater => some (relation (fun s t => t < s) (fun x y => y < x) l r)
  | .atMost => some (relation (fun s t => ¬ t < s) (fun x y => x ≤ y) l r)
  | .atLeast => some (relation (fun s t => ¬ s < t) (fun x y => y ≤ x) l r)
  | .nullish | .or | .and | .within | .instanceOf | .power | .other _ => none

/-- The operand that a logical operator gives, if its left operand is a primitive value. -/
def logical? (op : BinaryOp) (l : Literal) (r : IR.Operand) : Option IR.Operand :=
  match op with
  | .and => some (if toBoolean l then r else .literal l)
  | .or => some (if toBoolean l then .literal l else r)
  | .nullish => some (if l = .null ∨ l = .undefined then r else .literal l)
  | _ => none

end Standard

open Standard

/-! ## Conversions -/

/-- Whether a value is a string that holds the character U+0085. -/
def Literal.holdsNextLine : Literal → Bool
  | .string t => .char (Char.ofNat 0x85) ∈ t
  | _ => false

section Numbers

variable {t : Text} {l : Literal} {x : Float}

theorem exists_of_isBlank (h : t.isBlank = true) {a : Atom} (ha : a ∈ t) :
    ∃ c, a = .char c ∧ isBlank c = true := by
  have hblank := List.all_eq_true.mp h a ha
  cases a with
  | char c => exact ⟨c, rfl, hblank⟩
  | stray b => cases hblank

/-- Every blank but one is white space of the standard. -/
theorem isSpace_of_isBlank {c : Char} (h : isBlank c = true) (hne : c ≠ Char.ofNat 0x85) :
    isSpace (.char c) = true := by
  have hc : c.toNat ≠ 0x85 := fun hc => hne (Char.toNat_inj.mp hc)
  simp only [isBlank, Bool.or_eq_true, Bool.and_eq_true, decide_eq_true_eq, beq_iff_eq] at h
  simp only [isSpace, List.mem_cons, List.not_mem_nil, or_false, Bool.or_eq_true, decide_eq_true_eq,
    Bool.and_eq_true]
  omega

/-- No number starts with a blank. -/
theorem numeric?_of_isBlank {c : Char} (h : isBlank c = true) (cs : List Char) :
    numeric? (c :: cs) = none := by
  have hne (d : Char) (hd : isBlank d = false) : c ≠ d := by
    rintro rfl
    rw [h] at hd
    cases hd
  have hdigit : c.isDigit = false := by
    simp only [isBlank, Bool.or_eq_true, Bool.and_eq_true, decide_eq_true_eq, beq_iff_eq] at h
    by_contra hd
    simp only [Char.isDigit, Bool.and_eq_true, decide_eq_true_eq, ge_iff_le, Bool.not_eq_false] at hd
    have hlow : 48 ≤ c.toNat := hd.1
    have hhigh : c.toNat ≤ 57 := hd.2
    omega
  have hdecimal : decimal? (c :: cs) = none := by
    have hpoint := hne '.' (by decide)
    have hword : c :: cs ≠ "Infinity".toList := fun he => hne 'I' (by decide) (List.cons.inj he).1
    rw [decimal?, if_neg hword, Number.numeral?, List.takeWhile_cons_of_neg (by simp [hdigit]),
      List.dropWhile_cons_of_neg (by simp [hdigit])]
    split
    rename_i he
    split at he
    · rename_i hcons
      exact absurd (List.cons.inj hcons).1 hpoint
    · cases he
      rfl
  unfold numeric?
  split
  · rename_i he
    exact absurd (List.cons.inj he).1 (hne '+' (by decide))
  · rename_i he
    exact absurd (List.cons.inj he).1 (hne '-' (by decide))
  · rename_i he
    exact absurd (List.cons.inj he).1 (hne '0' (by decide))
  · exact hdecimal

theorem mem_trim {a : Atom} (ha : a ∈ t) (hs : isSpace a = false) : a ∈ trim t := by
  have hdrop (u : Text) (hu : a ∈ u) : a ∈ u.dropWhile isSpace := by
    have happ := u.takeWhile_append_dropWhile (p := isSpace)
    rw [← happ, List.mem_append] at hu
    refine hu.resolve_left fun htake => ?_
    rw [List.all_eq_true.mp List.all_takeWhile a htake] at hs
    cases hs
  exact List.mem_reverse.mpr (hdrop _ (List.mem_reverse.mpr (hdrop t ha)))

theorem mem_of_mem_trim {a : Atom} (ha : a ∈ trim t) : a ∈ t :=
  (List.dropWhile_suffix _).subset (List.mem_reverse.mp
    ((List.dropWhile_suffix _).subset (List.mem_reverse.mp ha)))

/-- A blank string converts to zero, except if it holds the one blank that is no white space. -/
theorem toNumber_of_isBlank (h : t.isBlank = true) :
    toNumber (.string t) = if (Literal.string t).holdsNextLine then nan else 0 := by
  rw [toNumber]
  by_cases hline : (Literal.string t).holdsNextLine = true
  · have hmem : .char (Char.ofNat 0x85) ∈ trim t :=
      mem_trim (of_decide_eq_true hline) (by decide)
    rw [if_pos hline, if_neg (List.ne_nil_of_mem hmem)]
    cases htrim : trim t with
    | nil => simp [htrim] at hmem
    | cons a rest =>
      obtain ⟨c, rfl, hc⟩ := exists_of_isBlank h (mem_of_mem_trim (htrim ▸ List.mem_cons_self))
      rw [List.map_cons, Atom.shown, numeric?_of_isBlank hc, Option.getD_none]
  · have hall : ∀ a ∈ t, isSpace a = true := by
      intro a ha
      obtain ⟨c, rfl, hc⟩ := exists_of_isBlank h ha
      refine isSpace_of_isBlank hc fun he => hline (decide_eq_true ?_)
      rwa [he] at ha
    have hnil : trim t = [] := by
      rw [trim, List.dropWhile_eq_nil_iff.mpr hall]
      rfl
    rw [if_neg hline, if_pos hnil]

/-- The number that folding takes for a value is the one of the standard, except for a blank string that
holds U+0085. -/
theorem toNumber_of_toNumber? (h : l.toNumber? = some x) :
    toNumber l = if l.holdsNextLine then nan else x := by
  cases l with
  | string t =>
    simp only [Literal.toNumber?, Option.ite_none_right_eq_some, Option.some.injEq] at h
    obtain ⟨hblank, rfl⟩ := h
    exact toNumber_of_isBlank hblank
  | undefined => cases h
  | number | bool | null => exact Option.some.inj h

end Numbers

/-! ## Words -/

section Words

variable {x : Float} {l r : Literal}

theorem finite_iff : (Number.isNaN x || Number.isInfinite x) = decide (Number.exponentField x = 0x7FF) := by
  rw [Number.isNaN, Number.isInfinite, ← Bool.and_or_distrib_left]
  cases hf : Number.fractionField x == 0 <;> simp [bne, hf, Bool.beq_eq_decide_eq]

theorem floor_mul_zpow (m : Nat) (e : Int) : ⌊(m * 2 ^ e : ℚ)⌋ =
    (if e < 0 then m / Nat.pow 2 (-e).toNat else m * Nat.pow 2 e.toNat : Nat) := by
  by_cases he : e < 0
  · obtain ⟨k, rfl⟩ : ∃ k : Nat, e = -k := ⟨(-e).toNat, by omega⟩
    have hk : (-(-(k : Int))).toNat = k := by omega
    have hfloor := Rat.floor_natCast_div_natCast m (2 ^ k)
    rw [if_pos he, hk, zpow_neg, zpow_natCast, ← div_eq_mul_inv]
    push_cast at hfloor ⊢
    exact hfloor
  · obtain ⟨k, rfl⟩ : ∃ k : Nat, e = k := ⟨e.toNat, by omega⟩
    rw [if_neg he, Int.toNat_natCast, zpow_natCast]
    exact_mod_cast Int.floor_natCast (R := ℚ) (m * 2 ^ k)

/-- The integer part is found by dropping the digits behind the point. -/
theorem truncate_eq (h : Number.exponentField x ≠ 0x7FF) : Number.truncate x = toInteger x := by
  have hnonneg : (0 : ℚ) ≤ Number.mantissa x * 2 ^ Number.exponent x := by positivity
  rw [toInteger, finite_iff, decide_eq_false h, if_neg (by simp), Number.truncate, ← floor_mul_zpow, value]
  cases Number.signBit x with
  | false => simp [hnonneg.not_gt]
  | true =>
    rw [if_pos rfl, if_pos rfl, neg_one_mul, neg_mul]
    by_cases hneg : -((Number.mantissa x : ℚ) * 2 ^ Number.exponent x) < 0
    · rw [if_pos hneg, Int.ceil_neg]
    · have hzero : (Number.mantissa x : ℚ) * 2 ^ Number.exponent x = 0 := by linarith
      rw [if_neg hneg, hzero]
      rfl

theorem toBitVec_toWord (x : Float) : (Number.toWord x).toBitVec = .ofInt 32 (toInteger x) := by
  rw [Number.toWord]
  split_ifs with h
  · rw [toInteger, finite_iff, decide_eq_true h, if_pos rfl]
    rfl
  · rw [truncate_eq h]
    apply BitVec.eq_of_toNat_eq
    rw [UInt32.toNat_toBitVec, UInt32.toNat_ofNat', BitVec.toNat_ofInt]
    omega

theorem ofSignedWord_eq (w : UInt32) : Number.ofSignedWord w = .ofInt w.toBitVec.toInt := by
  have hlt := w.toNat_lt
  rw [Number.ofSignedWord, BitVec.toInt_eq_toNat_cond, UInt32.toNat_toBitVec]
  by_cases h : w.toNat < 0x80000000
  · rw [if_pos h, if_pos (by omega)]
    rfl
  · obtain ⟨n, hn⟩ : ∃ n, 0x100000000 - w.toNat = n + 1 := ⟨0x100000000 - w.toNat - 1, by omega⟩
    have hneg : (w.toNat : Int) - ((2 ^ 32 : Nat) : Int) = Int.negSucc n := by omega
    rw [if_neg h, if_neg (by omega), hneg, hn]
    rfl

/-- The word of a value. -/
def word (l : Literal) : UInt32 := Number.toWord (toNumber l)

theorem toInt32_eq (l : Literal) : toInt32 l = (word l).toBitVec.toInt := by
  rw [word, toBitVec_toWord, BitVec.toInt_ofInt, toInt32]

theorem toUint32_eq (l : Literal) : toUint32 l = (word l).toNat := by
  rw [word, ← UInt32.toNat_toBitVec, toBitVec_toWord, BitVec.toNat_ofInt, toUint32]
  rfl

theorem bitwise_eq (f : BitVec 32 → BitVec 32 → BitVec 32) (l r : Literal) :
    bitwise f l r = .number (Number.ofSignedWord ⟨f (word l).toBitVec (word r).toBitVec⟩) := by
  rw [bitwise, toInt32_eq, toInt32_eq, BitVec.ofInt_toInt, BitVec.ofInt_toInt, ofSignedWord_eq]

theorem toNat_distance (n : UInt32) : (Fold.distance n).toBitVec.toNat = n.toNat % 32 := by
  rw [UInt32.toNat_toBitVec, Fold.distance, UInt32.toNat_and]
  exact Nat.and_two_pow_sub_one_eq_mod n.toNat 5

theorem toInt_shiftLeft (w n : UInt32) : (w <<< Fold.distance n).toBitVec.toInt =
    (w.toBitVec.toInt * 2 ^ (n.toNat % 32)).bmod (2 ^ 32) := by
  have hshift : (w <<< Fold.distance n).toBitVec = w.toBitVec <<< (n.toNat % 32) := by
    rw [UInt32.toBitVec_shiftLeft, BitVec.shiftLeft_eq', BitVec.toNat_umod, toNat_distance]
    exact congrArg _ (Nat.mod_mod _ _)
  rw [hshift, BitVec.toInt_shiftLeft, BitVec.toInt_eq_toNat_bmod]
  simp [Int.shiftLeft_eq]

theorem toInt_shiftSigned (w n : UInt32) : (Fold.shiftSigned w (Fold.distance n)).toBitVec.toInt =
    w.toBitVec.toInt / 2 ^ (n.toNat % 32) := by
  have hmsb : (Fold.distance n).toBitVec.msb = false := by
    rw [BitVec.msb_eq_false_iff_two_mul_lt, toNat_distance]
    omega
  have hmod : ((Fold.distance n).toBitVec.smod 32).toNat = n.toNat % 32 := by
    rw [BitVec.smod_eq, hmsb]
    show ((Fold.distance n).toBitVec % 32#32).toNat = _
    rw [BitVec.toNat_umod, toNat_distance]
    exact Nat.mod_mod _ _
  have hshift : (Fold.shiftSigned w (Fold.distance n)).toBitVec = w.toBitVec.sshiftRight (n.toNat % 32) := by
    rw [Fold.shiftSigned, Int32.toBitVec_toUInt32]
    exact congrArg w.toBitVec.sshiftRight hmod
  rw [hshift, BitVec.toInt_sshiftRight, Int.shiftRight_eq_div_pow]
  norm_cast

theorem toNat_shiftRight (w n : UInt32) : (w >>> Fold.distance n).toNat = w.toNat / 2 ^ (n.toNat % 32) := by
  have hd := toNat_distance n
  rw [UInt32.toNat_toBitVec] at hd
  rw [UInt32.toNat_shiftRight, hd, Nat.mod_mod, Nat.shiftRight_eq_div_pow]

/-- The character that folding trims and the standard does not cannot be seen in a word. -/
theorem toWord_of_toNumber? (h : l.toNumber? = some x) : Number.toWord x = word l := by
  rw [word, toNumber_of_toNumber? h]
  split_ifs with hline
  · cases l with
    | string t =>
      simp only [Literal.toNumber?, Option.ite_none_right_eq_some, Option.some.injEq] at h
      rw [← h.2]
      decide +kernel
    | _ => cases hline
  · rfl

end Words

/-! ## Folded numbers -/

/-- Whether a literal is no number, or a finite one other than the negative zero. -/
def Literal.IsProper : Literal → Prop
  | .number x => x ≠ nan ∧ x ≠ infinity ∧ x ≠ -infinity ∧ x ≠ -0
  | _ => True

section Folds

variable {l r v : Literal} {x y : Float} {f : Float → Float → Float}

theorem eq_of_ofNumber? (h : Literal.ofNumber? x = some v) : v = .number x ∧ v.IsProper := by
  simp only [Literal.ofNumber?, Option.ite_none_left_eq_some, Option.some.injEq] at h
  obtain ⟨hx, rfl⟩ := h
  refine ⟨rfl, ?_, ?_, ?_, ?_⟩ <;>
  · rintro rfl
    exact hx rfl

/-- An operation whose result is undefined if an operand is. -/
def Absorbs (f : Float → Float → Float) : Prop := ∀ x, f nan x = nan ∧ f x nan = nan

open Float.Model in
theorem absorbs_of_unpacked {g : UnpackedFloat → UnpackedFloat → UnpackedFloat}
    (hl : ∀ u, g .notANumber u = .notANumber) (hr : ∀ u, g u .notANumber = .notANumber) :
    Absorbs fun x y => .ofModel (pack (g x.toModel.unpack y.toModel.unpack)) := by
  intro x
  have hnan : nan.toModel.unpack = .notANumber := by rfl
  have hpack : Float.ofModel (pack .notANumber) = nan := rfl
  simp only [hnan, hl, hr, hpack, and_self]

theorem absorbs_sub : Absorbs (· - ·) := absorbs_of_unpacked (fun _ => rfl) fun u => by cases u <;> rfl

theorem absorbs_mul : Absorbs (· * ·) := absorbs_of_unpacked (fun _ => rfl) fun u => by cases u <;> rfl

theorem absorbs_div : Absorbs (· / ·) := absorbs_of_unpacked (fun _ => rfl) fun u => by cases u <;> rfl

theorem absorbs_remainder : Absorbs Number.remainder := by
  intro x
  have hnan : Number.isNaN nan = true := rfl
  constructor
  · rw [Number.remainder, if_pos (by simp [hnan]), nan]
  · rw [Number.remainder, if_pos (by simp [hnan]), nan]

theorem arithmetic?_iff (hf : Absorbs f) (h : Fold.arithmetic? f l r = some v) :
    (some (.number (f (toNumber l) (toNumber r))) = some v ↔
      ¬ (l.holdsNextLine = true ∨ r.holdsNextLine = true)) ∧ v.IsProper := by
  simp only [Fold.arithmetic?, Option.bind_eq_bind, Option.bind_eq_some_iff] at h
  obtain ⟨x, hx, y, hy, h⟩ := h
  obtain ⟨rfl, hproper⟩ := eq_of_ofNumber? h
  refine ⟨?_, hproper⟩
  rw [toNumber_of_toNumber? hx, toNumber_of_toNumber? hy, Option.some.injEq, Literal.number.injEq]
  by_cases hline : l.holdsNextLine = true ∨ r.holdsNextLine = true
  · have hnan : f (if l.holdsNextLine then nan else x) (if r.holdsNextLine then nan else y) = nan := by
      rcases hline with hline | hline
      · rw [if_pos hline, (hf _).1]
      · rw [if_pos hline, (hf _).2]
    rw [hnan]
    exact iff_of_false (Ne.symm hproper.1) (not_not_intro hline)
  · rw [if_neg (not_or.mp hline).1, if_neg (not_or.mp hline).2]
    exact iff_of_true rfl hline

theorem words?_eq {g : UInt32 → UInt32 → Float} (h : Fold.words? g l r = some v)
    (hx : x = g (word l) (word r)) : some (.number x) = some v ∧ v.IsProper := by
  simp only [Fold.words?, Fold.arithmetic?, Option.bind_eq_bind, Option.bind_eq_some_iff] at h
  obtain ⟨y, hy, z, hz, h⟩ := h
  rw [toWord_of_toNumber? hy, toWord_of_toNumber? hz, ← hx] at h
  obtain ⟨rfl, hproper⟩ := eq_of_ofNumber? h
  exact ⟨rfl, hproper⟩

end Folds

/-! ## Strings -/

section Strings

variable {s t : Text}

theorem units_append_inj {a b : Atom} {us vs : List Nat} (h : units a ++ us = units b ++ vs) :
    a = b ∧ us = vs := by
  have hvalid (c : Char) : c.toNat < 0xD800 ∨ 0xDFFF < c.toNat ∧ c.toNat < 0x110000 := c.valid
  cases a with
  | char c =>
    have hc := hvalid c
    cases b with
    | char d =>
      have hd := hvalid d
      rw [Atom.char.injEq, ← Char.toNat_inj]
      simp only [units] at h
      split_ifs at h <;> simp only [List.cons_append, List.nil_append, List.cons.injEq] at h
      all_goals first | exact ⟨h.1, h.2⟩ | exact ⟨by omega, h.2.2⟩ | (exfalso; omega)
    | stray b =>
      simp only [units] at h
      split_ifs at h <;> simp only [List.cons_append, List.nil_append, List.cons.injEq] at h <;> omega
  | stray a =>
    cases b with
    | char d =>
      have hd := hvalid d
      simp only [units] at h
      split_ifs at h <;> simp only [List.cons_append, List.nil_append, List.cons.injEq] at h <;> omega
    | stray b =>
      simp only [units, List.cons_append, List.nil_append, List.cons.injEq] at h
      exact ⟨congrArg _ (UInt8.toNat_inj.mp (by omega)), h.2⟩

theorem units_ne_nil (a : Atom) : units a ≠ [] := by
  unfold units
  split
  · split_ifs <;> simp
  · simp

theorem codeUnits_inj : codeUnits s = codeUnits t ↔ s = t := by
  refine ⟨fun h => ?_, fun h => h ▸ rfl⟩
  induction s generalizing t with
  | nil =>
    cases t with
    | nil => rfl
    | cons b t => exact absurd (List.append_eq_nil_iff.mp h.symm).1 (units_ne_nil b)
  | cons a s ih =>
    cases t with
    | nil => exact absurd (List.append_eq_nil_iff.mp h).1 (units_ne_nil a)
    | cons b t =>
      obtain ⟨rfl, hrest⟩ := units_append_inj h
      rw [ih hrest]

theorem bytesLt_iff (as bs : List UInt8) :
    Text.bytesLt as bs = true ↔ as.map UInt8.toNat < bs.map UInt8.toNat := by
  induction as generalizing bs with
  | nil => cases bs <;> simp [Text.bytesLt]
  | cons a as ih =>
    cases bs with
    | nil => simp [Text.bytesLt]
    | cons b bs =>
      rw [Text.bytesLt, Bool.or_eq_true, Bool.and_eq_true, ih, decide_eq_true_eq, beq_iff_eq, List.map_cons,
        List.map_cons, List.cons_lt_cons_iff, UInt8.lt_iff_toNat_lt, ← UInt8.toNat_inj]

theorem codeUnits_of_isAscii (h : t.isAscii = true) : codeUnits t = t.bytes.map UInt8.toNat := by
  induction t with
  | nil => rfl
  | cons a t ih =>
    obtain ⟨ha, ht⟩ := List.forall_mem_cons.mp (List.all_eq_true.mp h)
    cases a with
    | stray b => cases ha
    | char c =>
      have hc : c.toNat < 0x80 := of_decide_eq_true ha
      have hbytes : Atom.bytes (.char c) = [c.toNat.toUInt8] := by
        rw [Atom.bytes, String.utf8EncodeChar, if_pos (show c.val.toNat ≤ 127 from Nat.le_of_lt_succ hc)]
        rfl
      rw [Text.bytes, List.flatMap_cons, hbytes, codeUnits, List.flatMap_cons, units, if_pos (by omega)]
      rw [← codeUnits, ih (List.all_eq_true.mpr ht), ← Text.bytes]
      simp
      omega

/-- The order of two sequences of code units. -/
def order (us vs : List Nat) : Ordering := if us < vs then .lt else if vs < us then .gt else .eq

theorem order_eq_lt {us vs : List Nat} : order us vs = .lt ↔ us < vs := by
  unfold order
  split_ifs <;> simp_all

theorem order_eq_gt {us vs : List Nat} : order us vs = .gt ↔ vs < us := by
  unfold order
  split_ifs with hlt hgt
  · simp [List.lt_asymm hlt]
  · simp [hgt]
  · simp [hgt]

/-- ASCII strings are ordered by their bytes as by their code units. -/
theorem order_codeUnits (hs : s.isAscii = true) (ht : t.isAscii = true) :
    (if s.lt t then .lt else if t.lt s then .gt else .eq) = order (codeUnits s) (codeUnits t) := by
  simp only [order, Text.lt, bytesLt_iff, codeUnits_of_isAscii hs, codeUnits_of_isAscii ht]

end Strings

/-! ## Truth, equality and order -/

section Relations

variable {l r v : Literal} {x : Float} {b : Bool}

theorem isNaN_iff : Number.isNaN x = true ↔ x = nan :=
  ⟨fun h => Number.eq_of_isNaN h rfl, fun h => h ▸ rfl⟩

theorem toBoolean_eq (l : Literal) : toBoolean l = l.truthy := by
  cases l with
  | number x =>
    rw [Bool.eq_iff_iff, toBoolean, Literal.truthy, Bool.and_eq_true, Bool.not_eq_true', Bool.not_eq_true',
      ← Bool.not_eq_true, ← Bool.not_eq_true, Number.isZero_iff, isNaN_iff, not_or, and_assoc, decide_eq_true_eq]
  | string t => cases t <;> rfl
  | bool | null | undefined => rfl

theorem strictlyEqual_eq (l r : Literal) : strictlyEqual l r = l.strictEquals r := by
  cases l <;> cases r <;> first | rfl | exact decide_eq_decide.mpr codeUnits_inj

theorem toNumber_eq (h : l.toNumber? = some x) (hs : l.isString = false) : toNumber l = x := by
  rw [toNumber_of_toNumber? h, if_neg]
  cases l <;> simp_all [Literal.holdsNextLine, Literal.isString]

theorem looselyEqual_of_looseEquals? (h : l.looseEquals? r = some b) : looselyEqual l r = b := by
  rw [Literal.looseEquals?, Literal.sameType] at h
  rw [looselyEqual]
  by_cases htype : l.ctorIdx = r.ctorIdx
  · rw [if_pos (by simpa using htype), Option.some.injEq] at h
    rw [if_pos htype, strictlyEqual_eq, h]
  · rw [if_neg (by simpa using htype)] at h
    rw [if_neg htype]
    cases l <;> cases r <;> first | exact absurd rfl htype | cases h
    all_goals rfl

theorem relation_of_compare? {numbers : Float → Float → Bool} {texts : Ordering → Bool}
    {strings : List Nat → List Nat → Bool}
    (hs : ∀ us vs, strings us vs = texts (order us vs)) (h : Fold.compare? numbers texts l r = some v) :
    some (relation strings numbers l r) = some v ∧ v.IsProper := by
  unfold Fold.compare? at h
  split at h
  · rename_i s t
    simp only [Option.ite_none_right_eq_some, Bool.and_eq_true, Option.some.injEq] at h
    obtain ⟨hascii, rfl⟩ := h
    rw [relation, hs, ← order_codeUnits hascii.1 hascii.2]
    exact ⟨rfl, trivial⟩
  · cases h
  · cases h
  · rename_i hl hr
    simp only [Option.bind_eq_bind, Option.bind_eq_some_iff, Option.pure_def, Option.some.injEq] at h
    obtain ⟨x, hx, y, hy, rfl⟩ := h
    have hleft : toNumber l = x := toNumber_eq hx (by cases l <;> simp_all [Literal.isString])
    have hright : toNumber r = y := toNumber_eq hy (by cases r <;> simp_all [Literal.isString])
    refine ⟨?_, trivial⟩
    rw [← hleft, ← hright]
    cases l <;> cases r <;> first | rfl | exact absurd rfl (hl _)

end Relations

/-! ## Agreement -/

section Agreement

variable {l r v x : Literal}

theorem toText_eq (l : Literal) : toText l = l.toText := by
  cases l with
  | bool b => cases b <;> rfl
  | _ => rfl

theorem unary?_iff {op : UnaryOp} (h : Fold.unary? op x = some v) :
    (Standard.unary? op x = some v ↔ ¬ (op = .plus ∧ x.holdsNextLine = true)) ∧ v.IsProper := by
  cases op with
  | not =>
    cases h
    exact ⟨iff_of_true (by rw [Standard.unary?, toBoolean_eq]) (by simp), trivial⟩
  | void =>
    cases h
    exact ⟨iff_of_true rfl (by simp), trivial⟩
  | typeOf =>
    cases h
    exact ⟨iff_of_true (by cases x <;> rfl) (by simp), trivial⟩
  | minus =>
    simp only [Fold.unary?, Option.bind_eq_bind, Option.bind_eq_some_iff, Option.ite_none_left_eq_some] at h
    obtain ⟨n, hn, hzero, h⟩ := h
    obtain ⟨rfl, hproper⟩ := eq_of_ofNumber? h
    have hx : x.isString = false := by
      cases x with
      | string t =>
        simp only [Literal.toNumber?, Option.ite_none_right_eq_some, Option.some.injEq] at hn
        exact absurd (hn.2 ▸ rfl) hzero
      | _ => rfl
    exact ⟨iff_of_true (by rw [Standard.unary?, toNumber_eq hn hx]) (by simp), hproper⟩
  | plus =>
    simp only [Fold.unary?, Option.bind_eq_bind, Option.bind_eq_some_iff] at h
    obtain ⟨n, hn, h⟩ := h
    obtain ⟨rfl, hproper⟩ := eq_of_ofNumber? h
    refine ⟨?_, hproper⟩
    rw [Standard.unary?, toNumber_of_toNumber? hn, Option.some.injEq, Literal.number.injEq]
    by_cases hline : x.holdsNextLine = true
    · rw [if_pos hline]
      exact iff_of_false (Ne.symm hproper.1) (not_not_intro ⟨rfl, hline⟩)
    · rw [if_neg hline]
      exact iff_of_true rfl fun h => hline h.2
  | complement =>
    simp only [Fold.unary?, Option.bind_eq_bind, Option.bind_eq_some_iff] at h
    obtain ⟨n, hn, h⟩ := h
    rw [toWord_of_toNumber? hn] at h
    obtain ⟨rfl, hproper⟩ := eq_of_ofNumber? h
    exact ⟨iff_of_true (by rw [Standard.unary?, bitwise_eq]; rfl) (by simp), hproper⟩
  | delete | other => cases h

/-- The operators that show the number of an operand, so that zero and an undefined number differ. -/
def showsNumber (op : BinaryOp) : Prop := op ∈ [.subtract, .multiply, .divide, .remainder]

/-- All other operators fold to the value of the standard. -/
theorem binary?_eq {op : BinaryOp} (hop : ¬ showsNumber op) (h : Fold.binary? op l r = some v) :
    Standard.binary? op l r = some v ∧ v.IsProper := by
  cases op with
  | add =>
    rw [Fold.binary?] at h
    rw [Standard.binary?, toText_eq, toText_eq]
    by_cases hs : l.isString ∨ r.isString
    · rw [if_pos (by simpa using hs)] at h
      cases h
      exact ⟨if_pos hs, trivial⟩
    · rw [if_neg (by simpa using hs)] at h
      simp only [Fold.arithmetic?, Option.bind_eq_bind, Option.bind_eq_some_iff] at h
      obtain ⟨x, hx, y, hy, h⟩ := h
      simp only [not_or, Bool.not_eq_true] at hs
      rw [if_neg (by simp [hs]), toNumber_eq hx hs.1, toNumber_eq hy hs.2]
      obtain ⟨rfl, hproper⟩ := eq_of_ofNumber? h
      exact ⟨rfl, hproper⟩
  | subtract | multiply | divide | remainder => exact absurd (by simp [showsNumber]) hop
  | bitAnd | bitOr | bitXor =>
    rw [Fold.binary?] at h
    rw [Standard.binary?, bitwise_eq]
    exact words?_eq h rfl
  | shiftLeft =>
    rw [Fold.binary?] at h
    rw [Standard.binary?, toInt32_eq, toUint32_eq]
    exact words?_eq h (by rw [ofSignedWord_eq, toInt_shiftLeft])
  | shiftRight =>
    rw [Fold.binary?] at h
    rw [Standard.binary?, toInt32_eq, toUint32_eq]
    exact words?_eq h (by rw [ofSignedWord_eq, toInt_shiftSigned])
  | shiftRightZero =>
    rw [Fold.binary?] at h
    rw [Standard.binary?, toUint32_eq, toUint32_eq]
    refine words?_eq h ?_
    rw [toNat_shiftRight]
    exact_mod_cast rfl
  | same | notSame =>
    cases h
    exact ⟨by rw [Standard.binary?, strictlyEqual_eq], trivial⟩
  | equal | notEqual =>
    obtain ⟨b, hb, rfl⟩ := Option.map_eq_some_iff.mp h
    exact ⟨by rw [Standard.binary?, looselyEqual_of_looseEquals? hb], trivial⟩
  | less | greater | atMost | atLeast =>
    rw [Fold.binary?] at h
    refine relation_of_compare? (fun us vs => ?_) h
    rw [Bool.eq_iff_iff]
    simp [order_eq_lt, order_eq_gt]
  | nullish | or | and | within | instanceOf | power | other => cases h

theorem binary?_iff {op : BinaryOp} (h : Fold.binary? op l r = some v) :
    (Standard.binary? op l r = some v ↔
      ¬ (showsNumber op ∧ (l.holdsNextLine = true ∨ r.holdsNextLine = true))) ∧ v.IsProper := by
  by_cases hop : showsNumber op
  · rw [and_iff_right hop]
    simp only [showsNumber, List.mem_cons, List.not_mem_nil, or_false] at hop
    rcases hop with rfl | rfl | rfl | rfl
    · exact arithmetic?_iff absorbs_sub h
    · exact arithmetic?_iff absorbs_mul h
    · exact arithmetic?_iff absorbs_div h
    · exact arithmetic?_iff absorbs_remainder h
  · obtain ⟨heq, hproper⟩ := binary?_eq hop h
    exact ⟨iff_of_true heq fun hs => hop hs.1, hproper⟩

theorem logical?_eq {op : BinaryOp} {r v : IR.Operand} (h : Fold.logical? op l r = some v) :
    Standard.logical? op l r = some v ∧ (v = .literal l ∨ v = r) := by
  have hnullish : l.isNullish = true ↔ l = .null ∨ l = .undefined := by cases l <;> simp [Literal.isNullish]
  cases op with
  | and | or =>
    cases h
    rw [Standard.logical?, toBoolean_eq]
    exact ⟨rfl, by split <;> simp⟩
  | nullish =>
    cases h
    simp only [Standard.logical?, hnullish, true_and]
    split <;> simp
  | _ => cases h

end Agreement

/-- An operation folds to a proper value, and this is the value that the standard gives it, with one
exception: an operator that shows the number of an operand takes a blank string with the character U+0085
for zero, where the standard makes it undefined. -/
theorem Fold.standard_iff (l : Literal) :
    (∀ op v, unary? op l = some v →
      (Standard.unary? op l = some v ↔ ¬ (op = .plus ∧ l.holdsNextLine = true)) ∧ v.IsProper) ∧
    (∀ op r v, binary? op l r = some v →
      (Standard.binary? op l r = some v ↔
        ¬ (showsNumber op ∧ (l.holdsNextLine = true ∨ r.holdsNextLine = true))) ∧ v.IsProper) ∧
    ∀ op r v, logical? op l r = some v → Standard.logical? op l r = some v ∧ (v = .literal l ∨ v = r) :=
  ⟨fun _ _ => unary?_iff, fun _ _ _ => binary?_iff, fun _ _ _ => logical?_eq⟩

/-- A blank string is zero for a shift, with or without the character U+0085. -/
theorem Fold.standard_iff_shift :
    let line : Literal := .string [.char (Char.ofNat 0x85)]
    ∃ v, binary? .shiftLeft (.bool true) line = some v ∧
      Standard.binary? .shiftLeft (.bool true) line = some v ∧ v.IsProper := by
  intro line
  have hsome : (binary? .shiftLeft (.bool true) line).isSome = true := by decide +kernel
  obtain ⟨v, hv⟩ := Option.isSome_iff_exists.mp hsome
  obtain ⟨hiff, hproper⟩ := (Fold.standard_iff _).2.1 _ _ _ hv
  exact ⟨v, hv, hiff.mpr (by simp [showsNumber]), hproper⟩

/-- The sign in front of such a string folds to zero, but its value is undefined. -/
theorem Fold.plus_nextLine :
    let line : Literal := .string [.char (Char.ofNat 0x85)]
    unary? .plus line = some (.number 0) ∧ Standard.unary? .plus line = some (.number nan) ∧
      (0 : Float) ≠ nan := by
  decide +kernel

end ScriptOptimizer
