import ScriptOptimizer.Number.Display
import ScriptOptimizer.Proofs.NumberRounding

/-!
# Texts of numbers

The text of a number writes a rational number that rounds to it, so texts tell numbers apart. Only the
zeros of either sign are written alike.
-/

namespace ScriptOptimizer.Number

/-! ## Reading a text back -/

variable {r w : List Char} {x : Float}

/-- The rational number that a numeral writes. -/
def Numeral.value? (n : Numeral) : Option ℚ :=
  (readDigits? 10 0 (n.whole ++ n.fraction)).map fun d : Nat =>
    (d : ℚ) * 10 ^ (n.exponent.getD 0 - n.fraction.length)

/-- The rational number that a text without sign writes. -/
def textValue? (cs : List Char) : Option ℚ := (numeral? Char.isDigit 'e' cs).bind Numeral.value?

/-- Whether all characters are digits. -/
def AllDigits (cs : List Char) : Prop := ∀ c ∈ cs, c.isDigit = true

theorem allDigits_decimalDigits (n : Nat) : AllDigits (decimalDigits n) := fun _ hc =>
  Nat.isDigit_of_mem_toDigits (by decide) (by decide) hc

theorem allDigits_zeros (n : Nat) : AllDigits (List.replicate n '0') := fun _ hc =>
  List.eq_of_mem_replicate hc ▸ rfl

theorem AllDigits.append {xs ys : List Char} (hx : AllDigits xs) (hy : AllDigits ys) :
    AllDigits (xs ++ ys) := fun c hc => (List.mem_append.mp hc).elim (hx c) (hy c)

theorem digitValue?_of_isDigit {c : Char} (hc : c.isDigit = true) :
    digitValue? c = some (c.toNat - 48) ∧ c.toNat - 48 < 10 := by
  simp only [Char.isDigit, Bool.and_eq_true, decide_eq_true_eq, ge_iff_le] at hc
  have hle : '0' ≤ c ∧ c ≤ '9' := hc
  have hlow : 48 ≤ c.toNat := hc.1
  have hhigh : c.toNat ≤ 57 := hc.2
  exact ⟨by rw [digitValue?, if_pos hle], by omega⟩

theorem readDigits?_of_allDigits {cs : List Char} (h : AllDigits cs) (acc : Nat) :
    readDigits? 10 acc cs = some (Nat.ofDigitChars 10 cs acc) := by
  induction cs generalizing acc with
  | nil => rfl
  | cons c cs ih =>
    obtain ⟨hd, hlt⟩ := digitValue?_of_isDigit (h c List.mem_cons_self)
    rw [readDigits?, hd]
    simp only [hlt, if_true]
    rw [ih fun c hc => h c (List.mem_cons_of_mem _ hc), Nat.ofDigitChars_cons, Nat.mul_comm acc]
    rfl

theorem readDigits?_decimalDigits (n : Nat) : readDigits? 10 0 (decimalDigits n) = some n := by
  rw [readDigits?_of_allDigits (allDigits_decimalDigits n), decimalDigits, Nat.ofDigitChars_ten_toDigits]

/-- Digits end where no digit follows. -/
theorem takeWhile_digits {cs : List Char} (h : AllDigits cs) (hr : ∀ c ∈ r.head?, c.isDigit = false) :
    (cs ++ r).takeWhile Char.isDigit = cs ∧ (cs ++ r).dropWhile Char.isDigit = r := by
  induction cs with
  | nil =>
    cases r with
    | nil => exact ⟨rfl, rfl⟩
    | cons c r =>
      have hc : c.isDigit = false := hr c rfl
      simp [hc]
  | cons c cs ih =>
    have hc : c.isDigit = true := h c List.mem_cons_self
    have hcs := ih fun c hc => h c (List.mem_cons_of_mem _ hc)
    simp [hc, hcs]

/-- The exponent of a number as it is written. -/
def exponentText (e : Int) : List Char := 'e' :: (if e < 0 then '-' else '+') :: decimalDigits e.natAbs

/-- Reading goes on with an exponent or ends behind the digits. -/
theorem numeral?_append {f : List Char} {e : Option Int} (hw : AllDigits w) (hne : w ≠ []) (hf : AllDigits f)
    (hr : r = e.elim [] exponentText) : numeral? Char.isDigit 'e' (w ++ r) = some ⟨w, [], e⟩ ∧
    numeral? Char.isDigit 'e' (w ++ '.' :: (f ++ r)) = some ⟨w, f, e⟩ := by
  have hhead : ∀ c ∈ r.head?, c.isDigit = false := by
    subst hr
    cases e with
    | none => simp
    | some e => simp [exponentText]
  have hdot : ∀ c ∈ ('.' :: (f ++ r)).head?, c.isDigit = false := by simp
  have hw' : w.isEmpty = false := by cases w <;> simp_all
  obtain ⟨htake, hdrop⟩ := takeWhile_digits hw hhead
  obtain ⟨htake', hdrop'⟩ := takeWhile_digits hw hdot
  obtain ⟨htakef, hdropf⟩ := takeWhile_digits hf hhead
  unfold numeral?
  simp only [htake, hdrop, htake', hdrop', htakef, hdropf, hw']
  subst hr
  cases e with
  | none => simp
  | some e =>
    have hread := readDigits?_decimalDigits e.natAbs
    obtain ⟨c, cs, hcs⟩ := List.exists_cons_of_ne_nil (Nat.toDigits_ne_nil (n := e.natAbs) (b := 10))
    rw [decimalDigits, hcs] at hread
    by_cases he : e < 0
    · simp [exponentText, decimalDigits, he, hcs, hread, abs_of_neg he]
    · simp [exponentText, decimalDigits, he, hcs, hread, abs_of_nonneg (not_lt.mp he)]

/-- The digits of a decimal in front of and behind the point write its value. -/
theorem textValue?_append {d : Decimal} {f : List Char} {e : Option Int} (hw : AllDigits w) (hne : w ≠ [])
    (hf : AllDigits f) (hr : r = e.elim [] exponentText) (hdigits : readDigits? 10 0 (w ++ f) = some d.digits)
    (he : e.getD 0 - f.length = d.exponent) : textValue? (w ++ '.' :: (f ++ r)) = some d.value := by
  rw [textValue?, (numeral?_append hw hne hf hr).2, Option.bind_some, Numeral.value?, hdigits, he]
  rfl

/-- The digits of a decimal without a fraction write its value. -/
theorem textValue?_whole {d : Decimal} {e : Option Int} {n : Nat} (hw : AllDigits w) (hne : w ≠ [])
    (hr : r = e.elim [] exponentText) (hdigits : readDigits? 10 0 w = some n)
    (hd : (n * 10 ^ (e.getD 0) : ℚ) = d.value) : textValue? (w ++ r) = some d.value := by
  rw [textValue?, (numeral?_append hw hne (f := []) (by simp [AllDigits]) hr).1, Option.bind_some,
    Numeral.value?, List.append_nil, hdigits, Option.map_some, ← hd]
  simp

theorem decimalDigits_ne_nil (n : Nat) : decimalDigits n ≠ [] := Nat.toDigits_ne_nil

/-- Positional notation writes the value of a decimal. -/
theorem textValue?_positional (d : Decimal) : textValue? (positional d) = some d.value := by
  have hds := allDigits_decimalDigits d.digits
  have hread := readDigits?_decimalDigits d.digits
  unfold positional
  simp only
  split
  · next hexp =>
    have hall := hds.append (allDigits_zeros d.exponent.toNat)
    have hdigits := readDigits?_of_allDigits hall 0
    rw [Nat.ofDigitChars_append, decimalDigits, Nat.ofDigitChars_ten_toDigits,
      Nat.ofDigitChars_replicate_zero] at hdigits
    rw [← List.append_nil (decimalDigits d.digits ++ _)]
    refine textValue?_whole (e := none) hall ?_ rfl hdigits ?_
    · simp [decimalDigits_ne_nil]
    · obtain ⟨n, hn⟩ := Int.eq_ofNat_of_zero_le hexp
      simp [Decimal.value, hn, mul_comm]
  · next hexp =>
    split
    · next hplaces =>
      set k := (decimalDigits d.digits).length - (-d.exponent).toNat
      have htake : AllDigits ((decimalDigits d.digits).take k) := fun c hc => hds c (List.mem_of_mem_take hc)
      have hdrop : AllDigits ((decimalDigits d.digits).drop k) := fun c hc => hds c (List.mem_of_mem_drop hc)
      rw [← List.append_nil ((decimalDigits d.digits).drop k)]
      refine textValue?_append (e := none) htake ?_ hdrop rfl ?_ ?_
      · intro hnil
        have hlen := congrArg List.length hnil
        simp only [List.length_take, List.length_nil] at hlen
        omega
      · rw [List.take_append_drop, hread]
      · simp only [Option.getD_none, List.length_drop]
        omega
    · next hplaces =>
      rw [show '0' :: '.' :: (List.replicate ((-d.exponent).toNat - (decimalDigits d.digits).length) '0' ++
          decimalDigits d.digits) = ['0'] ++ '.' :: ((List.replicate
          ((-d.exponent).toNat - (decimalDigits d.digits).length) '0' ++ decimalDigits d.digits) ++ [])
        by simp]
      refine textValue?_append (e := none) (allDigits_zeros 1) (by decide)
        ((allDigits_zeros _).append hds) rfl ?_ ?_
      · have hall : AllDigits (['0'] ++ (List.replicate
            ((-d.exponent).toNat - (decimalDigits d.digits).length) '0' ++ decimalDigits d.digits)) :=
          (allDigits_zeros 1).append ((allDigits_zeros _).append hds)
        rw [readDigits?_of_allDigits hall]
        simp [Nat.ofDigitChars_append, Nat.ofDigitChars_cons, decimalDigits]
      · simp only [Option.getD_none, List.length_append, List.length_replicate]
        omega

/-- Scientific notation writes the value of a decimal. -/
theorem textValue?_scientific (d : Decimal) : textValue? (scientific d) = some d.value := by
  have hds := allDigits_decimalDigits d.digits
  have hread := readDigits?_decimalDigits d.digits
  have hne := decimalDigits_ne_nil d.digits
  unfold scientific
  generalize decimalDigits d.digits = ds at hds hread hne
  match ds, hne with
  | [c], _ =>
    refine textValue?_whole (e := some d.exponent) hds (by simp) (by simp [exponentText]) hread rfl
  | c :: c' :: cs, _ =>
    have hfirst : AllDigits [c] := fun x hx => hds x (by simp_all)
    have hlater : AllDigits (c' :: cs) := fun x hx => hds x (List.mem_cons_of_mem _ hx)
    refine textValue?_append (w := [c]) (f := c' :: cs) (e := some (d.exponent + (cs.length + 1 : Nat)))
      hfirst (by simp) hlater (by simp [exponentText]) hread ?_
    simp

/-! ## Texts of numbers -/

/-- The text of a number without its sign. -/
def unsignedText (x : Float) : List Char :=
  if isNaN x then "NaN".toList
  else if isInfinite x then "Infinity".toList
  else if isZero x then "0".toList
  else if isPositional (shortest x) then positional (shortest x) else scientific (shortest x)

theorem toList_display (x : Float) :
    (display x).toList = (if isNegative x then ['-'] else []) ++ unsignedText x := by
  unfold display unsignedText isNegative
  cases isNaN x with
  | true => cases signBit x <;> rfl
  | false =>
    cases hinf : isInfinite x with
    | true =>
      have hz : isZero x = false := by
        simp only [isInfinite, Bool.and_eq_true, beq_iff_eq] at hinf
        simp [isZero, hinf.1]
      rw [hz]
      cases signBit x <;> simp
    | false =>
      cases isZero x with
      | true => cases signBit x <;> rfl
      | false => cases signBit x <;> simp

/-- A number that is neither zero nor infinite nor undefined writes its shortest decimal. -/
theorem textValue?_unsignedText (hn : isNaN x = false) (hi : isInfinite x = false) (hz : isZero x = false) :
    textValue? (unsignedText x) = some (shortest x).value := by
  simp only [unsignedText, hn, hi, hz, Bool.false_eq_true, if_false]
  split
  · exact textValue?_positional _
  · exact textValue?_scientific _

theorem position_pos (hz : isZero x = false) : 0 < position x := by
  simp only [isZero, Bool.and_eq_false_iff, beq_eq_false_iff_ne] at hz
  unfold position
  omega

theorem halfway_pos (n : Nat) : 0 < halfway n := by
  unfold halfway
  positivity

theorem value_shortest_pos (hz : isZero x = false) : 0 < (shortest x).value :=
  (halfway_pos _).trans_le ((holds_shortest (position_pos hz)).between (position_pos hz)).1

open Float.Model UnpackedFloat in
theorem toBits_of_isNaN (hx : isNaN x = true) : x.toBits.toBitVec = packedNaN Format.binary64 := by
  simp only [isNaN, Bool.and_eq_true, beq_iff_eq, bne_iff_ne, ne_eq] at hx
  rw [exponentField_eq, fractionField_eq] at hx
  refine x.toModel.valid.eq_packedNaN ?_ ?_
  · apply BitVec.eq_of_toNat_eq
    simp only [unpackExponent, BitVec.toNat_cast, BitVec.extractLsb_toNat, Nat.shiftRight_eq_div_pow]
    exact hx.1
  · intro hzero
    have hnat := congrArg BitVec.toNat hzero
    simp only [unpackMantissa, BitVec.toNat_cast, BitVec.extractLsb_toNat, Nat.shiftRight_zero] at hnat
    exact hx.2 hnat

theorem isZero_iff : isZero x = true ↔ x = 0 ∨ x = -0 := by
  constructor
  · intro h
    simp only [isZero, Bool.and_eq_true, beq_iff_eq] at h
    have hpos : position x = 0 := by simp [position, h.1, h.2]
    cases hs : signBit x with
    | false => exact .inl (eq_of_position hs hpos)
    | true => exact .inr (eq_of_position hs hpos)
  · rintro (rfl | rfl) <;> rfl

/-- There is only one undefined number. -/
theorem eq_of_isNaN {y : Float} (hx : isNaN x = true) (hy : isNaN y = true) : x = y := by
  have hbits : x.toBits = y.toBits :=
    UInt64.toBitVec_inj.mp ((toBits_of_isNaN hx).trans (toBits_of_isNaN hy).symm)
  refine eq_of_position ?_ ?_
  · rw [signBit, signBit, hbits]
  · rw [position, position, exponentField_eq, exponentField_eq, fractionField_eq, fractionField_eq, hbits]

theorem eq_of_isInfinite {y : Float} (hx : isInfinite x = true) (hy : isInfinite y = true)
    (hs : signBit x = signBit y) : x = y := by
  simp only [isInfinite, Bool.and_eq_true, beq_iff_eq] at hx hy
  refine eq_of_position hs ?_
  rw [position, position, hx.1, hx.2, hy.1, hy.2]

/-- The four kinds of numbers and what their texts without sign write. -/
theorem unsignedText_cases (x : Float) :
    (isNaN x = true ∧ unsignedText x = "NaN".toList ∧ textValue? (unsignedText x) = none) ∨
    (isInfinite x = true ∧ isNegative x = signBit x ∧ unsignedText x = "Infinity".toList ∧
      textValue? (unsignedText x) = none) ∨
    (isZero x = true ∧ textValue? (unsignedText x) = some 0) ∨
    (isZero x = false ∧ isNegative x = signBit x ∧
      textValue? (unsignedText x) = some (shortest x).value) := by
  cases hn : isNaN x with
  | true =>
    have htext : unsignedText x = "NaN".toList := by simp only [unsignedText, hn, if_true]
    exact .inl ⟨rfl, htext, htext ▸ by decide⟩
  | false =>
    cases hz : isZero x with
    | true =>
      have hi : isInfinite x = false := by
        simp only [isZero, Bool.and_eq_true, beq_iff_eq] at hz
        simp [isInfinite, hz.1]
      have htext : unsignedText x = positional ⟨0, 0⟩ := by
        simp only [unsignedText, hn, hi, hz, Bool.false_eq_true, if_true, if_false]
        decide
      refine .inr (.inr (.inl ⟨rfl, ?_⟩))
      rw [htext, textValue?_positional]
      simp [Decimal.value]
    | false =>
      have hneg : isNegative x = signBit x := by simp [isNegative, hn, hz]
      cases hi : isInfinite x with
      | true =>
        have htext : unsignedText x = "Infinity".toList := by
          simp only [unsignedText, hn, hi, Bool.false_eq_true, if_true, if_false]
        exact .inr (.inl ⟨rfl, hneg, htext, htext ▸ by decide⟩)
      | false => exact .inr (.inr (.inr ⟨rfl, hneg, textValue?_unsignedText hn hi hz⟩))

/-- The text without sign tells numbers of one sign apart, zeros excepted. -/
theorem eq_of_unsignedText {y : Float} (h : unsignedText x = unsignedText y) (hs : isNegative x = isNegative y) :
    x = y ∨ isZero x = true ∧ isZero y = true := by
  have hvalue : textValue? (unsignedText x) = textValue? (unsignedText y) := congrArg _ h
  obtain ⟨hx, tx, vx⟩ | ⟨hx, sx, tx, vx⟩ | ⟨hx, vx⟩ | ⟨hx, sx, vx⟩ := unsignedText_cases x <;>
    obtain ⟨hy, ty, vy⟩ | ⟨hy, sy, ty, vy⟩ | ⟨hy, vy⟩ | ⟨hy, sy, vy⟩ := unsignedText_cases y <;>
    rw [vx, vy] at hvalue
  -- What is left are pairs of one kind, pairs of texts that write nothing, and zero against the rest.
  case inl.inl => exact .inl (eq_of_isNaN hx hy)
  case inr.inl.inr.inl => exact .inl (eq_of_isInfinite hx hy (sx ▸ sy ▸ hs))
  case inr.inr.inl.inr.inr.inl => exact .inr ⟨hx, hy⟩
  case inr.inr.inr.inr.inr.inr =>
    have hpos := (holds_shortest (position_pos hx)).position_eq (position_pos hx) (position_pos hy)
      (Option.some.inj hvalue ▸ holds_shortest (position_pos hy))
    exact .inl (eq_of_position (sx ▸ sy ▸ hs) hpos)
  case inl.inr.inl => simp [tx, ty] at h
  case inr.inl.inl => simp [tx, ty] at h
  case inr.inr.inl.inr.inr.inr =>
    exact absurd (value_shortest_pos hy) (Option.some.inj hvalue ▸ lt_irrefl _)
  case inr.inr.inr.inr.inr.inl =>
    exact absurd (value_shortest_pos hx) (Option.some.inj hvalue ▸ lt_irrefl _)
  all_goals cases hvalue

/-! ## The characters of texts -/

/-- Whether a character can stand in the text of a number. -/
def isNumberPart (c : Char) : Bool := c.isAlphanum || c == '.' || c == '+' || c == '-'

theorem isNumberPart_of_isDigit {c : Char} (hc : c.isDigit = true) : isNumberPart c = true := by
  simp [isNumberPart, Char.isAlphanum, hc]

theorem isNumberPart_positional (d : Decimal) : ∀ c ∈ positional d, isNumberPart c = true := by
  have hds := allDigits_decimalDigits d.digits
  intro c hc
  unfold positional at hc
  simp only at hc
  split at hc
  · exact isNumberPart_of_isDigit (hds.append (allDigits_zeros _) c hc)
  · split at hc
    · obtain hc | hc := List.mem_append.mp hc
      · exact isNumberPart_of_isDigit (hds c (List.mem_of_mem_take hc))
      · obtain rfl | hc := List.mem_cons.mp hc
        · decide
        · exact isNumberPart_of_isDigit (hds c (List.mem_of_mem_drop hc))
    · obtain rfl | hc := List.mem_cons.mp hc
      · decide
      · obtain rfl | hc := List.mem_cons.mp hc
        · decide
        · exact isNumberPart_of_isDigit ((allDigits_zeros _).append hds c hc)

theorem isNumberPart_scientific (d : Decimal) : ∀ c ∈ scientific d, isNumberPart c = true := by
  have hds := allDigits_decimalDigits d.digits
  intro c hc
  unfold scientific at hc
  generalize decimalDigits d.digits = ds at hds hc
  obtain hc | hc := List.mem_append.mp hc
  · split at hc
    · next first second later =>
      obtain rfl | hc := List.mem_cons.mp hc
      · exact isNumberPart_of_isDigit (hds c List.mem_cons_self)
      · obtain rfl | hc := List.mem_cons.mp hc
        · decide
        · exact isNumberPart_of_isDigit (hds c (List.mem_cons_of_mem _ hc))
    · exact isNumberPart_of_isDigit (hds c hc)
  · obtain rfl | hc := List.mem_cons.mp hc
    · decide
    · obtain hsign | hc := List.mem_cons.mp hc
      · rw [hsign]
        split <;> decide
      · exact isNumberPart_of_isDigit (allDigits_decimalDigits _ c hc)

theorem isNumberPart_unsignedText (x : Float) : ∀ c ∈ unsignedText x, isNumberPart c = true := by
  unfold unsignedText
  split
  · exact List.all_eq_true.mp (by decide)
  split
  · exact List.all_eq_true.mp (by decide)
  split
  · exact List.all_eq_true.mp (by decide)
  split
  · exact isNumberPart_positional _
  · exact isNumberPart_scientific _

theorem isNumberPart_display (x : Float) : ∀ c ∈ (display x).toList, isNumberPart c = true := by
  intro c hc
  rw [toList_display] at hc
  obtain hc | hc := List.mem_append.mp hc
  · split at hc
    · obtain rfl := List.mem_singleton.mp hc
      decide
    · cases hc
  · exact isNumberPart_unsignedText x c hc

/-- Whether a character can stand in front in the text of a number without sign. -/
def isNumberStart (c : Char) : Bool := c.isDigit || c == 'N' || c == 'I'

theorem head_of_allDigits (hw : AllDigits w) (hne : w ≠ []) : (w ++ r).head?.any isNumberStart = true := by
  obtain ⟨c, cs, rfl⟩ := List.exists_cons_of_ne_nil hne
  simp [isNumberStart, hw c List.mem_cons_self]

theorem head_positional (d : Decimal) : (positional d).head?.any isNumberStart = true := by
  have hds := allDigits_decimalDigits d.digits
  unfold positional
  simp only
  split
  · exact head_of_allDigits hds (decimalDigits_ne_nil _)
  · split
    · next hplaces =>
      refine head_of_allDigits (fun c hc => hds c (List.mem_of_mem_take hc)) fun hnil => ?_
      have hlen := congrArg List.length hnil
      simp only [List.length_take, List.length_nil] at hlen
      omega
    · rfl

theorem head_scientific (d : Decimal) : (scientific d).head?.any isNumberStart = true := by
  have hds := allDigits_decimalDigits d.digits
  have hne := decimalDigits_ne_nil d.digits
  unfold scientific
  generalize decimalDigits d.digits = ds at hds hne
  obtain ⟨c, cs, rfl⟩ := List.exists_cons_of_ne_nil hne
  have hc : c.isDigit = true := hds c List.mem_cons_self
  cases cs <;> simp [isNumberStart, hc]

theorem head_unsignedText (x : Float) : (unsignedText x).head?.any isNumberStart = true := by
  unfold unsignedText
  split
  · rfl
  split
  · rfl
  split
  · rfl
  split
  · exact head_positional _
  · exact head_scientific _

/-- A text with a sign starts with it. -/
theorem head_display (x : Float) :
    (display x).toList.head?.any (fun c => isNumberStart c || c == '-') = true := by
  rw [toList_display]
  split
  · rfl
  · have hhead := head_unsignedText x
    rw [Option.any_eq_true] at hhead
    obtain ⟨c, hc, hstart⟩ := hhead
    simp [hc, hstart]

/-- The text of a number tells it from all others, zeros excepted. -/
theorem eq_of_display {y : Float} (h : display x = display y) : x = y ∨ isZero x = true ∧ isZero y = true := by
  have htext := congrArg String.toList h
  rw [toList_display, toList_display] at htext
  have hsign (z : Float) : (unsignedText z).head? ≠ some '-' := by
    intro hminus
    have hhead := head_unsignedText z
    rw [hminus] at hhead
    exact absurd hhead (by decide)
  cases hx : isNegative x <;> cases hy : isNegative y <;> simp only [hx, hy] at htext
  · exact eq_of_unsignedText htext (hx.trans hy.symm)
  · exact absurd (congrArg List.head? htext) (hsign x)
  · exact absurd (congrArg List.head? htext).symm (hsign y)
  · exact eq_of_unsignedText (List.cons.inj htext).2 (hx.trans hy.symm)

end ScriptOptimizer.Number
