import Mathlib.Algebra.Order.BigOperators.Group.List
import ScriptOptimizer.Proofs.FoldedLiterals
import ScriptOptimizer.Proofs.LexedTokens
import ScriptOptimizer.Proofs.OperandText

/-!
# String literals

A string that is written as a literal is one lexeme, whatever follows, and reads back as the string. By the
language standard a literal is a sequence of characters and escapes, each of which stands for code units of
UTF-16. The main statement says for which of them decoding gives what the standard does.
-/

namespace ScriptOptimizer

open Lexer

/-! ## Written strings -/

namespace Quoted

theorem stringRest?_plain {c : Char} (hb : c ≠ '\\') (hq : c ≠ '"') (hn : c ≠ '\n') (r : List Char) :
    stringRest? '"' (c :: r) = (stringRest? '"' r).map (· + 1) := by
  rw [stringRest?_cons hb, if_neg hq, if_neg hn]

theorem stringRest?_hexDigit (n : Nat) (r : List Char) :
    stringRest? '"' (hexDigit (n % 16) :: r) = (stringRest? '"' r).map (· + 1) := by
  have hall : ∀ k : Fin 16, hexDigit k.val ≠ '\\' ∧ hexDigit k.val ≠ '"' ∧ hexDigit k.val ≠ '\n' := by decide
  obtain ⟨hb, hq, hn⟩ := hall ⟨n % 16, Nat.mod_lt _ (by decide)⟩
  exact stringRest?_plain hb hq hn r

/-- The quote that closes a string is behind what its characters are written as. -/
theorem stringRest?_encodeChar (c : Char) (r : List Char) :
    stringRest? '"' (encodeChar c ++ r) = (stringRest? '"' r).map (· + (encodeChar c).length) := by
  unfold encodeChar
  repeat' split
  all_goals simp_all [hexDigits, stringRest?_escape, stringRest?_hexDigit, stringRest?_plain, Function.comp_def]

theorem stringRest?_body (t : Text) (r : List Char) :
    stringRest? '"' (body t ++ '"' :: r) = some ((body t).length + 1) := by
  induction t with
  | nil => simp [body, stringRest?_cons]
  | cons a t ih =>
    rw [body] at ih
    rw [body, List.flatMap_cons, List.append_assoc, stringRest?_encodeChar, ih, List.length_append]
    simp only [Option.map_some, Option.some.injEq]
    omega

theorem lexeme?_encode (t : Text) (r : List Char) :
    lexeme? ((encode t).toList ++ r) = some (.string, (encode t).toList.length) := by
  rw [toList_encode, List.cons_append, List.append_assoc, List.singleton_append]
  simp [lexeme?, rules, commentLength?, stringLength?, stringRest?_body]

/-- A body is decoded part by part. -/
theorem decode_flatMap {α : Type} {f : α → List Char} {g : α → Text} {xs : List α} (hne : ∀ x ∈ xs, f x ≠ [])
    (h : ∀ x ∈ xs, ∀ n r, decodeWith (n + 1) (f x ++ r) = do return g x ++ (← decodeWith n r)) :
    decode (xs.flatMap f) = .ok (xs.flatMap g) := by
  have hdecode {n : Nat} (hn : (xs.flatMap f).length ≤ n) : decodeWith n (xs.flatMap f) = .ok (xs.flatMap g) := by
    induction xs generalizing n with
    | nil => cases n <;> rfl
    | cons x xs ih =>
      have hpos := List.length_pos_iff.mpr (hne x List.mem_cons_self)
      rw [List.flatMap_cons, List.length_append] at hn
      obtain ⟨n, rfl⟩ : ∃ m, n = m + 1 := ⟨n - 1, by omega⟩
      rw [List.flatMap_cons, h x List.mem_cons_self, ih (fun y hy => hne y (List.mem_cons_of_mem _ hy))
        (fun y hy => h y (List.mem_cons_of_mem _ hy)) (by omega)]
      rfl
  exact hdecode (Nat.le_refl _)

theorem encodeChar_ne_nil (c : Char) : encodeChar c ≠ [] := by
  unfold encodeChar
  repeat' split
  all_goals simp

/-- A string survives being written: wherever its literal stands, it is one token, and the token reads back as
the string. -/
theorem encode_readsBack (s : String) :
    (∀ fuel pos rest, tokensWith (fuel + 1) pos ((encode (.ofString s)).toList ++ rest) = do
      let ts ← tokensWith fuel (pos.advance (encode (.ofString s)).toList) rest
      return ⟨.string, encode (.ofString s), pos⟩ :: ts) ∧
    decodeLiteral (encode (.ofString s)) = .ok (.ofString s) := by
  constructor
  · intro fuel pos rest
    obtain ⟨c, cs, hcs⟩ : ∃ c cs, (encode (.ofString s)).toList = c :: cs := ⟨_, _, toList_encode _⟩
    have hlexeme := lexeme?_encode (.ofString s) rest
    rw [hcs] at hlexeme
    rw [hcs, List.cons_append, tokensWith, ← List.cons_append, hlexeme]
    simp only [List.take_left, List.drop_left]
    rw [← hcs, String.ofList_toList]
    exact List.cons_ne_nil _ _
  · rw [decodeLiteral, toList_encode, List.drop_one, List.tail_cons, List.dropLast_concat, body,
      decode_flatMap (g := fun a => [.char a.shown]) (fun a _ => encodeChar_ne_nil a.shown)
        fun a _ n r => decodeWith_encodeChar n a.shown r]
    simp [Text.ofString, List.flatMap_map, Atom.shown, ← List.map_eq_flatMap]

end Quoted

/-! ## The standard -/

namespace Standard

/-- A character of a string literal, or an escape. -/
inductive Part where
  | plain (c : Char)
  /-- A backslash in front of one character. -/
  | escape (c : Char)
  | null
  | hexadecimal (digits : List Char)
  | unicode (digits : List Char)
  | codePoint (digits : List Char)
deriving DecidableEq

/-- The number that hexadecimal digits write. -/
def hexValue (digits : List Char) : Nat := (readDigits? 16 0 digits).getD 0

/-- The code units of a code point. -/
def pointUnits (n : Nat) : List Nat :=
  if n < 0x10000 then [n] else [0xD800 + (n - 0x10000) / 0x400, 0xDC00 + (n - 0x10000) % 0x400]

/-- Whether a code unit is half of a surrogate pair. -/
def isHalf (u : Nat) : Bool := 0xD800 ≤ u && u < 0xE000

/-- The character that a backslash makes of one. -/
def escaped (c : Char) : Char :=
  if c = 'n' then '\n' else if c = 't' then '\t' else if c = 'r' then '\r' else if c = 'b' then Char.ofNat 8
  else if c = 'f' then Char.ofNat 12 else if c = 'v' then Char.ofNat 11 else c

namespace Part

/-- How a part is written. -/
def text : Part → List Char
  | plain c => [c]
  | escape c => ['\\', c]
  | null => ['\\', '0']
  | hexadecimal ds => '\\' :: 'x' :: ds
  | unicode ds => '\\' :: 'u' :: ds
  | codePoint ds => '\\' :: 'u' :: '{' :: ds ++ ['}']

/-- Whether a part may stand in a literal. -/
def isValid (quote : Char) : Part → Bool
  | plain c => c ∉ [quote, '\\', '\n', '\r']
  | escape c => !c.isDigit && c ∉ ['x', 'u', '\n']
  | null => true
  | hexadecimal ds => ds.length = 2 && (readDigits? 16 0 ds).isSome
  | unicode ds => ds.length = 4 && (readDigits? 16 0 ds).isSome
  | codePoint ds => ds ≠ [] && (readDigits? 16 0 ds).isSome && hexValue ds ≤ 0x10FFFF

def isDigit : Part → Bool
  | plain c => c.isDigit
  | _ => false

/-- The code units of a part; a backslash in front of a line terminator continues the line. -/
def units : Part → List Nat
  | plain c => Standard.units (.char c)
  | escape c => if c.toNat ∈ [0xD, 0x2028, 0x2029] then [] else Standard.units (.char (escaped c))
  | null => [0]
  | hexadecimal ds | unicode ds | codePoint ds => pointUnits (hexValue ds)

/-- Whether decoding takes a part for something else: half of a surrogate pair, and a backslash in front of a
carriage return or of a character outside ASCII. -/
def isGarbled : Part → Bool
  | escape c => c = '\r' || 0x80 ≤ c.toNat
  | unicode ds | codePoint ds => isHalf (hexValue ds)
  | _ => false

/-- What decoding takes a part for. -/
def read : Part → Text
  | plain c => [.char c]
  | escape c => Quoted.simpleEscape c
  | null => [.char (Char.ofNat 0)]
  | hexadecimal ds | unicode ds | codePoint ds => [.char (Quoted.charOfCodePoint (hexValue ds))]

end Part

/-- Whether a token is a string literal with the given parts. -/
structure IsLiteral (token : String) (ps : List Part) : Prop where
  quoted : ∃ q ∈ ['"', '\''], token.toList = q :: (ps.flatMap Part.text ++ [q]) ∧ ∀ p ∈ ps, p.isValid q = true
  null : ps.IsChain fun p p' => ¬ (p = .null ∧ p'.isDigit = true)

section

variable {p : Part} {ps : List Part} {quote : Char} {ds : List Char} {acc n : Nat}

/-! ## Decoding -/

theorem readDigits?_eq (h : (readDigits? 16 0 ds).isSome) : readDigits? 16 0 ds = some (hexValue ds) := by
  obtain ⟨n, hn⟩ := Option.isSome_iff_exists.mp h
  rw [hexValue, hn]
  rfl

theorem readDigits?_cons {c : Char} (h : readDigits? 16 acc (c :: ds) = some n) :
    ∃ d, digitValue? c = some d ∧ d < 16 ∧ readDigits? 16 (acc * 16 + d) ds = some n := by
  rw [readDigits?] at h
  split at h
  · next d hd => exact ⟨d, hd, by simpa using h⟩
  · cases h

theorem lt_of_readDigits? (h : readDigits? 16 acc ds = some n) : n < (acc + 1) * 16 ^ ds.length := by
  induction ds generalizing acc with
  | nil =>
    cases h
    simp
  | cons c ds ih =>
    obtain ⟨d, -, hd, h⟩ := readDigits?_cons h
    calc n < (acc * 16 + d + 1) * 16 ^ ds.length := ih h
      _ ≤ (acc + 1) * 16 * 16 ^ ds.length := Nat.mul_le_mul_right _ (by omega)
      _ = (acc + 1) * 16 ^ (c :: ds).length := by rw [List.length_cons, Nat.pow_succ', Nat.mul_assoc]

theorem hexValue_lt (h : (readDigits? 16 0 ds).isSome) : hexValue ds < 16 ^ ds.length := by
  simpa using lt_of_readDigits? (readDigits?_eq h)

theorem digitValue?_of_mem (h : readDigits? 16 acc ds = some n) {c : Char} (hc : c ∈ ds) : (digitValue? c).isSome := by
  induction ds generalizing acc with
  | nil => cases hc
  | cons a ds ih =>
    obtain ⟨d, ha, -, h⟩ := readDigits?_cons h
    rcases List.mem_cons.mp hc with rfl | hc
    · rw [ha]
      rfl
    · exact ih h hc

theorem readBelow?_eq {bound : Nat} (h : (readDigits? 16 0 ds).isSome) (hne : ds ≠ []) (hlt : hexValue ds < bound) :
    readBelow? 16 bound ds = some (hexValue ds) := by
  rw [readBelow?.eq_2 _ _ _ hne, readDigits?_eq h, Option.filter_some, if_pos (decide_eq_true hlt)]

theorem decodeWith_text (h : p.isValid quote = true) (n : Nat) (r : List Char) :
    Quoted.decodeWith (n + 1) (p.text ++ r) = do return p.read ++ (← Quoted.decodeWith n r) := by
  cases p with
  | plain c =>
    have hc : c ≠ '\\' := by simp_all [Part.isValid]
    simp [Part.text, Part.read, Quoted.decodeWith, hc]
  | escape c =>
    have hx : c ≠ 'x' ∧ c ≠ 'u' := by simp_all [Part.isValid]
    simp [Part.text, Part.read, Quoted.decodeWith, hx]
  | null => rfl
  | hexadecimal ds =>
    simp only [Part.isValid, Bool.and_eq_true, decide_eq_true_eq] at h
    have hlt := hexValue_lt h.2
    rw [h.1] at hlt
    obtain ⟨a, b, rfl⟩ := List.length_eq_two.mp h.1
    have hread : readBelow? 16 256 [a, b] = _ := readBelow?_eq h.2 (by simp) hlt
    simp [Part.text, Quoted.decodeWith, hread, Part.read]
  | unicode ds =>
    simp only [Part.isValid, Bool.and_eq_true, decide_eq_true_eq] at h
    have hlt := hexValue_lt h.2
    rw [h.1] at hlt
    obtain ⟨a, b, c, d, rfl⟩ := List.length_eq_four.mp h.1
    have hread : Quoted.codePoint? [a, b, c, d] = _ := readBelow?_eq h.2 (by simp) (by omega)
    have ha : a ≠ '{' := by
      rintro rfl
      cases digitValue?_of_mem (readDigits?_eq h.2) List.mem_cons_self
    simp [Part.text, Quoted.decodeWith, hread, ha, Part.read]
  | codePoint ds =>
    simp only [Part.isValid, Bool.and_eq_true, decide_eq_true_eq] at h
    obtain ⟨⟨hne, hsome⟩, hle⟩ := h
    have hread : Quoted.codePoint? ds = _ := readBelow?_eq hsome hne (Nat.lt_of_le_of_lt hle (by decide))
    have hds : ∀ c ∈ ds, decide (c ≠ '}') = true := by
      intro c hc
      refine decide_eq_true ?_
      rintro rfl
      cases digitValue?_of_mem (readDigits?_eq hsome) hc
    have htext : (Part.codePoint ds).text ++ r = '\\' :: 'u' :: '{' :: (ds ++ '}' :: r) := by simp [Part.text]
    rw [htext, Quoted.decodeWith, if_pos (by simp), List.takeWhile_append_of_pos hds, List.dropWhile_append_of_pos hds]
    simp [hread, Part.read]

/-! ## Lengths -/

/-- The number of bytes that a code unit takes in UTF-8, half of a surrogate pair for its part. -/
def unitSize (u : Nat) : Nat := if u < 0x80 then 1 else if u < 0x800 then 2 else if isHalf u then 2 else 3

def byteCount (us : List Nat) : Nat := (us.map unitSize).sum

theorem isHalf_iff {u : Nat} : isHalf u = true ↔ 0xD800 ≤ u ∧ u < 0xE000 := by simp [isHalf]

theorem unitSize_half {u : Nat} (h : isHalf u = true) : unitSize u = 2 := by
  have hu := isHalf_iff.mp h
  rw [unitSize, if_neg (by omega), if_neg (by omega), if_pos h]

theorem length_bytes (c : Char) : (Atom.char c).bytes.length =
    if c.toNat ≤ 0x7F then 1 else if c.toNat ≤ 0x7FF then 2 else if c.toNat ≤ 0xFFFF then 3 else 4 := by
  rw [Atom.bytes, String.length_utf8EncodeChar, Char.utf8Size]
  simp only [UInt32.le_iff_toNat_le]
  rfl

theorem byteCount_units (c : Char) : byteCount (Standard.units (.char c)) = (Atom.char c).bytes.length := by
  have hvalid : c.toNat < 0xD800 ∨ 0xDFFF < c.toNat ∧ c.toNat < 0x110000 := c.valid
  rw [length_bytes, Standard.units]
  by_cases hc : c.toNat < 0x10000
  · have hhalf : ¬ isHalf c.toNat = true := fun h => by have := isHalf_iff.mp h; omega
    rw [if_pos hc, byteCount, List.map_singleton, List.sum_singleton, unitSize, if_neg hhalf]
    split_ifs <;> omega
  · rw [if_neg hc, byteCount, List.map_cons, List.map_singleton, List.sum_cons, List.sum_singleton,
      unitSize_half (isHalf_iff.mpr (by omega)), unitSize_half (isHalf_iff.mpr (by omega))]
    split_ifs <;> omega

theorem byteCount_codeUnits (s : String) :
    byteCount (codeUnits (.ofString s)) = (Text.ofString s).bytes.length := by
  rw [Text.ofString]
  induction s.toList with
  | nil => rfl
  | cons c cs ih =>
    have hc := byteCount_units c
    simp only [byteCount, codeUnits, Text.bytes, List.map_cons, List.flatMap_cons, List.map_append, List.sum_append,
      List.length_append] at ih hc ⊢
    omega

theorem pointUnits_eq (hle : n ≤ 0x10FFFF) (hn : isHalf n = false) :
    pointUnits n = Standard.units (.char (Quoted.charOfCodePoint n)) := by
  have hhalf : ¬ (0xD800 ≤ n ∧ n < 0xE000) := by simp [← isHalf_iff, hn]
  have hchar : (Quoted.charOfCodePoint n).toNat = n := by
    have hvalid : n.isValidChar := by
      simp only [Nat.isValidChar]
      omega
    rw [Quoted.charOfCodePoint, if_pos (by omega), Char.ofNat, dif_pos hvalid]
    rfl
  rw [pointUnits, Standard.units, hchar]

/-- A part that is not garbled is read as the character that it stands for. -/
theorem read_eq (h : p.isValid quote = true) (hp : p.isGarbled = false) :
    ∃ c, p.read = [.char c] ∧ p.units = Standard.units (.char c) := by
  cases p with
  | plain c => exact ⟨c, rfl, rfl⟩
  | escape c =>
    simp only [Part.isValid, Part.isGarbled, Bool.and_eq_true, Bool.or_eq_false_iff, Bool.not_eq_true',
      decide_eq_true_eq, decide_eq_false_iff_not] at h hp
    have hbytes : String.utf8EncodeChar c = [c.toNat.toUInt8] := by
      rw [String.utf8EncodeChar, if_pos (show c.val.toNat ≤ 127 from Nat.le_of_not_lt hp.2)]
      rfl
    have hzero : c ≠ '0' := by
      rintro rfl
      cases h.1
    have hline : c ≠ '\n' := by simp_all
    have hreturn : c.toNat ≠ 0xD := fun h => hp.1 (Char.toNat_inj.mp h)
    refine ⟨escaped c, ?_, if_neg ?_⟩
    · simp only [Part.read, Quoted.simpleEscape, escaped, hzero, hline, hbytes, if_false]
      split_ifs <;> rfl
    · simp only [List.mem_cons, List.not_mem_nil, or_false]
      omega
  | null => exact ⟨_, rfl, rfl⟩
  | hexadecimal ds =>
    simp only [Part.isValid, Bool.and_eq_true, decide_eq_true_eq] at h
    have hlt := hexValue_lt h.2
    rw [h.1] at hlt
    exact ⟨_, rfl, pointUnits_eq (by omega) (by
      simp only [isHalf, Bool.and_eq_false_iff, decide_eq_false_iff_not]
      omega)⟩
  | unicode ds =>
    simp only [Part.isValid, Bool.and_eq_true, decide_eq_true_eq] at h
    have hlt := hexValue_lt h.2
    rw [h.1] at hlt
    exact ⟨_, rfl, pointUnits_eq (by omega) hp⟩
  | codePoint ds =>
    simp only [Part.isValid, Bool.and_eq_true, decide_eq_true_eq] at h
    exact ⟨_, rfl, pointUnits_eq h.2 hp⟩

/-- Half of a surrogate pair is read as the replacement character, which takes more bytes. -/
theorem byteCount_half (h : isHalf n = true) :
    byteCount (pointUnits n) < (Text.bytes [.char (Quoted.charOfCodePoint n)]).length := by
  have hn := isHalf_iff.mp h
  rw [Quoted.charOfCodePoint, if_neg (by omega), pointUnits, if_pos (by omega), byteCount, List.map_singleton,
    List.sum_singleton, unitSize_half h]
  decide

/-- A backslash in front of a character outside ASCII keeps its first byte and makes more of the others. -/
theorem byteCount_escape {c : Char} (hc : 0x80 ≤ c.toNat) :
    byteCount (Part.escape c).units < (Part.escape c).read.bytes.length := by
  have hne (d : Char) (hd : d.toNat < 0x80) : c ≠ d := by
    rintro rfl
    omega
  have hunits : byteCount (Part.escape c).units ≤ (Atom.char c).bytes.length := by
    have hescaped : escaped c = c := by simp [escaped, hne]
    rw [Part.units]
    split
    · exact Nat.zero_le _
    · rw [hescaped, byteCount_units]
  have htwo : 2 ≤ (Atom.char c).bytes.length := by
    rw [length_bytes]
    split_ifs <;> omega
  refine Nat.lt_of_le_of_lt hunits ?_
  rw [Atom.bytes] at htwo ⊢
  generalize hbytes : String.utf8EncodeChar c = bytes at htwo ⊢
  obtain ⟨first, second, later, rfl⟩ : ∃ first second later, bytes = first :: second :: later := by
    rcases bytes with _ | ⟨first, _ | ⟨second, later⟩⟩
    · simp at htwo
    · simp at htwo
    · exact ⟨first, second, later, rfl⟩
  have hread : (Part.escape c).read = .stray first :: (second :: later).map fun _ => .char replacementChar := by
    simp [Part.read, Quoted.simpleEscape, hne, hbytes]
  have hstray : (Atom.stray first).bytes.length = 1 := rfl
  have hreplacement : (Atom.char replacementChar).bytes.length = 3 := by decide
  rw [hread, Text.bytes, List.length_flatMap]
  simp only [List.map_cons, List.map_const', List.map_replicate, hstray, hreplacement, List.sum_cons,
    List.sum_replicate_nat, List.length_cons]
  omega

theorem byteCount_garbled (hp : p.isGarbled = true) : byteCount p.units < p.read.bytes.length := by
  cases p with
  | escape c =>
    simp only [Part.isGarbled, Bool.or_eq_true, decide_eq_true_eq] at hp
    rcases hp with rfl | hc
    · decide
    · exact byteCount_escape hc
  | unicode ds => exact byteCount_half hp
  | codePoint ds => exact byteCount_half hp
  | plain | null | hexadecimal => cases hp

theorem byteCount_le (h : p.isValid quote = true) : byteCount p.units ≤ p.read.bytes.length := by
  cases hp : p.isGarbled with
  | true => exact Nat.le_of_lt (byteCount_garbled hp)
  | false =>
    obtain ⟨c, hread, hunits⟩ := read_eq h hp
    rw [hread, hunits, byteCount_units, Text.bytes, List.flatMap_singleton]

/-! ## Literals -/

/-- If no part is garbled, a literal is read as the characters that its code units encode. -/
theorem codeUnits_read (h : ∀ p ∈ ps, p.isValid quote = true) (hps : ∀ p ∈ ps, p.isGarbled = false) :
    codeUnits (ps.flatMap Part.read) = ps.flatMap Part.units := by
  rw [codeUnits, List.flatMap_assoc]
  refine List.flatMap_congr fun p hp => ?_
  obtain ⟨c, hread, hunits⟩ := read_eq (h p hp) (hps p hp)
  rw [hread, hunits, List.flatMap_singleton]

/-- If a part is garbled, a literal is read as more bytes than its code units take. -/
theorem byteCount_lt (h : ∀ p ∈ ps, p.isValid quote = true) (hp : p ∈ ps) (hg : p.isGarbled = true) :
    byteCount (ps.flatMap Part.units) < (Text.bytes (ps.flatMap Part.read)).length := by
  rw [byteCount, List.map_flatMap, List.flatMap_def, List.sum_flatten, List.map_map, Text.bytes, List.flatMap_assoc,
    List.length_flatMap]
  exact List.sum_lt_sum _ _ (fun p hp => byteCount_le (h p hp)) ⟨p, hp, byteCount_garbled hg⟩

end

/-- Every string literal of the standard is decoded. If its code units are those of a string, it is decoded to
the bytes of the string exactly if no part of it is garbled. -/
theorem decodeLiteral_bytes_iff {token s : String} {ps : List Part} (h : IsLiteral token ps)
    (hs : codeUnits (.ofString s) = ps.flatMap Part.units) :
    ∃ t, Quoted.decodeLiteral token = .ok t ∧
      (t.bytes = (Text.ofString s).bytes ↔ ∀ p ∈ ps, p.isGarbled = false) := by
  obtain ⟨q, -, htext, hvalid⟩ := h.quoted
  refine ⟨ps.flatMap Part.read, ?_, fun hbytes p hp => ?_, fun hps => ?_⟩
  · have hne : ∀ p ∈ ps, p.text ≠ [] := fun p _ => by cases p <;> simp [Part.text]
    rw [Quoted.decodeLiteral, htext, List.drop_one, List.tail_cons, List.dropLast_concat,
      Quoted.decode_flatMap hne fun p hp => decodeWith_text (hvalid p hp)]
  · rw [← Bool.not_eq_true]
    intro hg
    have hlt := byteCount_lt hvalid hp hg
    rw [← hs, byteCount_codeUnits, hbytes] at hlt
    exact Nat.lt_irrefl _ hlt
  · rw [codeUnits_inj.mp ((codeUnits_read hvalid hps).trans hs.symm)]

/-- Escapes of each kind and a character outside ASCII. -/
theorem decodeLiteral_bytes_mixed :
    IsLiteral "'\\n\\0\\x41\\u00e9\\u\x7b1F600\x7dé'" [.escape 'n', .null, .hexadecimal ['4', '1'],
      .unicode ['0', '0', 'e', '9'], .codePoint ['1', 'F', '6', '0', '0'], .plain 'é'] ∧
    ∃ t, Quoted.decodeLiteral "'\\n\\0\\x41\\u00e9\\u\x7b1F600\x7dé'" = .ok t ∧
      t.bytes = (Text.ofString "\n\x00Aé😀é").bytes := by
  have h : IsLiteral "'\\n\\0\\x41\\u00e9\\u\x7b1F600\x7dé'" [.escape 'n', .null, .hexadecimal ['4', '1'],
      .unicode ['0', '0', 'e', '9'], .codePoint ['1', 'F', '6', '0', '0'], .plain 'é'] :=
    ⟨⟨'\'', by decide, by decide, by decide⟩, by decide⟩
  obtain ⟨t, ht, hiff⟩ := decodeLiteral_bytes_iff (s := "\n\x00Aé😀é") h (by decide)
  exact ⟨h, t, ht, hiff.mpr (by decide)⟩

/-- The two halves of a surrogate pair stand for one character, but each of them is read for itself. -/
theorem decodeLiteral_surrogatePair :
    IsLiteral "'\\uD83D\\uDE00'" [.unicode ['D', '8', '3', 'D'], .unicode ['D', 'E', '0', '0']] ∧
    codeUnits (.ofString "😀") = [.unicode ['D', '8', '3', 'D'], .unicode ['D', 'E', '0', '0']].flatMap Part.units ∧
    Quoted.decodeLiteral "'\\uD83D\\uDE00'" = .ok (.ofString "��") :=
  ⟨⟨⟨'\'', by decide, by decide, by decide⟩, by decide⟩, by decide, by decide⟩

end Standard

end ScriptOptimizer
