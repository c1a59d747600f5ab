import ScriptOptimizer.IR.Text
import ScriptOptimizer.Proofs.NumberText

/-!
# Texts of operands

The text of an operand ends at a character that stands between the parts of a key, or is a quoted string or
the two words of `undefined`, so it can be told from what follows. Two operands with the same text are
equal, numbers by value, unless one of them is a local that is written by its bare name.
-/

namespace ScriptOptimizer

namespace Quoted

/-! ## Quoted strings -/

theorem readBelow?_hexDigits {n : Nat} (hn : n < 128) : readBelow? 16 256 (hexDigits 2 n) = some n := by
  have hall : ∀ n : Fin 128, readBelow? 16 256 (hexDigits 2 n.val) = some n.val := by decide +kernel
  exact hall ⟨n, hn⟩

theorem charOfCodePoint_toNat (c : Char) : charOfCodePoint c.toNat = c := by
  have hc : c.toNat < 0xD800 ∨ (0xE000 ≤ c.toNat ∧ c.toNat < 0x110000) := by
    have hvalid := c.valid
    simp only [UInt32.isValidChar, Nat.isValidChar] at hvalid
    exact hvalid.imp id fun h => ⟨h.1, h.2⟩
  rw [charOfCodePoint, if_pos hc, Char.ofNat_toNat]

/-- Reading takes what one character was written as for that character. -/
theorem decodeWith_encodeChar (n : Nat) (c : Char) (rest : List Char) :
    decodeWith (n + 1) (encodeChar c ++ rest) = do return .char c :: (← decodeWith n rest) := by
  unfold encodeChar
  split
  · next h => subst h; rfl
  split
  · next h => subst h; rfl
  split
  · next h => subst h; rfl
  split
  · next h => subst h; rfl
  split
  · next h => subst h; rfl
  split
  · next h =>
    rw [← Char.ofNat_toNat c, h]
    rfl
  split
  · next h =>
    rw [← Char.ofNat_toNat c, h]
    rfl
  split
  · next h =>
    obtain h | h := h <;> rw [← Char.ofNat_toNat c, h] <;> rfl
  split
  · next h =>
    have hlt : c.toNat < 128 := by omega
    have hread := readBelow?_hexDigits hlt
    simp only [hexDigits, List.nil_append, List.cons_append] at hread ⊢
    simp only [decodeWith, hread, charOfCodePoint_toNat]
  · simp_all [decodeWith]

/-- What characters were written as can be told apart without knowing where it ends. -/
theorem encodeChar_append_inj {a b : Char} {r r' : List Char}
    (h : encodeChar a ++ r = encodeChar b ++ r') : a = b ∧ r = r' := by
  have hread : (.ok [.char b] : Except EscapeFault Text) = .ok [.char a] := by
    have hread := decodeWith_encodeChar 0 a r
    rwa [h, decodeWith_encodeChar 0 b r'] at hread
  cases hread
  exact ⟨rfl, List.append_cancel_left h⟩

theorem encodeChar_ne_quote (c : Char) (r : List Char) : (encodeChar c ++ r).head? ≠ some '"' := by
  unfold encodeChar
  split
  · simp
  · next hquote =>
    repeat' split
    all_goals simp
    all_goals assumption

/-- The characters of a string between its quotes. -/
def body (t : Text) : List Char := t.flatMap fun a => encodeChar a.shown

theorem toList_encode (t : Text) : (encode t).toList = '"' :: (body t ++ ['"']) := by
  simp [encode, body]

/-- Whether a string is made of characters only. -/
def IsProper (t : Text) : Prop := ∀ a ∈ t, a = .char a.shown

instance : DecidablePred IsProper := fun t => inferInstanceAs (Decidable (∀ a ∈ t, a = .char a.shown))

/-- A quoted string ends at its closing quote, whatever follows. -/
theorem body_append_inj {t u : Text} (ht : IsProper t) (hu : IsProper u) {r r' : List Char}
    (h : body t ++ '"' :: r = body u ++ '"' :: r') : t = u ∧ r = r' := by
  induction t generalizing u with
  | nil =>
    cases u with
    | nil => exact ⟨rfl, (List.cons.inj h).2⟩
    | cons b u =>
      have hhead := encodeChar_ne_quote b.shown (body u ++ '"' :: r')
      simp only [body, List.flatMap_nil, List.nil_append, List.flatMap_cons, List.append_assoc] at h hhead
      exact absurd (h ▸ rfl) hhead
  | cons a t ih =>
    obtain ⟨c, rfl⟩ : ∃ c, a = .char c := ⟨_, ht a List.mem_cons_self⟩
    have ht' : IsProper t := fun a ha => ht a (List.mem_cons_of_mem _ ha)
    cases u with
    | nil =>
      have hhead := encodeChar_ne_quote c (body t ++ '"' :: r)
      simp only [body, List.flatMap_nil, List.nil_append, List.flatMap_cons, List.append_assoc,
        Atom.shown] at h hhead
      exact absurd (h ▸ rfl) hhead
    | cons b u =>
      obtain ⟨d, rfl⟩ : ∃ d, b = .char d := ⟨_, hu b List.mem_cons_self⟩
      have hu' : IsProper u := fun a ha => hu a (List.mem_cons_of_mem _ ha)
      simp only [body, List.flatMap_cons, List.append_assoc, Atom.shown] at h
      obtain ⟨rfl, hrest⟩ := encodeChar_append_inj h
      obtain ⟨rfl, hr⟩ := ih ht' hu' hrest
      exact ⟨rfl, hr⟩

end Quoted

/-! ## Tokens -/

/-- Whether a character stands only between the parts of a key, string literals excepted. -/
def isCut (c : Char) : Bool := c == ' ' || c == '[' || c == ']'

/-- Characters of which none stands between parts. -/
def Uncut (cs : List Char) : Prop := ∀ c ∈ cs, isCut c = false

/-- What can follow a part: nothing, or what starts with a character between parts. -/
def Cut (r : List Char) : Prop := ∀ c ∈ r.head?, isCut c = true

theorem Uncut.append_inj {xs ys r r' : List Char} (hx : Uncut xs) (hy : Uncut ys) (hr : Cut r)
    (hr' : Cut r') (h : xs ++ r = ys ++ r') : xs = ys ∧ r = r' := by
  induction xs generalizing ys with
  | nil =>
    cases ys with
    | nil => exact ⟨rfl, h⟩
    | cons y ys =>
      have hcut := hr y (by rw [← List.nil_append r, h]; rfl)
      rw [hy y List.mem_cons_self] at hcut
      cases hcut
  | cons x xs ih =>
    cases ys with
    | nil =>
      have hcut := hr' x (by rw [← List.nil_append r', ← h]; rfl)
      rw [hx x List.mem_cons_self] at hcut
      cases hcut
    | cons y ys =>
      obtain ⟨rfl, hrest⟩ := List.cons.inj h
      obtain ⟨rfl, hr⟩ := ih (fun c hc => hx c (List.mem_cons_of_mem _ hc))
        (fun c hc => hy c (List.mem_cons_of_mem _ hc)) hrest
      exact ⟨rfl, hr⟩

theorem isCut_of_isNamePart {c : Char} (hc : isNamePart c = true) : isCut c = false := by
  rw [isCut, Bool.or_eq_false_iff, Bool.or_eq_false_iff, beq_eq_false_iff_ne, beq_eq_false_iff_ne,
    beq_eq_false_iff_ne]
  refine ⟨⟨?_, ?_⟩, ?_⟩ <;>
  · rintro rfl
    exact absurd hc (by decide)

theorem isCut_of_isNumberPart {c : Char} (hc : Number.isNumberPart c = true) : isCut c = false := by
  rw [isCut, Bool.or_eq_false_iff, Bool.or_eq_false_iff, beq_eq_false_iff_ne, beq_eq_false_iff_ne,
    beq_eq_false_iff_ne]
  refine ⟨⟨?_, ?_⟩, ?_⟩ <;>
  · rintro rfl
    exact absurd hc (by decide)

theorem uncut_of_isIdentifierName {s : String} (hs : isIdentifierName s = true) : Uncut s.toList := by
  unfold isIdentifierName at hs
  cases hcs : s.toList with
  | nil => simp [Uncut]
  | cons c cs =>
    rw [hcs, isNameChars, Bool.and_eq_true, List.all_eq_true] at hs
    intro d hd
    obtain rfl | hd := List.mem_cons.mp hd
    · exact isCut_of_isNamePart (by simp [isNamePart, hs.1])
    · exact isCut_of_isNamePart (hs.2 d hd)

namespace IR

variable {r r' cs : List Char} {x : Operand}

theorem TempId.toList_text (t : TempId) :
    t.text.toList = 't' :: (Nat.toDigits 10 t.block ++ '_' :: Nat.toDigits 10 t.slot) := by
  have hblock : (toString t.block).toList = Nat.toDigits 10 t.block := Nat.toList_repr
  have hslot : (toString t.slot).toList = Nat.toDigits 10 t.slot := Nat.toList_repr
  rw [← hblock, ← hslot]
  simp only [TempId.text, String.toList_append, List.append_assoc]
  rfl

theorem toDigits_inj {m n : Nat} (h : Nat.toDigits 10 m = Nat.toDigits 10 n) : m = n := by
  rw [← Nat.ofDigitChars_ten_toDigits (n := m), h, Nat.ofDigitChars_ten_toDigits]

/-- Digits end at an underscore. -/
theorem toDigits_append_underscore_inj {m n : Nat}
    (h : Nat.toDigits 10 m ++ '_' :: r = Nat.toDigits 10 n ++ '_' :: r') : m = n ∧ r = r' := by
  have hcut (k : Nat) (r : List Char) : (Nat.toDigits 10 k ++ '_' :: r).takeWhile Char.isDigit =
      Nat.toDigits 10 k ∧ (Nat.toDigits 10 k ++ '_' :: r).dropWhile Char.isDigit = '_' :: r :=
    Number.takeWhile_digits (Number.allDigits_decimalDigits k) (by simp)
  have hm := hcut m r
  rw [h, (hcut n r').1, (hcut n r').2] at hm
  exact ⟨toDigits_inj hm.1.symm, (List.cons.inj hm.2).2.symm⟩

theorem TempId.text_inj {t u : TempId} (h : t.text = u.text) : t = u := by
  have hlist := congrArg String.toList h
  rw [toList_text, toList_text] at hlist
  obtain ⟨hblock, hslot⟩ := toDigits_append_underscore_inj (List.cons.inj hlist).2
  cases t
  cases u
  obtain rfl : _ = _ := hblock
  obtain rfl : _ = _ := toDigits_inj hslot
  rfl

theorem TempId.uncut_text (t : TempId) : Uncut t.text.toList := by
  have hdigits (n : Nat) : Uncut (Nat.toDigits 10 n) := fun c hc =>
    isCut_of_isNumberPart (Number.isNumberPart_of_isDigit (Number.allDigits_decimalDigits n c hc))
  rw [toList_text]
  intro c hc
  obtain rfl | hc := List.mem_cons.mp hc
  · decide
  · obtain hc | hc := List.mem_append.mp hc
    · exact hdigits _ c hc
    · obtain rfl | hc := List.mem_cons.mp hc
      · decide
      · exact hdigits _ c hc

/-! ## Operands -/

/-- Whether an operand can be read from its text: strings are made of characters, names are identifier
names, and no source text is passed on. -/
def Operand.Legible : Operand → Prop
  | literal (.string t) => Quoted.IsProper t
  | global name => isIdentifierName name = true
  | named name _ => isIdentifierName name = true ∧ name ≠ "void"
  | raw _ => False
  | _ => True

instance : DecidablePred Operand.Legible
  | .literal (.string t) => inferInstanceAs (Decidable (Quoted.IsProper t))
  | .global name => inferInstanceAs (Decidable (isIdentifierName name = true))
  | .named name _ => inferInstanceAs (Decidable (isIdentifierName name = true ∧ name ≠ "void"))
  | .raw _ => inferInstanceAs (Decidable False)
  | .literal (.number _) | .literal (.bool _) | .literal .null | .literal .undefined | .temp _
  | .receiver | .arguments | .closure _ => inferInstanceAs (Decidable True)

/-- Equality of operands, numbers by value or by form. -/
def Operand.Agrees (x y : Operand) : Prop := x = y ∨ x.same y = true

theorem uncut_of_all (h : cs.all (!isCut ·) = true) : Uncut cs := fun c hc => by
  simpa using List.all_eq_true.mp h c hc

theorem uncut_cons {c : Char} (hc : isCut c = false) (hcs : Uncut cs) : Uncut (c :: cs) := by
  intro d hd
  obtain rfl | hd := List.mem_cons.mp hd
  · exact hc
  · exact hcs d hd

theorem uncut_toDigits (n : Nat) : Uncut (Nat.toDigits 10 n) := fun c hc =>
  isCut_of_isNumberPart (Number.isNumberPart_of_isDigit (Number.allDigits_decimalDigits n c hc))

/-- Characters that make up one word, which is neither quoted nor the first word of `undefined`. -/
structure IsWord (cs : List Char) : Prop where
  uncut : Uncut cs
  ne_void : cs ≠ "void".toList
  head : ∃ c ∈ cs.head?, c ≠ '"'

theorem IsWord.of_head (hcs : Uncut cs) (c : Char) (hc : c ∈ cs.head?) (hquote : c ≠ '"') (hv : c ≠ 'v') :
    IsWord cs := by
  refine ⟨hcs, ?_, c, hc, hquote⟩
  rintro rfl
  exact hv (Option.some.inj hc).symm

theorem toList_closure (f : FuncId) : (Operand.closure f).text.toList = '#' :: Nat.toDigits 10 f := by
  have hf : (toString f).toList = Nat.toDigits 10 f := Nat.toList_repr
  rw [← hf]
  simp only [Operand.text, String.toList_append]
  rfl

theorem isWord_of_isIdentifierName {s : String} (hs : isIdentifierName s = true) (hv : s ≠ "void") :
    IsWord s.toList := by
  refine ⟨uncut_of_isIdentifierName hs, fun h => hv (String.toList_inj.mp h), ?_⟩
  unfold isIdentifierName at hs
  cases hcs : s.toList with
  | nil => rw [hcs] at hs; cases hs
  | cons c cs =>
    rw [hcs, isNameChars, Bool.and_eq_true] at hs
    refine ⟨c, rfl, ?_⟩
    rintro rfl
    exact absurd hs.1 (by decide)

theorem isWord_display (x : Float) : IsWord (Number.display x).toList := by
  have hhead := Number.head_display x
  rw [Option.any_eq_true] at hhead
  obtain ⟨c, hc, hstart⟩ := hhead
  refine .of_head (fun d hd => isCut_of_isNumberPart (Number.isNumberPart_display x d hd)) c hc ?_ ?_ <;>
  · rintro rfl
    exact absurd hstart (by decide)

/-- The text of an operand is a quoted string, the two words of `undefined`, or one word. -/
theorem Operand.Legible.text_cases (hx : x.Legible) :
    (∃ t, x = .literal (.string t) ∧ Quoted.IsProper t) ∨ x = .literal .undefined ∨
    IsWord x.text.toList := by
  cases x with
  | literal v =>
    cases v with
    | string t => exact .inl ⟨t, rfl, hx⟩
    | undefined => exact .inr (.inl rfl)
    | number v => exact .inr (.inr (isWord_display v))
    | bool b =>
      refine .inr (.inr ?_)
      cases b with
      | true => exact .of_head (uncut_of_all (by decide)) 't' rfl (by decide) (by decide)
      | false => exact .of_head (uncut_of_all (by decide)) 'f' rfl (by decide) (by decide)
    | null => exact .inr (.inr (.of_head (uncut_of_all (by decide)) 'n' rfl (by decide) (by decide)))
  | temp t =>
    have hhead : 't' ∈ t.text.toList.head? := by
      rw [TempId.toList_text]
      rfl
    exact .inr (.inr (.of_head t.uncut_text 't' hhead (by decide) (by decide)))
  | global name =>
    have htext : (Operand.global name).text.toList = '@' :: name.toList := String.toList_append
    rw [htext]
    exact .inr (.inr (.of_head (uncut_cons (by decide) (uncut_of_isIdentifierName hx)) '@' rfl
      (by decide) (by decide)))
  | named name pinned =>
    cases pinned with
    | true =>
      have htext : (Operand.named name true).text.toList = '%' :: name.toList := String.toList_append
      rw [htext]
      exact .inr (.inr (.of_head (uncut_cons (by decide) (uncut_of_isIdentifierName hx.1)) '%' rfl
        (by decide) (by decide)))
    | false => exact .inr (.inr (isWord_of_isIdentifierName hx.1 hx.2))
  | receiver => exact .inr (.inr (.of_head (uncut_of_all (by decide)) 't' rfl (by decide) (by decide)))
  | arguments => exact .inr (.inr (.of_head (uncut_of_all (by decide)) 'a' rfl (by decide) (by decide)))
  | closure f =>
    rw [toList_closure]
    exact .inr (.inr (.of_head (uncut_cons (by decide) (uncut_toDigits f)) '#' rfl (by decide) (by decide)))
  | raw text => cases hx

theorem toList_undefined : (Operand.literal .undefined).text.toList = "void".toList ++ " 0".toList := rfl

/-- A word does not start like a quoted string. -/
theorem IsWord.ne_quote (h : IsWord cs) : cs ++ r ≠ '"' :: r' := by
  obtain ⟨c, hc, hne⟩ := h.head
  intro heq
  obtain ⟨d, ds, rfl⟩ : ∃ d ds, cs = d :: ds := by
    cases cs with
    | nil => cases hc
    | cons d ds => exact ⟨d, ds, rfl⟩
  exact hne ((Option.some.inj hc).symm.trans (List.cons.inj heq).1)

/-- A word is not where `undefined` starts. -/
theorem IsWord.ne_undefined (h : IsWord cs) (hr : Cut r) : cs ++ r ≠ "void".toList ++ ' ' :: r' := by
  intro heq
  have hcut : Cut (' ' :: r') := by simp [Cut, isCut]
  exact h.ne_void (h.uncut.append_inj (uncut_of_all (by decide)) hr hcut heq).1

theorem toList_string (t : Text) :
    (Operand.literal (.string t)).text.toList = '"' :: (Quoted.body t ++ ['"']) := Quoted.toList_encode t

/-- An operand ends where its text does, whatever part follows. -/
theorem Operand.text_append_inj {y : Operand} (hx : x.Legible) (hy : y.Legible) (hr : Cut r) (hr' : Cut r')
    (h : x.text.toList ++ r = y.text.toList ++ r') : x.text = y.text ∧ r = r' := by
  obtain ⟨t, rfl, ht⟩ | rfl | hword := hx.text_cases <;>
    obtain ⟨u, rfl, hu⟩ | rfl | hword' := hy.text_cases
  · have hbody : Quoted.body t ++ '"' :: r = Quoted.body u ++ '"' :: r' := by
      simpa [toList_string] using h
    obtain ⟨rfl, hrest⟩ := Quoted.body_append_inj ht hu hbody
    exact ⟨rfl, hrest⟩
  · rw [toList_string, toList_undefined] at h
    cases h
  · rw [toList_string] at h
    exact absurd h.symm hword'.ne_quote
  · rw [toList_string, toList_undefined] at h
    cases h
  · exact ⟨rfl, List.append_cancel_left h⟩
  · rw [toList_undefined, List.append_assoc] at h
    exact absurd h.symm (hword'.ne_undefined hr')
  · rw [toList_string] at h
    exact absurd h hword.ne_quote
  · rw [toList_undefined, List.append_assoc] at h
    exact absurd h (hword.ne_undefined hr)
  · obtain ⟨htext, hrest⟩ := hword.uncut.append_inj hword'.uncut hr hr' h
    exact ⟨String.toList_inj.mp htext, hrest⟩

/-! ## Texts of operands -/

/-- Whether an operand is a local that is written by its bare name. -/
def Operand.isBare : Operand → Bool
  | named _ pinned => !pinned
  | _ => false

/-- The kind of an operand other than a bare name. -/
def Operand.kind : Operand → Nat
  | literal (.string _) => 0
  | literal (.bool true) => 1
  | literal (.bool false) => 2
  | literal .null => 3
  | literal .undefined => 4
  | literal (.number _) => 5
  | temp _ => 6
  | global _ => 7
  | named .. => 8
  | receiver => 9
  | arguments => 10
  | closure _ => 11
  | raw _ => 12

/-- The kind of operand that a text shows. -/
def textKind : List Char → Nat
  | '"' :: _ => 0
  | 't' :: 'r' :: _ => 1
  | 'f' :: _ => 2
  | 'n' :: _ => 3
  | 'v' :: _ => 4
  | '@' :: _ => 7
  | '%' :: _ => 8
  | 't' :: 'h' :: _ => 9
  | 'a' :: _ => 10
  | '#' :: _ => 11
  | 't' :: _ => 6
  | _ => 5

theorem textKind_display (x : Float) : textKind (Number.display x).toList = 5 := by
  have hhead := Number.head_display x
  rw [Option.any_eq_true] at hhead
  obtain ⟨c, hc, hstart⟩ := hhead
  cases hcs : (Number.display x).toList with
  | nil => rw [hcs] at hc; cases hc
  | cons d ds =>
    rw [hcs] at hc
    obtain rfl : d = c := Option.some.inj hc
    unfold textKind
    split <;> first | rfl | (next heq => cases heq; exact absurd hstart (by decide))

theorem textKind_temp (t : TempId) : textKind t.text.toList = 6 := by
  rw [TempId.toList_text]
  cases hds : Nat.toDigits 10 t.block with
  | nil => exact absurd hds Nat.toDigits_ne_nil
  | cons d ds =>
    have hd : d.isDigit = true := Number.allDigits_decimalDigits t.block d (by simp [Number.decimalDigits, hds])
    have hr : d ≠ 'r' := by
      rintro rfl
      exact absurd hd (by decide)
    have hh : d ≠ 'h' := by
      rintro rfl
      exact absurd hd (by decide)
    simp [textKind, hr, hh]

theorem Operand.textKind_text (hx : x.Legible) (hb : x.isBare = false) : textKind x.text.toList = x.kind := by
  cases x with
  | literal v =>
    cases v with
    | string t => rw [toList_string]; rfl
    | undefined => rfl
    | number v => exact textKind_display v
    | bool b => cases b <;> rfl
    | null => rfl
  | temp t => exact textKind_temp t
  | global name =>
    rw [show (Operand.global name).text.toList = '@' :: name.toList from String.toList_append]
    rfl
  | named name pinned =>
    obtain rfl : pinned = true := by simpa [isBare] using hb
    rw [show (Operand.named name true).text.toList = '%' :: name.toList from String.toList_append]
    rfl
  | receiver | arguments => rfl
  | closure f => rw [toList_closure]; rfl
  | raw text => cases hx

/-- Zeros of either sign are equal by value. -/
theorem beq_of_isZero {x y : Float} (hx : Number.isZero x = true) (hy : Number.isZero y = true) :
    (x == y) = true := by
  obtain rfl | rfl := Number.isZero_iff.mp hx <;> obtain rfl | rfl := Number.isZero_iff.mp hy <;> rfl

theorem Operand.kind_ne_literal {v : Literal} (h : x.kind = (literal v).kind) (hx : 6 ≤ x.kind) : False := by
  rw [h] at hx
  cases v with
  | bool b => cases b <;> simp [kind] at hx
  | number | string | null | undefined => simp [kind] at hx

/-- The texts of literals tell them apart. -/
theorem Operand.agrees_literal {v w : Literal} (hv : (Operand.literal v).Legible)
    (hw : (Operand.literal w).Legible) (hkind : (Operand.literal v).kind = (Operand.literal w).kind)
    (h : v.source = w.source) : (Operand.literal v).Agrees (.literal w) := by
  cases v with
  | number x =>
    cases w with
    | number y =>
      obtain rfl | ⟨hx, hy⟩ := Number.eq_of_display h
      · exact .inl rfl
      · exact .inr (beq_of_isZero hx hy)
    | bool b => cases b <;> cases hkind
    | string | null | undefined => cases hkind
  | string t =>
    cases w with
    | string u =>
      have hbody : Quoted.body t ++ '"' :: [] = Quoted.body u ++ '"' :: [] := by
        simpa [Literal.source, Quoted.toList_encode] using congrArg String.toList h
      exact .inl (by rw [(Quoted.body_append_inj hv hw hbody).1])
    | bool b => cases b <;> cases hkind
    | number | null | undefined => cases hkind
  | bool b => cases b <;> cases w with
    | bool b' => cases b' <;> first | exact .inl rfl | cases hkind
    | number | string | null | undefined => cases hkind
  | null =>
    cases w with
    | null => exact .inl rfl
    | bool b => cases b <;> cases hkind
    | number | string | undefined => cases hkind
  | undefined =>
    cases w with
    | undefined => exact .inl rfl
    | bool b => cases b <;> cases hkind
    | number | string | null => cases hkind

theorem mark_inj {mark s t : String} (h : mark ++ s = mark ++ t) : s = t := by
  have hlist := congrArg String.toList h
  rw [String.toList_append, String.toList_append] at hlist
  exact String.toList_inj.mp (List.append_cancel_left hlist)

/-- The texts of operands tell them apart, unless a bare name is one of them. -/
theorem Operand.agrees_of_text {y : Operand} (hx : x.Legible) (hy : y.Legible) (hbx : x.isBare = false)
    (hby : y.isBare = false) (h : x.text = y.text) : x.Agrees y := by
  have hkind : x.kind = y.kind := by
    rw [← textKind_text hx hbx, ← textKind_text hy hby, h]
  cases x with
  | literal v =>
    cases y with
    | literal w => exact agrees_literal hx hy hkind h
    | _ => exact (kind_ne_literal hkind.symm (by simp [kind])).elim
  | temp t =>
    cases y with
    | temp u => exact .inl (congrArg Operand.temp (TempId.text_inj h))
    | literal w => exact (kind_ne_literal hkind (by simp [kind])).elim
    | _ => cases hkind
  | global name =>
    cases y with
    | global name' => exact .inl (congrArg Operand.global (mark_inj h))
    | literal w => exact (kind_ne_literal hkind (by simp [kind])).elim
    | _ => cases hkind
  | named name pinned =>
    obtain rfl : pinned = true := by simpa [isBare] using hbx
    cases y with
    | named name' pinned' =>
      obtain rfl : pinned' = true := by simpa [isBare] using hby
      exact .inl (congrArg (Operand.named · true) (mark_inj h))
    | literal w => exact (kind_ne_literal hkind (by simp [kind])).elim
    | _ => cases hkind
  | receiver =>
    cases y with
    | receiver => exact .inl rfl
    | literal w => exact (kind_ne_literal hkind (by simp [kind])).elim
    | _ => cases hkind
  | arguments =>
    cases y with
    | arguments => exact .inl rfl
    | literal w => exact (kind_ne_literal hkind (by simp [kind])).elim
    | _ => cases hkind
  | closure f =>
    cases y with
    | closure g =>
      have hlist := congrArg String.toList h
      rw [toList_closure, toList_closure] at hlist
      exact .inl (congrArg Operand.closure (toDigits_inj (List.cons.inj hlist).2))
    | literal w => exact (kind_ne_literal hkind (by simp [kind])).elim
    | _ => cases hkind
  | raw text => cases hx

end IR

end ScriptOptimizer
