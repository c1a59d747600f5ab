import ScriptOptimizer.Proofs.FoldedLiterals
import ScriptOptimizer.Proofs.InsertedSemicolons

/-!
# The places of names

A client takes a token for a part of a line that is counted in UTF-16 units. The tokens of a script tell where its
names stand in characters. A token covers its name if and only if a name starts at its place and no character of
two units stands in front of it on its line. Every token ends in front of the next one.
-/

namespace ScriptOptimizer

variable {cs : List Char} {ts : List Token} {pos : Position}

/-! ## Lines -/

/-- A line of a text; lines count from zero. -/
def lineAt : Nat → List Char → List Char
  | 0, cs => cs.takeWhile (· ≠ '\n')
  | n + 1, cs => lineAt n ((cs.dropWhile (· ≠ '\n')).drop 1)

namespace Position

/-- The line of a place is what stands in front of the place and what stands behind it, up to the line breaks. -/
theorem exists_lineAt (p : Position) (pre post : List Char) : ∃ front : List Char,
    lineAt (pre.count '\n') (pre ++ post) = front ++ post.takeWhile (· ≠ '\n') ∧ front.length ≤ pre.length ∧
      (p.advance pre).column = front.length + if pre.count '\n' = 0 then p.column else 1 := by
  induction pre generalizing p with
  | nil => exact ⟨[], by simp [lineAt, advance]⟩
  | cons c pre ih =>
    obtain ⟨front, hline, hlength, hcolumn⟩ := ih (p.next c)
    change ∃ _, _ ∧ _ ∧ ((p.next c).advance pre).column = _
    by_cases hc : c = '\n'
    · refine ⟨front, ?_, Nat.le_succ_of_le hlength, ?_⟩
      · simpa [hc, lineAt] using hline
      · simpa [hc, next] using hcolumn
    · cases hcount : pre.count '\n' with
      | zero =>
        refine ⟨c :: front, ?_, Nat.succ_le_succ hlength, ?_⟩
        · simpa [hc, hcount, lineAt] using hline
        · simp [hc, hcount, next] at hcolumn ⊢
          omega
      | succ n =>
        refine ⟨front, ?_, Nat.le_succ_of_le hlength, ?_⟩
        · simpa [hc, hcount, lineAt] using hline
        · simpa [hc, hcount, next] using hcolumn

/-- A text leads to a later line, or behind its characters on the same one. -/
theorem advance_cases (p : Position) (cs : List Char) : p.line < (p.advance cs).line ∨
    (p.advance cs).line = p.line ∧ (p.advance cs).column = p.column + cs.length := by
  induction cs generalizing p with
  | nil => exact .inr ⟨rfl, rfl⟩
  | cons c cs ih =>
    change p.line < ((p.next c).advance cs).line ∨ ((p.next c).advance cs).line = _ ∧ ((p.next c).advance cs).column = _
    have ih := ih (p.next c)
    by_cases hc : c = '\n' <;> simp [next, hc] at ih ⊢ <;> omega

end Position

/-! ## Words -/

theorem toNat_of_isNamePart {c : Char} (h : isNamePart c = true) : c.toNat < 0x80 ∧ c ≠ '\n' := by
  rw [isNamePart, Bool.or_eq_true, Lexer.isNameStart_iff, Lexer.isDigit_iff] at h
  refine ⟨by omega, ?_⟩
  rintro rfl
  revert h
  decide

theorem isNamePart_of_isNameChars (h : isNameChars cs = true) : ∀ c ∈ cs, isNamePart c = true := by
  cases cs with
  | nil => simp
  | cons c cs =>
    obtain ⟨hc, hcs⟩ := Bool.and_eq_true_iff.mp h
    simpa [isNamePart, hc] using hcs

theorem Lexer.length?_of_lexeme? {k : TokenKind} {n : Nat} (h : lexeme? cs = some (k, n)) :
    (k = .number → numberLength? cs = some n) ∧ (k = .ident → identLength? cs = some n) := by
  obtain ⟨r, hr, hn⟩ := List.exists_of_findSome?_eq_some h
  obtain ⟨m, hm, heq⟩ := Option.map_eq_some_iff.mp hn
  obtain ⟨rfl, rfl⟩ := Prod.mk.inj heq
  simp only [rules, List.mem_cons, List.not_mem_nil, or_false] at hr
  rcases hr with rfl | rfl | rfl | rfl | rfl | rfl <;> simp_all

theorem Lexer.lexeme?_ident {n : Nat} (h : lexeme? cs = some (.ident, n)) : isNameChars (cs.take n) = true:= by
  have hm := (length?_of_lexeme? h).2 rfl
  cases cs with
  | nil => cases hm
  | cons c cs =>
    obtain ⟨hc, hm⟩ := Option.ite_none_right_eq_some.mp hm
    rw [← Option.some.inj hm, Nat.add_comm, List.take_succ_cons, isNameChars, hc, runLength,
      ← List.prefix_iff_eq_take.mp (List.takeWhile_prefix _)]
    simp

/-! ## Names in literals -/

namespace Number

variable {x : Float}

/-- Whether a number can start with a character. -/
def isNumeralStart (c : Char) : Bool := c.isDigit || c == '.'

theorem isFinite_of_ofDecimal? {digits : Nat} {e : Int} (h : ofDecimal? digits e = some x) : isFinite x = true := by
  have hzero : isFinite 0 = true := rfl
  simp only [ofDecimal?] at h
  grind

theorem isFinite_of_ofBinary? {m : Nat} {e : Int} (h : ofBinary? m e = some x) : isFinite x = true := by
  have hzero : isFinite 0 = true := rfl
  simp only [ofBinary?] at h
  grind

/-- A literal that starts like a number stands for a finite number. -/
theorem isFinite_of_read? {text : String} (h : read? text = some x)
    (ht : text.toList.head?.any isNumeralStart = true) : isFinite x = true := by
  obtain ⟨c, cs, hcs⟩ : ∃ c cs, text.toList = c :: cs := by
    cases hcs : text.toList with
    | nil => simp [hcs] at ht
    | cons c cs => exact ⟨c, cs, rfl⟩
  rw [hcs, List.head?_cons, Option.any_some] at ht
  have hne (d : Char) (hd : isNumeralStart d = false) : c ≠ d := by
    rintro rfl
    simp [ht] at hd
  have hlower : c.toLower = c := by
    rw [isNumeralStart, Bool.or_eq_true, Lexer.isDigit_iff, beq_iff_eq, ← Char.toNat_inj, show '.'.toNat = 46 from rfl]
      at ht
    delta Char.toLower
    simp [UInt32.le_iff_toNat_le]
    omega
  have hsigned (h : readSigned? text = some x) : isFinite x = true := by
    have hword (w : List Char) (hw : w.head?.any isNumeralStart = false) : (c :: cs).map Char.toLower ≠ w := by
      rintro rfl
      simp [hlower, ht] at hw
    simp only [readSigned?, hcs] at h
    split at h
    · exact absurd (List.cons.inj ‹_›).1 (hne '-' rfl)
    · exact absurd (List.cons.inj ‹_›).1 (hne '+' rfl)
    rw [if_neg (hword _ (by decide)), 
      if_neg (not_or.mpr ⟨hword _ (by decide), hword _ (by decide)⟩)] at h
    simp only [Bool.false_eq_true, if_false, Option.map_id'] at h
    split at h
    · obtain ⟨-, h⟩ := Option.ite_none_right_eq_some.mp h
      simp only [readHexadecimal?, bind, Option.bind_eq_some_iff] at h
      obtain ⟨n, -, m, -, e, -, h⟩ := h
      exact isFinite_of_ofBinary? h
    · obtain ⟨-, h⟩ := Option.ite_none_right_eq_some.mp h
      simp only [readDecimal?, bind, Option.bind_eq_some_iff] at h
      obtain ⟨n, -, m, -, h⟩ := h
      exact isFinite_of_ofDecimal? h
  have hbased {base : Nat} {digits : List Char} (h : (if base = 0 then readSigned? text
      else (readBelow? base 0x10000000000000000 digits).bind fun n => ofBinary? n 0) = some x) : isFinite x = true := by
    split at h
    · exact hsigned h
    · obtain ⟨n, -, hn⟩ := Option.bind_eq_some_iff.mp h
      exact isFinite_of_ofBinary? hn
  unfold read? at h
  split at h
  · exact hbased h
  · exact hsigned h

/-- The text of a finite number is no name. -/
theorem isIdentifierName_display (h : isFinite x = true) : isIdentifierName (display x) = false := by
  rw [isIdentifierName, toList_display, Bool.eq_false_iff]
  intro hname
  split at hname
  · cases hname
  -- A name writes no number.
  have hnone : textValue? (unsignedText x) = none := by
    rw [List.nil_append] at hname
    cases hcs : unsignedText x with
    | nil => rfl
    | cons c cs =>
      have hc := Lexer.isNameStart_iff.mp (Bool.and_eq_true_iff.mp (hcs ▸ hname)).1
      have hdigit : c.isDigit = false := by
        rw [Bool.eq_false_iff, ne_eq, Lexer.isDigit_iff]
        omega
      have hpoint : c ≠ '.' := by
        rintro rfl
        revert hc
        decide
      simp [textValue?, numeral?, hdigit, hpoint]
  rw [isFinite, bne_iff_ne] at h
  obtain ⟨hx, -⟩ | ⟨hx, -⟩ | ⟨-, hx⟩ | ⟨-, -, hx⟩ := unsignedText_cases x
  · simp [isNaN, h] at hx
  · simp [isInfinite, h] at hx
  · simp [hnone] at hx
  · simp [hnone] at hx

end Number

/-- The text of a number token starts like a number. -/
theorem Lexer.head_number {n : Nat} (h : lexeme? cs = some (.number, n)) :
    (String.ofList (cs.take n)).toList.head?.any Number.isNumeralStart = true := by
  have hm := (length?_of_lexeme? h).1 rfl
  cases cs with
  | nil => cases hm
  | cons c cs =>
    cases n with
    | zero => exact absurd (lexeme?_pos h).1 (Nat.lt_irrefl 0)
    | succ n =>
      by_contra hc
      simp only [List.take_succ_cons, String.toList_ofList, List.head?_cons, Option.any_some, Number.isNumeralStart,
        Bool.or_eq_true, beq_iff_eq, not_or] at hc
      rw [numberLength?_cons (by simpa using hc.1) hc.2] at hm
      cases hm

namespace Quoted

/-- An escape that stands for parts of a name stands for one character at most. -/
theorem length_simpleEscape {c : Char} (h : ∀ a ∈ simpleEscape c, isNamePart a.shown = true) :
    (simpleEscape c).length ≤ 1 := by
  unfold simpleEscape at h ⊢
  split_ifs at h ⊢
  iterate 8 simp
  split at h
  · have hstray : isNamePart replacementChar = true := h _ List.mem_cons_self
    exact absurd hstray (by decide)
  · simp

theorem length_of_decodeWith {n : Nat} {t : Text} (h : decodeWith n cs = .ok t)
    (ht : ∀ a ∈ t, isNamePart a.shown = true) : t.length ≤ cs.length := by
  have hbind (front : Text) {m : Except EscapeFault Text} {t : Text} (h : (do return front ++ (← m)) = .ok t) :
      ∃ r, m = .ok r ∧ front ++ r = t := by
    cases m with
    | error => cases h
    | ok r => exact ⟨r, rfl, Except.ok.inj h⟩
  fun_induction decodeWith n cs generalizing t with
  | case1 | case2 | case12 =>
    cases h
    exact Nat.zero_le _
  | case4 | case5 | case7 | case8 | case10 | case11 => cases h
  | case3 | case9 | case14 =>
    rename_i ih
    obtain ⟨r, hr, rfl⟩ := hbind [_] h
    have hlength := ih hr fun a ha => ht a (List.mem_append_right _ ha)
    simp only [List.length_append, List.length_cons, List.length_nil]
    omega
  | case6 _ rest =>
    rename_i ih
    obtain ⟨r, hr, rfl⟩ := hbind [_] h
    have hlength := ih hr fun a ha => ht a (List.mem_append_right _ ha)
    have hdrop := (List.dropWhile_suffix (l := rest) (decide <| · ≠ '\x7d')).length_le
    simp only [List.length_append, List.length_cons, List.length_nil, List.length_drop] at hlength ⊢
    omega
  | case13 =>
    rename_i ih
    obtain ⟨r, hr, rfl⟩ := hbind _ h
    have hlength := ih hr fun a ha => ht a (List.mem_append_right _ ha)
    have hescape := length_simpleEscape fun a ha => ht a (List.mem_append_left _ ha)
    simp only [List.length_append, List.length_cons]
    omega

/-- The name that a string literal spells is no longer than the literal. -/
theorem length_of_decodeLiteral {s : String} {t : Text} (h : decodeLiteral s = .ok t)
    (ht : isIdentifierName t.shown = true) : t.shown.length ≤ s.length := by
  have hlength := length_of_decodeWith h fun a ha => isNamePart_of_isNameChars ht _ (by simp [Text.shown]; grind)
  simp [Text.shown] at hlength ⊢
  rw [String.length_toList] at hlength
  omega

end Quoted

/-! ## Names in the text -/

/-- The tokens at which names may stand. -/
def Token.isKept (t : Token) : Bool := !t.isPunct ";" && !t.isTrivia

/-- No name stands at a semicolon. -/
theorem Spelled.filter {ns : List Spot} (h : Spelled ts ns) : Spelled (ts.filter (!·.isPunct ";")) ns:= by
  induction h with
  | nil => exact .nil
  | skip _ ih =>
    rw [List.filter_cons]
    split
    · exact .skip ih
    · exact ih
  | cons hn _ ih =>
    cases hn with
    | word h =>
      rw [List.filter_cons_of_pos (by simp [Token.isPunct, h])]
      exact .cons (.word h) ih
    | key h hname =>
      rw [List.filter_cons_of_pos (by rcases h with h | h <;> simp [Token.isPunct, h])]
      exact .cons (.key h hname) ih
    | rest h hn =>
      rw [List.filter_cons_of_pos (by simp [Token.isPunct, h]), List.filter_cons_of_pos (by simp [Token.isPunct, hn])]
      exact .cons (.rest h hn) ih

/-- Nothing but semicolons is inserted. -/
theorem Scan.Inserted.filter {u : Option Token} {l : List Token} (h : Inserted u l ts) :
    ts.filter (!·.isPunct ";") = l.filter (!·.isPunct ";") := by
  induction h with
  | nil => rfl
  | keep _ _ ih => rw [List.filter_cons, List.filter_cons, ih]
  | @semicolon v _ _ _ _ _ _ ih =>
    rw [List.filter_cons_of_neg (by simp [Token.isPunct, semicolonAfter]), List.filter_cons, List.filter_cons, ih]

theorem Script.spelled_of_parse {file source : String} {all : List Token} {s : Script}
    (hall : Lexer.tokens file source = .ok all) (hs : Script.parse file source = .ok s) :
    Spelled (all.filter Token.isKept) (spots (Walk.stmts Walk.everywhere s.body)) := by
  obtain ⟨ts, hts, hs⟩ := Script.parse_eq_ok hall hs
  have hended := (Token.Ended.of_lexes (Lexer.tokens_eq_ok.mp hall)).filter.insert hts
  obtain ⟨⟨r, e, rest, rfl, -, -, hspelled⟩, -⟩ :=
    Grammar.ofTokens_alike (.refl hended.lexed : Token.Alike default none none ts ts) hs
  have hspelled := (hspelled.append (.nil : Spelled (e :: rest) [])).filter
  rw [(Scan.inserted_of_insert hts).filter, significant, List.filter_filter, List.append_nil] at hspelled
  exact hspelled

/-- A name is said to stand behind a part of a text. It does so if a name starts there. -/
def Placed (pos : Position) (cs : List Char) (n : Spot) : Prop :=
  ∃ pre post, cs = pre ++ post ∧ n.1.line = (pos.advance pre).line ∧ n.1.column = (pos.advance pre).column ∧
    isIdentifierName n.2 = true ∧ (post.head?.any isNameStart = true → n.2.toList <+: post)

/-- Whether a name starts at a place of a text; lines and columns count from zero. -/
def startsAt (cs : List Char) (line column : Nat) : Bool := (lineAt line cs)[column]?.any isNameStart

theorem startsAt_of_lineAt {front r : List Char} {line : Nat} (h : lineAt line cs = front ++ r) :
    startsAt cs line front.length = r.head?.any isNameStart := by
  rw [startsAt, h, List.getElem?_append_right le_rfl, Nat.sub_self, ← List.head?_eq_getElem?]

theorem head?_takeWhile_line (cs : List Char) :
    (cs.takeWhile (· ≠ '\n')).head?.any isNameStart = cs.head?.any isNameStart := by
  cases cs with
  | nil => rfl
  | cons c cs =>
    by_cases hc : c = '\n'
    · subst hc
      rfl
    · simp [hc]

/-- A name stands behind all of another. -/
def EndsBefore (n m : Spot) : Prop :=
  n.1.line < m.1.line ∨ n.1.line = m.1.line ∧ n.1.column + n.2.length ≤ m.1.column

theorem Placed.append {a b : List Char} {n : Spot} (h : Placed (pos.advance a) b n) : Placed pos (a ++ b) n:= by
  obtain ⟨pre, post, rfl, h⟩ := h
  exact ⟨a ++ pre, post, by simp, by simpa [Position.advance_append] using h⟩

theorem Lexer.Lexes.head_word (h : Lexes pos cs ts) (hc : cs.head?.any isNameStart = true) :
    ∃ t ts', ts = t :: ts' ∧ t.kind = .ident ∧ t.pos = pos ∧ t.text.toList <+: cs := by
  cases h with
  | nil => simp at hc
  | @cons _ cs k n ts hn =>
    cases cs with
    | nil => simp at hc
    | cons c cs =>
      obtain ⟨rfl, -⟩ := Prod.mk.inj (Option.some.inj (hn.symm.trans (lexeme?_word (by simpa using hc))))
      exact ⟨_, _, rfl, rfl, rfl, by simpa using List.take_prefix n (c :: cs)⟩

/-- Names stand at their tokens, in the order of the text. -/
theorem Lexer.Lexes.placed {all : List Token} {ns : List Spot} (hall : Lexes pos cs all)
    (hs : Spelled (all.filter Token.isKept) ns) : (∀ n ∈ ns, Placed pos cs n) ∧ ns.Pairwise EndsBefore := by
  induction hall generalizing ns with
  | nil =>
    have hnone (n : Spot) (ts : List Token) (pos : Position) : ¬ Stands n [⟨.eof, "", pos⟩] ts := by
      intro h
      cases h <;> simp_all
    cases hs with
    | nil => simp
    | skip h =>
      cases h with
      | nil => simp
      | cons hn => cases hn
    | cons hn => exact absurd hn (hnone _ _ _)
  | @cons pos cs k n ts hn hlex ih =>
    have hsplit := List.take_append_drop n cs
    have hcons {x : Spot} {ns : List Spot} (hx : Placed pos cs x) (hns : Spelled (ts.filter Token.isKept) ns)
        (hle : ∀ m ∈ ns, Placed (pos.advance (cs.take n)) (cs.drop n) m → EndsBefore x m) :
        (∀ m ∈ x :: ns, Placed pos cs m) ∧ (x :: ns).Pairwise EndsBefore := by
      obtain ⟨hplaced, hpair⟩ := ih hns
      refine ⟨List.forall_mem_cons.mpr ⟨hx, fun m hm => hsplit ▸ (hplaced m hm).append⟩, ?_⟩
      exact List.pairwise_cons.mpr ⟨fun m hm => hle m hm (hplaced m hm), hpair⟩
    have hafter {m : Spot} (h : Placed (pos.advance (cs.take n)) (cs.drop n) m) : pos.line < m.1.line ∨
        pos.line = m.1.line ∧ pos.column + (cs.take n).length ≤ m.1.column := by
      obtain ⟨pre, _, -, hline, hcolumn, -⟩ := h
      have h1 := pos.advance_cases (cs.take n)
      have h2 := (pos.advance (cs.take n)).advance_cases pre
      omega
    have hskip {ns : List Spot} (hns : Spelled (ts.filter Token.isKept) ns) :
        (∀ m ∈ ns, Placed pos cs m) ∧ ns.Pairwise EndsBefore :=
      ⟨fun m hm => hsplit ▸ ((ih hns).1 m hm).append, (ih hns).2⟩
    rw [List.filter_cons] at hs
    split at hs
    · generalize hr : ts.filter Token.isKept = r at hs hskip hcons ih
      cases hs with
      | nil => simp
      | skip h => exact hskip h
      | cons hst h =>
        cases hst with
        | word hk =>
          obtain rfl : k = .ident := hk
          refine hcons ⟨[], cs, rfl, rfl, rfl, ?_, fun _ => ?_⟩ h fun m _ hm => ?_
          · simpa [isIdentifierName] using lexeme?_ident hn
          · simpa using List.take_prefix n cs
          · have hm := hafter hm
            simp only [EndsBefore, String.length_ofList]
            omega
        | key hk hname =>
          -- A name that started here would be a word.
          have hno : cs.head?.any isNameStart = false := by
            cases cs with
            | nil => rfl
            | cons c cs =>
              rw [List.head?_cons, Option.any_some, Bool.eq_false_iff]
              intro hc
              obtain ⟨rfl, -⟩ := Prod.mk.inj (Option.some.inj (hn.symm.trans (lexeme?_word hc)))
              simp at hk
          refine hcons ⟨[], cs, rfl, rfl, rfl, hname, by simp [hno]⟩ h fun m _ hm => ?_
          have hm := hafter hm
          simp only [EndsBefore]
          rcases hk with ⟨-, v, hv, rfl⟩ | ⟨rfl, x, hx, rfl⟩
          · have hlength := Quoted.length_of_decodeLiteral hv hname
            rw [String.length_ofList] at hlength
            omega
          · rw [Number.isIdentifierName_display (Number.isFinite_of_read? hx (head_number hn))] at hname
            cases hname
        | @rest _ v _ hdots hv =>
          have hdots : cs.take n = ['.', '.', '.'] := by simpa [← String.toList_inj] using hdots
          have hadvance : (pos.advance (cs.take n)).line = pos.line ∧
              (pos.advance (cs.take n)).column = pos.column + Semantic.restWidth := by
            rw [hdots]
            exact ⟨rfl, rfl⟩
          -- A name that starts behind the mark is the word behind it.
          have hword (hstart : (cs.drop n).head?.any isNameStart = true) :
              v.pos = pos.advance (cs.take n) ∧ v.text.toList <+: cs.drop n := by
            generalize cs.drop n = d, pos.advance (cs.take n) = p at hlex hstart
            obtain ⟨t, ts, rfl, hk, hpos, htext⟩ := hlex.head_word hstart
            rw [List.filter_cons_of_pos (by simp [Token.isKept, Token.isPunct, Token.isTrivia, hk])] at hr
            obtain ⟨rfl, -⟩ := List.cons.inj hr
            exact ⟨hpos, htext⟩
          obtain ⟨hplaced, hpair⟩ := ih (.cons (.word hv) h : Spelled (v :: _) ((v.pos, v.text) :: _))
          obtain ⟨pre, post, -, hline, hcolumn, hname, -⟩ := hplaced _ List.mem_cons_self
          refine hcons ⟨cs.take n, cs.drop n, hsplit.symm, hadvance.1.symm, hadvance.2.symm, hname,
            fun h => (hword h).2⟩
            (.skip h) fun m hm _ => ?_
          have hm := (List.pairwise_cons.mp hpair).1 m hm
          have hcases := (pos.advance (cs.take n)).advance_cases pre
          dsimp only at hline hcolumn
          simp only [EndsBefore, ← hadvance.1, ← hadvance.2] at hm ⊢
          omega
    · exact hskip hs

/-! ## Tokens and names -/

/-- The UTF-16 units of some characters. -/
def utf16 (cs : List Char) : List Nat := Standard.codeUnits (cs.map Atom.char)

theorem utf16_cons (c : Char) (cs : List Char) : utf16 (c :: cs) = Standard.units (.char c) ++ utf16 cs := rfl

theorem utf16_append (a b : List Char) : utf16 (a ++ b) = utf16 a ++ utf16 b := by
  simp [utf16, Standard.codeUnits]

theorem length_utf16 (cs : List Char) : (utf16 cs).length = Text.units16 (cs.map Atom.char) := by
  induction cs with
  | nil => rfl
  | cons c cs ih =>
    change _ = Atom.units16 (.char c) + Text.units16 (cs.map Atom.char)
    rw [utf16_cons, List.length_append, ih, Atom.units16, Atom.shown, Standard.units]
    split <;> rfl

theorem length_utf16_eq (cs : List Char) : cs.length ≤ (utf16 cs).length ∧
    ((utf16 cs).length = cs.length ↔ ∀ c ∈ cs, c.toNat < 0x10000) := by
  induction cs with
  | nil => simp [utf16, Standard.codeUnits]
  | cons c cs ih =>
    rw [utf16_cons, List.forall_mem_cons, ← ih.2, Standard.units]
    split <;> simp <;> omega

theorem length_utf16_name (h : isNameChars cs = true) : (utf16 cs).length = cs.length :=
  (length_utf16_eq cs).2.mpr fun c hc =>
    Nat.lt_trans (toNat_of_isNamePart (isNamePart_of_isNameChars h c hc)).1 (by decide)

namespace Semantic

/-- The line at which a token stands. -/
def SemanticToken.lineIn (source : String) (t : SemanticToken) : List Char := lineAt t.line.toNat source.toList

/-- Whether a name starts at the place of a token, counted in characters. -/
def SemanticToken.startsName (source : String) (t : SemanticToken) : Bool :=
  startsAt source.toList t.line.toNat t.column.toNat

/-- A token covers a name: it starts at the same character whether its column counts characters or UTF-16 units,
and the units from there on spell the name. -/
structure SemanticToken.Covers (source name : String) (t : SemanticToken) : Prop where
  column : (utf16 ((t.lineIn source).take t.column.toNat)).length = t.column.toNat
  spells : ((utf16 (t.lineIn source)).drop t.column.toNat).take t.length.toNat = utf16 name.toList

variable {file source : String} {s : Script} {l : Label}

theorem exists_token (h : Placed (.start file) source.toList (l.pos, l.name)) (hsize : source.length < 2 ^ 32) :
    ∃ (t : SemanticToken) (front post : List Char), l.token? = some t ∧ l.pos.line = t.line.toNat + 1 ∧
      l.pos.column = t.column.toNat + 1 ∧ t.lineIn source = front ++ post.takeWhile (· ≠ '\n') ∧
      front.length = t.column.toNat ∧ isIdentifierName l.name = true ∧ t.length.toNat ≤ l.name.length ∧
      (post.head?.any isNameStart = true → l.name.toList <+: post ∧ t.length.toNat = (utf16 l.name.toList).length) := by
  obtain ⟨pre, post, hsource, hline, hcolumn, hname, hpost⟩ := h
  obtain ⟨front, hfront, hlength, hfrontColumn⟩ := (Position.start file).exists_lineAt pre post
  have hplace : (Position.start file).line = 1 ∧ (Position.start file).column = 1 := ⟨rfl, rfl⟩
  have hcount := List.count_le_length (a := '\n') (l := pre)
  have htotal : pre.length + post.length < 2 ^ 32 := by
    rwa [← List.length_append, ← hsource, String.length_toList]
  rw [Position.line_advance, hplace.1] at hline
  rw [hfrontColumn, hplace.2, ite_self] at hcolumn
  dsimp only at hline hcolumn hname hpost
  have htoken : l.token? = some ⟨.ofNat (pre.count '\n'), .ofNat front.length, .ofNat (units16 l.name), l.kind,
    l.isDeclaration⟩ := by
    simp [Label.token?, hline, hcolumn]
  have hnat {n : Nat} (h : n < 2 ^ 32) : (UInt32.ofNat n).toNat = n := UInt32.toNat_ofNat_of_lt' h
  have hunits : units16 l.name = l.name.toList.length := (length_utf16 _).symm.trans (length_utf16_name hname)
  refine ⟨_, front, post, htoken, ?_, ?_, ?_, ?_, hname, ?_, fun h => ⟨hpost h, ?_⟩⟩
  · rw [hnat (by omega)]
    omega
  · rw [hnat (by omega)]
    omega
  · rw [SemanticToken.lineIn, hnat (by omega), hsource, hfront]
  · rw [hnat (by omega)]
  · rw [UInt32.toNat_ofNat', hunits, String.length_toList]
    exact Nat.mod_le _ _
  · have hbound := (hpost h).length_le
    rw [length_utf16_name hname, hnat (by omega), hunits]

/-- The names to classify of a script stand in the order of its text. -/
theorem placed_labels (h : Script.parse file source = .ok s) :
    (∀ l ∈ labels s, Placed (.start file) source.toList (l.pos, l.name)) ∧
      (labels s).Pairwise fun l m => EndsBefore (l.pos, l.name) (m.pos, m.name) := by
  obtain ⟨all, hall⟩ : ∃ all, Lexer.tokens file source = .ok all := by
    cases hall : Lexer.tokens file source with
    | ok all => exact ⟨all, rfl⟩
    | error e => simp [Script.parse, Scan.scan, hall, bind, Except.bind] at h
  have hspots : spots (Walk.stmts Walk.everywhere s.body) = (labels s).map fun l => (l.pos, l.name) := rfl
  have hplaced := (Lexer.tokens_eq_ok.mp hall).placed (Script.spelled_of_parse hall h)
  rwa [hspots, List.forall_mem_map, List.pairwise_map] at hplaced

/-- What starts with the units of a name starts with its first character. -/
theorem head_of_utf16 {r : List Char} (hname : isNameChars cs = true) (h : utf16 cs <+: utf16 r) :
    r.head?.any isNameStart = true := by
  obtain ⟨z, hz⟩ := h
  cases cs with
  | nil => cases hname
  | cons c cs =>
    rw [utf16_cons, List.append_assoc] at hz
    cases r with
    | nil => exact absurd (List.append_eq_nil_iff.mp hz).1 (units_ne_nil _)
    | cons d r =>
      obtain ⟨hcd, -⟩ := units_append_inj hz
      exact Atom.char.inj hcd ▸ (Bool.and_eq_true_iff.mp hname).1

/-- Every name has a token. It covers the name if and only if a name starts at its place and no character of two
UTF-16 units stands in front of it on its line. It ends in front of the next token. -/
theorem covers_iff (h : Script.parse file source = .ok s) (hsize : source.length < 2 ^ 32) :
    (∀ l ∈ labels s, ∃ t, l.token? = some t ∧ (t.Covers source l.name ↔ t.startsName source = true ∧
      ∀ c ∈ (t.lineIn source).take t.column.toNat, c.toNat < 0x10000)) ∧
    (collect s).Pairwise fun a b =>
      a.line < b.line ∨ a.line = b.line ∧ a.column.toNat + a.length.toNat ≤ b.column.toNat := by
  obtain ⟨hplaced, hpair⟩ := placed_labels h
  refine ⟨fun l hl => ?_, ?_⟩
  · obtain ⟨t, front, post, ht, -, -, hline, hfront, hname, -, hpost⟩ := exists_token (hplaced l hl) hsize
    refine ⟨t, ht, ?_⟩
    rw [SemanticToken.startsName, ← hfront, startsAt_of_lineAt hline, hline, List.take_left,
      ← (length_utf16_eq front).2]
    constructor
    · rintro ⟨hcolumn, hspells⟩
      rw [hline, ← hfront, List.take_left] at hcolumn
      refine ⟨?_, hcolumn⟩
      rw [hline, ← hfront, utf16_append, List.drop_left' hcolumn] at hspells
      exact head_of_utf16 hname (hspells ▸ List.take_prefix _ _)
    · rintro ⟨hstart, hcolumn⟩
      obtain ⟨⟨r, hr⟩, hlength⟩ := hpost (head?_takeWhile_line post ▸ hstart)
      have hbreak : ∀ c ∈ l.name.toList, decide (c ≠ '\n') = true := fun c hc =>
        decide_eq_true (toNat_of_isNamePart (isNamePart_of_isNameChars hname c hc)).2
      refine ⟨by rw [hline, ← hfront, List.take_left, hcolumn], ?_⟩
      rw [hline, ← hfront, utf16_append, List.drop_left' hcolumn, ← hr, List.takeWhile_append_of_pos hbreak,
        utf16_append, List.take_left' hlength.symm]
  · have hsorted : ((labels s).filterMap Label.token?).Pairwise fun a b => SemanticToken.le a b = true ∧
        (a.line < b.line ∨ a.line = b.line ∧ a.column.toNat + a.length.toNat ≤ b.column.toNat) := by
      refine List.pairwise_filterMap.mpr (hpair.imp_of_mem fun hl hm hlm a ha b hb => ?_)
      obtain ⟨a, -, -, ha', hline, hcolumn, -, -, -, hlength, -⟩ := exists_token (hplaced _ hl) hsize
      obtain ⟨b, -, -, hb', hline', hcolumn', -⟩ := exists_token (hplaced _ hm) hsize
      obtain rfl := Option.some.inj (ha'.symm.trans ha)
      obtain rfl := Option.some.inj (hb'.symm.trans hb)
      simp only [EndsBefore, hline, hcolumn, hline', hcolumn'] at hlm
      simp only [SemanticToken.le, Bool.or_eq_true, Bool.and_eq_true, decide_eq_true_eq, beq_iff_eq,
        UInt32.lt_iff_toNat_lt, UInt32.le_iff_toNat_le, ← UInt32.toNat_inj]
      omega
    rw [collect, List.mergeSort_of_pairwise (hsorted.imp And.left)]
    exact hsorted.imp And.right

theorem exists_of_labels (source : String) (ls : List Label) (h : (Script.parse "" source).toOption.any (labels · = ls) = true) :
    ∃ s, Script.parse "" source = .ok s ∧ labels s = ls := by
  exact (exists_ok (P := (labels · = ls)) h).imp fun _ hs => ⟨hs.1, of_decide_eq_true hs.2⟩

/-- A character of two units behind the names does no harm, nor does the mark of a rest parameter. -/
theorem covers_restParameter : ∃ s, Script.parse "" "function f(...b) \x7b b + '😀'; \x7d" = .ok s ∧ (labels s).length = 2 ∧
    ∀ l ∈ labels s, ∃ t, l.token? = some t ∧ t.Covers "function f(...b) \x7b b + '😀'; \x7d" l.name := by
  obtain ⟨s, hs, hlabels⟩ := exists_of_labels "function f(...b) \x7b b + '😀'; \x7d"
    [⟨⟨"", 11, 1, 15⟩, "b", .parameter, true⟩, ⟨⟨"", 19, 1, 20⟩, "b", .binding, false⟩] (by decide +kernel)
  have hplain : ((labels s).all fun l => l.token?.all fun t => t.startsName "function f(...b) \x7b b + '😀'; \x7d" &&
      ((t.lineIn "function f(...b) \x7b b + '😀'; \x7d").take t.column.toNat).all (·.toNat < 0x10000)) = true := by
    rw [hlabels]
    decide +kernel
  simp only [List.all_eq_true, Option.all_eq_true, Bool.and_eq_true, decide_eq_true_eq] at hplain
  refine ⟨s, hs, by simp [hlabels], fun l hl => ?_⟩
  obtain ⟨t, ht, hcovers⟩ := (covers_iff hs (by decide)).1 l hl
  exact ⟨t, ht, hcovers.mpr (hplain l hl t ht)⟩

/-- A character of two units in front of a name moves the name away from its token. -/
theorem covers_pair : ∃ s, Script.parse "" "\"😀\" + a;" = .ok s ∧
    ∃ l ∈ labels s, ∃ t, l.token? = some t ∧ ¬ t.Covers "\"😀\" + a;" l.name := by
  obtain ⟨s, hs, hlabels⟩ := exists_of_labels "\"😀\" + a;" [⟨⟨"", 9, 1, 7⟩, "a", .binding, false⟩] (by decide +kernel)
  refine ⟨s, hs, _, by rw [hlabels]; exact List.mem_cons_self, _, rfl, fun h => ?_⟩
  have hspells := h.spells
  revert hspells
  decide +kernel

end Semantic

end ScriptOptimizer
