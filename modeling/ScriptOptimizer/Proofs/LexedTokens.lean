import Mathlib.Data.List.Find
import Mathlib.Data.List.TakeWhile
import Mathlib.Data.String.Basic
import ScriptOptimizer.Proofs.MatcherRuns

/-!
# Tokens of a text

The tokens of a text spell it, stand where it has them, and have the kinds that their first characters
ask for. What the lexer makes of the text in front of a closing parenthesis does not depend on the text
behind it, except that a comment may be closed there.
-/

namespace ScriptOptimizer

namespace Position

theorem advance_append (p : Position) (a b : List Char) : p.advance (a ++ b) = (p.advance a).advance b :=
  List.foldl_append

theorem line_advance (p : Position) (cs : List Char) : (p.advance cs).line = p.line + cs.count '\n' := by
  induction cs generalizing p with
  | nil => rfl
  | cons c cs ih =>
    rw [advance, List.foldl_cons, ← advance, ih, next]
    by_cases hc : c = '\n'
    · simp [hc]
      omega
    · simp [hc]

theorem offset_advance (p : Position) (cs : List Char) :
    (p.advance cs).offset = p.offset + (String.ofList cs).utf8ByteSize := by
  rw [String.utf8ByteSize_ofList]
  induction cs generalizing p with
  | nil => rfl
  | cons c cs ih =>
    rw [advance, List.foldl_cons, ← advance, ih, next, String.utf8Len_cons]
    split <;> dsimp only <;> omega

end Position

namespace Token

def chars (ts : List Token) : List Char := ts.flatMap (·.text.toList)

@[simp]
theorem chars_cons (t : Token) (ts : List Token) : chars (t :: ts) = t.text.toList ++ chars ts := rfl

@[simp]
theorem chars_append (s ts : List Token) : chars (s ++ ts) = chars s ++ chars ts := List.flatMap_append

/-- The offset behind a token. -/
def stop (t : Token) : Nat := t.pos.offset + t.text.utf8ByteSize

/-- A token in front of another one, and apart from it if a line break stands between them. -/
structure Before (v t : Token) : Prop where
  nonempty : v.pos.offset < v.stop
  stop_le : v.stop ≤ t.pos.offset
  stop_lt : v.lineBreakBetween t = true → v.stop < t.pos.offset

/-- A token on another line, with as many lines in front of it as others that move along. -/
def Moved (a b : Nat) (t t' : Token) : Prop := t.Same t' ∧ t'.pos.line + a = t.pos.line + b

end Token

namespace Lexer

variable {cs : List Char} {c : Char} {n : Nat} {k : TokenKind} {pos : Position} {t : Token} {ts : List Token}

/-! ## The rules at the first character -/

theorem commentLength?_cons (h : c ≠ '/') : commentLength? (c :: cs) = none := by
  unfold commentLength?
  split
  · simp_all
  · simp_all
  · rfl

theorem stringLength?_cons (hd : c ≠ '"') (hs : c ≠ '\'') : stringLength? (c :: cs) = none := by
  unfold stringLength?
  split
  · simp_all
  · simp_all
  · rfl

theorem numberLength?_cons (hd : c.isDigit = false) (hp : c ≠ '.') : numberLength? (c :: cs) = none := by
  have h0 : c ≠ '0' := by
    rintro rfl
    cases hd
  have hb : basedLength? (c :: cs) = none := by
    unfold basedLength?
    split
    · simp_all
    · rfl
  have hm : mantissaLength? (c :: cs) = none := by
    simp [mantissaLength?, runLength, hd, hp]
  simp [numberLength?, hb, hm]

/-- The lexeme of a text is that of the first rule that has one. -/
theorem lexeme?_eq (cs : List Char) : lexeme? cs =
    ((commentLength? cs).map (.comment, ·) <|> (stringLength? cs).map (.string, ·) <|>
      (numberLength? cs).map (.number, ·) <|> (identLength? cs).map (.ident, ·) <|>
      (punctLength? cs).map (.punct, ·) <|> (whitespaceLength? cs).map (.whitespace, ·)) := by
  simp only [lexeme?, rules, List.findSome?]
  cases commentLength? cs <;> cases stringLength? cs <;> cases numberLength? cs <;> cases identLength? cs <;>
    cases punctLength? cs <;> cases whitespaceLength? cs <;> rfl

/-- A character with which no comment, string, number or word starts. -/
def startsMark (c : Char) : Bool :=
  !(c == '/' || c == '"' || c == '\'' || c == '.' || c.isDigit || isNameStart c)

theorem lexeme?_mark (hc : startsMark c = true) : lexeme? (c :: cs) =
    ((punctLength? (c :: cs)).map (.punct, ·) <|> (whitespaceLength? (c :: cs)).map (.whitespace, ·)) := by
  simp only [startsMark, Bool.not_eq_true', Bool.or_eq_false_iff, beq_eq_false_iff_ne] at hc
  obtain ⟨⟨⟨⟨⟨hslash, hdouble⟩, hsingle⟩, hpoint⟩, hdigit⟩, hname⟩ := hc
  have hident : identLength? (c :: cs) = none := by simp [identLength?, hname]
  rw [lexeme?_eq, commentLength?_cons hslash, stringLength?_cons hdouble hsingle, numberLength?_cons hdigit hpoint,
    hident]
  rfl

theorem lexeme?_punct (hc : c ∈ ['+', '-', ')', ']', '\x7d']) (h : lexeme? (c :: cs) = some (k, n)) : k = .punct := by
  have hstart : ∀ c ∈ ['+', '-', ')', ']', '\x7d'], startsMark c = true ∧ isSeparator c = false := by
    simp only [List.mem_cons, List.not_mem_nil, or_false, forall_eq_or_imp, forall_eq]
    decide
  have hstart := hstart c hc
  rw [lexeme?_mark hstart.1] at h
  have hspace : whitespaceLength? (c :: cs) = none := by simp [whitespaceLength?, runLength, hstart.2]
  cases hp : punctLength? (c :: cs) with
  | none => simp [hp, hspace] at h
  | some m => simp_all

theorem isNameStart_iff : isNameStart c = true ↔
    65 ≤ c.toNat ∧ c.toNat ≤ 90 ∨ 97 ≤ c.toNat ∧ c.toNat ≤ 122 ∨ c.toNat = 95 ∨ c.toNat = 36 := by
  delta isNameStart Char.isAlpha Char.isUpper Char.isLower
  simp [UInt32.le_iff_toNat_le, ← Char.toNat_inj, or_assoc]

theorem isDigit_iff : c.isDigit = true ↔ 48 ≤ c.toNat ∧ c.toNat ≤ 57 := by
  simp [Char.isDigit, UInt32.le_iff_toNat_le]

/-- A word is taken up as a whole. -/
theorem lexeme?_word (hc : isNameStart c = true) : lexeme? (c :: cs) = some (.ident, 1 + runLength isNamePart cs) := by
  have hne (d : Char) (hd : isNameStart d = false) : c ≠ d := by
    rintro rfl
    simp [hc] at hd
  have hdigit : c.isDigit = false := by
    rw [isNameStart_iff] at hc
    rw [Bool.eq_false_iff, ne_eq, isDigit_iff]
    omega
  rw [lexeme?_eq, commentLength?_cons (hne _ (by decide)), stringLength?_cons (hne _ (by decide)) (hne _ (by decide)),
    numberLength?_cons hdigit (hne _ (by decide)), identLength?, if_pos hc]
  rfl

theorem punctLength?_cons (h : ∀ m ∈ marks, m.toList.head? ≠ none ∧ m.toList.head? ≠ some c) :
    punctLength? (c :: cs) = none := by
  rw [punctLength?, Option.map_eq_none_iff, List.find?_eq_none]
  intro m hm hprefix
  rw [List.isPrefixOf_iff_prefix] at hprefix
  cases hds : m.toList with
  | nil => exact (h m hm).1 (by rw [hds, List.head?_nil])
  | cons d ds =>
    rw [hds] at hprefix
    have hd : d = c := (List.cons_prefix_cons.mp hprefix).1
    exact (h m hm).2 (by rw [hds, List.head?_cons, hd])

/-- Separators are taken up as a whole. -/
theorem lexeme?_separators {wide : List Char} (hw : wide ≠ []) (hs : ∀ c ∈ wide, isSeparator c = true)
    (hc : ∀ c ∈ cs.head?, isSeparator c = false) : lexeme? (wide ++ cs) = some (.whitespace, wide.length) := by
  have hrun : runLength isSeparator (wide ++ cs) = wide.length := by
    have htail : cs.takeWhile isSeparator = [] := by
      cases cs with
      | nil => rfl
      | cons c cs => simp [hc c rfl]
    rw [runLength, List.takeWhile_append_of_pos hs, htail, List.append_nil]
  obtain ⟨c, wide, rfl⟩ := List.exists_cons_of_ne_nil hw
  have hfirst : startsMark c = true ∧ ∀ m ∈ marks, m.toList.head? ≠ none ∧ m.toList.head? ≠ some c := by
    have hc := hs c List.mem_cons_self
    simp only [isSeparator, Bool.or_eq_true, beq_iff_eq] at hc
    rcases hc with ((rfl | rfl) | rfl) | rfl <;> decide
  rw [List.cons_append] at hrun ⊢
  rw [lexeme?_mark hfirst.1, punctLength?_cons hfirst.2]
  simp [whitespaceLength?, hrun]

theorem basedLength?_pos (h : basedLength? cs = some n) : 0 < n := by
  have hif (m : Nat) (h : (if m = 0 then none else some (2 + m)) = some n) : 0 < n := by
    split at h
    · cases h
    · cases h
      omega
  unfold basedLength? at h
  split at h
  · exact hif _ h
  · cases h

theorem mantissaLength?_pos (h : mantissaLength? cs = some n) : 0 < n := by
  unfold mantissaLength? at h
  dsimp only at h
  generalize runLength Char.isDigit cs = m at h
  cases m with
  | zero =>
    split at h
    · split at h
      · cases h
      · cases h
        omega
    · cases h
    · cases h
      omega
    · contradiction
  | succ m =>
    split at h
    · contradiction
    · contradiction
    · cases h
      omega
    · cases h
      omega

theorem numberLength?_pos (h : numberLength? cs = some n) : 0 < n := by
  rw [numberLength?] at h
  cases hb : basedLength? cs with
  | some m =>
    obtain rfl : m = n := by simpa [hb] using h
    exact basedLength?_pos hb
  | none =>
    obtain ⟨m, hm, rfl⟩ : ∃ m, mantissaLength? cs = some m ∧ m + exponentLength (cs.drop m) = n := by
      simpa [hb] using h
    exact Nat.add_pos_left (mantissaLength?_pos hm) _

/-- Every lexeme has a character, and none is an end. -/
theorem lexeme?_pos (h : lexeme? cs = some (k, n)) : 0 < n ∧ k ≠ .eof := by
  obtain ⟨r, hr, hn⟩ := List.exists_of_findSome?_eq_some h
  obtain ⟨m, hm, heq⟩ := Option.map_eq_some_iff.mp hn
  obtain ⟨rfl, rfl⟩ := Prod.mk.inj heq
  simp only [rules, List.mem_cons, List.not_mem_nil, or_false] at hr
  rcases hr with rfl | rfl | rfl | rfl | rfl | rfl
  · refine ⟨?_, nofun⟩
    dsimp only at hm
    unfold commentLength? at hm
    split at hm
    · cases hm
      omega
    · obtain ⟨_, -, rfl⟩ := Option.map_eq_some_iff.mp hm
      omega
    · cases hm
  · refine ⟨?_, nofun⟩
    dsimp only at hm
    unfold stringLength? at hm
    split at hm
    · obtain ⟨_, -, rfl⟩ := Option.map_eq_some_iff.mp hm
      omega
    · obtain ⟨_, -, rfl⟩ := Option.map_eq_some_iff.mp hm
      omega
    · cases hm
  · exact ⟨numberLength?_pos hm, nofun⟩
  · refine ⟨?_, nofun⟩
    dsimp only at hm
    unfold identLength? at hm
    split at hm
    · split at hm
      · cases hm
        omega
      · cases hm
    · cases hm
  · refine ⟨?_, nofun⟩
    obtain ⟨x, hx, rfl⟩ := Option.map_eq_some_iff.mp hm
    exact (by decide : ∀ m ∈ marks, 0 < m.length) x (List.mem_of_find?_eq_some hx)
  · refine ⟨?_, nofun⟩
    dsimp only [whitespaceLength?] at hm
    split at hm
    · cases hm
    · cases hm
      omega

/-! ## Lexemes in front of a closing parenthesis -/

section Front
variable {a r r' : List Char}

theorem runLength_front {p : Char → Bool} (hp : p ')' = false) (a r : List Char) :
    runLength p (a ++ ')' :: r) = runLength p a := by
  induction a with
  | nil => simp [runLength, hp]
  | cons c a ih =>
    unfold runLength at ih ⊢
    cases hc : p c <;> simp [hc, ih]

theorem basedLength?_front (ha : a ≠ []) : basedLength? (a ++ ')' :: r') = basedLength? (a ++ ')' :: r) := by
  match a, ha with
  | [c], _ =>
    by_cases hc : c = '0'
    · subst hc
      simp [basedLength?]
    · simp [basedLength?, hc]
  | c :: mark :: ds, _ =>
    have hrun {p : Char → Bool} (hp : p ')' = false) :
      runLength p (ds ++ ')' :: r') = runLength p (ds ++ ')' :: r) := by
      rw [runLength_front hp, runLength_front hp]
    by_cases hc : c = '0'
    · subst hc
      simp only [basedLength?, List.cons_append]
      rw [hrun (p := fun c => (digitValue? c).isSome) (by decide), hrun (p := fun c => '0' ≤ c && c ≤ '7') (by decide),
        hrun (p := fun c => c == '0' || c == '1') (by decide)]
    · simp [basedLength?, hc]

theorem exponentLength_front (a : List Char) : exponentLength (a ++ ')' :: r') = exponentLength (a ++ ')' :: r) := by
  have hrun (a : List Char) : runLength Char.isDigit (a ++ ')' :: r') = runLength Char.isDigit (a ++ ')' :: r) := by
    rw [runLength_front (by decide), runLength_front (by decide)]
  match a with
  | [] => simp [exponentLength]
  | [c] =>
    have hrun := hrun []
    simp only [List.nil_append] at hrun
    simp [exponentLength, hrun]
  | c :: d :: a =>
    by_cases hd : d = '+' ∨ d = '-'
    · rcases hd with rfl | rfl <;> simp [exponentLength, hrun]
    · obtain ⟨hplus, hminus⟩ := not_or.mp hd
      have hrun := hrun (d :: a)
      rw [List.cons_append, List.cons_append] at hrun
      simp [exponentLength, hplus, hminus, hrun]

/-- Digits with an optional point end in front of the parenthesis. -/
theorem mantissaLength?_front (a r : List Char) : mantissaLength? (a ++ ')' :: r) = mantissaLength? (a ++ [')']) ∧
    ∀ m, mantissaLength? (a ++ ')' :: r) = some m → m ≤ a.length := by
  have hlength : runLength Char.isDigit a ≤ a.length := (List.takeWhile_prefix _).length_le
  have hdrop (r : List Char) : (a ++ r).drop (runLength Char.isDigit a) = a.drop (runLength Char.isDigit a) ++ r :=
    List.drop_append_of_le_length hlength
  have hsum : a.length = runLength Char.isDigit a + (a.drop (runLength Char.isDigit a)).length := by
    rw [List.length_drop]
    omega
  simp only [mantissaLength?, runLength_front (p := Char.isDigit) (by decide), hdrop]
  rw [hsum]
  generalize runLength Char.isDigit a = n, a.drop (runLength Char.isDigit a) = d
  have hpoint (d r : List Char) : runLength Char.isDigit (d ++ ')' :: r) ≤ d.length := by
    rw [runLength_front (by decide)]
    exact (List.takeWhile_prefix _).length_le
  match n, d with
  | 0, [] => simp
  | n + 1, [] => simp
  | 0, c :: d =>
    by_cases hc : c = '.'
    · subst hc
      have := hpoint d r
      simp [runLength_front (p := Char.isDigit) (by decide)] at this ⊢
      omega
    · simp [hc]
  | n + 1, c :: d =>
    by_cases hc : c = '.'
    · subst hc
      have := hpoint d r
      simp [runLength_front (p := Char.isDigit) (by decide)] at this ⊢
      omega
    · simp [hc]

theorem numberLength?_front (ha : a ≠ []) : numberLength? (a ++ ')' :: r') = numberLength? (a ++ ')' :: r) := by
  obtain ⟨hmantissa, hbound⟩ := mantissaLength?_front a r
  rw [numberLength?, numberLength?, basedLength?_front ha, (mantissaLength?_front a r').1, ← hmantissa]
  cases hm : mantissaLength? (a ++ ')' :: r) with
  | none => rfl
  | some m =>
    rw [Option.map_some, Option.map_some, List.drop_append_of_le_length (hbound m hm),
      List.drop_append_of_le_length (hbound m hm), exponentLength_front]

theorem punctLength?_front (ha : a ≠ []) : punctLength? (a ++ ')' :: r') = punctLength? (a ++ ')' :: r) := by
  obtain ⟨c, a, rfl⟩ := List.exists_cons_of_ne_nil ha
  have hfits (m a : List Char) (hm : ')' ∉ m) : m.isPrefixOf (a ++ ')' :: r') = m.isPrefixOf (a ++ ')' :: r) := by
    induction a generalizing m with
    | nil =>
      cases m with
      | nil => rfl
      | cons d m =>
        have hd : (d == ')') = false := beq_eq_false_iff_ne.mpr fun h => hm (h ▸ List.mem_cons_self)
        simp [List.isPrefixOf, hd]
    | cons c a ih =>
      cases m with
      | nil => rfl
      | cons d m =>
        rw [List.mem_cons, not_or] at hm
        simp [List.isPrefixOf, ih m hm.2]
  have hmarks : ∀ m ∈ marks, m = ")" ∨ ')' ∉ m.toList := by decide
  rw [punctLength?, punctLength?]
  congr 1
  refine List.find?_congr fun m hm => ?_
  rcases hmarks m hm with rfl | hm
  · simp [List.isPrefixOf]
  · exact hfits m.toList (c :: a) hm

/-- The end of a comment is found in front of the parenthesis, or not at all, or behind it. -/
theorem closeLength?_front (hr : closeLength? r = none → closeLength? r' = none) : (b : List Char) →
    closeLength? (b ++ ')' :: r') = closeLength? (b ++ ')' :: r) ∨
      ∃ m, b.length < m ∧ closeLength? (b ++ ')' :: r) = some m
  | [] => by
    cases h : closeLength? r with
    | none => simp [closeLength?, h, hr h]
    | some m => simp [closeLength?, h]
  | [c] => by
    have hstep (x : List Char) : closeLength? ([c] ++ ')' :: x) = (closeLength? (')' :: x)).map (· + 1) := by
      simp [closeLength?]
    rcases closeLength?_front hr [] with h | ⟨m, hm, h⟩
    · exact .inl (by rw [hstep, hstep]; exact congrArg _ h)
    · refine .inr ⟨m + 1, Nat.succ_lt_succ hm, ?_⟩
      rw [hstep]
      exact congrArg (Option.map _) h
  | c :: d :: b => by
    by_cases hcd : c = '*' ∧ d = '/'
    · obtain ⟨rfl, rfl⟩ := hcd
      exact .inl rfl
    · have hstep (x : List Char) : closeLength? (c :: d :: x) = (closeLength? (d :: x)).map (· + 1) := by
        rw [closeLength?]
        rintro _ rfl ⟨⟩
        exact hcd ⟨rfl, rfl⟩
      simp only [List.cons_append, hstep]
      rcases closeLength?_front hr (d :: b) with h | ⟨m, hm, h⟩
      · exact .inl (congrArg _ h)
      · exact .inr ⟨m + 1, Nat.succ_lt_succ hm, congrArg (Option.map _) h⟩

theorem commentLength?_front (ha : a ≠ []) (hr : closeLength? r = none → closeLength? r' = none) :
    commentLength? (a ++ ')' :: r') = commentLength? (a ++ ')' :: r) ∨
      ∃ m, a.length < m ∧ commentLength? (a ++ ')' :: r) = some m := by
  match a, ha with
  | [c], _ => exact .inl (by simp [commentLength?])
  | c :: d :: b, _ =>
    by_cases hc : c = '/'
    · subst hc
      by_cases hslash : d = '/'
      · subst hslash
        by_cases hb : (b.takeWhile (· ≠ '\n')).length = b.length
        · refine .inr ⟨2 + ((b ++ ')' :: r).takeWhile (· ≠ '\n')).length, ?_, rfl⟩
          rw [List.takeWhile_append, if_pos hb, List.length_append, List.takeWhile_cons_of_pos (by decide)]
          simp only [List.length_cons]
          omega
        · exact .inl (by simp only [commentLength?, List.cons_append, List.takeWhile_append, hb, if_false])
      · by_cases hstar : d = '*'
        · subst hstar
          rcases closeLength?_front hr b with h | ⟨m, hm, h⟩
          · exact .inl (by simp [commentLength?, h])
          · exact .inr ⟨m + 2, by simpa using hm, by simp [commentLength?, h]⟩
        · exact .inl (by simp [commentLength?, hslash, hstar])
    · exact .inl (by simp [commentLength?, hc])

theorem stringRest?_cons {q : Char} (hc : c ≠ '\\') : stringRest? q (c :: cs) =
    if c = q then some 1 else if c = '\n' then none else (stringRest? q cs).map (· + 1) := by
  cases cs <;> simp [stringRest?, hc]

theorem stringRest?_escape {q : Char} :
    stringRest? q ('\\' :: c :: cs) = if c = '\n' then none else (stringRest? q cs).map (· + 2) := by
  rw [stringRest?]

/-- A string that ends in front of the parenthesis. -/
theorem stringRest?_front {q : Char} : (b : List Char) → {m : Nat} → m ≤ b.length →
    stringRest? q (b ++ ')' :: r) = some m → stringRest? q (b ++ ')' :: r') = some m
  | [], m, hm, h => by
    rw [List.nil_append, stringRest?_cons (by decide)] at h
    split at h
    · cases h
      cases hm
    · obtain ⟨j, -, rfl⟩ := Option.map_eq_some_iff.mp (by simpa using h)
      cases hm
  | c :: b, m, hm, h => by
    by_cases hc : c = '\\'
    · subst hc
      cases b with
      | nil =>
        rw [List.singleton_append, stringRest?_escape, if_neg (by decide)] at h
        obtain ⟨j, -, rfl⟩ := Option.map_eq_some_iff.mp h
        simp at hm
      | cons d b =>
        rw [List.cons_append, List.cons_append, stringRest?_escape] at h ⊢
        split at h
        · cases h
        · next hn =>
          obtain ⟨j, hj, rfl⟩ := Option.map_eq_some_iff.mp h
          rw [if_neg hn, stringRest?_front b (Nat.le_of_succ_le_succ (Nat.le_of_succ_le_succ hm)) hj, Option.map_some]
    · rw [List.cons_append, stringRest?_cons hc] at h ⊢
      split at h
      · next hq => rw [if_pos hq, h]
      · next hq =>
        split at h
        · cases h
        · next hn =>
          obtain ⟨j, hj, rfl⟩ := Option.map_eq_some_iff.mp h
          rw [if_neg hq, if_neg hn, stringRest?_front b (Nat.le_of_succ_le_succ hm) hj, Option.map_some]

theorem stringLength?_front (hn : n ≤ a.length) (h : stringLength? (a ++ ')' :: r) = some n) :
    stringLength? (a ++ ')' :: r') = some n := by
  cases a with
  | nil => cases h
  | cons c a =>
    by_cases hd : c = '"'
    · subst hd
      obtain ⟨j, hj, rfl⟩ := Option.map_eq_some_iff.mp h
      exact Option.map_eq_some_iff.mpr ⟨j, stringRest?_front a (Nat.le_of_succ_le_succ hn) hj, rfl⟩
    · by_cases hs : c = '\''
      · subst hs
        obtain ⟨j, hj, rfl⟩ := Option.map_eq_some_iff.mp h
        exact Option.map_eq_some_iff.mpr ⟨j, stringRest?_front a (Nat.le_of_succ_le_succ hn) hj, rfl⟩
      · rw [List.cons_append, stringLength?_cons hd hs] at h
        cases h

/-- A lexeme in front of the parenthesis does not depend on what stands behind it. -/
theorem lexeme?_front (ha : a ≠ []) (hr : closeLength? r = none → closeLength? r' = none)
    (h : lexeme? (a ++ ')' :: r) = some (k, n)) (hn : n ≤ a.length) : lexeme? (a ++ ')' :: r') = some (k, n) := by
  have hnumber : numberLength? (a ++ ')' :: r') = numberLength? (a ++ ')' :: r) := numberLength?_front ha
  have hpunct : punctLength? (a ++ ')' :: r') = punctLength? (a ++ ')' :: r) := punctLength?_front ha
  obtain ⟨c, a, rfl⟩ := List.exists_cons_of_ne_nil ha
  have hident : identLength? (c :: a ++ ')' :: r') = identLength? (c :: a ++ ')' :: r) := by
    simp [identLength?, runLength_front (p := isNamePart) (by decide)]
  have hspace : whitespaceLength? (c :: a ++ ')' :: r') = whitespaceLength? (c :: a ++ ')' :: r) := by
    simp only [whitespaceLength?, runLength_front (p := isSeparator) (by decide)]
  rw [lexeme?_eq] at h ⊢
  rw [hnumber, hpunct, hident, hspace]
  rcases commentLength?_front ha hr with hcomment | ⟨m, hm, hcomment⟩
  · rw [hcomment]
    cases hc : commentLength? (c :: a ++ ')' :: r) with
    | some m =>
      rw [hc] at h
      simpa using h
    | none =>
      cases hs : stringLength? (c :: a ++ ')' :: r) with
      | some m =>
        rw [hc, hs] at h
        obtain ⟨rfl, rfl⟩ : TokenKind.string = k ∧ m = n := by simpa using h
        rw [stringLength?_front hn hs]
        rfl
      | none =>
        rw [hc, hs] at h
        -- A quote starts nothing but a string.
        have hquote : ∀ q ∈ ['"', '\''], q.isDigit = false ∧ q ≠ '.' ∧ isNameStart q = false ∧ isSeparator q = false ∧
          ∀ m ∈ marks, m.toList.head? ≠ none ∧ m.toList.head? ≠ some q := by
          simp only [List.mem_cons, List.not_mem_nil, or_false, forall_eq_or_imp, forall_eq]
          decide
        have hc : c ∉ ['"', '\''] := by
          intro hc
          obtain ⟨hdigit, hpoint, hname, hsep, hmark⟩ := hquote c hc
          rw [List.cons_append, numberLength?_cons hdigit hpoint, punctLength?_cons hmark] at h
          simp [identLength?, whitespaceLength?, runLength, hname, hsep] at h
        simp only [List.mem_cons, List.not_mem_nil, or_false, not_or] at hc
        rw [List.cons_append, stringLength?_cons hc.1 hc.2]
        exact h
  · rw [hcomment] at h
    obtain ⟨-, rfl⟩ : TokenKind.comment = k ∧ m = n := by simpa using h
    exact absurd hn (Nat.not_le.mpr hm)

end Front

/-! ## The tokens of a text -/

theorem closeLength?_of_cons (h : closeLength? (c :: cs) = none) : closeLength? cs = none := by
  unfold closeLength? at h
  split at h
  · cases h
  · next heq =>
    cases heq
    exact Option.map_eq_none_iff.mp h
  · next heq => cases heq

theorem closeLength?_of_append {a : List Char} (h : closeLength? (a ++ cs) = none) : closeLength? cs = none := by
  induction a with
  | nil => exact h
  | cons c a ih => exact ih (closeLength?_of_cons h)

theorem closeLength?_separators {wide : List Char} (hs : ∀ c ∈ wide, isSeparator c = true)
    (h : closeLength? cs = none) : closeLength? (wide ++ cs) = none := by
  induction wide with
  | nil => exact h
  | cons c wide ih =>
    rw [List.forall_mem_cons] at hs
    rw [List.cons_append, closeLength?, ih hs.2, Option.map_none]
    rintro _ rfl
    exact absurd hs.1 (by decide)

/-- The tokens of a text that stands at a position. -/
inductive Lexes : Position → List Char → List Token → Prop where
  | nil {pos : Position} : Lexes pos [] [⟨.eof, "", pos⟩]
  | cons {pos : Position} {cs : List Char} {k : TokenKind} {n : Nat} {ts : List Token}
      (h : lexeme? cs = some (k, n)) (hs : Lexes (pos.advance (cs.take n)) (cs.drop n) ts) :
      Lexes pos cs (⟨k, String.ofList (cs.take n), pos⟩ :: ts)

theorem lexes_of_tokensWith {fuel : Nat} (h : tokensWith fuel pos cs = .ok ts) : Lexes pos cs ts := by
  fun_induction tokensWith fuel pos cs generalizing ts with
  | case1 =>
    cases h
    exact .nil
  | case2 => cases h
  | case3 => cases h
  | case4 fuel pos cs _ k n hn text =>
    rename_i ih
    cases hrest : tokensWith fuel (pos.advance text) (cs.drop n) with
    | error e => simp [hrest, bind, Except.bind] at h
    | ok rest =>
      obtain rfl : ⟨k, String.ofList text, pos⟩ :: rest = ts := by
        simpa [hrest, bind, Except.bind, pure, Except.pure] using h
      exact .cons hn (ih hrest)

theorem tokensWith_of_lexes (h : Lexes pos cs ts) {fuel : Nat} (hf : cs.length ≤ fuel) :
    tokensWith fuel pos cs = .ok ts := by
  induction h generalizing fuel with
  | nil => cases fuel <;> rfl
  | @cons pos cs k n ts hn hs ih =>
    obtain ⟨c, cs, rfl⟩ : ∃ c cs', cs = c :: cs' := by
      cases cs with
      | nil => cases hn
      | cons c cs => exact ⟨c, cs, rfl⟩
    have hpos := (lexeme?_pos hn).1
    cases fuel with
    | zero => simp at hf
    | succ fuel =>
      have hlen : ((c :: cs).drop n).length ≤ fuel := by
        simp only [List.length_drop, List.length_cons] at hf ⊢
        omega
      simp only [tokensWith, hn, ih hlen]
      rfl

theorem tokens_eq_ok {file source : String} : tokens file source = .ok ts ↔ Lexes (.start file) source.toList ts :=
  ⟨lexes_of_tokensWith, fun h => tokensWith_of_lexes h (Nat.le_refl _)⟩

namespace Lexes

open Token (chars chars_cons)

/-- The tokens spell the text. -/
theorem spells (h : Lexes pos cs ts) : chars ts = cs := by
  induction h with
  | nil => rfl
  | cons _ _ ih => simp [ih]

theorem lexed (h : Lexes pos cs ts) : ∀ t ∈ ts, t.Lexed := by
  induction h with
  | nil =>
    intro t ht
    rw [List.mem_singleton.mp ht]
    exact ⟨by simp, by simp⟩
  | @cons pos cs k n ts hn hs ih =>
    -- The first character of a token is that of the text which it is read from, and it fixes the kind.
    have hfirst {texts : List String} (firsts : List Char) (hx : ∀ x ∈ texts, x.toList.head?.any firsts.contains = true)
        (ht : String.ofList (cs.take n) ∈ texts) : ∃ c ∈ firsts, ∃ cs', cs = c :: cs' := by
      obtain ⟨c, hhead, hc⟩ := Option.any_eq_true _ _ |>.mp (hx _ ht)
      rw [String.toList_ofList] at hhead
      refine ⟨c, List.contains_iff_mem.mp hc, cs.tail, ?_⟩
      cases cs with
      | nil => simp at hhead
      | cons d cs =>
        cases n with
        | zero => simp at hhead
        | succ n => simpa using hhead
    rw [List.forall_mem_cons]
    refine ⟨⟨fun ht => ?_, fun ht => ?_⟩, ih⟩
    · obtain ⟨c, hc, cs, rfl⟩ := hfirst ['+', '-', ')', ']', '\x7d'] (by decide) ht
      exact lexeme?_punct hc hn
    · obtain ⟨c, hc, cs, rfl⟩ := hfirst ['t', 'n', 'f'] (by decide) ht
      have hstart := List.all_eq_true.mp (show ['t', 'n', 'f'].all isNameStart = true by decide)
      exact (Prod.mk.inj (Option.some.inj (hn.symm.trans (lexeme?_word (hstart c hc))))).1

/-- Each token stands where the tokens in front of it end. -/
theorem suffix {pre : List Token} (h : Lexes pos cs (pre ++ ts)) (hs : ts ≠ []) :
    ∃ r, cs = chars pre ++ r ∧ Lexes (pos.advance (chars pre)) r ts := by
  induction pre generalizing pos cs with
  | nil => exact ⟨cs, rfl, h⟩
  | cons t pre ih =>
    rw [List.cons_append] at h
    generalize hall : pre ++ ts = all at h
    cases h with
    | nil => exact absurd (List.append_eq_nil_iff.mp hall).2 hs
    | @cons _ _ k n _ _ h =>
      obtain ⟨r, hr, hlexes⟩ := ih (hall ▸ h)
      refine ⟨r, ?_, ?_⟩
      · rw [chars_cons, List.append_assoc, ← hr, String.toList_ofList, List.take_append_drop]
      · rw [chars_cons, String.toList_ofList, Position.advance_append]
        exact hlexes

/-- The tokens in front of a closing parenthesis do not depend on what stands behind it. -/
theorem replace {pre : List Token} {close : Token} {r r' : List Char} {rest : List Token}
    (h : Lexes pos cs (pre ++ close :: ts)) (hc : close.isPunct ")" = true)
    (hcs : cs = chars pre ++ ')' :: r) (hr : closeLength? r = none → closeLength? r' = none)
    (hrest : Lexes (pos.advance (chars pre ++ [')'])) r' rest) :
    Lexes pos (chars pre ++ ')' :: r') (pre ++ close :: rest) := by
  induction pre generalizing pos cs with
  | nil =>
    have hclose : lexeme? (')' :: r') = some (.punct, 1) := by
      rw [lexeme?_mark (by decide)]
      simp [punctLength?, marks, List.isPrefixOf, show ")".length = 1 from rfl]
    obtain ⟨hkind, htext⟩ : close.kind = .punct ∧ close.text = ")" := by simpa [Token.isPunct] using hc
    have hpos : close.pos = pos := by cases h <;> rfl
    obtain rfl : close = ⟨.punct, ")", pos⟩ := by
      rw [← hkind, ← htext, ← hpos]
    exact .cons hclose hrest
  | cons t pre ih =>
    rw [List.cons_append] at h
    generalize hall : pre ++ close :: ts = all at h
    cases h with
    | nil => simp at hall
    | @cons _ _ k n _ hn h =>
      rw [chars_cons, String.toList_ofList] at hcs hrest ⊢
      have hdrop : cs.drop n = chars pre ++ ')' :: r := by
        rw [List.append_assoc] at hcs
        exact List.append_cancel_left ((List.take_append_drop n cs).trans hcs)
      have hlength : (cs.take n).length = n := by
        refine List.length_take_of_le (Nat.le_of_not_le fun hle => ?_)
        rw [List.drop_of_length_le hle] at hdrop
        simp at hdrop
      have hne : cs.take n ++ chars pre ≠ [] := by
        have hpos := (lexeme?_pos hn).1
        rw [← hlength] at hpos
        exact List.append_ne_nil_of_left_ne_nil (List.ne_nil_of_length_pos hpos) _
      have hfront := lexeme?_front hne hr (hcs ▸ hn) (by simp [hlength])
      generalize cs.take n = a at *
      subst hlength
      rw [List.append_assoc] at hfront ⊢
      have hnext := ih (hall ▸ h) hdrop (by simpa [Position.advance_append] using hrest)
      have hcons : Lexes pos _ (_ :: (pre ++ close :: rest)) := .cons hfront (by simpa using hnext)
      simpa using hcons

theorem pos_eq (h : Lexes pos cs (t :: ts)) : t.pos = pos := by
  cases h <;> rfl

theorem pairwise_before (h : Lexes pos cs ts) :
    ts.Pairwise Token.Before ∧ ∀ t ∈ ts, ∃ mid, t.pos = pos.advance mid := by
  induction h with
  | nil => exact ⟨List.pairwise_singleton _ _, fun t ht => ⟨[], by rw [List.mem_singleton.mp ht]; rfl⟩⟩
  | @cons pos cs k n ts hn _ ih =>
    have hsize : 0 < (String.ofList (cs.take n)).utf8ByteSize := by
      rw [String.utf8ByteSize_ofList, Nat.pos_iff_ne_zero, ne_eq, String.utf8Len_eq_zero, List.take_eq_nil_iff]
      rintro (rfl | rfl)
      · exact absurd (lexeme?_pos hn).1 (Nat.lt_irrefl 0)
      · cases hn
    refine ⟨List.pairwise_cons.mpr ⟨fun t ht => ?_, ih.1⟩, List.forall_mem_cons.mpr ⟨⟨[], rfl⟩, fun t ht => ?_⟩⟩
    · obtain ⟨mid, hmid⟩ := ih.2 t ht
      have hoffset : t.pos.offset = pos.offset + (String.ofList (cs.take n)).utf8ByteSize +
          (String.ofList mid).utf8ByteSize := by
        rw [hmid, Position.offset_advance, Position.offset_advance]
      refine ⟨Nat.lt_add_of_pos_right hsize, hoffset ▸ Nat.le_add_right _ _, fun hline => ?_⟩
      -- A line break between the tokens is a character between them.
      simp only [Token.lineBreakBetween, Token.endLine, String.toList_ofList, hmid, Position.line_advance,
        decide_eq_true_eq, Nat.lt_add_right_iff_pos, List.count_pos_iff] at hline
      rw [hoffset]
      refine Nat.lt_add_of_pos_right (Nat.pos_of_ne_zero fun hzero => ?_)
      rw [String.utf8ByteSize_ofList, String.utf8Len_eq_zero] at hzero
      rw [hzero] at hline
      cases hline
    · obtain ⟨mid, hmid⟩ := ih.2 t ht
      exact ⟨cs.take n ++ mid, by rw [hmid, Position.advance_append]⟩

/-- The same text at another place has the same tokens there. -/
theorem moved {q : Position} {a b : Nat} (h : Lexes pos cs ts) (hq : q.line + a = pos.line + b) :
    ∃ ts', Lexes q cs ts' ∧ List.Forall₂ (Token.Moved a b) ts ts' := by
  induction h generalizing q with
  | nil => exact ⟨_, .nil, .cons ⟨⟨rfl, rfl⟩, hq⟩ .nil⟩
  | @cons pos cs k n ts hn _ ih =>
    obtain ⟨ts', hts', hmoved⟩ := @ih (q.advance (cs.take n)) (by
      rw [Position.line_advance, Position.line_advance]
      omega)
    exact ⟨_, .cons hn hts', .cons ⟨⟨rfl, rfl⟩, hq⟩ hmoved⟩

/-- Separators in front of a token that has none are a token. -/
theorem separated {wide : List Char} (hw : wide ≠ []) (hs : ∀ c ∈ wide, isSeparator c = true)
    (h : Lexes (pos.advance wide) cs (t :: ts)) (ht : t.kind ≠ .whitespace) :
    Lexes pos (wide ++ cs) (⟨.whitespace, String.ofList wide, pos⟩ :: t :: ts) := by
  have hhead : ∀ c ∈ cs.head?, isSeparator c = false := by
    intro c hc
    rw [← Bool.not_eq_true]
    intro hsep
    have hrun : cs.takeWhile isSeparator ≠ [] := by
      cases cs with
      | nil => cases hc
      | cons d cs =>
        cases hc
        simp [hsep]
    have hrest : ∀ c ∈ (cs.dropWhile isSeparator).head?, isSeparator c = false := by
      intro c hc
      have hnot := List.head?_dropWhile_not isSeparator cs
      rw [Option.mem_def.mp hc] at hnot
      exact hnot
    have hlex := lexeme?_separators hrun (fun _ => List.mem_takeWhile_imp) hrest
    rw [List.takeWhile_append_dropWhile] at hlex
    cases h with
    | nil => cases hc
    | cons hn =>
      rw [hn] at hlex
      cases hlex
      exact ht rfl
  have hcons : Lexes pos _ (_ :: t :: ts) := .cons (lexeme?_separators hw hs hhead) (by simpa using h)
  simpa using hcons

/-- Other separators between a closing parenthesis and the next token. -/
theorem respaced {pre blank post : List Token} {close first : Token} {wide : List Char}
    (h : Lexes pos cs (pre ++ close :: (blank ++ first :: post))) (hc : close.isPunct ")" = true)
    (hf : first.kind ≠ .whitespace) (hw : wide ≠ []) (hs : ∀ c ∈ wide, isSeparator c = true) :
    ∃ a b sep first' post', sep.kind = .whitespace ∧
      Lexes pos (chars pre ++ ')' :: (wide ++ chars (first :: post)))
        (pre ++ close :: sep :: first' :: post') ∧
      List.Forall₂ (Token.Moved a b) (first :: post) (first' :: post') ∧
      (close.lineBreakBetween first' = true ↔ '\n' ∈ wide) := by
  have htext : close.text = ")" := by
    simp only [Token.isPunct, Bool.and_eq_true, beq_iff_eq] at hc
    exact hc.2
  have hclose : close.pos = pos.advance (chars pre) := by
    obtain ⟨_, -, h⟩ := h.suffix (by simp)
    exact h.pos_eq
  have hall : Lexes pos cs ((pre ++ close :: blank) ++ first :: post) := by simpa using h
  obtain ⟨r, hcs, hfirst⟩ := hall.suffix (by simp)
  rw [hfirst.spells]
  obtain ⟨_, hlexes, hmoved⟩ := hfirst.moved (Nat.add_comm
    ((pos.advance (chars pre ++ [')'])).advance wide).line _)
  cases hmoved with
  | @cons _ first' _ post' hm hms =>
    have hcs : cs = chars pre ++ ')' :: (chars blank ++ r) := by
      simpa [htext] using hcs
    have hopen (hr : closeLength? (chars blank ++ r) = none) : closeLength? (wide ++ r) = none :=
      closeLength?_separators hs (closeLength?_of_append hr)
    have hsep := separated hw hs hlexes (hm.1.1 ▸ hf)
    refine ⟨_, _, _, first', post', ?_, h.replace hc hcs hopen hsep, .cons hm hms, ?_⟩
    · rfl
    · rw [Token.lineBreakBetween, Token.endLine, hlexes.pos_eq, hclose, htext]
      simp only [Position.line_advance, Position.advance_append]
      simp [List.count_pos_iff]

end Lexes

end Lexer

end ScriptOptimizer
