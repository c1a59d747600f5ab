import ScriptOptimizer.Proofs.LexedTokens
import ScriptOptimizer.Proofs.StatementRuns

/-!
# Inserted semicolons

Line breaks that end a statement are made visible by semicolons. The tokens stay in the order of their
offsets, and what is inserted depends on the neighbouring tokens only: on their kinds and texts and on
whether a line break stands between them. Tokens that all move by the same number of lines are therefore
read as before.
-/

namespace ScriptOptimizer

open Token (Alike Moved)

variable {u u' v : Option Token} {t t' : Token} {ts l s s' : List Token}

/-! ## The end of the tokens -/

/-- Tokens that end with an end token and have no other one. -/
inductive Token.Ended : List Token → Prop where
  | eof {t : Token} (ht : t.kind = .eof) (hl : t.Lexed) : Ended [t]
  | cons {t : Token} {ts : List Token} (ht : t.kind ≠ .eof) (hl : t.Lexed) (hs : Ended ts) : Ended (t :: ts)

namespace Token.Ended

theorem lexed (h : Ended ts) : ∀ t ∈ ts, t.Lexed := by
  induction h with
  | eof _ hl => simpa using hl
  | cons _ hl _ ih => simpa using ⟨hl, ih⟩

theorem eq_nil (h : Ended (s ++ t :: ts)) (ht : t.kind = .eof) : ts = [] := by
  induction s with
  | nil =>
    cases h with
    | eof => rfl
    | cons hne => exact absurd ht hne
  | cons v s ih =>
    rw [List.cons_append] at h
    generalize hr : s ++ t :: ts = r at h
    cases h with
    | eof => simp at hr
    | cons _ _ hs => exact ih (hr ▸ hs)

/-- The tokens that mean something to the grammar. -/
theorem filter (h : Ended ts) : Ended (ts.filter fun t => !t.isTrivia) := by
  induction h with
  | @eof t ht hl =>
    rw [List.filter_cons_of_pos (by simp [isTrivia, ht])]
    exact .eof ht hl
  | @cons t ts ht hl _ ih =>
    rw [List.filter_cons]
    split
    · exact .cons ht hl ih
    · exact ih

theorem of_lexes {pos : Position} {cs : List Char} (h : Lexer.Lexes pos cs ts) : Ended ts := by
  have hlexed := h.lexed
  induction h with
  | nil => exact .eof rfl (hlexed _ List.mem_cons_self)
  | cons hn _ ih =>
    exact .cons (Lexer.lexeme?_pos hn).2 (hlexed _ List.mem_cons_self)
      (ih fun t ht => hlexed t (List.mem_cons_of_mem _ ht))

end Token.Ended

/-! ## What is inserted -/

namespace Scan

/-- The marks by which an update operator is known. -/
theorem isPunct_update (ht : t.Lexed) : (t.isPunct "++" || t.isPunct "--") = t.isUpdate := by
  by_cases hk : t.kind = .punct
  · simp [Token.isPunct, hk, Token.isUpdate]
  · simp [Token.isPunct, hk, ht.isUpdate_eq_false hk]

/-- What is inserted behind a token, if the token may stand where it does. -/
def behind (u : Option Token) (t : Token) (next : Option Token) : Except Failure (List Token) :=
  if t.kind == .ident && !isPropertyName u next then
    match unsupportedWord? t.text with
    | some what => .error ⟨.unsupported what, t.pos⟩
    | none => insertedAfter t next
  else .ok []

/-- What is inserted in front of a token. -/
def inFront (u : Option Token) (t : Token) : List Token :=
  if breaksBefore u t then u.toList.map semicolonAfter else []

theorem insert_cons (u : Option Token) (t : Token) (rest : List Token) : insert u (t :: rest) = do
    let b ← behind u t rest.head?
    let r ← insert (some t) rest
    return inFront u t ++ t :: (b ++ r) := by
  rw [insert]
  dsimp only [behind, inFront]
  cases t.kind == .ident && !isPropertyName u rest.head? with
  | false => rfl
  | true =>
    simp only [if_true]
    cases unsupportedWord? t.text <;> rfl

theorem insert_cons_eq_ok {rest : List Token} : insert u (t :: rest) = .ok ts ↔
    ∃ b r, behind u t rest.head? = .ok b ∧ insert (some t) rest = .ok r ∧ ts = inFront u t ++ t :: (b ++ r) := by
  rw [insert_cons]
  cases behind u t rest.head? <;> cases insert (some t) rest <;>
    simp [bind, Except.bind, pure, Except.pure, eq_comm]

/-- At most one semicolon is inserted behind a token. It stands for a line break behind a word that no
operand ends with. -/
theorem behind_cases {next : Option Token} {b : List Token} (h : behind u t next = .ok b) :
    b = [] ∨ b = [semicolonAfter t] ∧ t.kind = .ident ∧ endsOperand t = false ∧
      ∃ n ∈ next, t.lineBreakBetween n = true := by
  unfold behind at h
  split at h
  · next hword =>
    have hkind : t.kind = .ident := by simpa using (Bool.and_eq_true_iff.mp hword).1
    split at h
    · cases h
    · unfold insertedAfter at h
      split at h
      · cases h
        exact .inl rfl
      · next n =>
        split at h
        · cases h
          exact .inl rfl
        · next hline =>
          split at h
          all_goals cases h
          case h_5 => exact .inl rfl
          all_goals
            next htext =>
              split
              · exact .inl rfl
              · refine .inr ⟨rfl, hkind, ?_, n, rfl, by simpa using hline⟩
                simp [endsOperand, hkind, htext, isReserved, reservedWords]
  · cases h
    exact .inl rfl

/-- At most one semicolon is inserted in front of a token. It stands for a line break behind an operand. -/
theorem inFront_cases (u : Option Token) (t : Token) :
    inFront u t = [] ∧ breaksBefore u t = false ∨
      ∃ v ∈ u, inFront u t = [semicolonAfter v] ∧ (t.kind = .punct ∧ t.isUpdate = true) ∧
        v.lineBreakBetween t = true ∧ endsOperand v = true := by
  unfold inFront
  cases hb : breaksBefore u t with
  | false => exact .inl ⟨rfl, rfl⟩
  | true =>
    rw [breaksBefore, Bool.and_eq_true_iff] at hb
    obtain ⟨v, hv, hends⟩ := Option.any_eq_true _ _ |>.mp hb.2
    have ht : t.kind = .punct ∧ t.isUpdate = true := by
      simpa [Token.isPunct, Token.isUpdate, ← and_or_left] using hb.1
    exact .inr ⟨v, hv, by simp [hv], ht, Bool.and_eq_true_iff.mp hends⟩

/-- What insertion makes of the tokens behind `u`: it keeps each of them, and where a line break stands in front
of it, it may put one semicolon right behind the token before. That token is a word that ends the statement, or an
operand in front of an update operator. -/
inductive Inserted : Option Token → List Token → List Token → Prop where
  | nil {u : Option Token} : Inserted u [] []
  | keep {u : Option Token} {t : Token} {l ts : List Token} (hbreaks : breaksBefore u t = false)
      (hs : Inserted (some t) l ts) : Inserted u (t :: l) (t :: ts)
  | semicolon {v t : Token} {l ts : List Token} (hline : v.lineBreakBetween t = true)
      (hv : v.kind = .ident ∧ endsOperand v = false ∨ t.kind = .punct ∧ t.isUpdate = true)
      (hs : Inserted (some t) l ts) : Inserted (some v) (t :: l) (semicolonAfter v :: t :: ts)

/-- The semicolon behind a word is put in front of the next token. The other rule does not apply there, since no
operand ends with the word. -/
theorem inserted_behind {r b : List Token} (h : insert u l = .ok r)
    (hb : b = [] ∨ ∃ v ∈ u, b = [semicolonAfter v] ∧ v.kind = .ident ∧ endsOperand v = false ∧
      ∃ n ∈ l.head?, v.lineBreakBetween n = true) : Inserted u l (b ++ r) := by
  induction l generalizing u b r with
  | nil =>
    cases h
    rcases hb with rfl | ⟨_, -, -, -, -, _, ⟨⟩, -⟩
    exact .nil
  | cons t rest ih =>
    obtain ⟨b', r, hb', hr, rfl⟩ := insert_cons_eq_ok.mp h
    have hrest := ih hr ((behind_cases hb').imp_right fun h => ⟨t, rfl, h⟩)
    rcases hb with rfl | ⟨v, hv, rfl, hkind, hends, n, hn, hline⟩
    · rcases inFront_cases u t with ⟨hnone, hbreaks⟩ | ⟨v, hv, hsome, ht, hline, -⟩
      · rw [hnone]
        exact .keep hbreaks hrest
      · rw [hsome, Option.mem_def.mp hv]
        exact .semicolon hline (.inr ht) hrest
    · cases hn
      cases hv
      have hnone : inFront (some v) t = [] := by simp [inFront, breaksBefore, hends]
      rw [hnone]
      exact .semicolon hline (.inl ⟨hkind, hends⟩) hrest

theorem inserted_of_insert (h : insert u l = .ok ts) : Inserted u l ts := inserted_behind h (.inl rfl)

@[simp]
theorem isUpdate_semicolonAfter (t : Token) : (semicolonAfter t).isUpdate = false := by
  simp [Token.isUpdate, semicolonAfter]

theorem lexed_semicolonAfter (t : Token) : (semicolonAfter t).Lexed :=
  ⟨by simp [semicolonAfter], by simp [semicolonAfter]⟩

end Scan

namespace Token.Ended

theorem insert (h : Ended l) (hi : Scan.insert u l = .ok ts) : Ended ts := by
  have hts := Scan.inserted_of_insert hi
  clear hi
  induction hts with
  | nil => exact h
  | keep _ hs ih =>
    cases h with
    | eof ht hl =>
      cases hs
      exact .eof ht hl
    | cons ht hl h => exact .cons ht hl (ih h)
  | @semicolon v _ _ _ _ hv hs ih =>
    refine .cons nofun (Scan.lexed_semicolonAfter v) ?_
    cases h with
    | eof ht hl =>
      cases hs
      exact .eof ht hl
    | cons ht hl h => exact .cons ht hl (ih h)

end Token.Ended


/-! ## The places of inserted semicolons -/

namespace Scan

/-- A token is kept or inserted right behind the token in front of it: behind a word that no operand ends with, or
in front of an update operator on a later line. -/
theorem Inserted.mem_or_semicolon {w : Token} (h : Inserted u l ts) (hts : ts = s ++ w :: s') :
    w ∈ l ∨ ∃ x ∈ Token.after u s, w = semicolonAfter x ∧ (x.kind = .ident ∧ endsOperand x = false ∨
      ∃ y, [x, y] <:+: u.toList ++ l ∧ y.isUpdate = true ∧ x.lineBreakBetween y = true) := by
  induction h generalizing s with
  | nil => simp at hts
  | @keep u t l ts _ hs ih =>
    rcases List.cons_eq_append_iff.mp hts with ⟨rfl, hw⟩ | ⟨s, rfl, hrest⟩
    · cases hw
      exact .inl List.mem_cons_self
    · refine (ih hrest).imp (List.mem_cons_of_mem t) ?_
      rintro ⟨x, hx, hw, h⟩
      exact ⟨x, hx, hw, h.imp_right fun ⟨y, hy, h⟩ => ⟨y, hy.trans (List.suffix_append _ _).isInfix, h⟩⟩
  | @semicolon v t l ts hline hv hs ih =>
    rcases List.cons_eq_append_iff.mp hts with ⟨rfl, hw⟩ | ⟨s, rfl, hrest⟩
    · cases hw
      refine .inr ⟨v, rfl, rfl, hv.imp_right fun ht => ⟨t, ?_, ht.2, hline⟩⟩
      exact (List.prefix_append [v, t] l).isInfix
    · rcases List.cons_eq_append_iff.mp hrest with ⟨rfl, hw⟩ | ⟨s, rfl, hbehind⟩
      · cases hw
        exact .inl List.mem_cons_self
      · refine (ih hbehind).imp (List.mem_cons_of_mem t) ?_
        rintro ⟨x, hx, hw, h⟩
        exact ⟨x, hx, hw, h.imp_right fun ⟨y, hy, h⟩ => ⟨y, hy.trans (List.suffix_append [v] _).isInfix, h⟩⟩

end Scan

/-! ## The order of the tokens -/

namespace Scan

/-- The tokens are in the order of their offsets, and behind the token in front of them. -/
theorem Inserted.pairwise (h : Inserted u l ts) (hl : (u.toList ++ l).Pairwise Token.Before) :
    ts.Pairwise (fun v w => v.pos.offset < w.pos.offset) ∧
      ∀ w ∈ ts, ∀ v ∈ u, v.pos.offset < w.pos.offset ∧ v.stop ≤ w.pos.offset := by
  induction h with
  | nil => exact ⟨.nil, nofun⟩
  | @keep u t l ts _ _ ih =>
    obtain ⟨hpairwise, hbound⟩ := ih (hl.sublist (List.sublist_append_right _ _))
    refine ⟨List.pairwise_cons.mpr ⟨fun w hw => (hbound w hw t rfl).1, hpairwise⟩, fun w hw v hv => ?_⟩
    rw [Option.mem_def.mp hv] at hl
    have hbefore : v.Before t := List.rel_of_pairwise_cons hl List.mem_cons_self
    have hle : t.pos.offset ≤ w.pos.offset := by
      rcases List.mem_cons.mp hw with rfl | hw
      · exact Nat.le_refl _
      · exact Nat.le_of_lt (hbound w hw t rfl).1
    have hstop := Nat.le_trans hbefore.stop_le hle
    exact ⟨Nat.lt_of_lt_of_le hbefore.nonempty hstop, hstop⟩
  | @semicolon v t l ts hline _ _ ih =>
    obtain ⟨hpairwise, hbound⟩ := ih (hl.sublist (List.sublist_append_right _ _))
    have hbefore : v.Before t := List.rel_of_pairwise_cons hl List.mem_cons_self
    have hlt : ∀ w ∈ t :: ts, v.stop < w.pos.offset := List.forall_mem_cons.mpr ⟨hbefore.stop_lt hline, fun w hw =>
      Nat.lt_trans (hbefore.stop_lt hline) (hbound w hw t rfl).1⟩
    refine ⟨List.pairwise_cons.mpr ⟨hlt, List.pairwise_cons.mpr ⟨fun w hw => (hbound w hw t rfl).1, hpairwise⟩⟩, ?_⟩
    rintro w hw _ ⟨⟩
    have hstop : v.stop ≤ w.pos.offset := by
      rcases List.mem_cons.mp hw with rfl | hw
      · exact Nat.le_refl _
      · exact Nat.le_of_lt (hlt w hw)
    exact ⟨Nat.lt_of_lt_of_le hbefore.nonempty hstop, hstop⟩

/-- No other token stands at the place of a token. -/
theorem pos_ne (h : (s ++ t :: s').Pairwise (fun v w => v.pos.offset < w.pos.offset)) :
    (∀ w ∈ s, w.pos ≠ t.pos) ∧ ∀ w ∈ s', w.pos ≠ t.pos := by
  have hne {v w : Token} (hlt : v.pos.offset < w.pos.offset) (heq : v.pos = w.pos) : False := by
    rw [heq] at hlt
    exact Nat.lt_irrefl _ hlt
  obtain ⟨-, hbehind, hcross⟩ := List.pairwise_append.mp h
  exact ⟨fun w hw => hne (hcross w hw t List.mem_cons_self),
    fun w hw heq => hne (List.rel_of_pairwise_cons hbehind hw) heq.symm⟩

/-! ## Tokens behind a closing parenthesis -/

theorem endsOperand_of_isPunct (h : t.isPunct ")" = true) : endsOperand t = true := by
  have hkind := (Bool.and_eq_true_iff.mp h).1
  simp [endsOperand, eq_of_beq hkind, h]

/-- What is inserted in front of a mark does not depend on what stands behind it. -/
theorem insert_split {rest : List Token} (ht : t.kind = .punct) (h : insert u (l ++ t :: rest) = .ok ts) :
    ∃ s r, insert (some t) rest = .ok r ∧ ts = s ++ t :: r ∧
      ∀ rest' r', insert (some t) rest' = .ok r' → insert u (l ++ t :: rest') = .ok (s ++ t :: r') := by
  induction l generalizing u ts with
  | nil =>
    obtain ⟨b, r, hb, hr, rfl⟩ := insert_cons_eq_ok.mp h
    have hnone (next : Option Token) : behind u t next = .ok [] := by simp [behind, ht]
    rw [hnone] at hb
    cases hb
    exact ⟨inFront u t, r, hr, rfl, fun rest' r' hr' => insert_cons_eq_ok.mpr ⟨[], r', hnone _, hr', rfl⟩⟩
  | cons v l ih =>
    obtain ⟨b, r, hb, hr, rfl⟩ := insert_cons_eq_ok.mp h
    obtain ⟨s, r, hrest, rfl, hother⟩ := ih hr
    refine ⟨inFront u v ++ v :: (b ++ s), r, hrest, by simp, fun rest' r' hr' => ?_⟩
    refine insert_cons_eq_ok.mpr ⟨b, s ++ t :: r', ?_, hother rest' r' hr', by simp⟩
    cases l <;> exact hb

/-! ## Tokens that move -/

section Moved
variable {a b : Nat} {x x' : Token} {next next' : Option Token} {l' : List Token}

theorem lineBreakBetween_moved (ht : Moved a b t t') (hx : Moved a b x x') :
    t'.lineBreakBetween x' = t.lineBreakBetween x := by
  rw [Token.lineBreakBetween, Token.lineBreakBetween, Token.endLine, Token.endLine, ht.1.2, decide_eq_decide]
  have := ht.2
  have := hx.2
  omega

theorem endsOperand_same (ht : t.Same t') : endsOperand t' = endsOperand t := by
  simp only [endsOperand, Token.isPunct, ht.1, ht.2]

theorem moved_semicolonAfter (ht : Moved a b t t') : Moved a b (semicolonAfter t) (semicolonAfter t') :=
  ⟨⟨rfl, rfl⟩, ht.2⟩

theorem inFront_moved (ht : Moved a b t t') (hx : Moved a b x x') :
    List.Forall₂ (Moved a b) (inFront (some t) x) (inFront (some t') x') := by
  have hbreaks : breaksBefore (some t') x' = breaksBefore (some t) x := by
    simp only [breaksBefore, Token.isPunct, hx.1.1, hx.1.2, Option.any_some, lineBreakBetween_moved ht hx,
      endsOperand_same ht.1]
  rw [inFront, inFront, hbreaks]
  split
  · exact .cons (moved_semicolonAfter ht) .nil
  · exact .nil

theorem insertedAfter_moved (ht : Moved a b t t') (hn : Option.Rel (Moved a b) next next') {y : List Token}
    (h : insertedAfter t next = .ok y) : ∃ y', insertedAfter t' next' = .ok y' ∧ List.Forall₂ (Moved a b) y y' := by
  cases hn with
  | none =>
    cases h
    exact ⟨[], rfl, .nil⟩
  | @some n n' hm =>
    have hpunct : n'.isPunct ";" = n.isPunct ";" := by rw [Token.isPunct, Token.isPunct, hm.1.1, hm.1.2]
    simp only [insertedAfter, lineBreakBetween_moved ht hm, ht.1.2, hpunct] at h ⊢
    split at h
    · next hline =>
      cases h
      exact ⟨[], if_pos hline, .nil⟩
    · next hline =>
      rw [if_neg hline]
      split at h
      all_goals cases h
      case h_5 => exact ⟨_, rfl, .nil⟩
      all_goals
        refine ⟨_, rfl, ?_⟩
        split
        · exact .nil
        · exact .cons (moved_semicolonAfter ht) .nil

theorem behind_moved (hu : Option.Rel Token.Same u u') (ht : Moved a b t t') (hn : Option.Rel (Moved a b) next next')
    {y : List Token} (h : behind u t next = .ok y) :
    ∃ y', behind u' t' next' = .ok y' ∧ List.Forall₂ (Moved a b) y y' := by
  have hproperty : isPropertyName u' next' = isPropertyName u next := by
    cases hu with
    | none => rfl
    | some hs =>
      cases hn with
      | none => simp [isPropertyName, Token.isPunct, hs.1, hs.2]
      | some hm => simp [isPropertyName, Token.isPunct, hs.1, hs.2, hm.1.1, hm.1.2]
  rw [behind] at h ⊢
  rw [ht.1.1, ht.1.2, hproperty]
  split at h
  · next hword =>
    rw [if_pos hword]
    split at h
    · cases h
    · exact insertedAfter_moved ht hn h
  · next hword =>
    cases h
    exact ⟨[], if_neg hword, .nil⟩

theorem rel_head? (hl : List.Forall₂ (Moved a b) l l') : Option.Rel (Moved a b) l.head? l'.head? := by
  cases hl with
  | nil => exact .none
  | cons hx _ => exact .some hx

theorem insert_moved (ht : Moved a b t t') (hl : List.Forall₂ (Moved a b) l l') (h : insert (some t) l = .ok ts) :
    ∃ ts', insert (some t') l' = .ok ts' ∧ List.Forall₂ (Moved a b) ts ts' := by
  induction hl generalizing t t' ts with
  | nil =>
    cases h
    exact ⟨[], rfl, .nil⟩
  | @cons x x' l l' hx hl ih =>
    obtain ⟨y, r, hy, hr, rfl⟩ := insert_cons_eq_ok.mp h
    obtain ⟨y', hy', hmoved⟩ := behind_moved (.some ht.1) hx (rel_head? hl) hy
    obtain ⟨r', hr', hrest⟩ := ih hx hr
    refine ⟨_, insert_cons_eq_ok.mpr ⟨y', r', hy', hr', rfl⟩, ?_⟩
    exact List.rel_append (inFront_moved ht hx) (.cons hx (List.rel_append hmoved hrest))

end Moved

end Scan

/-! ## The tokens that the grammar sees -/

/-- Tokens behind the same ones. -/
theorem Token.Alike.append_left {bad : Position} {ts' : List Token} (hs : ∀ t ∈ s, t.Lexed)
    (h : Alike bad (after u s) (after u s) ts ts') : Alike bad u u (s ++ ts) (s ++ ts') := by
  induction s generalizing u with
  | nil => exact h
  | cons t s ih =>
    rw [List.forall_mem_cons] at hs
    refine .cons ⟨rfl, rfl⟩ hs.1 (fun _ v hv w hw => ?_) (ih hs.2 h)
    rw [Option.mem_unique hv hw]

theorem Token.Alike.refl {bad : Position} (h : ∀ t ∈ ts, t.Lexed) : Alike bad u u ts ts := by
  simpa using append_left h (.nil : Alike bad _ _ [] [])

theorem Token.Alike.of_moved {bad : Position} {a b : Nat} {ts' : List Token} (h : List.Forall₂ (Moved a b) ts ts')
    (hl : ∀ x ∈ ts, x.Lexed) (ht : Moved a b t t') : Alike bad (some t) (some t') ts ts' := by
  induction h generalizing t t' with
  | nil => exact .nil
  | cons hx _ ih =>
    rw [List.forall_mem_cons] at hl
    refine .cons hx.1 hl.1 ?_ (ih hl.2 hx)
    rintro - _ ⟨⟩ _ ⟨⟩
    exact Scan.lineBreakBetween_moved ht hx

/-- The tokens of a source that mean something to the grammar. -/
def significant (all : List Token) : List Token := all.filter fun t => !t.isTrivia

theorem Script.parse_eq {file source : String} {all : List Token} (hall : Lexer.tokens file source = .ok all)
    (hts : Scan.insert none (significant all) = .ok ts) : Script.parse file source = Grammar.ofTokens ts := by
  rw [Script.parse, Scan.scan, hall]
  show (Scan.insert none (significant all) >>= Grammar.ofTokens) = _
  rw [hts]
  rfl

theorem Script.parse_eq_ok {file source : String} {all : List Token} {x : Script}
    (hall : Lexer.tokens file source = .ok all) (hx : Script.parse file source = .ok x) :
    ∃ ts, Scan.insert none (significant all) = .ok ts ∧ Grammar.ofTokens ts = .ok x := by
  cases hts : Scan.insert none (significant all) with
  | ok ts => exact ⟨ts, rfl, (parse_eq hall hts).symm.trans hx⟩
  | error e =>
    rw [Script.parse, Scan.scan, hall] at hx
    change (Scan.insert none (significant all) >>= Grammar.ofTokens) = _ at hx
    rw [hts] at hx
    cases hx

/-- The marks of a tree are aligned with its tokens. -/
theorem Grammar.aligned_of_ofTokens {x : Script} (h : Token.Ended ts) (hx : ofTokens ts = .ok x) :
    Aligned none none ts (stmtMarks x.body) := by
  obtain ⟨⟨s, e, rest, rfl, he, haligned, -⟩, -⟩ := ofTokens_alike
    (Alike.refl h.lexed : Alike default none none ts ts) hx
  obtain rfl := h.eq_nil he
  have hplain : e.isUpdate = false := (h.lexed e (by simp)).isUpdate_eq_false (by simp [he])
  simpa using haligned.append (fun _ => rfl) (.plain hplain .nil)

end ScriptOptimizer
