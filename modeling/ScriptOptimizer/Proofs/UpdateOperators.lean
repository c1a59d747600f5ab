import ScriptOptimizer.Proofs.InsertedSemicolons

/-!
# Update operators and line breaks

The updates of a tree come one by one from the update operators of its source. A line break in front of an
operator ends the statement if an operand may end there, so an operator behind its target stands on the
line on which the token in front of it ends. The exception is a property name that is spelled like a
reserved word: no operand is taken to end with it.
-/

namespace ScriptOptimizer

open Token (Alike)

variable {u v : Option Token} {t : Token} {ts l s s1 s2 : List Token} {ms : List Mark} {k : Option Bool}

/-! ## Operators of tokens and of trees -/

/-- The update operators among the tokens behind `u`, each with the token in front of it. -/
def Token.operators (u : Option Token) : List Token → List (Option Token × Token)
  | [] => []
  | t :: ts => if t.isUpdate then (u, t) :: operators (some t) ts else operators (some t) ts

theorem Token.operators_append (s1 s2 : List Token) (u : Option Token) :
    operators u (s1 ++ s2) = operators u s1 ++ operators (after u s1) s2 := by
  induction s1 generalizing u with
  | nil => rfl
  | cons t s1 ih =>
    simp only [List.cons_append, operators, after]
    split <;> simp [ih]

theorem Token.mem_operators {p : Option Token × Token} (h : p ∈ operators u s) : p.2 ∈ s ∧ p.2.isUpdate = true := by
  induction s generalizing u with
  | nil => cases h
  | cons t s ih =>
    rw [operators] at h
    split at h
    · next ht =>
      rcases List.mem_cons.mp h with rfl | h
      · exact ⟨List.mem_cons_self, ht⟩
      · exact (ih h).imp_left (List.mem_cons_of_mem _)
    · exact (ih h).imp_left (List.mem_cons_of_mem _)

def Mark.isUpdate : Mark → Bool
  | .update .. => true
  | .start .. => false

/-- Whether a mark is that of an update with its operator behind the target. -/
def Mark.isPostfix : Mark → Bool
  | .update _ inFront _ => !inFront
  | .start .. => false

/-- The updates of a script in the order of the source. -/
def Script.updates (x : Script) : List Mark := (stmtMarks x.body).filter Mark.isUpdate

/-- An update of a tree and an operator that it can come from. -/
structure Mark.ComesFrom (m : Mark) (p : Option Token × Token) : Prop where
  op : ∃ inFront leads, m = .update (.ofSymbol p.2.text) inFront leads
  ends : m.isPostfix = true → EndsExpr p.1
  opens (inFront : Bool) (op : UpdateOp) (h : m = .update op inFront true) : OpensExpr p.1

theorem Aligned.updates (h : Aligned k u s ms) :
    List.Forall₂ Mark.ComesFrom (ms.filter Mark.isUpdate) (Token.operators u s) := by
  induction h with
  | nil => exact .nil
  | plain ht _ ih =>
    rw [Token.operators, if_neg (Bool.eq_false_iff.mp ht)]
    exact ih
  | @update k u t ts ms i l ht hi hk hl _ ih =>
    rw [Token.operators, if_pos ht, List.filter_cons_of_pos rfl]
    refine .cons ⟨⟨i, l, rfl⟩, fun hpost => hi (by simpa [Mark.isPostfix] using hpost), ?_⟩ ih
    rintro _ _ ⟨⟩
    exact hl rfl
  | start b hb _ ih =>
    rw [List.filter_cons_of_neg (by simp [Mark.isUpdate])]
    exact ih

/-! ## Semicolon insertion -/

namespace Scan

/-- A token that was inserted. -/
def IsInserted (u : Option Token) : Prop := ∃ v ∈ u, v.isPunct ";" = true

theorem not_endsExpr_of_isInserted (h : IsInserted u) : ¬ EndsExpr u := by
  rintro ⟨v, hv, he⟩
  obtain ⟨w, hw, hs⟩ := h
  obtain rfl := Option.mem_unique hv hw
  simp only [Token.isPunct, Bool.and_eq_true, beq_iff_eq] at hs
  rcases he with he | he
  · rw [hs.1] at he
    cases he
  · simp [endsOperand, hs.1, Token.isPunct, hs.2] at he

/-- An operator behind insertion and as it was before. Where no semicolon stands in front of it, no line
break ends the statement there. -/
def Keeps (p q : Option Token × Token) : Prop :=
  p.2 = q.2 ∧ (p.1 = q.1 ∧ breaksBefore q.1 q.2 = false ∨ IsInserted p.1)

theorem Inserted.operators (h : Inserted u l ts) : List.Forall₂ Keeps (Token.operators u ts) (Token.operators u l) := by
  induction h with
  | nil => exact .nil
  | keep hbreaks _ ih =>
    rw [Token.operators, Token.operators]
    split
    · exact .cons ⟨rfl, .inl ⟨rfl, hbreaks⟩⟩ ih
    · exact ih
  | @semicolon v _ _ _ _ _ _ ih =>
    rw [Token.operators, if_neg (by simp), Token.operators, Token.operators]
    split
    · exact .cons ⟨rfl, .inr ⟨_, rfl, by simp [Token.isPunct, semicolonAfter]⟩⟩ ih
    · exact ih

end Scan

/-! ## Lines of operators -/

/-- An operator starts on the line on which the token in front of it ends. -/
def OnLine (p : Option Token × Token) : Prop := ∀ v ∈ p.1, v.lineBreakBetween p.2 = false

/-- An operator stands on a later line than a reserved word in front of it that is no value. -/
def BehindWord (p : Option Token × Token) : Prop :=
  ∃ v ∈ p.1, (v.kind = .ident ∧ Scan.endsOperand v = false) ∧ v.lineBreakBetween p.2 = true

instance (p : Option Token × Token) : Decidable (OnLine p) :=
  inferInstanceAs (Decidable (∀ v ∈ p.1, v.lineBreakBetween p.2 = false))

instance (p : Option Token × Token) : Decidable (BehindWord p) :=
  inferInstanceAs (Decidable (∃ v ∈ p.1, (v.kind = .ident ∧ Scan.endsOperand v = false) ∧
    v.lineBreakBetween p.2 = true))

/-- An update comes from an operator of the source, and one behind its target stands on the line of the
token in front of it unless this is a reserved word. -/
def Mark.IsFrom (m : Mark) (p : Option Token × Token) : Prop :=
  (∃ inFront leads, m = .update (.ofSymbol p.2.text) inFront leads) ∧
    (m.isPostfix = true → OnLine p ∨ BehindWord p)

theorem Mark.ComesFrom.isFrom {m : Mark} {p q : Option Token × Token} (hm : m.ComesFrom p) (hp : Scan.Keeps p q)
    (hq : q.2.isUpdate = true) (hl : q.2.Lexed) : m.IsFrom q := by
  refine ⟨hp.1 ▸ hm.op, fun hpost => ?_⟩
  have hends := hm.ends hpost
  obtain ⟨heq, hbreaks⟩ : p.1 = q.1 ∧ Scan.breaksBefore q.1 q.2 = false :=
    hp.2.resolve_right fun h => Scan.not_endsExpr_of_isInserted h hends
  rw [heq] at hends
  obtain ⟨v, hv, he⟩ := hends
  cases hline : v.lineBreakBetween q.2 with
  | false => exact .inl fun w hw => Option.mem_unique hv hw ▸ hline
  | true =>
    have hends : Scan.endsOperand v = false := by
      simpa [Scan.breaksBefore, Scan.isPunct_update hl, hq, Option.mem_def.mp hv, hline] using hbreaks
    exact .inr ⟨v, hv, ⟨he.resolve_right (by simp [hends]), hends⟩, hline⟩

theorem isFrom_operators {file source : String} {all : List Token} {x : Script}
    (hall : Lexer.tokens file source = .ok all) (hx : Script.parse file source = .ok x) :
    List.Forall₂ Mark.IsFrom x.updates (Token.operators none (significant all)) := by
  obtain ⟨ts, hts, hx⟩ := Script.parse_eq_ok hall hx
  have hended : Token.Ended (significant all) := (Token.Ended.of_lexes (Lexer.tokens_eq_ok.mp hall)).filter
  have hups := (Grammar.aligned_of_ofTokens (hended.insert hts) hx).updates
  have hkeeps := (Scan.inserted_of_insert hts).operators
  have hmem (q : Option Token × Token) (hq : q ∈ Token.operators none (significant all)) :=
    (Token.mem_operators hq).imp_left (hended.lexed _)
  -- The updates come from the operators behind insertion, which are those of the source.
  generalize Token.operators none (significant all) = qs at hkeeps hmem ⊢
  show List.Forall₂ _ ((stmtMarks x.body).filter Mark.isUpdate) qs
  generalize (stmtMarks x.body).filter Mark.isUpdate = ms, Token.operators none ts = ps at hups hkeeps ⊢
  induction hups generalizing qs with
  | nil =>
    cases hkeeps
    exact .nil
  | cons hm _ ih =>
    cases hkeeps with
    | cons hp hps =>
      obtain ⟨hq, hqs⟩ := List.forall_mem_cons.mp hmem
      exact .cons (hm.isFrom hp hq.2 hq.1) (ih _ hqs hps)

/-- The updates of a tree come from the operators of its source. All updates with the operator behind the
target are on the line of the token in front of the operator exactly if none of them is behind a reserved
word on an earlier line. -/
theorem Script.postfix_onLine_iff {file source : String} {all : List Token} {x : Script}
    (hall : Lexer.tokens file source = .ok all) (hx : Script.parse file source = .ok x) :
    List.Forall₂ (fun m p => ∃ inFront leads, m = Mark.update (.ofSymbol p.2.text) inFront leads) x.updates
        (Token.operators none (significant all)) ∧
      ((∀ y ∈ x.updates.zip (Token.operators none (significant all)), y.1.isPostfix = true → OnLine y.2) ↔
        ∀ y ∈ x.updates.zip (Token.operators none (significant all)), y.1.isPostfix = true → ¬ BehindWord y.2) := by
  have hfrom := isFrom_operators hall hx
  refine ⟨hfrom.imp fun _ _ h => h.1, ?_, ?_⟩
  · rintro h y hy hpost ⟨v, hv, -, hline⟩
    rw [h y hy hpost v hv] at hline
    cases hline
  · intro h y hy hpost
    exact ((List.forall₂_iff_zip.mp hfrom).2 hy |>.2 hpost).resolve_right (h y hy hpost)

theorem exists_of_updates (source : String) (ys : List (Mark × Option Token × Token))
    (h : (Lexer.tokens "" source).toOption.any (fun all => (Script.parse "" source).toOption.any fun x =>
      x.updates.zip (Token.operators none (significant all)) = ys) = true) :
    ∃ all x, Lexer.tokens "" source = .ok all ∧ Script.parse "" source = .ok x ∧
      x.updates.zip (Token.operators none (significant all)) = ys := by
  obtain ⟨all, hall, h⟩ := exists_ok h
  obtain ⟨x, hx, h⟩ := exists_ok h
  exact ⟨all, x, hall, hx, of_decide_eq_true h⟩

/-- A line break ends the statement behind an operand; an operator on the line of its target does not. -/
theorem Script.postfix_onLine_operands : ∃ all x, Lexer.tokens "" "a\n++\nb--" = .ok all ∧
    Script.parse "" "a\n++\nb--" = .ok x ∧ x.updates = [.update .increment true false, .update .decrement false false] ∧
    ∀ y ∈ x.updates.zip (Token.operators none (significant all)), y.1.isPostfix = true → OnLine y.2 := by
  obtain ⟨all, x, hall, hx, hzip⟩ := exists_of_updates "a\n++\nb--"
    [(.update .increment true false, some ⟨.ident, "a", ⟨"", 0, 1, 1⟩⟩, ⟨.punct, "++", ⟨"", 2, 2, 1⟩⟩),
      (.update .decrement false false, some ⟨.ident, "b", ⟨"", 5, 3, 1⟩⟩, ⟨.punct, "--", ⟨"", 6, 3, 2⟩⟩)]
    (by decide +kernel)
  have hfrom := Script.postfix_onLine_iff hall hx
  refine ⟨all, x, hall, hx, ?_, hfrom.2.mpr ?_⟩
  · have hmap := congrArg (List.map Prod.fst) hzip
    rwa [List.map_fst_zip hfrom.1.length_eq.le] at hmap
  · rw [hzip]
    decide

/-- An operator behind a property name that is spelled like a reserved word is taken to be behind its target
although a line break stands in front of it. -/
theorem Script.postfix_behindWord : ∃ all x, Lexer.tokens "" "a.if\n++\nb" = .ok all ∧
    Script.parse "" "a.if\n++\nb" = .ok x ∧
    ∃ y ∈ x.updates.zip (Token.operators none (significant all)), y.1.isPostfix = true ∧ ¬ OnLine y.2 := by
  obtain ⟨all, x, hall, hx, hzip⟩ := exists_of_updates "a.if\n++\nb"
    [(.update .increment false false, some ⟨.ident, "if", ⟨"", 2, 1, 3⟩⟩, ⟨.punct, "++", ⟨"", 5, 2, 1⟩⟩)]
    (by decide +kernel)
  refine ⟨all, x, hall, hx, ?_⟩
  rw [hzip]
  decide

end ScriptOptimizer
