import ScriptOptimizer.Proofs.UpdateOperators

/-!
# Line breaks behind headers

The text between the closing parenthesis of a header and the body behind it may be any separators: the
tree stays the same up to positions. The exception is a body that starts with an update operator. A line
break in front of that is taken for the end of a statement, and the inserted semicolon becomes the body.
-/

namespace ScriptOptimizer

open Token (Alike Moved)

variable {u : Option Token} {t : Token} {ts s s1 s2 : List Token} {ms : List Mark} {k : Option Bool}

/-! ## Updates and positions -/

section

attribute [local simp] Expr.unplaced Expr.marks Stmt.unplaced Stmt.marks Mark.isUpdate unplacedExprs exprMarks
  unplacedProperties propertyMarks Func.unplaced Func.marks unplacedParams paramMarks unplacedDeclarators
  declaratorMarks unplacedStmts stmtMarks

mutual

/-- The updates of an expression do not depend on positions. -/
theorem Expr.updates_unplaced (l : Bool) : (e : Expr) →
    (e.unplaced.marks l).filter Mark.isUpdate = (e.marks l).filter Mark.isUpdate
  | .array _ es => exprUpdates_unplaced false es
  | .object _ ps => propertyUpdates_unplaced ps
  | .spread _ a | .unary _ _ a | .construct _ a none => a.updates_unplaced false
  | .function _ f => f.updates_unplaced
  | .update _ op true a => congrArg (Mark.update op true l :: ·) (a.updates_unplaced false)
  | .update _ op false a => by simp [a.updates_unplaced l]
  | .binary _ _ a b | .logical _ _ a b | .assign _ _ a b | .index _ a b => by
    simp [a.updates_unplaced l, b.updates_unplaced false]
  | .conditional _ e a b => by
    simp [e.updates_unplaced l, a.updates_unplaced false, b.updates_unplaced false]
  | .call _ a es => by simp [a.updates_unplaced l, exprUpdates_unplaced false es]
  | .construct _ a (some es) => by
    simp [a.updates_unplaced false, exprUpdates_unplaced false es]
  | .member _ a _ => a.updates_unplaced l
  | .sequence _ es => exprUpdates_unplaced l es
  | .hole | .ident .. | .literal .. | .receiver _ | .raw .. => rfl

theorem exprUpdates_unplaced (l : Bool) : (es : List Expr) →
    (exprMarks l (unplacedExprs es)).filter Mark.isUpdate = (exprMarks l es).filter Mark.isUpdate
  | [] => rfl
  | e :: es => by simp [e.updates_unplaced l, exprUpdates_unplaced false es]

theorem optionUpdates_unplaced : (e : Option Expr) →
    (optionMarks (unplacedOption e)).filter Mark.isUpdate = (optionMarks e).filter Mark.isUpdate
  | none => rfl
  | some e => e.updates_unplaced false

theorem propertyUpdates_unplaced : (ps : List Property) →
    (propertyMarks (unplacedProperties ps)).filter Mark.isUpdate = (propertyMarks ps).filter Mark.isUpdate
  | [] => rfl
  | .spread _ v :: ps => by
    simp [v.updates_unplaced false, propertyUpdates_unplaced ps]
  | .computed _ k v :: ps => by
    simp [k.updates_unplaced false, optionUpdates_unplaced v,
      propertyUpdates_unplaced ps]
  | .named _ _ v :: ps => by
    simp [optionUpdates_unplaced v, propertyUpdates_unplaced ps]

theorem Func.updates_unplaced : (f : Func) → f.unplaced.marks.filter Mark.isUpdate = f.marks.filter Mark.isUpdate
  | ⟨_, _, _, ps, b, _⟩ => by simp [paramUpdates_unplaced ps, stmtUpdates_unplaced b]

theorem paramUpdates_unplaced : (ps : List Param) →
    (paramMarks (unplacedParams ps)).filter Mark.isUpdate = (paramMarks ps).filter Mark.isUpdate
  | [] => rfl
  | ⟨_, _, p, d, _⟩ :: ps => by
    simp [optionUpdates_unplaced p, optionUpdates_unplaced d, paramUpdates_unplaced ps]

theorem declaratorUpdates_unplaced : (ds : List Declarator) →
    (declaratorMarks (unplacedDeclarators ds)).filter Mark.isUpdate = (declaratorMarks ds).filter Mark.isUpdate
  | [] => rfl
  | ⟨_, _, p, i⟩ :: ds => by
    simp [optionUpdates_unplaced p, optionUpdates_unplaced i,
      declaratorUpdates_unplaced ds]

theorem Stmt.updates_unplaced (l : Bool) : (s : Stmt) →
    (s.unplaced.marks l).filter Mark.isUpdate = (s.marks l).filter Mark.isUpdate
  | .varDecl ⟨_, _, ds⟩ => declaratorUpdates_unplaced ds
  | .function _ f => f.updates_unplaced
  | .block _ _ b => stmtUpdates_unplaced b
  | .ifElse _ t a none | .whileLoop _ t a => by
    simp [t.updates_unplaced false, a.updates_unplaced true]
  | .ifElse _ t a (some b) => by
    simp [t.updates_unplaced false, a.updates_unplaced true, b.updates_unplaced false]
  | .forLoop _ _ none t u b => by
    simp [optionUpdates_unplaced t, optionUpdates_unplaced u, b.updates_unplaced true]
  | .forLoop _ _ (some i) t u b => by
    simp [i.updates_unplaced false, optionUpdates_unplaced t, optionUpdates_unplaced u,
      b.updates_unplaced true]
  | .forIn _ _ _ none _ r b | .forIn _ _ _ (some _) _ r b => by
    simp [r.updates_unplaced false, b.updates_unplaced true]
  | .doWhile _ b t => by simp [b.updates_unplaced false, t.updates_unplaced false]
  | .returnValue _ e => optionUpdates_unplaced e
  | .throwValue _ e => e.updates_unplaced false
  | .expr _ e => e.updates_unplaced l
  | .labeled _ _ b => b.updates_unplaced false
  | .hole | .breakLoop .. | .continueLoop .. | .empty _ => rfl

theorem stmtUpdates_unplaced : (ss : List Stmt) →
    (stmtMarks (unplacedStmts ss)).filter Mark.isUpdate = (stmtMarks ss).filter Mark.isUpdate
  | [] => rfl
  | s :: ss => by simp [s.updates_unplaced false, stmtUpdates_unplaced ss]

end

end

/-- Trees that are the same up to positions have the same updates. -/
theorem Script.updates_eq {x y : Script} (h : y.unplaced = x.unplaced) : y.updates = x.updates := by
  have hbody : unplacedStmts y.body = unplacedStmts x.body := congrArg Script.body h
  rw [updates, updates, ← stmtUpdates_unplaced, hbody, stmtUpdates_unplaced]

/-! ## Bodies in the tokens -/

namespace Aligned

/-- A start is the start of a token, which stands behind a closing parenthesis if it is that of a body. -/
theorem exists_of_start {b : Bool} {p : Position} (h : Aligned k u s ms) (hm : .start b p ∈ ms) :
    ∃ s1 t s2, s = s1 ++ t :: s2 ∧ t.pos = p ∧ (b = true → ∃ v ∈ Token.after u s1, v.text = ")") := by
  induction h with
  | nil => cases hm
  | @plain _ _ t _ _ _ _ ih =>
    obtain ⟨s1, w, s2, rfl, hw⟩ := ih hm
    exact ⟨t :: s1, w, s2, rfl, hw⟩
  | @update _ _ t _ _ _ _ _ _ _ _ _ ih =>
    obtain ⟨s1, w, s2, rfl, hw⟩ := ih ((List.mem_cons.mp hm).resolve_left nofun)
    exact ⟨t :: s1, w, s2, rfl, hw⟩
  | @start _ t ts _ _ hb _ ih =>
    rcases List.mem_cons.mp hm with heq | hm
    · cases heq
      exact ⟨[], t, ts, rfl, rfl, hb⟩
    · exact ih hm

theorem of_append (h : Aligned k u ts ms) (hts : ts = s1 ++ s2) (hk : s1 = [] → k = none) :
    ∃ m1 m2, ms = m1 ++ m2 ∧ Aligned k u s1 m1 ∧ Aligned none (Token.after u s1) s2 m2 := by
  induction h generalizing s1 with
  | nil =>
    obtain ⟨rfl, rfl⟩ := List.append_eq_nil_iff.mp hts.symm
    exact ⟨[], [], rfl, .nil, .nil⟩
  | @plain k u t ts ms ht h ih =>
    rcases List.cons_eq_append_iff.mp hts with ⟨rfl, rfl⟩ | ⟨s1, rfl, hs⟩
    · obtain rfl := hk rfl
      exact ⟨[], ms, rfl, .nil, .plain ht h⟩
    · obtain ⟨m1, m2, rfl, h1, h2⟩ := ih hs fun _ => rfl
      exact ⟨m1, m2, rfl, .plain ht h1, h2⟩
  | @update k u t ts ms i l ht hi hlead hl h ih =>
    rcases List.cons_eq_append_iff.mp hts with ⟨rfl, rfl⟩ | ⟨s1, rfl, hs⟩
    · obtain rfl := hk rfl
      exact ⟨[], _, rfl, .nil, .update ht hi hlead hl h⟩
    · obtain ⟨m1, m2, rfl, h1, h2⟩ := ih hs fun _ => rfl
      exact ⟨_ :: m1, m2, rfl, .update ht hi hlead hl h1, h2⟩
  | @start u t ts ms b hb h ih =>
    rcases List.cons_eq_append_iff.mp hts with ⟨rfl, rfl⟩ | ⟨s1, rfl, hs⟩
    · exact ⟨[], _, rfl, .nil, .start b hb h⟩
    · obtain ⟨m1, m2, rfl, h1, h2⟩ := ih hts nofun
      exact ⟨_ :: m1, m2, rfl, .start b hb h1, h2⟩

/-- What is known about a token that a body starts with: it stands behind a closing parenthesis, no item
starts with it, and if it is an operator, the header leads to its update. -/
theorem body (h : Aligned none u (s1 ++ t :: s2) ms) (h1 : ∀ w ∈ s1, w.pos ≠ t.pos) (h2 : ∀ w ∈ s2, w.pos ≠ t.pos)
    (hm : .start true t.pos ∈ ms) : (∃ v ∈ Token.after u s1, v.text = ")") ∧ .start false t.pos ∉ ms ∧
      (t.isUpdate = true → ∃ m1 op i m2, ms = m1 ++ .start true t.pos :: .update op i true :: m2 ∧
      Aligned none u s1 m1) := by
  have hother {u : Option Token} {s : List Token} {ms : List Mark} (h : Aligned none u s ms)
      (hs : ∀ w ∈ s, w.pos ≠ t.pos) (b : Bool) : .start b t.pos ∉ ms := by
    intro hm
    obtain ⟨s1, w, s2, rfl, hw, -⟩ := h.exists_of_start hm
    exact hs w (by simp) hw
  obtain ⟨m1, m2, rfl, hfront, hrest⟩ := h.of_append rfl fun _ => rfl
  replace hm := (List.mem_append.mp hm).resolve_left (hother hfront h1 true)
  cases hrest with
  | plain _ hrest => exact absurd hm (hother hrest h2 true)
  | update _ _ _ _ hrest => exact absurd ((List.mem_cons.mp hm).resolve_left nofun) (hother hrest h2 true)
  | @start _ _ _ ms b hb hrest =>
    have hrest : (∀ c, .start c t.pos ∉ ms) ∧
        (t.isUpdate = true → b = true → ∃ op i m, ms = .update op i true :: m) := by
      cases hrest with
      | plain ht hrest => exact ⟨hother hrest h2, fun h => absurd h (by simp [ht])⟩
      | @update _ _ _ _ m i l _ _ hlead _ hrest =>
        refine ⟨fun c hc => hother hrest h2 c ((List.mem_cons.mp hc).resolve_left nofun), fun _ hb => ?_⟩
        exact ⟨_, i, m, by rw [hlead (by rw [hb])]⟩
    obtain rfl : b = true := by
      rcases List.mem_cons.mp hm with heq | hm
      · cases heq
        rfl
      · exact absurd hm (hrest.1 true)
    refine ⟨hb rfl, ?_, fun ht => ?_⟩
    · simp [hother hfront h1 false, hrest.1 false]
    · obtain ⟨op, i, m, rfl⟩ := hrest.2 ht rfl
      exact ⟨m1, op, i, m, rfl, hfront⟩

/-- An update that a header or a parenthesis leads to has its operator behind that. -/
theorem opensExpr {m1 m2 : List Mark} {op : UpdateOp} {i : Bool} (h : Aligned none u (s1 ++ t :: s2) ms)
    (ht : t.isUpdate = true) (hm : ms.filter Mark.isUpdate = m1 ++ .update op i true :: m2)
    (hlen : m1.length = (Token.operators u s1).length) : OpensExpr (Token.after u s1) := by
  have hups := h.updates
  rw [hm, Token.operators_append, Token.operators, if_pos ht] at hups
  have hdrop := List.forall₂_drop_append _ _ _ hups
  rw [← hlen, List.drop_left] at hdrop
  cases hdrop with
  | cons hfrom _ => exact hfrom.opens i op rfl

end Aligned

/-! ## Separators behind a header -/

/-- The body of a header starts at a position. -/
def Script.BodyAt (x : Script) (p : Position) : Prop := .start true p ∈ stmtMarks x.body

/-- The tokens behind a header move as a whole if the separators in front of them are replaced. -/
theorem exists_respaced {file source : String} {pre blank post : List Token} {close first : Token} {wide : List Char}
    (hall : Lexer.tokens file source = .ok (pre ++ close :: (blank ++ first :: post)))
    (hts : Scan.insert none (significant (pre ++ close :: (blank ++ first :: post))) = .ok ts)
    (hclose : close.isPunct ")" = true) (hblank : ∀ t ∈ blank, t.isTrivia = true) (hfirst : first.isTrivia = false)
    (hwide : wide ≠ []) (hsep : ∀ c ∈ wide, Lexer.isSeparator c = true) :
    ∃ s r first' r' a b, ts = s ++ close :: (Scan.inFront (some close) first ++ first :: r) ∧
      Moved a b first first' ∧ List.Forall₂ (Moved a b) r r' ∧ (close.lineBreakBetween first' = true ↔ '\n' ∈ wide) ∧
      Token.Ended (s ++ close :: (Scan.inFront (some close) first' ++ first' :: r')) ∧
      Script.parse file (String.ofList (Token.chars pre ++ ')' :: (wide ++ Token.chars (first :: post)))) =
        Grammar.ofTokens (s ++ close :: (Scan.inFront (some close) first' ++ first' :: r')) := by
  have hspace : first.kind ≠ .whitespace := by
    intro hkind
    simp [Token.isTrivia, hkind] at hfirst
  have hpunct : close.kind = .punct := by
    simp only [Token.isPunct, Bool.and_eq_true, beq_iff_eq] at hclose
    exact hclose.1
  obtain ⟨a, b, sep, first', post', hkind, hlexes, hmoved, hline⟩ :=
    (Lexer.tokens_eq_ok.mp hall).respaced hclose hspace hwide hsep
  cases hmoved with
  | cons hm hms =>
    have hkeeps : close.isTrivia = false := by simp [Token.isTrivia, hpunct]
    have hdrops : sep.isTrivia = true := by simp [Token.isTrivia, hkind]
    have htrivia {t t' : Token} (h : Moved a b t t') : t'.isTrivia = t.isTrivia := by
      rw [Token.isTrivia, Token.isTrivia, h.1.1]
    have hold : significant (pre ++ close :: (blank ++ first :: post)) =
        significant pre ++ close :: (first :: significant post) := by
      have hnone : blank.filter (fun t => !t.isTrivia) = [] := List.filter_eq_nil_iff.mpr (by simpa using hblank)
      simp [significant, hnone, hfirst, hkeeps]
    have hnew : significant (pre ++ close :: sep :: first' :: post') =
        significant pre ++ close :: (first' :: significant post') := by
      have hfirst' := (htrivia hm).trans hfirst
      simp [significant, hfirst', hkeeps, hdrops]
    have hrest : List.Forall₂ (Moved a b) (significant post) (significant post') :=
      List.rel_filter (fun t t' h => by simp [htrivia h]) hms
    rw [hold] at hts
    obtain ⟨s, r, hbehind, rfl, hother⟩ := Scan.insert_split hpunct hts
    obtain ⟨y, r, hy, hr, rfl⟩ := Scan.insert_cons_eq_ok.mp hbehind
    obtain ⟨y', hy', hmoved⟩ := Scan.behind_moved (.some ⟨rfl, rfl⟩) hm (Scan.rel_head? hrest) hy
    obtain ⟨r', hr', hmoved'⟩ := Scan.insert_moved hm hrest hr
    have hins := hother _ _ (Scan.insert_cons_eq_ok.mpr ⟨y', r', hy', hr', rfl⟩)
    rw [← hnew] at hins
    refine ⟨s, y ++ r, first', y' ++ r', a, b, rfl, hm, List.rel_append hmoved hmoved', hline, ?_, ?_⟩
    · exact (Token.Ended.of_lexes hlexes).filter.insert hins
    · exact Script.parse_eq (Lexer.tokens_eq_ok.mpr (by simpa using hlexes)) hins

/-- A tree stays the same up to positions if the tokens move from one that no item starts with. -/
theorem Grammar.ofTokens_moved {first first' : Token} {r r' : List Token} {a b : Nat} {x : Script}
    (h : Token.Ended (s ++ first :: r)) (hx : ofTokens (s ++ first :: r) = .ok x) (hm : Moved a b first first')
    (hms : List.Forall₂ (Moved a b) r r') (hitem : .start false first.pos ∉ stmtMarks x.body) :
    ∃ y, ofTokens (s ++ first' :: r') = .ok y ∧ y.unplaced = x.unplaced := by
  have hlexed := h.lexed
  rw [List.forall_mem_append, List.forall_mem_cons] at hlexed
  have halike : Alike first.pos none none (s ++ first :: r) (s ++ first' :: r') :=
    .append_left hlexed.1 (.cons hm.1 hlexed.2.1 (fun h => absurd rfl h) (.of_moved hms hlexed.2.2 hm))
  exact (ofTokens_alike halike hx).2 hitem

/-- An update that a header leads to is not one behind a semicolon. -/
theorem Aligned.updates_ne {r : List Token} {m1 m2 ms' : List Mark} {op : UpdateOp} {i : Bool} {p : Position}
    (hs : Aligned none none s m1) (hms : ms = m1 ++ .start true p :: .update op i true :: m2) (v : Token)
    (h : Aligned none none (s ++ Scan.semicolonAfter v :: t :: r) ms') (ht : t.isUpdate = true) :
    ms'.filter Mark.isUpdate ≠ ms.filter Mark.isUpdate := by
  intro heq
  rw [hms] at heq
  replace heq := heq.trans (List.filter_append _ _)
  have hlen : (m1.filter Mark.isUpdate).length = (Token.operators none (s ++ [Scan.semicolonAfter v])).length := by
    rw [hs.updates.length_eq, Token.operators_append]
    simp [Token.operators]
  rw [← List.singleton_append, ← List.append_assoc] at h
  obtain ⟨w, hw, hopens⟩ := h.opensExpr ht heq hlen
  rw [Token.after_append] at hw
  cases hw
  exact absurd hopens (by simp [Scan.semicolonAfter])

/-- A semicolon that is inserted is a body only in front of an update operator on a later line. -/
theorem Script.BodyAt.of_inserted {file source : String} {all : List Token} {x : Script} {p : Position}
    (hp : x.BodyAt p) (hall : Lexer.tokens file source = .ok all) (hx : Script.parse file source = .ok x)
    (hnot : ∀ t ∈ significant all, t.pos ≠ p) : ∃ v t, [v, t] <:+: significant all ∧ v.isPunct ")" = true ∧
      t.isUpdate = true ∧ v.lineBreakBetween t = true ∧ p = (Scan.semicolonAfter v).pos := by
  obtain ⟨ts, hts, hx⟩ := Script.parse_eq_ok hall hx
  have hended := (Token.Ended.of_lexes (Lexer.tokens_eq_ok.mp hall)).filter
  obtain ⟨s1, w, s2, hsplit, rfl, hbehind⟩ :=
    (Grammar.aligned_of_ofTokens (hended.insert hts) hx).exists_of_start hp
  obtain ⟨z, hz, htext⟩ := hbehind rfl
  rcases (Scan.inserted_of_insert hts).mem_or_semicolon hsplit with hw | ⟨v, hv, rfl, hv'⟩
  · exact absurd rfl (hnot w hw)
  · obtain rfl := Option.mem_unique hz hv
    rcases hv' with ⟨hkind, hends⟩ | ⟨t, hnext, hup, hline⟩
    · simp [Scan.endsOperand, hkind, htext, isReserved, reservedWords] at hends
    · have hpunct := (hended.lexed z (hnext.subset List.mem_cons_self)).punct (by simp [htext])
      exact ⟨z, t, hnext, by simp [Token.isPunct, hpunct, htext], hup, hline, rfl⟩

/-- Other separators behind a header keep the tree up to positions, unless they break the line in front of an
update operator. A semicolon that is inserted is the body of a header only there. -/
theorem Script.respaced_body_iff {file source : String} {all pre blank post : List Token} {close first : Token}
    {wide : List Char} {x : Script} (hall : Lexer.tokens file source = .ok all)
    (hsplit : all = pre ++ close :: (blank ++ first :: post)) (hx : Script.parse file source = .ok x)
    (hclose : close.isPunct ")" = true) (hblank : ∀ t ∈ blank, t.isTrivia = true) (hfirst : first.isTrivia = false)
    (hbody : x.BodyAt first.pos) (hwide : wide ≠ []) (hsep : ∀ c ∈ wide, Lexer.isSeparator c = true) :
    ((∃ y, Script.parse file (String.ofList (Token.chars pre ++ ')' :: (wide ++ Token.chars (first :: post)))) = .ok y ∧
      y.unplaced = x.unplaced) ↔ ¬ (first.isUpdate = true ∧ '\n' ∈ wide)) ∧
    ∀ p, x.BodyAt p → (∀ t ∈ significant all, t.pos ≠ p) → ∃ v t, [v, t] <:+: significant all ∧
      v.isPunct ")" = true ∧ t.isUpdate = true ∧ v.lineBreakBetween t = true ∧ p = (Scan.semicolonAfter v).pos := by
  refine ⟨?_, fun p hp => hp.of_inserted hall hx⟩
  subst hsplit
  obtain ⟨ts, hts, hx⟩ := Script.parse_eq_ok hall hx
  have hlexes := Lexer.tokens_eq_ok.mp hall
  have hended := (Token.Ended.of_lexes hlexes).filter.insert hts
  have hsorted := ((Scan.inserted_of_insert hts).pairwise (hlexes.pairwise_before.1.filter _)).1
  have haligned := Grammar.aligned_of_ofTokens hended hx
  obtain ⟨s, r, first', r', a, b, rfl, hm, hms, hline, hended', hparse⟩ :=
    exists_respaced hall hts hclose hblank hfirst hwide hsep
  rw [hparse]
  have hcons (s t₁ t₂ : List Token) : s ++ close :: (t₁ ++ t₂) = (s ++ [close] ++ t₁) ++ t₂ := by simp
  rw [hcons] at hended hended' hsorted haligned hx ⊢
  obtain ⟨hfront, hrest⟩ := Scan.pos_ne hsorted
  obtain ⟨⟨v, hv, htext⟩, hitem, hlead⟩ := haligned.body hfront hrest hbody
  have hnone : Scan.inFront (some close) first = [] := by
    rcases Scan.inFront_cases (some close) first with ⟨h, -⟩ | ⟨w, ⟨⟩, h, -⟩
    · exact h
    · rw [h, Token.after_append] at hv
      cases hv
      exact absurd htext (by simp [Scan.semicolonAfter])
  rw [hnone, List.append_nil] at hlead hended hx
  have hbreaks : Scan.breaksBefore (some close) first' = true ↔ first.isUpdate = true ∧ '\n' ∈ wide := by
    rw [Scan.breaksBefore, Scan.isPunct_update (hended'.lexed _ (by simp)), Option.any_some,
      Scan.endsOperand_of_isPunct hclose, Bool.and_true, Bool.and_eq_true, hline, Token.isUpdate, hm.1.2,
        ← Token.isUpdate]
  rw [← hbreaks]
  constructor
  · rintro ⟨y, hy, hsame⟩ hbreak
    have hsome : Scan.inFront (some close) first' = [Scan.semicolonAfter close] := by simp [Scan.inFront, hbreak]
    rw [hsome, List.append_assoc] at hy hended'
    have hup := (hbreaks.mp hbreak).1
    obtain ⟨m₁, op, i, m₂, hmarks, hfront⟩ := hlead hup
    have hup' : first'.isUpdate = true := by rwa [Token.isUpdate, hm.1.2]
    exact hfront.updates_ne hmarks close (Grammar.aligned_of_ofTokens hended' hy) hup' (Script.updates_eq hsame)
  · intro hbreak
    have hnone' : Scan.inFront (some close) first' = [] := by simp [Scan.inFront, hbreak]
    rw [hnone', List.append_nil]
    exact Grammar.ofTokens_moved hended hx hm hms hitem

theorem exists_of_marks (source : String) (ms : List Mark)
    (h : (Script.parse "" source).toOption.any (fun x => stmtMarks x.body = ms) = true) :
    ∃ x, Script.parse "" source = .ok x ∧ stmtMarks x.body = ms := by
  exact (exists_ok (P := fun x => stmtMarks x.body = ms) h).imp fun _ hx => ⟨hx.1, of_decide_eq_true hx.2⟩

/-- Line breaks in front of a body that starts with a name. -/
theorem Script.respaced_body_lines : ∃ x y, Script.parse "" "if (a) b--;" = .ok x ∧ x.BodyAt ⟨"", 7, 1, 8⟩ ∧
    Script.parse "" "if (a)\n\tb--;" = .ok y ∧ y.unplaced = x.unplaced := by
  obtain ⟨x, hx, hmarks⟩ := exists_of_marks "if (a) b--;"
    [.start false ⟨"", 0, 1, 1⟩, .start true ⟨"", 7, 1, 8⟩, .update .decrement false false] (by decide +kernel)
  have hbody : x.BodyAt ⟨"", 7, 1, 8⟩ := by
    rw [Script.BodyAt, hmarks]
    decide
  have hall : Lexer.tokens "" "if (a) b--;" = .ok ([⟨.ident, "if", ⟨"", 0, 1, 1⟩⟩, ⟨.whitespace, " ", ⟨"", 2, 1, 3⟩⟩,
      ⟨.punct, "(", ⟨"", 3, 1, 4⟩⟩, ⟨.ident, "a", ⟨"", 4, 1, 5⟩⟩] ++ ⟨.punct, ")", ⟨"", 5, 1, 6⟩⟩ ::
      ([⟨.whitespace, " ", ⟨"", 6, 1, 7⟩⟩] ++ ⟨.ident, "b", ⟨"", 7, 1, 8⟩⟩ :: [⟨.punct, "--", ⟨"", 8, 1, 9⟩⟩,
      ⟨.punct, ";", ⟨"", 10, 1, 11⟩⟩, ⟨.eof, "", ⟨"", 11, 1, 12⟩⟩])) := by
    rfl
  obtain ⟨y, hy, hsame⟩ := (Script.respaced_body_iff hall rfl hx (by decide) (by decide) (by decide) hbody
    (by decide : ['\n', '\t'] ≠ []) (by simp [Lexer.isSeparator])).1.mpr (by decide)
  exact ⟨x, y, hx, hbody, hy, hsame⟩

/-- A line break in front of an update operator makes the inserted semicolon the body. -/
theorem Script.respaced_body_broken : ∃ x y, Script.parse "" "if (a) ++b;" = .ok x ∧ x.BodyAt ⟨"", 7, 1, 8⟩ ∧
    Script.parse "" "if (a)\n++b;" = .ok y ∧ y.unplaced ≠ x.unplaced ∧
      y.BodyAt (Scan.semicolonAfter ⟨.punct, ")", ⟨"", 5, 1, 6⟩⟩).pos := by
  obtain ⟨x, hx, hmarks⟩ := exists_of_marks "if (a) ++b;"
    [.start false ⟨"", 0, 1, 1⟩, .start true ⟨"", 7, 1, 8⟩, .update .increment true true] (by decide +kernel)
  obtain ⟨y, hy, hmarks'⟩ := exists_of_marks "if (a)\n++b;"
    [.start false ⟨"", 0, 1, 1⟩, .start true ⟨"", 6, 1, 7⟩, .start false ⟨"", 7, 2, 1⟩, .update .increment true false]
    (by decide +kernel)
  refine ⟨x, y, hx, ?_, hy, fun hsame => ?_, ?_⟩
  · rw [Script.BodyAt, hmarks]
    decide
  · have heq := Script.updates_eq hsame
    rw [Script.updates, Script.updates, hmarks, hmarks'] at heq
    exact absurd heq (by decide)
  · rw [Script.BodyAt, hmarks']
    decide

end ScriptOptimizer
