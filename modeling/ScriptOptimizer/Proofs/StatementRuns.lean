import ScriptOptimizer.Grammar.Statement
import ScriptOptimizer.Proofs.ExpressionRuns

/-!
# Two runs of the grammar of statements

The productions of statements do the same on tokens that are alike, and so does the whole grammar at every
depth. Main result: what the grammar makes of tokens is the same up to positions for tokens that are alike,
and its marks and names are aligned with the tokens.
-/

namespace ScriptOptimizer

open Matcher
open Carries (Listing)

attribute [local simp] Expr.trail optionTrail Func.trail paramTrail declaratorTrail Stmt.trail stmtTrail Trail.mark Expr.marks
  optionMarks Func.marks paramMarks declaratorMarks Stmt.marks stmtMarks Walk.expr Walk.optExpr Walk.func Walk.params
  Walk.declarators Walk.varDecl Walk.stmt Walk.stmts Semantic.label?

variable {bad : Position} {u : Option Token} {t : Token} {s s1 s2 : List Token} {x x' : Checked Stmt} {sure : Bool}

@[simp]
theorem Checked.option_none {α : Type} : Checked.option (none : Option (Checked α)) = pure none := rfl

@[simp]
theorem Checked.option_some {α : Type} (x : Checked α) : Checked.option (some x) = x >>= fun a => pure (some a) := rfl

theorem Checked.toExcept_eq_ok {α : Type} {x : Checked α} {a : α} :
    x.toExcept = .ok a ↔ x.fault = none ∧ x.value = a := by
  unfold toExcept
  cases x.fault <;> simp

/-- The body behind a header. -/
theorem StmtRead.body (h : StmtRead bad (some t) s x x') (ht : t.Spells ")") :
    Part bad (some t) s (x.fault = none) (x'.fault = none) ((x.value.trail true).mark (.start true x.value.pos)) :=
  h.1.head.start h.2 (fun _ => ⟨t, rfl, ht.text⟩) x.value.start_mem_marks

/-- A statement of a list. -/
theorem StmtRead.item (h : StmtRead bad u s x x') :
    Part bad u s (x.fault = none) (x'.fault = none) ((x.value.trail false).mark (.start false x.value.pos)) :=
  h.1.head.start h.2 nofun x.value.start_mem_marks

theorem Carries.Listing.params : Listing (fun p : Param => unplacedParams [p]) (fun p => paramTrail [p])
    unplacedParams paramTrail where
  cons {a a' _ _} h hs := by
    obtain ⟨⟩ := a
    obtain ⟨⟩ := a'
    simp_all [unplacedParams]
  marks_nil := rfl
  marks_cons a _ := by
    obtain ⟨⟩ := a
    simp

theorem Carries.Listing.declarators : Listing (fun d : Declarator => unplacedDeclarators [d])
    (fun d => declaratorTrail [d]) unplacedDeclarators declaratorTrail where
  cons {a a' _ _} h hs := by
    obtain ⟨⟩ := a
    obtain ⟨⟩ := a'
    simp_all [unplacedDeclarators]
  marks_nil := rfl
  marks_cons a _ := by
    obtain ⟨⟩ := a
    simp

/-- A name, which must not be reserved. -/
theorem Head.name (hl : t.Lexed) (ht : t.kind = .ident) :
    Head bad u [t] (isReserved t.text = false) (isReserved t.text = false) fun _ => {} :=
  .cons (Grammar.plain_of_kind hl ht nofun) (.nil id)

namespace Grammar

/-- An optional token that is no operator. -/
theorem tracks_optionalText {y : String} (hy : (y == "++" || y == "--") = false) :
    Tracks bad u true (fun s o o' => o'.isSome = o.isSome ∧ Part bad u s True True {}) (Matcher.optional (.text y))
      (Matcher.optional (.text y)) := by
  refine (Tracks.optional (.text y)).mono fun s o o' ho => ?_
  cases ho with
  | none => exact ⟨rfl, .nil id⟩
  | some ht =>
    obtain ⟨rfl, rfl, -, -⟩ := ht
    exact ⟨rfl, .token hy⟩

theorem tracks_semicolon : Tracks bad u true (fun s _ _ => Part bad u s True True {}) semicolon semicolon :=
  (tracks_optionalText rfl).mono fun _ _ _ h => h.2

theorem tracks_optionalExpr {p : Matcher (Checked Expr)}
    (hp : Tracks bad u sure (Carries Expr.unplaced (Expr.trail false) bad u) p p) :
    Tracks bad u true (fun s o o' => Carries unplacedOption optionTrail bad u s (Checked.option o) (Checked.option o'))
      (Matcher.optional p) (Matcher.optional p) := by
  refine hp.optional.mono fun s o o' ho => ?_
  cases ho with
  | none => exact ⟨rfl, .nil id⟩
  | some h => exact ⟨congrArg some h.same, h.part.congr (by simp) (by simp)⟩

variable {g : Rules}

theorem tracks_optionalExpression (hg : g.Agree bad) :
    Tracks bad u true (fun s o o' => Carries unplacedOption optionTrail bad u s (Checked.option o) (Checked.option o'))
      (Matcher.optional (expression g)) (Matcher.optional (expression g)) :=
  tracks_optionalExpr ((tracks_expression hg).mono fun _ _ _ h => h.carries)

/-! ## Bindings -/

theorem tracks_initializer (hg : g.Agree bad) :
    Tracks bad u true (fun s o o' => Carries unplacedOption optionTrail bad u s (Checked.option o) (Checked.option o'))
      (initializer g) (initializer g) :=
  tracks_optionalExpr (.word "=" rfl fun _ ht =>
    (Tracks.item (hg.assignment _)).mono fun _ _ _ h => h.carries.cons ht.plain)

/-- What two bindings declare: a name, which is a token, or a pattern. -/
def TargetRead (bad : Position) (u : Option Token) (s : List Token) (x x' : Checked (String × Option Expr)) : Prop :=
  Carries (fun x => (x.1, unplacedOption x.2)) (fun x => optionTrail x.2) bad u s x x' ∧
    (x.value.1 = "" ∨ ∃ t, s = [t] ∧ t.kind = .ident ∧ x.value = (t.text, none))

theorem tracks_bindingTarget (hg : g.Agree bad) :
    Tracks bad u false (TargetRead bad u) (bindingTarget g) (bindingTarget g) := by
  have hpattern (s : List Token) (x x' : Checked Expr) (hx : ChainRead bad u s x x') :
      TargetRead bad u s (do return ("", some (← x))) (do return ("", some (← x'))) :=
    ⟨⟨by simp [unplacedOption, hx.1.same], hx.1.head.part.congr (by simp) (by simp)⟩, .inl rfl⟩
  refine .production (.position fun pos pos' => .choice (.cons ?_ (.cons ?_ (.cons ?_ .nil))))
  · refine (Tracks.kind .ident).map ?_
    rintro _ t t' ⟨rfl, ht, hl, ht'⟩
    refine ⟨.leaf (plain_of_kind hl ht nofun) (by simp [unplacedOption, ht'.2]) (by simp [ht'.2]) rfl,
      .inr ⟨t, rfl, ht, ?_⟩⟩
    simp
  · exact (tracks_arrayLit hg).map hpattern
  · exact (tracks_objectLit hg).map hpattern

/-- A binding at whose name a name may stand, and what stands behind it. -/
theorem TargetRead.part {x x' : Checked (String × Option Expr)} {n : Option Spot} {ok ok' : Prop} {a : Trail}
    (hx : TargetRead bad u s1 x x') (h : Part bad (Token.after u s1) s2 ok ok' a)
    (hn : ∀ y ∈ n, x.value.1 ≠ "" ∧ ∀ t ∈ (s1 ++ s2).head?, y = (t.pos, x.value.1)) :
    Part bad u (s1 ++ s2) (x.fault = none ∧ ok) (x'.fault = none ∧ ok')
      ⟨(optionTrail x.value.2 ++ a).marks, n.toList ++ (optionTrail x.value.2 ++ a).names⟩ := by
  obtain ⟨hx, hempty | ⟨t, rfl, hk, hv⟩⟩ := hx
  · cases n with
    | none => exact hx.part.append h
    | some y => exact absurd hempty (hn y rfl).1
  · have hpart := hx.part
    rw [hv] at hpart hn ⊢
    exact hpart.spot h fun y hy => (hn y hy).2 t rfl ▸ .word hk

theorem tracks_param (hg : g.Agree bad) :
    Tracks bad u true (Carries (fun p => unplacedParams [p]) (fun p => paramTrail [p]) bad u) (param g) (param g) := by
  refine .production (.located fun pos pos' => (Tracks.optional (.text "...")).bind fun s o o' ho =>
    (Tracks.item (tracks_bindingTarget hg)).bind fun s2 x x' hx =>
      (tracks_initializer hg).map fun s3 d d' hd hpos => ?_)
  obtain ⟨hname, hpattern⟩ := Prod.mk.inj hx.1.same
  cases ho with
  | none =>
    refine ⟨by simp [unplacedParams, hname, hpattern, hd.same], ?_⟩
    by_cases h : x.value.1 = ""
    · simpa [h, Token.after] using hx.part (n := none) hd.part (by simp)
    · simpa [h, Token.after] using hx.part (n := some (pos, x.value.1)) hd.part
        (by simpa [h] using fun t ht => (hpos t ht).symm)
  | @some _ t _ ht =>
    obtain ⟨rfl, ht, -, -⟩ := ht
    refine ⟨by simp [unplacedParams, hname, hpattern, hd.same], ?_⟩
    have hdots : Part bad u [t] True True {} := .token (by simp [Token.isUpdate, ht])
    obtain rfl := hpos t rfl
    by_cases h : x.value.1 = ""
    · simpa [h] using hdots.append (hx.1.part.append hd.part)
    · obtain ⟨v, rfl, hk, hv⟩ := hx.2.resolve_left h
      have hpart := hdots.append (hx.1.part.append hd.part)
      rw [hv] at h hpart
      exact ⟨by simpa [hv, h] using hpart.clean, by simpa [hv, h] using hpart.aligned,
        by simpa [hv, h] using .cons (.rest ht hk) hd.part.named⟩

theorem tracks_declarator (hg : g.Agree bad) :
    Tracks bad u false (Carries (fun d => unplacedDeclarators [d]) (fun d => declaratorTrail [d]) bad u) (declarator g)
      (declarator g) := by
  refine .production (.located fun pos pos' => (tracks_bindingTarget hg).bind fun s x x' hx =>
    (tracks_initializer hg).map fun s2 d d' hd hpos => ?_)
  obtain ⟨hname, hpattern⟩ := Prod.mk.inj hx.1.same
  refine ⟨by simp [unplacedDeclarators, hname, hpattern, hd.same], ?_⟩
  by_cases h : x.value.1 = ""
  · simpa [h] using hx.part (n := none) hd.part (by simp)
  · simpa [h] using hx.part (n := some (pos, x.value.1)) hd.part (by simpa [h] using fun t ht => (hpos t ht).symm)

/-- Two variable declarations. -/
def VarDeclRead (bad : Position) (u : Option Token) (s : List Token) (x x' : Checked VarDecl) : Prop :=
  Reads VarDecl.unplaced (fun _ d => declaratorTrail d.decls) bad u s x x' ∧ ∀ t ∈ s.head?, t.pos = x.value.pos

theorem tracks_varDecl (hg : g.Agree bad) : Tracks bad u false (VarDeclRead bad u) (varDecl g) (varDecl g) := by
  have hplain : ∀ x ∈ varWords, (x == "++" || x == "--") = false := by decide
  refine .production (.located fun pos pos' => (Tracks.oneOf varWords).bind ?_)
  rintro _ t t' ⟨rfl, ht, -, ht'⟩
  refine (Tracks.item (Tracks.list (fun _ => tracks_declarator hg))).map fun s ds ds' hds hpos => ?_
  have hds := Carries.listed rfl .declarators hds
  refine ⟨⟨by simp [VarDecl.unplaced, hds.same, ht'.2], ?_⟩, hpos⟩
  exact (Head.cons (hplain _ ht) hds.part).congr (by simp) (by simp) fun _ => by simp

/-! ## Lists of statements -/

/-- Two statements of lists, the first of which knows the tokens around its start. They stand apart from the tokens
in front of them in the same way, unless they start at the place at which the tokens differ. -/
def ItemRead (bad : Position) (u : Option Token) (s : List Token) (i i' : Item) : Prop :=
  StmtRead bad u s i.stmt i'.stmt ∧ (i.before = u ∧ s.head? = some i.first) ∧
    (i.stmt.value.pos ≠ bad → i'.isSeparate = i.isSeparate)

theorem tracks_statementItem (hg : g.Agree bad) :
    Tracks bad u false (ItemRead bad u) (statementItem g) (statementItem g) := by
  intro c c' hc hu
  have hgoes := hg.statement u hc hu
  show Goes bad false _ c (andThen g.statement _ c) (andThen g.statement _ c')
  unfold andThen
  generalize g.statement c = r, g.statement c' = r' at hgoes
  cases hgoes with
  | @matched x x' d d' s hd hr hb hx =>
    -- The statement has a token, which is the one at the cursor.
    obtain ⟨t, s, rfl⟩ := List.exists_cons_of_ne_nil hx.1.head.nonempty
    refine .matched _ hd hr hb ⟨hx, ⟨hu, by simp [Context.here, hr]⟩, fun hpos => ?_⟩
    have hrest := hc.rest
    rw [hr, List.cons_append] at hrest
    generalize hr' : c'.rest = rest' at hrest
    cases hrest with
    | @cons _ _ _ t' _ _ ht _ hl _ =>
      have hhere : c.here = t := by simp [Context.here, hr]
      have hhere' : c'.here = t' := by simp [Context.here, hr']
      have hbefore := hc.before
      have hl := hl (hx.2 t rfl ▸ hpos)
      simp only [Item.isSeparate, hhere, hhere']
      cases hv : c.before with
      | none =>
        rw [hv] at hbefore
        generalize c'.before = v' at hbefore
        cases hbefore
        rfl
      | some v =>
        rw [hv] at hbefore hl
        generalize c'.before = v' at hbefore hl
        cases hbefore with
        | some hsame => simp [Token.isPunct, hsame.1, hsame.2, hl v rfl _ rfl]
  | unmatched hs hd hr hb => exact .unmatched hs hd hr hb
  | failed h => exact .failed h

theorem endsItself_unplaced (x : Stmt) : endsItself x.unplaced = endsItself x := by
  cases x with
  | ifElse _ _ _ e => cases e <;> rfl
  | forLoop _ _ i => cases i <;> rfl
  | forIn _ _ _ d => cases d <;> rfl
  | _ => rfl

@[simp]
theorem value_checkItems (before : Option Stmt) (i : Item) (is : List Item) :
    (checkItems before (i :: is)).value = i.stmt.value :: (checkItems (some i.stmt.value) is).value := by
  conv => lhs; unfold checkItems
  cases before with
  | none => rfl
  | some x =>
    dsimp only
    split <;> rfl

@[simp]
theorem fault_checkItems (before : Option Stmt) (i : Item) (is : List Item) :
    (checkItems before (i :: is)).fault = none ↔ (before.all fun x => endsItself x || i.isSeparate) = true ∧
      i.stmt.fault = none ∧ (checkItems (some i.stmt.value) is).fault = none := by
  conv => lhs; unfold checkItems
  cases before with
  | none => simp
  | some x =>
    dsimp only
    cases he : endsItself x <;> cases i.isSeparate <;> simp [he]

/-- Lists of statements have the same faults, unless an item starts at the place where the tokens differ. -/
theorem carries_checkItems {is is' : List Item} (h : Tracks.Each (ItemRead bad) u s is is') :
    ∀ {before before' : Option Stmt}, before'.map endsItself = before.map endsItself →
      Carries unplacedStmts stmtTrail bad u s (checkItems before is) (checkItems before' is') := by
  induction h with
  | nil =>
    intro _ _ _
    exact ⟨rfl, .nil id⟩
  | @cons u s s2 i i' is is' h hs ih =>
    intro before before' hbefore
    obtain ⟨hstmt, -, hsep⟩ := h
    have hends : (some i'.stmt.value).map endsItself = (some i.stmt.value).map endsItself := by
      rw [Option.map_some, Option.map_some, ← endsItself_unplaced, hstmt.1.same, endsItself_unplaced]
    have hrest := ih hends
    have hpart := hstmt.item.append hrest.part
    have htrail : stmtTrail (checkItems before (i :: is)).value =
        (i.stmt.value.trail false).mark (.start false i.stmt.value.pos) ++
          stmtTrail (checkItems (some i.stmt.value) is).value := by simp
    refine ⟨by simp [unplacedStmts, hstmt.1.same, hrest.same], fun ho hm => ?_, fun ho => ?_, ?_⟩
    · rw [htrail] at hm
      rw [fault_checkItems] at ho ⊢
      have hpos : i.stmt.value.pos ≠ bad := fun h => hm (h ▸ List.mem_cons_self)
      refine ⟨?_, hpart.clean ho.2 hm⟩
      rw [hsep hpos]
      cases before <;> cases before' <;> simp_all
    · rw [htrail]
      exact hpart.aligned ((fault_checkItems _ _ _).mp ho).2
    · rw [htrail]
      exact hpart.named

theorem tracks_statements (hg : g.Agree bad) :
    Tracks bad u true (Carries unplacedStmts stmtTrail bad u) (statements g) (statements g) :=
  (Tracks.many (fun _ => tracks_statementItem hg)).map fun _ _ _ h => carries_checkItems h rfl

/-! ## Functions and statements -/

theorem tracks_functionRule (hg : g.Agree bad) :
    Tracks bad u false (FuncRead bad u) (functionRule g) (functionRule g) := by
  refine .production (.position fun pos pos' => .word "function" rfl fun t ht =>
    (tracks_optionalText rfl).bind fun s1 star star' hstar => (Tracks.optional (.kind .ident)).bind fun s2 n n' hn =>
      .skip "(" rfl fun a ha => (Tracks.optional (Tracks.list (fun _ => tracks_param hg))).bind fun s3 ps ps' hps =>
        .skip ")" rfl fun b hb => .skip "\x7b" rfl fun c hc => (tracks_statements hg).bind fun s4 x x' hx =>
          .skip "\x7d" rfl fun e he => .value ?_)
  have hparams : Carries unplacedParams paramTrail bad (some a) s3 (Checked.list (ps.getD []))
      (Checked.list (ps'.getD [])) := by
    cases hps with
    | none => exact ⟨rfl, .nil id⟩
    | some h => exact .listed rfl .params h
  have hbody : Part bad (some b) (c :: (s4 ++ [e])) (x.fault = none) (x'.fault = none) (stmtTrail x.value) :=
    .cons hc.plain (hx.part.concat he.plain)
  have hhead {ok ok' : Prop} (hn : Part bad (Token.after (some t) s1) s2 ok ok' {}) :=
    Head.cons (u := u) ht.plain (hstar.2.append (hn.append (.cons ha.plain
      (hparams.part.append (.cons hb.plain hbody)))))
  refine ⟨?_, ?_⟩
  · cases hn with
    | none =>
      refine ⟨by simp [Func.unplaced, hparams.same, hx.same, hstar.1], ?_⟩
      exact (hhead (.nil (id : True → True))).congr (by simp) (by simp) fun _ => by simp
    | some h =>
      obtain ⟨rfl, hk, hl, hn'⟩ := h
      refine ⟨by simp [Func.unplaced, hparams.same, hx.same, hstar.1, hn'.2], ?_⟩
      exact (hhead (Head.name hl hk).part).congr (by simp) (by simp [hn'.2]) fun _ => by simp
  · simp only [Token.after, Token.after_append]
    exact he.ends (by decide)

/-- A condition in parentheses, and what goes on behind it. -/
theorem tracks_header {β : Type} {W : List Token → β → β → Prop} {k k' : Checked Expr → Matcher β} (hg : g.Agree bad)
    (hk : ∀ s t x x', Carries Expr.unplaced (Expr.trail false) bad u (s ++ [t]) x x' → t.Spells ")" →
      Tracks bad (some t) true (fun s' => W (s ++ t :: s')) (k x) (k' x')) :
    Tracks bad u true W (do let _ ← expect "("; let x ← .item (expression g); let _ ← expect ")"; k x)
      (do let _ ← expect "("; let x ← .item (expression g); let _ ← expect ")"; k' x) := by
  refine .skip "(" rfl fun a ha => (Tracks.item (tracks_expression hg)).bind fun s x x' hx =>
    .skip ")" rfl fun b hb => hk (a :: s) b x x' ⟨hx.same, ?_⟩ hb
  exact Part.cons ha.plain (hx.head.part.concat hb.plain)

@[local simp] theorem spots_target (pos : Position) (n : String) (vs : List Visit) :
    spots (⟨.loopTarget, .expr (.ident pos n)⟩ :: vs) = spots vs := rfl

@[local simp] theorem marks_varDecl (d : VarDecl) (l : Bool) : (Stmt.varDecl d).marks l = declaratorMarks d.decls := by
  cases d
  rfl

@[local simp] theorem spots_varDecl (d : VarDecl) :
    spots (Walk.varDecl Walk.everywhere .plain d) = spots (Walk.declarators Walk.everywhere .plain d.decls) := by
  cases d
  rfl

theorem tracks_varStatement (hg : g.Agree bad) :
    Tracks bad u false (StmtRead bad u) (varStatement g) (varStatement g) := by
  refine .production ((tracks_varDecl hg).bind fun s x x' hx => tracks_semicolon.map fun s2 _ _ hs2 => ?_)
  refine ⟨⟨by simp [Stmt.unplaced, hx.1.same], ?_⟩, ?_⟩
  · exact (hx.1.head.append hs2).congr (by simp) (by simp) fun _ => by simp
  · rw [List.head?_append_of_ne_nil _ hx.1.head.nonempty]
    exact hx.2

theorem tracks_ifStatement (hg : g.Agree bad) :
    Tracks bad u false (StmtRead bad u) (ifStatement g) (ifStatement g) := by
  refine .production (.located fun pos pos' => .word "if" rfl fun t ht => tracks_header hg fun s b x x' hx hb =>
    (Tracks.item (hg.statement _)).bind fun s2 y y' hy =>
      (Tracks.optional (V := Carries Stmt.unplaced (Stmt.trail false) bad (Token.after (some b) s2)) (.word "else" rfl
        fun e he => (Tracks.item (hg.statement _)).mono fun _ _ _ h => h.1.carries.cons he.plain)).map
          fun s3 o o' ho hpos => ?_)
  cases ho with
  | none =>
    have hpart := hx.part.append (Token.after_concat s b _ ▸ hy.body hb)
    rw [List.append_assoc] at hpart
    rw [List.append_nil]
    refine ⟨⟨by simp [Stmt.unplaced, hx.same, hy.1.same], ?_⟩, hpos⟩
    exact (Head.cons ht.plain hpart).congr (by simp) (by simp) fun _ => by simp
  | some ho =>
    have hpart := hx.part.append (Token.after_concat s b _ ▸ (hy.body hb).append ho.part)
    rw [List.append_assoc] at hpart
    refine ⟨⟨by simp [Stmt.unplaced, hx.same, hy.1.same, ho.same], ?_⟩, hpos⟩
    exact (Head.cons ht.plain hpart).congr (by simp) (by simp) fun _ => by simp

theorem tracks_whileStatement (hg : g.Agree bad) :
    Tracks bad u false (StmtRead bad u) (whileStatement g) (whileStatement g) := by
  refine .production (.located fun pos pos' => .word "while" rfl fun t ht => tracks_header hg fun s b x x' hx hb =>
    (Tracks.item (hg.statement _)).map fun s2 y y' hy hpos => ?_)
  refine ⟨⟨by simp [Stmt.unplaced, hx.same, hy.1.same], ?_⟩, hpos⟩
  have hpart := hx.part.append (Token.after_concat s b _ ▸ hy.body hb)
  rw [List.append_assoc] at hpart
  exact (Head.cons ht.plain hpart).congr (by simp) (by simp) fun _ => by simp

theorem tracks_doStatement (hg : g.Agree bad) :
    Tracks bad u false (StmtRead bad u) (doStatement g) (doStatement g) := by
  refine .production (.located fun pos pos' => .word "do" rfl fun t ht =>
    (Tracks.item (hg.statement _)).bind fun s y y' hy => .skip "while" rfl fun w hw =>
      tracks_header hg fun s2 b x x' hx hb => tracks_semicolon.map fun s3 _ _ hs3 hpos => ?_)
  refine ⟨⟨by simp [Stmt.unplaced, hx.same, hy.1.same], ?_⟩, hpos⟩
  have hpart := hx.part.append (Token.after_concat s2 b _ ▸ hs3)
  rw [List.append_assoc] at hpart
  refine (Head.cons ht.plain (hy.1.head.part.append (.cons hw.plain hpart))).congr (by simp) (by simp) fun _ => ?_
  simp

theorem tracks_returnStatement (hg : g.Agree bad) :
    Tracks bad u false (StmtRead bad u) (returnStatement g) (returnStatement g) := by
  refine .production (.located fun pos pos' => .word "return" rfl fun t ht =>
    (tracks_optionalExpression hg).bind fun s o o' ho => tracks_semicolon.map fun s2 _ _ hs2 hpos => ?_)
  refine ⟨⟨by simp [Stmt.unplaced, ho.same], ?_⟩, hpos⟩
  exact (Head.cons ht.plain (ho.part.append hs2)).congr (by simp) (by simp) fun _ => by simp

theorem tracks_throwStatement (hg : g.Agree bad) :
    Tracks bad u false (StmtRead bad u) (throwStatement g) (throwStatement g) := by
  refine .production (.located fun pos pos' => .word "throw" rfl fun t ht =>
    (Tracks.item (tracks_expression hg)).bind fun s x x' hx => tracks_semicolon.map fun s2 _ _ hs2 hpos => ?_)
  refine ⟨⟨by simp [Stmt.unplaced, hx.same], ?_⟩, hpos⟩
  exact (Head.cons ht.plain (hx.head.part.append hs2)).congr (by simp) (by simp) fun _ => by simp

theorem tracks_labeledStatement (hg : g.Agree bad) :
    Tracks bad u false (StmtRead bad u) (labeledStatement g) (labeledStatement g) := by
  refine .production (.located fun pos pos' => (Tracks.kind .ident).bind ?_)
  rintro _ t t' ⟨rfl, ht, hl, ht'⟩
  refine .skip ":" rfl fun a ha => (Tracks.item (hg.statement _)).map fun s x x' hx hpos => ?_
  refine ⟨⟨by simp [Stmt.unplaced, hx.1.same, ht'.2], ?_⟩, hpos⟩
  exact ((Head.name hl ht).append (.cons ha.plain hx.1.head.part)).congr (by simp) (by simp [ht'.2]) fun _ => rfl

theorem tracks_blockStatement (hg : g.Agree bad) :
    Tracks bad u false (StmtRead bad u) (blockStatement g) (blockStatement g) := by
  refine .production (.located fun pos pos' => .word "\x7b" rfl fun t ht =>
    (tracks_statements hg).bind fun s x x' hx => .skip "\x7d" rfl fun e he => .value fun hpos => ?_)
  refine ⟨⟨by simp [Stmt.unplaced, hx.same], ?_⟩, hpos⟩
  exact (Head.cons ht.plain (hx.part.concat he.plain)).congr (by simp) (by simp) fun _ => by simp

theorem tracks_exprStatement (hg : g.Agree bad) :
    Tracks bad u false (StmtRead bad u) (exprStatement g) (exprStatement g) := by
  refine .production (.located fun pos pos' => (tracks_expression hg).bind fun s x x' hx =>
    tracks_semicolon.map fun s2 _ _ hs2 hpos => ?_)
  refine ⟨⟨by simp [Stmt.unplaced, hx.same], ?_⟩, hpos⟩
  exact (hx.head.append hs2).congr (by simp) (by simp) fun _ => by simp

theorem tracks_jumpStatement {word : String} {make : Position → String → Stmt}
    (hword : (word == "++" || word == "--") = false)
    (hmake : ∀ p p' l, (make p' l).unplaced = (make p l).unplaced) (hpos : ∀ p l, (make p l).pos = p)
    (htrail : ∀ p l b, (make p l).trail b = {}) (u : Option Token) :
    Tracks bad u false (StmtRead bad u) (jumpStatement word make) (jumpStatement word make) := by
  refine .production (.located fun pos pos' => .word word hword fun t ht =>
    (Tracks.optional (.kind .ident)).bind fun s o o' ho => tracks_semicolon.map fun s2 _ _ hs2 hfirst => ?_)
  cases ho with
  | none =>
    refine ⟨⟨hmake pos pos' "", ?_⟩, fun v hv => (hfirst v hv).trans (hpos pos "").symm⟩
    exact (Head.cons ht.plain hs2).congr (by simp) (by simp) fun l => htrail pos "" l
  | some h =>
    obtain ⟨rfl, hk, hl, hn'⟩ := h
    refine ⟨⟨by simp [hn'.2, hmake pos pos'], ?_⟩, fun v hv => (hfirst v hv).trans (hpos pos _).symm⟩
    exact (Head.cons ht.plain ((Head.name hl hk).part.append hs2)).congr (by simp) (by simp [hn'.2])
      fun l => htrail pos _ l

theorem tracks_forInStatement (hg : g.Agree bad) :
    Tracks bad u false (StmtRead bad u) (forInStatement g) (forInStatement g) := by
  have hplain : ∀ x ∈ varWords ++ ["in", "of"], (x == "++" || x == "--") = false := by decide
  refine .production (.located fun pos pos' => .word "for" rfl fun t ht => .skip "(" rfl fun a ha =>
    (Tracks.optional (.oneOf varWords)).bind fun s1 k k' hk => (Tracks.item (.kind .ident)).bind fun s2 n n' hn =>
      (Tracks.item (.oneOf ["in", "of"])).bind fun s3 o o' ho => (Tracks.item (tracks_expression hg)).bind
        fun s x x' hx => .skip ")" rfl fun b hb => (Tracks.item (hg.statement _)).map fun s4 y y' hy hpos => ?_)
  obtain ⟨rfl, hkind, hl, hn'⟩ := hn
  obtain ⟨rfl, hop, -, ho'⟩ := ho
  have hop := hplain _ (List.mem_append_right _ hop)
  have hpart (v : Option Token) := (Head.name (u := v) hl hkind).part.append
    (.cons hop (hx.head.part.append (.cons hb.plain (hy.body hb))))
  cases hk with
  | none =>
    refine ⟨⟨by simp [Stmt.unplaced, unplacedOption, Expr.unplaced, hx.same, hy.1.same, hn'.2, ho'.2], ?_⟩, hpos⟩
    refine (Head.cons ht.plain (.cons ha.plain (hpart _))).congr ?_ ?_ fun _ => by simp
    · simp +contextual
    · simp +contextual [hn'.2]
  | some h =>
    obtain ⟨rfl, hk, -, hk'⟩ := h
    have hk := hplain _ (List.mem_append_left _ hk)
    refine ⟨⟨?_, ?_⟩, hpos⟩
    · simp [Stmt.unplaced, unplacedOption, VarDecl.unplaced, unplacedDeclarators, hx.same, hy.1.same, hn'.2, ho'.2,
        hk'.2]
    · refine (Head.cons ht.plain (.cons ha.plain (.cons hk (hpart _)))).congr ?_ ?_ fun _ => by simp
      · simp +contextual
      · simp +contextual [hn'.2]

theorem tracks_forStatement (hg : g.Agree bad) :
    Tracks bad u false (StmtRead bad u) (forStatement g) (forStatement g) := by
  refine .production (.located fun pos pos' => .word "for" rfl fun t ht => .skip "(" rfl fun a ha =>
    (Tracks.optional (V := Carries Stmt.unplaced (Stmt.trail false) bad (some a)) (.production (.choice
      (.cons ((tracks_varDecl hg).map ?_) (.cons ((tracks_expression hg).map ?_) .nil))))).bind fun s1 i i' hi =>
        .skip ";" rfl fun c hc => (tracks_optionalExpression hg).bind fun s2 x x' hx => .skip ";" rfl fun d hd =>
          (tracks_optionalExpression hg).bind fun s3 z z' hz => .skip ")" rfl fun b hb =>
            (Tracks.item (hg.statement _)).map fun s4 y y' hy hpos => ?_)
  · intro s x x' hx
    exact ⟨by simp [Stmt.unplaced, hx.1.same], by simpa using hx.1.head.part⟩
  · intro s x x' hx
    exact ⟨by simp [Stmt.unplaced, hx.same], by simpa using hx.head.part⟩
  · have hpart := (hx.part.append (.cons hd.plain hz.part)).append
      (Part.cons (u := Token.after (some c) (s2 ++ d :: s3)) hb.plain (hy.body hb))
    rw [List.append_assoc, List.cons_append] at hpart
    cases hi with
    | none =>
      refine ⟨⟨by simp [Stmt.unplaced, hx.same, hz.same, hy.1.same], ?_⟩, hpos⟩
      refine (Head.cons ht.plain (.cons ha.plain (.cons hc.plain hpart))).congr ?_ ?_ fun _ => by simp
      · simp +contextual
      · simp +contextual
    | some hi =>
      refine ⟨⟨by simp [Stmt.unplaced, hx.same, hz.same, hy.1.same, hi.same], ?_⟩, hpos⟩
      refine (Head.cons ht.plain (.cons ha.plain (hi.part.append (.cons hc.plain hpart)))).congr ?_ ?_ fun _ => by simp
      · simp +contextual
      · simp +contextual

theorem tracks_statementRule (hg : g.Agree bad) :
    Tracks bad u false (StmtRead bad u) (statementRule g) (statementRule g) := by
  refine .production (.located fun pos pos' => .choice ?_)
  have hmono {p : Matcher (Checked Stmt)} (hp : Tracks bad u false (StmtRead bad u) p p) :
      Tracks bad u false (fun s x x' => (∀ t ∈ s.head?, t.pos = pos) → StmtRead bad u s x x') p p :=
    hp.mono fun _ _ _ h _ => h
  refine .cons ?_ (.cons (hmono (tracks_varStatement hg)) (.cons (hmono (tracks_ifStatement hg))
    (.cons (hmono (tracks_forInStatement hg)) (.cons (hmono (tracks_forStatement hg))
      (.cons (hmono (tracks_whileStatement hg)) (.cons (hmono (tracks_doStatement hg))
        (.cons (hmono (tracks_returnStatement hg)) (.cons (hmono ?_) (.cons (hmono ?_)
          (.cons (hmono (tracks_throwStatement hg)) (.cons (hmono (tracks_labeledStatement hg))
            (.cons (hmono (tracks_blockStatement hg)) (.cons ?_
            (.cons (hmono (tracks_exprStatement hg)) .nil))))))))))))))
  · refine (hg.function u).map fun s x x' hx hpos => ⟨⟨by simp [Stmt.unplaced, hx.1.same], ?_⟩, hpos⟩
    exact hx.1.head.congr (by simp) (by simp) fun _ => by simp
  · exact tracks_jumpStatement rfl (fun _ _ _ => rfl) (fun _ _ => rfl) (fun _ _ _ => rfl) u
  · exact tracks_jumpStatement rfl (fun _ _ _ => rfl) (fun _ _ => rfl) (fun _ _ _ => rfl) u
  · refine .word ";" rfl fun t ht => .value fun hpos => ⟨⟨rfl, ?_⟩, hpos⟩
    exact (Head.cons ht.plain (.nil (id : True → True))).congr (by simp) (by simp) fun _ => rfl

/-! ## The whole grammar -/

theorem agree_rules (bad : Position) (depth : Nat) : (rules depth).Agree bad := by
  have hnothing {α : Type} {u : Option Token} {V : List Token → α → α → Prop} :
      Tracks bad u false V nothing nothing := fun _ _ hc _ => .unmatched rfl hc rfl rfl
  induction depth with
  | zero => exact ⟨fun _ => hnothing, fun _ => hnothing, fun _ => hnothing, fun _ => hnothing, fun _ => hnothing⟩
  | succ depth ih =>
    exact ⟨fun _ => tracks_statementRule ih, fun _ => tracks_assignmentRule ih, fun _ => tracks_unaryRule ih,
      fun _ => tracks_chainHeadRule ih, fun _ => tracks_functionRule ih⟩

theorem tracks_script {ts ts' : List Token} (h : ts'.length = ts.length) :
    Tracks bad none true (Carries Script.unplaced (fun x => stmtTrail x.body) bad none) (script ts) (script ts') := by
  refine .production (.position fun pos pos' => ?_)
  rw [h]
  refine (tracks_statements (agree_rules bad _)).map fun s x x' hx => ⟨?_, ?_⟩
  · simp [Script.unplaced, hx.same]
  · simpa using hx.part

/-- What the grammar makes of tokens, and of tokens that are alike. -/
theorem ofTokens_alike {ts ts' : List Token} {x : Script} (h : Token.Alike bad none none ts ts')
    (hx : ofTokens ts = .ok x) :
    (∃ s e rest, ts = s ++ e :: rest ∧ e.kind = .eof ∧ Aligned none none s (stmtMarks x.body) ∧
      Spelled s (spots (Walk.stmts Walk.everywhere x.body))) ∧
      (.start false bad ∉ stmtMarks x.body → ∃ x', ofTokens ts' = .ok x' ∧ x'.unplaced = x.unplaced) := by
  have hstart : Follows bad { rest := ts } { rest := ts' } := ⟨h, .none, rfl⟩
  have hg := tracks_script h.length_eq hstart rfl
  unfold ofTokens Matcher.run at hx ⊢
  generalize script ts _ = r, script ts' _ = r' at hg hx ⊢
  cases hg with
  | @matched a a' d d' s hd hr hb hv =>
    by_cases heof : d.here.kind = .eof
    · -- The run ends in front of an end token, and so does the second one.
      have hrest := hd.rest
      cases hd' : d.rest with
      | nil =>
        rw [Context.here, hd'] at heof
        exact absurd heof (by decide)
      | cons e rest =>
        have hhere : d.here = e := by simp [Context.here, hd']
        rw [hhere] at heof
        rw [hd'] at hrest hr
        generalize hrest' : d'.rest = rest' at hrest
        cases hrest with
        | @cons _ _ _ e' _ _ he =>
          have heof' : d'.here.kind = .eof := by simp [Context.here, hrest', he.1, heof]
          obtain ⟨hfault, rfl⟩ : a.fault = none ∧ a.value = x := by
            simpa [hhere, heof, Checked.toExcept_eq_ok] using hx
          refine ⟨⟨s, e, rest, hr, heof, hv.part.aligned hfault, hv.part.named⟩, fun hm => ⟨a'.value, ?_, hv.same⟩⟩
          simpa [heof', Checked.toExcept_eq_ok] using hv.part.clean hfault hm
    · dsimp only at hx
      rw [if_neg heof] at hx
      by_cases hdepth : d.depth ≤ d.cursor
      · simp [hdepth] at hx
      · simp [hdepth] at hx
  | unmatched hs => cases hs
  | failed h => cases hx

end Grammar

end ScriptOptimizer
