import ScriptOptimizer.Proofs.OperatorChains
import ScriptOptimizer.Proofs.Walks
import ScriptOptimizer.Server.Semantic
import ScriptOptimizer.Token.Scan

/-!
# Marks of a tree in its tokens

Two trees are the same up to positions if they are equal without them. The marks of a tree name, in the
order of the source, the statements that start behind a header or in a list and the update operators. They
are aligned with tokens if each operator among these has its mark and each start is the start of a token.
The names that a client colors stand at tokens in the same order.
-/

namespace ScriptOptimizer

/-! ## Trees without positions -/

mutual

/-- An expression without positions. -/
def Expr.unplaced : Expr → Expr
  | .hole => .hole
  | .ident _ n => .ident {} n
  | .literal _ v => .literal {} v
  | .receiver _ => .receiver {}
  | .array _ es => .array {} (unplacedExprs es)
  | .object _ ps => .object {} (unplacedProperties ps)
  | .spread _ a => .spread {} a.unplaced
  | .function _ f => .function {} f.unplaced
  | .unary _ op a => .unary {} op a.unplaced
  | .update _ op i a => .update {} op i a.unplaced
  | .binary _ op a b => .binary {} op a.unplaced b.unplaced
  | .logical _ op a b => .logical {} op a.unplaced b.unplaced
  | .assign _ op a b => .assign {} op a.unplaced b.unplaced
  | .conditional _ e a b => .conditional {} e.unplaced a.unplaced b.unplaced
  | .call _ a es => .call {} a.unplaced (unplacedExprs es)
  | .construct _ a none => .construct {} a.unplaced none
  | .construct _ a (some es) => .construct {} a.unplaced (some (unplacedExprs es))
  | .member _ a n => .member {} a.unplaced n
  | .index _ a b => .index {} a.unplaced b.unplaced
  | .sequence _ es => .sequence {} (unplacedExprs es)
  | .raw _ t => .raw {} t

/-- Expressions without positions. -/
def unplacedExprs : List Expr → List Expr
  | [] => []
  | e :: es => e.unplaced :: unplacedExprs es

/-- An optional expression without positions. -/
def unplacedOption : Option Expr → Option Expr
  | none => none
  | some e => some e.unplaced

/-- Members of an object without positions. -/
def unplacedProperties : List Property → List Property
  | [] => []
  | .spread _ v :: ps => .spread {} v.unplaced :: unplacedProperties ps
  | .computed _ k v :: ps => .computed {} k.unplaced (unplacedOption v) :: unplacedProperties ps
  | .named _ k v :: ps => .named {} k (unplacedOption v) :: unplacedProperties ps

/-- A function without positions. -/
def Func.unplaced : Func → Func
  | ⟨_, i, n, ps, b, g⟩ => ⟨{}, i, n, unplacedParams ps, unplacedStmts b, g⟩

/-- Parameters without positions. -/
def unplacedParams : List Param → List Param
  | [] => []
  | ⟨_, n, p, d, r⟩ :: ps => ⟨{}, n, unplacedOption p, unplacedOption d, r⟩ :: unplacedParams ps

/-- Bindings without positions. -/
def unplacedDeclarators : List Declarator → List Declarator
  | [] => []
  | ⟨_, n, p, i⟩ :: ds => ⟨{}, n, unplacedOption p, unplacedOption i⟩ :: unplacedDeclarators ds

/-- A variable declaration without positions. -/
def VarDecl.unplaced : VarDecl → VarDecl
  | ⟨_, k, ds⟩ => ⟨{}, k, unplacedDeclarators ds⟩

/-- A statement without positions. -/
def Stmt.unplaced : Stmt → Stmt
  | .hole => .hole
  | .varDecl d => .varDecl d.unplaced
  | .function _ f => .function {} f.unplaced
  | .block _ s b => .block {} s (unplacedStmts b)
  | .ifElse _ t a none => .ifElse {} t.unplaced a.unplaced none
  | .ifElse _ t a (some b) => .ifElse {} t.unplaced a.unplaced (some b.unplaced)
  | .forLoop _ s none t u b => .forLoop {} s none (unplacedOption t) (unplacedOption u) b.unplaced
  | .forLoop _ s (some i) t u b =>
    .forLoop {} s (some i.unplaced) (unplacedOption t) (unplacedOption u) b.unplaced
  | .forIn _ s o none t r b => .forIn {} s o none (unplacedOption t) r.unplaced b.unplaced
  | .forIn _ s o (some d) t r b => .forIn {} s o (some d.unplaced) (unplacedOption t) r.unplaced b.unplaced
  | .whileLoop _ t b => .whileLoop {} t.unplaced b.unplaced
  | .doWhile _ b t => .doWhile {} b.unplaced t.unplaced
  | .breakLoop _ l => .breakLoop {} l
  | .continueLoop _ l => .continueLoop {} l
  | .returnValue _ e => .returnValue {} (unplacedOption e)
  | .throwValue _ e => .throwValue {} e.unplaced
  | .expr _ e => .expr {} e.unplaced
  | .empty _ => .empty {}
  | .labeled _ l b => .labeled {} l b.unplaced

/-- Statements without positions. -/
def unplacedStmts : List Stmt → List Stmt
  | [] => []
  | s :: ss => s.unplaced :: unplacedStmts ss

end

/-- A script without positions. -/
def Script.unplaced (x : Script) : Script := ⟨{}, unplacedStmts x.body⟩

/-! ## Marks -/

/-- A mark of a tree in its tokens. -/
inductive Mark where
  /-- The start of a statement, as the body behind a header or as an item of a list. -/
  | start (isBody : Bool) (pos : Position)
  /-- An update operator, in front of its target or behind it; `leads` if nothing but parentheses stands
  between it and the header whose body it starts. -/
  | update (op : UpdateOp) (inFront leads : Bool)
deriving DecidableEq

mutual

def Expr.marks (leads : Bool) : Expr → List Mark
  | .array _ es => exprMarks false es
  | .object _ ps => propertyMarks ps
  | .spread _ a | .unary _ _ a => a.marks false
  | .function _ f => f.marks
  | .update _ op true a => .update op true leads :: a.marks false
  | .update _ op false a => a.marks leads ++ [.update op false false]
  | .binary _ _ a b | .logical _ _ a b | .assign _ _ a b | .index _ a b => a.marks leads ++ b.marks false
  | .conditional _ e a b => e.marks leads ++ (a.marks false ++ b.marks false)
  | .call _ a es => a.marks leads ++ exprMarks false es
  | .construct _ a none => a.marks false
  | .construct _ a (some es) => a.marks false ++ exprMarks false es
  | .member _ a _ => a.marks leads
  | .sequence _ es => exprMarks leads es
  | .hole | .ident .. | .literal .. | .receiver _ | .raw .. => []

def exprMarks (leads : Bool) : List Expr → List Mark
  | [] => []
  | e :: es => e.marks leads ++ exprMarks false es

def optionMarks : Option Expr → List Mark
  | none => []
  | some e => e.marks false

/-- The marks of the members of an object. -/
def propertyMarks : List Property → List Mark
  | [] => []
  | .spread _ v :: ps => v.marks false ++ propertyMarks ps
  | .computed _ k v :: ps => k.marks false ++ optionMarks v ++ propertyMarks ps
  | .named _ _ v :: ps => optionMarks v ++ propertyMarks ps

def Func.marks : Func → List Mark
  | ⟨_, _, _, ps, b, _⟩ => paramMarks ps ++ stmtMarks b

def paramMarks : List Param → List Mark
  | [] => []
  | ⟨_, _, p, d, _⟩ :: ps => optionMarks p ++ optionMarks d ++ paramMarks ps

/-- The marks of bindings. -/
def declaratorMarks : List Declarator → List Mark
  | [] => []
  | ⟨_, _, p, i⟩ :: ds => optionMarks p ++ optionMarks i ++ declaratorMarks ds

def Stmt.marks (leads : Bool) : Stmt → List Mark
  | .varDecl ⟨_, _, ds⟩ => declaratorMarks ds
  | .function _ f => f.marks
  | .block _ _ b => stmtMarks b
  | .ifElse _ t a none => t.marks false ++ .start true a.pos :: a.marks true
  | .ifElse _ t a (some b) => t.marks false ++ .start true a.pos :: (a.marks true ++ b.marks false)
  | .forLoop _ _ none t u b => optionMarks t ++ optionMarks u ++ .start true b.pos :: b.marks true
  | .forLoop _ _ (some i) t u b =>
    i.marks false ++ (optionMarks t ++ optionMarks u ++ .start true b.pos :: b.marks true)
  | .forIn _ _ _ _ _ r b => r.marks false ++ .start true b.pos :: b.marks true
  | .whileLoop _ t b => t.marks false ++ .start true b.pos :: b.marks true
  | .doWhile _ b t => b.marks false ++ t.marks false
  | .returnValue _ e => optionMarks e
  | .throwValue _ e => e.marks false
  | .expr _ e => e.marks leads
  | .labeled _ _ b => b.marks false
  | .hole | .breakLoop .. | .continueLoop .. | .empty _ => []

def stmtMarks : List Stmt → List Mark
  | [] => []
  | s :: ss => .start false s.pos :: (s.marks false ++ stmtMarks ss)

end

section Starts

-- The equations of both families are worked out here, in front of the proofs that share them.
attribute [local simp] Expr.unplaced unplacedExprs unplacedOption unplacedProperties Func.unplaced unplacedParams
  unplacedDeclarators VarDecl.unplaced Stmt.unplaced unplacedStmts
attribute [local simp] Expr.marks exprMarks optionMarks propertyMarks Func.marks paramMarks declaratorMarks Stmt.marks
  stmtMarks

/-- Where statements start does not depend on what leads to an expression. -/
theorem Expr.start_mem_marks {b : Bool} {p : Position} : (e : Expr) → .start b p ∈ e.marks false →
    .start b p ∈ e.marks true
  | .update _ _ true a, h => by simpa [marks] using h
  | .update _ _ false a, h => by
    simp only [marks, List.mem_append] at h ⊢
    exact h.imp_left a.start_mem_marks
  | .binary _ _ a c, h | .logical _ _ a c, h | .assign _ _ a c, h | .index _ a c, h => by
    simp only [marks, List.mem_append] at h ⊢
    exact h.imp_left a.start_mem_marks
  | .conditional _ e a c, h => by
    simp only [marks, List.mem_append] at h ⊢
    exact h.imp_left e.start_mem_marks
  | .call _ a es, h => by
    simp only [marks, List.mem_append] at h ⊢
    exact h.imp_left a.start_mem_marks
  | .member _ a _, h => a.start_mem_marks h
  | .sequence _ [], h => h
  | .sequence _ (e :: es), h => by
    simp only [marks, exprMarks, List.mem_append] at h ⊢
    exact h.imp_left e.start_mem_marks
  | .array _ _, h | .object _ _, h | .spread _ _, h | .unary _ _ _, h | .function _ _, h => h
  | .construct _ _ none, h | .construct _ _ (some _), h => h

theorem Stmt.start_mem_marks {b : Bool} {p : Position} (s : Stmt) (h : .start b p ∈ s.marks false) :
    .start b p ∈ s.marks true := by
  cases s with
  | expr _ e => exact e.start_mem_marks h
  | ifElse _ _ _ e => cases e <;> exact h
  | forLoop _ _ i => cases i <;> exact h
  | varDecl d =>
    cases d
    exact h
  | _ => exact h

end Starts

/-! ## Names -/

/-- Where a name is said to stand, and the name. -/
abbrev Spot := Position × String

/-- The names to classify on a walk. -/
def spots (vs : List Visit) : List Spot := (vs.filterMap Semantic.label?).map fun l => (l.pos, l.name)

@[simp] theorem spots_append (vs ws : List Visit) : spots (vs ++ ws) = spots vs ++ spots ws := by
  simp [spots]

@[simp] theorem spots_nil : spots [] = [] := rfl

@[simp] theorem spots_ident (p : Position) (n : String) : spots [⟨.plain, .expr (.ident p n)⟩] = [(p, n)] := rfl

@[simp] theorem spots_visit (role : Role) (node : Node) (vs : List Visit) :
    spots (Walk.visit Walk.everywhere role node vs) =
      ((Semantic.label? ⟨role, node⟩).map fun l => (l.pos, l.name)).toList ++ spots vs := by
  cases h : Semantic.label? ⟨role, node⟩ <;> simp [spots, Walk.visit, Walk.everywhere, h]

@[simp] theorem spots_callee (e : Expr) :
    spots (Walk.expr Walk.everywhere .callee e) = spots (Walk.expr Walk.everywhere .plain e) := by
  cases e with
  | construct _ _ es => cases es <;> rfl
  | _ => rfl

/-- The marks and the names of a part of a tree. -/
structure Trail where
  marks : List Mark := []
  names : List Spot := []

namespace Trail

instance : Append Trail := ⟨fun a b => ⟨a.marks ++ b.marks, a.names ++ b.names⟩⟩

@[simp] theorem mk_append (m1 m2 : List Mark) (n1 n2 : List Spot) :
    (⟨m1, n1⟩ ++ ⟨m2, n2⟩ : Trail) = ⟨m1 ++ m2, n1 ++ n2⟩ := rfl

@[simp] theorem append_nil (a : Trail) : a ++ {} = a := congrArg₂ mk (List.append_nil _) (List.append_nil _)

/-- A mark in front of others. -/
def mark (m : Mark) (a : Trail) : Trail := ⟨m :: a.marks, a.names⟩

end Trail

/-- The marks and names of an expression. -/
def Expr.trail (leads : Bool) (e : Expr) : Trail := ⟨e.marks leads, spots (Walk.expr Walk.everywhere .plain e)⟩

/-- The marks and names of some expressions. -/
def exprTrail (leads : Bool) (es : List Expr) : Trail := ⟨exprMarks leads es, spots (Walk.exprs Walk.everywhere es)⟩

/-- The marks and names of an optional expression. -/
def optionTrail (e : Option Expr) : Trail := ⟨optionMarks e, spots (Walk.optExpr Walk.everywhere .plain e)⟩

/-- The marks and names of the members of an object. -/
def propertyTrail (ps : List Property) : Trail := ⟨propertyMarks ps, spots (Walk.properties Walk.everywhere ps)⟩

/-- The marks and names of a function. -/
def Func.trail (f : Func) : Trail := ⟨f.marks, spots (Walk.func Walk.everywhere f)⟩

/-- The marks and names of parameters. -/
def paramTrail (ps : List Param) : Trail := ⟨paramMarks ps, spots (Walk.params Walk.everywhere ps)⟩

/-- The marks and names of bindings. -/
def declaratorTrail (ds : List Declarator) : Trail :=
  ⟨declaratorMarks ds, spots (Walk.declarators Walk.everywhere .plain ds)⟩

/-- The marks and names of a statement. -/
def Stmt.trail (leads : Bool) (s : Stmt) : Trail := ⟨s.marks leads, spots (Walk.stmt Walk.everywhere s)⟩

/-- The marks and names of a list of statements. -/
def stmtTrail (ss : List Stmt) : Trail := ⟨stmtMarks ss, spots (Walk.stmts Walk.everywhere ss)⟩

namespace Link

/-- The marks and names of the operands of links. -/
def trail (links : List Link) : Trail :=
  ⟨links.flatMap (·.right.marks false), links.flatMap fun k => spots (Walk.expr Walk.everywhere .plain k.right)⟩

/-- An operator chain has the marks and names of its operands. -/
theorem trail_tree (first : Expr) (links : List Link) (l : Bool) :
    (tree first links).trail l = first.trail l ++ trail links := by
  obtain ⟨g, rfl, rfl, -, htree⟩ := exists_grouping first links
  rw [htree]
  clear htree
  induction g generalizing l with
  | operand e => simp [Grouping.expr, Grouping.first, Grouping.links, Expr.trail, trail]
  | node a p op b iha ihb =>
    have hcombine : (Grouping.node a p op b).expr.trail l = a.expr.trail l ++ b.expr.trail false := by
      rw [Grouping.expr, combine]
      split <;> simp [Expr.trail, Expr.marks, Walk.expr, Semantic.label?]
    rw [hcombine, iha, ihb]
    simp [Grouping.first, Grouping.links, Expr.trail, trail]

/-- A link without positions. -/
def unplaced (x : Link) : Link := ⟨{}, x.op, x.right.unplaced⟩

end Link

namespace Grouping

/-- A grouping without positions. -/
def unplaced : Grouping → Grouping
  | operand e => operand e.unplaced
  | node a _ op b => node a.unplaced {} op b.unplaced

theorem first_unplaced (g : Grouping) : g.unplaced.first = g.first.unplaced := by
  induction g with
  | operand => rfl
  | node _ _ _ _ iha => exact iha

theorem links_unplaced (g : Grouping) : g.unplaced.links = g.links.map Link.unplaced := by
  induction g with
  | operand => rfl
  | node a p op b iha ihb => simp [unplaced, links, iha, ihb, first_unplaced, Link.unplaced]

theorem respects_unplaced {g : Grouping} (h : g.Respects) : g.unplaced.Respects := by
  have hlevel : ∀ g : Grouping, g.unplaced.level? = g.level? := by
    intro g
    cases g <;> rfl
  induction g with
  | operand => trivial
  | node a p op b iha ihb =>
    obtain ⟨ha, hb, hl, hr⟩ := h
    refine ⟨iha ha, ihb hb, ?_, ?_⟩
    · rw [hlevel]
      exact hl
    · rw [hlevel]
      exact hr

theorem expr_unplaced (g : Grouping) : g.unplaced.expr = g.expr.unplaced := by
  induction g with
  | operand => rfl
  | node a p op b iha ihb =>
    simp only [unplaced, expr, Link.combine, iha, ihb]
    split <;> rfl

end Grouping

theorem Link.unplaced_tree (first : Expr) (links : List Link) :
    (tree first links).unplaced = tree first.unplaced (links.map Link.unplaced) := by
  obtain ⟨g, rfl, rfl, hg, htree⟩ := exists_grouping first links
  obtain ⟨h, hfirst, hlinks, hh, htree'⟩ := exists_grouping g.first.unplaced (g.links.map Link.unplaced)
  have heq : h = g.unplaced := hh.unique (Grouping.respects_unplaced hg)
    (hfirst.trans g.first_unplaced.symm) (hlinks.trans g.links_unplaced.symm)
  rw [htree, htree', heq, g.expr_unplaced]

/-! ## Alignment with tokens -/

/-- Whether a token is an update operator. -/
def Token.isUpdate (t : Token) : Bool := t.text == "++" || t.text == "--"

/-- The token in front of what follows some tokens. -/
def Token.after (u : Option Token) : List Token → Option Token
  | [] => u
  | t :: ts => after (some t) ts

/-- An expression can end with a token: a property name may be any word. -/
def EndsExpr (u : Option Token) : Prop := ∃ v ∈ u, v.kind = .ident ∨ Scan.endsOperand v = true

/-- The body of a header or an expression in parentheses can start behind a token. -/
def OpensExpr (u : Option Token) : Prop := ∃ v ∈ u, v.text = ")" ∨ v.text = "("

/-- Marks in the order of the tokens behind `u`: a token has at most one start, and an operator its mark.
The first argument is the start that the first token has already. -/
inductive Aligned : Option Bool → Option Token → List Token → List Mark → Prop where
  | nil {k : Option Bool} {u : Option Token} : Aligned k u [] []
  | plain {k : Option Bool} {u : Option Token} {t : Token} {ts : List Token} {ms : List Mark}
      (ht : t.isUpdate = false) (h : Aligned none (some t) ts ms) : Aligned k u (t :: ts) ms
  | update {k : Option Bool} {u : Option Token} {t : Token} {ts : List Token} {ms : List Mark} {i l : Bool}
      (ht : t.isUpdate = true) (hi : i = false → EndsExpr u) (hk : k = some true → l = true)
      (hl : l = true → OpensExpr u) (h : Aligned none (some t) ts ms) :
      Aligned k u (t :: ts) (.update (.ofSymbol t.text) i l :: ms)
  | start {u : Option Token} {t : Token} {ts : List Token} {ms : List Mark} (b : Bool)
      (hb : b = true → ∃ v ∈ u, v.text = ")") (h : Aligned (some b) u (t :: ts) ms) :
      Aligned none u (t :: ts) (.start b t.pos :: ms)

variable {u : Option Token} {t : Token} {s s1 s2 : List Token} {ms m1 m2 : List Mark} {k : Option Bool}

theorem Token.after_append : (s1 s2 : List Token) → (u : Option Token) →
    after u (s1 ++ s2) = after (after u s1) s2
  | [], _, _ => rfl
  | t :: s1, s2, _ => after_append s1 s2 (some t)

theorem Aligned.append (h1 : Aligned k u s1 m1) (hk : s1 = [] → k = none)
    (h2 : Aligned none (Token.after u s1) s2 m2) : Aligned k u (s1 ++ s2) (m1 ++ m2) := by
  induction h1 with
  | nil =>
    rw [hk rfl]
    exact h2
  | plain ht _ ih => exact .plain ht (ih (fun _ => rfl) h2)
  | update ht hi hlead hl _ ih => exact .update ht hi hlead hl (ih (fun _ => rfl) h2)
  | start b hb _ ih => exact .start b hb (ih nofun h2)

/-! ## Names at tokens -/

/-- A name stands at the first of some tokens: as a word, as another key, or as the word behind the mark of a
rest parameter. The last argument is the tokens behind it. -/
inductive Stands : Spot → List Token → List Token → Prop where
  | word {t : Token} {ts : List Token} (h : t.kind = .ident) : Stands (t.pos, t.text) (t :: ts) ts
  | key {t : Token} {ts : List Token} {name : String}
      (h : t.kind = .string ∧ (∃ v, Quoted.decodeLiteral t.text = .ok v ∧ v.shown = name) ∨
        t.kind = .number ∧ ∃ x, Number.read? t.text = some x ∧ Number.display x = name)
      (hname : isIdentifierName name = true) : Stands (t.pos, name) (t :: ts) ts
  | rest {t n : Token} {ts : List Token} (h : t.text = "...") (hn : n.kind = .ident) :
      Stands ({ t.pos with column := t.pos.column + Semantic.restWidth }, n.text) (t :: n :: ts) ts

/-- Names that stand at tokens, in their order. -/
inductive Spelled : List Token → List Spot → Prop where
  | nil {ts : List Token} : Spelled ts []
  | skip {t : Token} {ts : List Token} {ns : List Spot} (h : Spelled ts ns) : Spelled (t :: ts) ns
  | cons {n : Spot} {s ts : List Token} {ns : List Spot} (hn : Stands n s ts) (h : Spelled ts ns) : Spelled s (n :: ns)

theorem Stands.append {n : Spot} (h : Stands n s1 s) (s2 : List Token) : Stands n (s1 ++ s2) (s ++ s2) := by
  cases h with
  | word h => exact .word h
  | key h hname => exact .key h hname
  | rest h hn => exact .rest h hn

theorem Spelled.append {n1 n2 : List Spot} (h1 : Spelled s1 n1) (h2 : Spelled s2 n2) :
    Spelled (s1 ++ s2) (n1 ++ n2) := by
  induction h1 with
  | @nil ts =>
    induction ts with
    | nil => exact h2
    | cons _ _ ih => exact .skip ih
  | skip _ ih => exact .skip ih
  | cons hn _ ih => exact .cons (hn.append s2) ih

/-! ## Parts of a tree -/

/-- What some tokens spell: marks that are aligned with the tokens if a condition holds, and names. A second
condition follows then, unless an item starts at the place `bad`. -/
structure Part (bad : Position) (u : Option Token) (s : List Token) (ok ok' : Prop) (a : Trail) : Prop where
  clean : ok → .start false bad ∉ a.marks → ok'
  aligned : ok → Aligned none u s a.marks
  named : Spelled s a.names

/-- What some tokens spell that a header or an opening parenthesis may lead to. -/
structure Head (bad : Position) (u : Option Token) (s : List Token) (ok ok' : Prop) (m : Bool → Trail) : Prop where
  nonempty : s ≠ []
  clean : ok → .start false bad ∉ (m false).marks → ok'
  aligned : ok → ∀ k l, (k = some true → l = true) → (l = true → OpensExpr u) → Aligned k u s (m l).marks
  named (l : Bool) : Spelled s (m l).names

variable {bad : Position} {ok ok' ok1 ok1' ok2 ok2' : Prop} {a a1 a2 : Trail} {m : Bool → Trail}

namespace Part

theorem nil (h : ok → ok') : Part bad u [] ok ok' {} := ⟨fun ho _ => h ho, fun _ => .nil, .nil⟩

theorem token (ht : t.isUpdate = false) : Part bad u [t] True True {} :=
  ⟨fun _ _ => trivial, fun _ => .plain ht .nil, .nil⟩

theorem append (h1 : Part bad u s1 ok1 ok1' a1) (h2 : Part bad (Token.after u s1) s2 ok2 ok2' a2) :
    Part bad u (s1 ++ s2) (ok1 ∧ ok2) (ok1' ∧ ok2') (a1 ++ a2) where
  clean ho hm :=
    have hm := fun h => hm (List.mem_append.mpr h)
    ⟨h1.clean ho.1 fun h => hm (.inl h), h2.clean ho.2 fun h => hm (.inr h)⟩
  aligned ho := (h1.aligned ho.1).append (fun _ => rfl) (h2.aligned ho.2)
  named := h1.named.append h2.named

end Part

namespace Head

theorem part (h : Head bad u s ok ok' m) : Part bad u s ok ok' (m false) :=
  ⟨h.clean, fun ho => h.aligned ho none false nofun nofun, h.named false⟩

theorem append {m1 : Bool → Trail} (h1 : Head bad u s1 ok1 ok1' m1)
    (h2 : Part bad (Token.after u s1) s2 ok2 ok2' a2) :
    Head bad u (s1 ++ s2) (ok1 ∧ ok2) (ok1' ∧ ok2') fun l => m1 l ++ a2 where
  nonempty := by simp [h1.nonempty]
  clean := (h1.part.append h2).clean
  aligned ho k l hk hl := (h1.aligned ho.1 k l hk hl).append (fun h => absurd h h1.nonempty) (h2.aligned ho.2)
  named l := (h1.named l).append h2.named

/-- A token in front leads to nothing. -/
theorem cons (ht : t.isUpdate = false) (h : Part bad (some t) s ok ok' a) :
    Head bad u (t :: s) ok ok' fun _ => a :=
  ⟨nofun, h.clean, fun ho _ _ _ _ => .plain ht (h.aligned ho), fun _ => .skip h.named⟩

/-- An update operator in front of its target. -/
theorem update (ht : t.isUpdate = true) (h : Part bad (some t) s ok ok' a) :
    Head bad u (t :: s) ok ok' fun l => a.mark (.update (.ofSymbol t.text) true l) where
  nonempty := nofun
  clean ho hm := h.clean ho fun h => hm (List.mem_cons_of_mem _ h)
  aligned ho _ _ hk hl := .update ht nofun hk hl (h.aligned ho)
  named _ := .skip h.named

/-- An opening parenthesis leads to what stands behind it as well. -/
theorem paren (ht : t.text = "(") (h : Head bad (some t) s ok ok' m) : Head bad u (t :: s) ok ok' m where
  nonempty := nofun
  clean := h.clean
  aligned ho _ l _ _ := by
    refine .plain (by simp [Token.isUpdate, ht]) (h.aligned ho none l nofun fun _ => ?_)
    exact ⟨t, rfl, .inr ht⟩
  named l := .skip (h.named l)

/-- The start of a statement. -/
theorem start {b : Bool} {p : Position} (h : Head bad u s ok ok' m) (hp : ∀ t ∈ s.head?, t.pos = p)
    (hb : b = true → ∃ v ∈ u, v.text = ")")
    (hm : .start false bad ∈ (m false).marks → .start false bad ∈ (m true).marks) :
    Part bad u s ok ok' ((m b).mark (.start b p)) where
  clean ho hnot := by
    refine h.clean ho fun hf => hnot (List.mem_cons_of_mem _ ?_)
    cases b with
    | false => exact hf
    | true => exact hm hf
  aligned ho := by
    obtain ⟨t, ts, rfl⟩ := List.exists_cons_of_ne_nil h.nonempty
    rw [← hp t rfl]
    refine .start b hb (h.aligned ho (some b) b (by simp) fun hl => ?_)
    obtain ⟨v, hv, ht⟩ := hb hl
    exact ⟨v, hv, .inl ht⟩
  named := h.named b

end Head

end ScriptOptimizer
