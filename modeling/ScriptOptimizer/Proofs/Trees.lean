import ScriptOptimizer.Grammar.Statement
import ScriptOptimizer.Lowering.Script
import ScriptOptimizer.Proofs.Walks

/-!
# Rules on every node of a tree

`All` says of a tree that each of its nodes satisfies a rule. It does if the rule holds at the root and in
all parts of the tree.
-/

namespace ScriptOptimizer

variable {d : VarDecl}

/-- The expressions that are lowered as parts of an expression, in the same scope. -/
def Expr.parts : Expr → List Expr
  | array _ es | sequence _ es => es
  | object _ ps => ps.flatMap Lowering.memberExprs
  | spread _ a | unary _ _ a | update _ _ _ a | member _ a _ => [a]
  | binary _ _ a b | logical _ _ a b | assign _ _ a b | index _ a b => [a, b]
  | conditional _ a b c => [a, b, c]
  | call _ a es => a :: es
  | construct _ a es => a :: es.getD []
  | hole | ident .. | literal .. | receiver _ | function .. | raw .. => []

namespace Stmt

/-- The expressions that a statement holds. -/
def exprs : Stmt → List Expr
  | .expr _ e | .throwValue _ e | .ifElse _ e _ _ | .whileLoop _ e _ | .doWhile _ _ e => [e]
  | .forLoop _ _ _ t u _ => t.toList ++ u.toList
  | .forIn _ _ _ _ t e _ => t.toList ++ [e]
  | .returnValue _ e => e.toList
  | _ => []

/-- The statements that a statement holds. -/
def stmts : Stmt → List Stmt
  | .block _ _ list => list
  | .ifElse _ _ a b => a :: b.toList
  | .whileLoop _ _ a | .doWhile _ a _ | .forIn _ _ _ _ _ _ a | .labeled _ _ a => [a]
  | .forLoop _ _ init _ _ a => init.toList ++ [a]
  | _ => []

/-- The declaration that a statement is or holds. -/
def decl? : Stmt → Option VarDecl
  | .varDecl d => some d
  | .forIn _ _ _ d _ _ _ => d
  | _ => none

/-- Whether a statement is a node of its own. -/
def isNode : Stmt → Bool
  | .hole | .varDecl _ => false
  | _ => true

end Stmt

variable {P : Node → Prop}

/-- Every node of an expression satisfies a rule. -/
def Expr.All (P : Node → Prop) (e : Expr) : Prop :=
  ∀ v, v ∈ Walk.expr Walk.everywhere .plain e → P v.node

/-- Every node of a statement satisfies a rule. -/
def Stmt.All (P : Node → Prop) (s : Stmt) : Prop :=
  ∀ v, v ∈ Walk.stmt Walk.everywhere s → P v.node

/-- Every node of a function satisfies a rule. -/
def Func.All (P : Node → Prop) (f : Func) : Prop :=
  ∀ v, v ∈ Walk.func Walk.everywhere f → P v.node

/-- Every node of a variable declaration satisfies a rule. -/
def VarDecl.All (P : Node → Prop) (d : VarDecl) : Prop :=
  ∀ v, v ∈ Walk.varDecl Walk.everywhere .plain d → P v.node

/-- Every node of a script satisfies a rule. -/
def Script.All (P : Node → Prop) (s : Script) : Prop :=
  ∀ v, v ∈ Walk.script Walk.everywhere s → P v.node

/-! ## Rules along walks -/

namespace Walk

variable {role : Role}

attribute [local simp] expr optExpr properties func params declarators varDecl stmt

theorem forall_visit {node : Node} {vs : List Visit} :
    (∀ v, v ∈ visit everywhere role node vs → P v.node) ↔ P node ∧ ∀ v, v ∈ vs → P v.node := by
  simp [visit, everywhere]

theorem forall_expr {e : Expr} : (∀ v, v ∈ expr everywhere role e → P v.node) ↔ e.All P := by
  refine ⟨fun h v hv => ?_, fun h v hv => ?_⟩
  · obtain ⟨w, hw, hnode⟩ := expr_role role hv
    exact hnode ▸ h w hw
  · obtain ⟨w, hw, hnode⟩ := expr_role .plain hv
    exact hnode ▸ h w hw

theorem forall_optExpr {e : Option Expr} :
    (∀ v, v ∈ optExpr everywhere role e → P v.node) ↔ ∀ x, e = some x → x.All P := by
  cases e <;> simp [forall_expr]

theorem forall_exprs {es : List Expr} :
    (∀ v, v ∈ exprs everywhere es → P v.node) ↔ ∀ e, e ∈ es → e.All P := by
  simp only [mem_exprs, Expr.All]
  exact ⟨fun h e he v hv => h v ⟨e, he, hv⟩, fun h v ⟨e, he, hv⟩ => h e he v hv⟩

theorem forall_func {f : Func} : (∀ v, v ∈ func everywhere f → P v.node) ↔ f.All P := .rfl

theorem forall_stmt {s : Stmt} : (∀ v, v ∈ stmt everywhere s → P v.node) ↔ s.All P := .rfl

theorem forall_stmts {ss : List Stmt} :
    (∀ v, v ∈ stmts everywhere ss → P v.node) ↔ ∀ s, s ∈ ss → s.All P := by
  simp only [mem_stmts, Stmt.All]
  exact ⟨fun h s hs v hv => h v ⟨s, hs, hv⟩, fun h v ⟨s, hs, hv⟩ => h s hs v hv⟩

theorem forall_properties {ps : List Property} :
    (∀ v, v ∈ properties everywhere ps → P v.node) ↔
      (∀ x, x ∈ ps → P (.property x)) ∧ ∀ e, e ∈ ps.flatMap Lowering.memberExprs → e.All P := by
  induction ps with
  | nil => simp
  | cons x ps ih =>
    have hhole : Expr.All P .hole := nofun
    have hopt : ∀ e : Option Expr, (∀ x, e = some x → x.All P) ↔ (e.getD .hole).All P := by
      intro e
      cases e <;> simp [hhole]
    cases x <;>
      simp only [properties, List.forall_mem_append, forall_visit, ih, forall_expr, forall_optExpr, hopt,
        Lowering.memberExprs, List.flatMap_cons, List.forall_mem_cons] <;>
      grind

theorem forall_params {ps : List Param} :
    (∀ v, v ∈ params everywhere ps → P v.node) ↔ ∀ x, x ∈ ps → P (.param x) ∧
      (∀ e, x.pattern = some e → e.All P) ∧ ∀ e, x.default = some e → e.All P := by
  induction ps with
  | nil => simp
  | cons x ps ih =>
    cases x
    simp only [params, List.forall_mem_append, forall_visit, forall_optExpr, ih, List.forall_mem_cons]

theorem forall_declarators {ds : List Declarator} :
    (∀ v, v ∈ declarators everywhere role ds → P v.node) ↔ ∀ x, x ∈ ds → P (.declarator x) ∧
      (∀ e, x.pattern = some e → e.All P) ∧ ∀ e, x.init = some e → e.All P := by
  induction ds with
  | nil => simp
  | cons x ds ih =>
    cases x
    simp only [declarators, List.forall_mem_append, forall_visit, forall_optExpr, ih, List.forall_mem_cons]

theorem forall_varDecl : (∀ v, v ∈ varDecl everywhere role d → P v.node) ↔ d.All P := by
  cases d
  simp only [VarDecl.All, varDecl, forall_visit, forall_declarators]

end Walk

open Walk

attribute [local simp] forall_visit forall_expr forall_exprs forall_optExpr forall_properties forall_func
  forall_params forall_stmt forall_stmts forall_varDecl or_imp forall_and

/-! ## Expressions -/

/-- A rule that holds at an expression, at its members, and in its parts. -/
theorem Expr.all_iff {e : Expr} (he : e ≠ .hole) :
    e.All P ↔ P (.expr e) ∧ (∀ p ps, e = .object p ps → ∀ x, x ∈ ps → P (.property x)) ∧
      (∀ p f, e = .function p f → f.All P) ∧ ∀ a, a ∈ e.parts → a.All P := by
  change (∀ v, v ∈ Walk.expr _ _ _ → P v.node) ↔ _
  cases e with
  | hole => exact absurd rfl he
  | construct p a es => cases es <;> simp [Walk.expr, Expr.parts]
  | _ => simp [Walk.expr, Expr.parts]

namespace Expr.All

variable {e : Expr}

theorem hole : Expr.hole.All P := nofun

theorem self (h : e.All P) (he : e ≠ .hole) : P (.expr e) := ((all_iff he).mp h).1

theorem function {p : Position} {f : Func} (h : (Expr.function p f).All P) : f.All P :=
  ((all_iff Expr.noConfusion).mp h).2.2.1 p f rfl

/-- The rule holds in every part of an expression. -/
theorem part (h : e.All P) {a : Expr} (ha : a ∈ e.parts) : a.All P := by
  by_cases he : e = .hole
  · subst he
    cases ha
  · exact ((all_iff he).mp h).2.2.2 a ha

/-- A rule that holds at an expression, at the members of objects, and in the parts of the expression. -/
theorem intro (hnode : P (.expr e)) (hprops : ∀ p, P (.property p))
    (hfunc : ∀ p f, e = .function p f → f.All P) (hparts : ∀ a, a ∈ e.parts → a.All P) : e.All P := by
  by_cases he : e = .hole
  · exact he ▸ hole
  · exact (all_iff he).mpr ⟨hnode, fun _ _ _ x _ => hprops x, hfunc, hparts⟩

/-- A logical assignment assigns behind its test. -/
theorem logicalAssign {p : Position} {a b : Expr} {op : BinaryOp} {q : AssignOp} (hP : ∀ e, P (.expr e))
    (h : (Expr.assign p q a b).All P) : (Expr.logical p op a (.assign p .set a b)).All P := by
  simp only [all_iff, ne_eq, reduceCtorEq, not_false_eq_true, Expr.parts, false_imp_iff, implies_true,
    true_and, List.forall_mem_cons] at h ⊢
  exact ⟨hP _, h.2.1, ⟨hP _, h.2⟩, List.forall_mem_nil _⟩

end Expr.All

/-! ## Functions and declarations -/

/-- A rule that holds at a function and in its parts. -/
theorem Func.all_iff {f : Func} :
    f.All P ↔ P (.func f) ∧ (∀ x, x ∈ f.params → P (.param x) ∧ (∀ e, x.pattern = some e → e.All P) ∧
      ∀ e, x.default = some e → e.All P) ∧ ∀ s, s ∈ f.body → s.All P := by
  obtain ⟨p, i, name, ps, body, g⟩ := f
  simp [Func.All, Walk.func]

theorem VarDecl.all_iff :
    d.All P ↔ P (.varDecl d) ∧ ∀ x, x ∈ d.decls → P (.declarator x) ∧ (∀ e, x.pattern = some e → e.All P) ∧
      ∀ e, x.init = some e → e.All P := by
  obtain ⟨p, kind, ds⟩ := d
  change (∀ v, v ∈ Walk.varDecl _ _ _ → P v.node) ↔ _
  rw [Walk.varDecl, forall_visit, forall_declarators]

theorem Func.All.default {f : Func} (h : f.All P) {x : Param} {e : Expr} (hx : x ∈ f.params)
    (he : x.default = some e) : e.All P :=
  ((Func.all_iff.1 h).2.1 x hx).2.2 e he

theorem Func.All.body {f : Func} (h : f.All P) {s : Stmt} (hs : s ∈ f.body) : s.All P :=
  (Func.all_iff.1 h).2.2 s hs

/-- A rule that holds at a declaration without patterns, at what it declares, and in the initial values. -/
theorem VarDecl.All.intro (hnode : P (.varDecl d))
    (hdecls : ∀ x, x ∈ d.decls → P (.declarator x) ∧ x.pattern = none ∧ ∀ e, x.init = some e → e.All P) :
    d.All P :=
  VarDecl.all_iff.2 ⟨hnode, fun x hx => ⟨(hdecls x hx).1, by simp [(hdecls x hx).2.1], (hdecls x hx).2.2⟩⟩

/-! ## Statements -/

/-- A rule that holds at a statement and in its parts. -/
theorem Stmt.all_iff {s : Stmt} :
    s.All P ↔ (s.isNode = true → P (.stmt s)) ∧ (∀ d, s.decl? = some d → d.All P) ∧
      (∀ p f, s = .function p f → f.All P) ∧ (∀ e, e ∈ s.exprs → e.All P) ∧ ∀ a, a ∈ s.stmts → a.All P := by
  change (∀ v, v ∈ Walk.stmt _ _ → P v.node) ↔ _
  cases s with
  | ifElse p e a b => cases b <;> simp [Walk.stmt, isNode, decl?, exprs, stmts]
  | forLoop p scope init t u a =>
    cases init <;> simp [Walk.stmt, isNode, decl?, exprs, stmts, and_assoc, and_left_comm]
  | forIn p scope of d t e a => cases d <;> simp [Walk.stmt, isNode, decl?, exprs, stmts, and_assoc]
  | doWhile p a e => simp [Walk.stmt, isNode, decl?, exprs, stmts, and_comm]
  | _ => simp [Walk.stmt, isNode, decl?, exprs, stmts]

namespace Stmt.All

variable {s a : Stmt} {p : Position} {e : Expr} {scope : Option Nat}

theorem self (h : s.All P) (hs : s.isNode = true) : P (.stmt s) := (all_iff.1 h).1 hs

theorem decl (h : s.All P) (hd : s.decl? = some d) : d.All P := (all_iff.1 h).2.1 d hd

theorem exprs (h : s.All P) (he : e ∈ s.exprs) : e.All P := (all_iff.1 h).2.2.2.1 e he

theorem stmts (h : s.All P) (ha : a ∈ s.stmts) : a.All P := (all_iff.1 h).2.2.2.2 a ha

/-- A rule that holds at a statement and in its parts. -/
theorem intro (hnode : P (.stmt s)) (hdecl : ∀ d, s.decl? = some d → d.All P)
    (hfunc : ∀ p f, s = .function p f → f.All P) (hexprs : ∀ e, e ∈ s.exprs → e.All P)
    (hstmts : ∀ a, a ∈ s.stmts → a.All P) : s.All P :=
  all_iff.2 ⟨fun _ => hnode, hdecl, hfunc, hexprs, hstmts⟩

theorem varDecl (h : (Stmt.varDecl d).All P) {x : Declarator} (hx : x ∈ d.decls) (he : x.init = some e) :
    e.All P :=
  ((VarDecl.all_iff.1 h).2 x hx).2.2 e he

theorem function {f : Func} (h : (Stmt.function p f).All P) : f.All P := (all_iff.1 h).2.2.1 p f rfl

theorem block {list : List Stmt} (h : (Stmt.block p scope list).All P) (ha : a ∈ list) : a.All P := h.stmts ha

theorem ifElse {b : Option Stmt} (h : (Stmt.ifElse p e a b).All P) :
    e.All P ∧ a.All P ∧ ∀ x, b = some x → x.All P :=
  ⟨h.exprs (by simp [Stmt.exprs]), h.stmts (by simp [Stmt.stmts]), fun x hx => h.stmts (by simp [Stmt.stmts, hx])⟩

theorem whileLoop (h : (Stmt.whileLoop p e a).All P) : e.All P ∧ a.All P :=
  ⟨h.exprs (by simp [Stmt.exprs]), h.stmts (by simp [Stmt.stmts])⟩

theorem doWhile (h : (Stmt.doWhile p a e).All P) : a.All P ∧ e.All P :=
  ⟨h.stmts (by simp [Stmt.stmts]), h.exprs (by simp [Stmt.exprs])⟩

theorem forLoop {init : Option Stmt} {test update : Option Expr}
    (h : (Stmt.forLoop p scope init test update a).All P) :
    P (.stmt (.forLoop p scope init test update a)) ∧ (∀ x, init = some x → x.All P) ∧
      (∀ x, test = some x → x.All P) ∧ (∀ x, update = some x → x.All P) ∧ a.All P := by
  refine ⟨h.self rfl, fun x hx => h.stmts ?_, fun x hx => h.exprs ?_, fun x hx => h.exprs ?_, h.stmts ?_⟩ <;>
    simp_all [Stmt.exprs, Stmt.stmts, List.mem_append]

theorem forIn {of : Bool} {decl : Option VarDecl} {target : Option Expr}
    (h : (Stmt.forIn p scope of decl target e a).All P) : e.All P ∧ a.All P :=
  ⟨h.exprs (List.mem_append_right _ (List.mem_singleton_self e)), h.stmts (List.mem_singleton_self a)⟩

theorem returnValue {arg : Option Expr} (h : (Stmt.returnValue p arg).All P) :
    ∀ x, arg = some x → x.All P := fun x hx =>
  h.exprs (by simp [Stmt.exprs, hx])

theorem throwValue (h : (Stmt.throwValue p e).All P) : e.All P := h.exprs (List.mem_singleton_self e)

theorem expr (h : (Stmt.expr p e).All P) : e.All P := h.exprs (List.mem_singleton_self e)

/-- The statement that gives a parameter its default value. -/
theorem defaultStmt {x : Param} (hP : ∀ e, P (.expr e)) (hexpr : ∀ e, P (.stmt (.expr x.pos e)))
    (hif : ∀ e a, P (.stmt (.ifElse x.pos e a none))) (he : e.All P) : (Lowering.defaultStmt x e).All P := by
  have hset : (Expr.assign x.pos .set (.ident x.pos x.name) e).All P := by simp [Expr.all_iff, Expr.parts, hP, he]
  refine .intro (hif _ _) nofun nofun (List.forall_mem_singleton.mpr ?_) (List.forall_mem_singleton.mpr ?_)
  · simp [Expr.all_iff, Expr.parts, hP]
  · exact .intro (hexpr _) nofun nofun (List.forall_mem_singleton.mpr hset) nofun

end Stmt.All

/-- Every node of a statement of a script satisfies the rule. -/
theorem Script.All.body {x : Script} (h : x.All P) {s : Stmt} (hs : s ∈ x.body) : s.All P := by
  simp only [Script.All, Walk.script, forall_visit, forall_stmts] at h
  exact h.2 s hs

/-- Whether a statement is a declaration of variables or an expression. -/
def isPlainStart : Stmt → Bool
  | .varDecl _ | .expr .. => true
  | _ => false

/-- Whether a loop that a node is starts with a declaration or an expression, if with anything. -/
def startsPlain : Node → Bool
  | .stmt (.forLoop _ _ init _ _ _) => init.all isPlainStart
  | _ => true

/-- A text that passes a check is that of a script, which is lowered. -/
theorem Script.exists_lower (source : String) (P : Script → IR.Program → Bool)
    (h : (Script.parse "" source).toOption.any (fun x => x.lower.toOption.any (P x)) = true) :
    ∃ x p, Script.parse "" source = .ok x ∧ x.lower = .ok p ∧ P x p = true := by
  obtain ⟨x, hx, h⟩ := exists_ok h
  obtain ⟨p, hp, h⟩ := exists_ok h
  exact ⟨x, p, hx, hp, h⟩

end ScriptOptimizer
