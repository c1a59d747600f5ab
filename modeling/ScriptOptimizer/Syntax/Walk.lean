import ScriptOptimizer.Syntax.Tree

/-!
# Walking a tree

A walk lists the nodes of a tree in the order of the source, each before its children. Children of a
node that the walk does not enter are left out. Each node comes with the role that its parent gives it.
-/

namespace ScriptOptimizer

/-- A node of any kind. -/
inductive Node where
  | script (s : Script)
  | func (f : Func)
  | param (p : Param)
  | declarator (d : Declarator)
  | varDecl (d : VarDecl)
  | property (p : Property)
  | stmt (s : Stmt)
  | expr (e : Expr)

namespace Node

def pos : Node → Position
  | script s => s.pos
  | func f => f.pos
  | param p => p.pos
  | declarator d => d.pos
  | varDecl d => d.pos
  | property p => p.pos
  | stmt s => s.pos
  | expr e => e.pos

def kindName : Node → String
  | script _ => "Program"
  | func _ => "Function"
  | param _ => "Param"
  | declarator _ => "Declarator"
  | varDecl _ => "VarDecl"
  | property _ => "Property"
  | stmt s => s.kindName
  | expr e => e.kindName

end Node

/-- What a node is to its parent. -/
inductive Role where
  | plain
  /-- The function of a call or of a construction. -/
  | callee
  /-- The target of a loop over keys or values, which has no position of its own. -/
  | loopTarget
deriving DecidableEq, Repr

/-- A node on a walk. -/
structure Visit where
  role : Role
  node : Node

namespace Walk

/-- A node, followed by its children when the walk enters it. -/
def visit (enter : Node → Bool) (role : Role) (node : Node) (children : List Visit) : List Visit :=
  ⟨role, node⟩ :: if enter node then children else []

mutual

/-- The walk over an expression. -/
def expr (enter : Node → Bool) (role : Role) (e : Expr) : List Visit :=
  match e with
  | .hole => []
  | .array p es => visit enter role (.expr (.array p es)) (exprs enter es)
  | .object p ps => visit enter role (.expr (.object p ps)) (properties enter ps)
  | .spread p a => visit enter role (.expr (.spread p a)) (expr enter .plain a)
  | .function p f => visit enter role (.expr (.function p f)) (func enter f)
  | .unary p op a => visit enter role (.expr (.unary p op a)) (expr enter .plain a)
  | .update p op i t => visit enter role (.expr (.update p op i t)) (expr enter .plain t)
  | .binary p op l r =>
    visit enter role (.expr (.binary p op l r)) (expr enter .plain l ++ expr enter .plain r)
  | .logical p op l r =>
    visit enter role (.expr (.logical p op l r)) (expr enter .plain l ++ expr enter .plain r)
  | .assign p op t v =>
    visit enter role (.expr (.assign p op t v)) (expr enter .plain t ++ expr enter .plain v)
  | .conditional p t a b =>
    visit enter role (.expr (.conditional p t a b))
      (expr enter .plain t ++ expr enter .plain a ++ expr enter .plain b)
  | .call p c as =>
    visit enter role (.expr (.call p c as)) (expr enter .callee c ++ exprs enter as)
  | .construct p c none => visit enter role (.expr (.construct p c none)) (expr enter .callee c)
  | .construct p c (some as) =>
    visit enter role (.expr (.construct p c (some as))) (expr enter .callee c ++ exprs enter as)
  | .member p o n => visit enter role (.expr (.member p o n)) (expr enter .plain o)
  | .index p o k =>
    visit enter role (.expr (.index p o k)) (expr enter .plain o ++ expr enter .plain k)
  | .sequence p es => visit enter role (.expr (.sequence p es)) (exprs enter es)
  | .ident p n => [⟨role, .expr (.ident p n)⟩]
  | .literal p v => [⟨role, .expr (.literal p v)⟩]
  | .receiver p => [⟨role, .expr (.receiver p)⟩]
  | .raw p t => [⟨role, .expr (.raw p t)⟩]

/-- The walk over an optional expression. -/
def optExpr (enter : Node → Bool) (role : Role) : Option Expr → List Visit
  | none => []
  | some e => expr enter role e

/-- The walk over a list of expressions. -/
def exprs (enter : Node → Bool) : List Expr → List Visit
  | [] => []
  | e :: es => expr enter .plain e ++ exprs enter es

/-- The walk over the members of an object. -/
def properties (enter : Node → Bool) : List Property → List Visit
  | [] => []
  | .spread p v :: ps =>
    visit enter .plain (.property (.spread p v)) (expr enter .plain v) ++ properties enter ps
  | .computed p k v :: ps =>
    visit enter .plain (.property (.computed p k v))
      (expr enter .plain k ++ optExpr enter .plain v) ++ properties enter ps
  | .named p k v :: ps =>
    visit enter .plain (.property (.named p k v)) (optExpr enter .plain v) ++ properties enter ps

/-- The walk over a function. -/
def func (enter : Node → Bool) : Func → List Visit
  | ⟨p, i, n, ps, b, g⟩ =>
    visit enter .plain (.func ⟨p, i, n, ps, b, g⟩) (params enter ps ++ stmts enter b)

/-- The walk over parameters. -/
def params (enter : Node → Bool) : List Param → List Visit
  | [] => []
  | ⟨p, n, pat, d, r⟩ :: ps =>
    visit enter .plain (.param ⟨p, n, pat, d, r⟩)
      (optExpr enter .plain pat ++ optExpr enter .plain d) ++ params enter ps

/-- The walk over declarators, whose role comes from the declaration's parent. -/
def declarators (enter : Node → Bool) (role : Role) : List Declarator → List Visit
  | [] => []
  | ⟨p, n, pat, i⟩ :: ds =>
    visit enter role (.declarator ⟨p, n, pat, i⟩)
      (optExpr enter .plain pat ++ optExpr enter .plain i) ++ declarators enter role ds

/-- The walk over a variable declaration. -/
def varDecl (enter : Node → Bool) (role : Role) : VarDecl → List Visit
  | ⟨p, k, ds⟩ => visit enter .plain (.varDecl ⟨p, k, ds⟩) (declarators enter role ds)

/-- The walk over a statement. -/
def stmt (enter : Node → Bool) (s : Stmt) : List Visit :=
  match s with
  | .hole => []
  | .varDecl d => varDecl enter .plain d
  | .function p f => visit enter .plain (.stmt (.function p f)) (func enter f)
  | .block p sc b => visit enter .plain (.stmt (.block p sc b)) (stmts enter b)
  | .ifElse p t a none =>
    visit enter .plain (.stmt (.ifElse p t a none)) (expr enter .plain t ++ stmt enter a)
  | .ifElse p t a (some b) =>
    visit enter .plain (.stmt (.ifElse p t a (some b)))
      (expr enter .plain t ++ stmt enter a ++ stmt enter b)
  | .forLoop p sc none t u b =>
    visit enter .plain (.stmt (.forLoop p sc none t u b))
      (optExpr enter .plain t ++ optExpr enter .plain u ++ stmt enter b)
  | .forLoop p sc (some i) t u b =>
    visit enter .plain (.stmt (.forLoop p sc (some i) t u b))
      (stmt enter i ++ optExpr enter .plain t ++ optExpr enter .plain u ++ stmt enter b)
  | .forIn p sc o none t r b =>
    visit enter .plain (.stmt (.forIn p sc o none t r b))
      (optExpr enter .loopTarget t ++ expr enter .plain r ++ stmt enter b)
  | .forIn p sc o (some d) t r b =>
    visit enter .plain (.stmt (.forIn p sc o (some d) t r b))
      (varDecl enter .loopTarget d ++ optExpr enter .loopTarget t ++ expr enter .plain r ++
        stmt enter b)
  | .whileLoop p t b =>
    visit enter .plain (.stmt (.whileLoop p t b)) (expr enter .plain t ++ stmt enter b)
  | .doWhile p b t =>
    visit enter .plain (.stmt (.doWhile p b t)) (stmt enter b ++ expr enter .plain t)
  | .returnValue p a => visit enter .plain (.stmt (.returnValue p a)) (optExpr enter .plain a)
  | .throwValue p a => visit enter .plain (.stmt (.throwValue p a)) (expr enter .plain a)
  | .expr p x => visit enter .plain (.stmt (.expr p x)) (expr enter .plain x)
  | .labeled p l b => visit enter .plain (.stmt (.labeled p l b)) (stmt enter b)
  | .breakLoop p l => [⟨.plain, .stmt (.breakLoop p l)⟩]
  | .continueLoop p l => [⟨.plain, .stmt (.continueLoop p l)⟩]
  | .empty p => [⟨.plain, .stmt (.empty p)⟩]

/-- The walk over a list of statements. -/
def stmts (enter : Node → Bool) : List Stmt → List Visit
  | [] => []
  | s :: ss => stmt enter s ++ stmts enter ss

end

/-- The walk over a script. -/
def script (enter : Node → Bool) (s : Script) : List Visit :=
  visit enter .plain (.script s) (stmts enter s.body)

end Walk

end ScriptOptimizer
