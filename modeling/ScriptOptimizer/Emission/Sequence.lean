import ScriptOptimizer.Diagnostic.Fault
import ScriptOptimizer.Syntax.Tree

/-!
# Statements as expressions

The test of a loop is one expression, so the statements that compute it become a sequence. The names that
they declare are declared in front of the loop.
-/

namespace ScriptOptimizer.Sequence

/-- The expression of a statement, if it has one, and the names that it declares. -/
abbrev Converted := Option Expr × List String

/-- One expression for a list of them. -/
def ofList : List Expr → Option Expr
  | [] => none
  | [e] => some e
  | es => some (.sequence {} es)

/-- The value `undefined`. -/
def undefined : Expr := .literal {} .undefined

/-- The assignment that gives a declared name its initial value. -/
def initializer (d : Declarator) : Option Expr :=
  d.init.map fun e => .assign {} .set (.ident {} d.name) e

/-- The expression of an arm of a branch. -/
def value (x : Option Expr) : Expr := x.getD undefined

mutual

def stmt : Stmt → Except Broken Converted
  | .expr _ x => .ok (some x, [])
  | .varDecl d => .ok (ofList (d.decls.filterMap initializer), d.decls.map (·.name))
  | .ifElse _ test .hole b => do
    let (y, names) ← optStmt b
    return (some (.conditional {} test undefined (value y)), names)
  | .ifElse _ test a b => do
    let (x, names) ← stmt a
    let (y, more) ← optStmt b
    return (some (.conditional {} test (value x) (value y)), names ++ more)
  | .block _ _ b => do
    let (es, names) ← list b
    return (some (value (ofList es)), names)
  | s => .error (.notInTest s.kindName)

/-- The expression of a statement that may be missing. -/
def optStmt : Option Stmt → Except Broken Converted
  | none => .ok (none, [])
  | some s => stmt s

def list : List Stmt → Except Broken (List Expr × List String)
  | [] => .ok ([], [])
  | s :: ss => do
    let (x, names) ← stmt s
    let (es, more) ← list ss
    return (x.toList ++ es, names ++ more)

end

end ScriptOptimizer.Sequence
