import ScriptOptimizer.Grammar.Expression
import ScriptOptimizer.Token.Scan

/-!
# The grammar of statements and scripts

`parse` reads a whole source: it scans the tokens, matches them against the grammar, and checks what the
grammar alone does not.
-/

namespace ScriptOptimizer.Grammar

/-- What a binding declares: a name, or a pattern. -/
def bindingTarget (g : Rules) : Matcher (Checked (String × Option Expr)) := .production do
  let pos ← Matcher.position
  let name : Matcher (Checked (String × Option Expr)) := do
    let t ← Matcher.kind .ident
    return do return (← checkName t.text pos, none)
  let array : Matcher (Checked (String × Option Expr)) := do
    let p ← arrayLit g
    return do return ("", some (← p))
  let object : Matcher (Checked (String × Option Expr)) := do
    let p ← objectLit g
    return do return ("", some (← p))
  .choice [name, array, object]

/-- The initial value of a binding. -/
def initializer (g : Rules) : Matcher (Option (Checked Expr)) := Matcher.optional do
  let _ ← Matcher.text "="
  .item g.assignment

def param (g : Rules) : Matcher (Checked Param) := .production do
  let pos ← Matcher.position
  let rest ← Matcher.optional (.text "...")
  let target ← .item (bindingTarget g)
  let default ← initializer g
  return do
    let (name, pattern) ← target
    return ⟨pos, name, pattern, ← Checked.option default, rest.isSome⟩

/-- One statement of a list, and whether a statement may follow it without a separator. -/
structure Item where
  pos : Position
  before : Option Token
  first : Token
  stmt : Checked Stmt

/-- The token at the cursor. -/
def nextToken : Matcher Token := fun c => (.matched c.here, c)

/-- A statement with the tokens around its start. -/
def statementItem (g : Rules) : Matcher Item := do
  let before ← Matcher.previous
  let first ← nextToken
  let stmt ← g.statement
  return ⟨first.pos, before, first, stmt⟩

/-- Whether a statement stands apart from the token in front of it: behind a semicolon or a closing
brace, or on a later line. -/
def Item.isSeparate (i : Item) : Bool :=
  match i.before with
  | none => true
  | some t => t.isPunct ";" || t.isPunct "\x7d" || t.lineBreakBetween i.first

/-- Whether a statement needs no separator behind it. -/
def endsItself : Stmt → Bool
  | .doWhile .. => true
  | _ => false

/-- Checks that the statements of a list stand apart. -/
def checkItems (before : Option Stmt) : List Item → Checked (List Stmt)
  | [] => pure []
  | i :: is => do
    if let some s := before then
      if !endsItself s && !i.isSeparate then Checked.fail (.malformed .missingSeparator) i.pos
    let s ← i.stmt
    return s :: (← checkItems (some s) is)

def statements (g : Rules) : Matcher (Checked (List Stmt)) := do
  let list ← Matcher.many (statementItem g)
  return checkItems none list

def functionRule (g : Rules) : Matcher (Checked Func) := .production do
  let pos ← Matcher.position
  let _ ← Matcher.text "function"
  let star ← Matcher.optional (.text "*")
  let name ← Matcher.optional (.kind .ident)
  let _ ← Matcher.item (.text "(")
  let params ← Matcher.optional (.list "," (param g))
  let _ ← Matcher.item (.text ")")
  let _ ← Matcher.item (.text "\x7b")
  let body ← statements g
  let _ ← Matcher.item (.text "\x7d")
  return do
    let name ← match name with
      | some t => checkName t.text pos
      | none => pure ""
    let params ← Checked.list (params.getD [])
    let body ← body
    return ⟨pos, none, name, params, body, star.isSome⟩

/-- One binding of a variable declaration. -/
def declarator (g : Rules) : Matcher (Checked Declarator) := .production do
  let pos ← Matcher.position
  let target ← bindingTarget g
  let init ← initializer g
  return do
    let (name, pattern) ← target
    return ⟨pos, name, pattern, ← Checked.option init⟩

/-- The keywords of variable declarations. -/
def varWords : List String := ["var", "let", "const"]

/-- A variable declaration. -/
def varDecl (g : Rules) : Matcher (Checked VarDecl) := .production do
  let pos ← Matcher.position
  let kind ← Matcher.oneOf varWords
  let decls ← Matcher.item (.list "," (declarator g))
  return do return ⟨pos, .ofWord kind.text, ← Checked.list decls⟩

def semicolon : Matcher (Option Token) := Matcher.optional (.text ";")

/-- A later text of a sequence. -/
def expect (s : String) : Matcher Token := Matcher.item (.text s)

/-- A variable declaration as a statement. -/
def varStatement (g : Rules) : Matcher (Checked Stmt) := .production do
  let d ← varDecl g
  let _ ← semicolon
  return do return .varDecl (← d)

/-- A conditional statement. -/
def ifStatement (g : Rules) : Matcher (Checked Stmt) := .production do
  let pos ← Matcher.position
  let _ ← Matcher.text "if"
  let _ ← expect "("
  let test ← .item (expression g)
  let _ ← expect ")"
  let thenBody ← .item g.statement
  let elseBody ← Matcher.optional do
    let _ ← Matcher.text "else"
    .item g.statement
  return do return .ifElse pos (← test) (← thenBody) (← Checked.option elseBody)

/-- A loop over keys or values. Its name is checked last. -/
def forInStatement (g : Rules) : Matcher (Checked Stmt) := .production do
  let pos ← Matcher.position
  let _ ← Matcher.text "for"
  let _ ← expect "("
  let kind ← Matcher.optional (.oneOf varWords)
  let name ← Matcher.item (.kind .ident)
  let op ← Matcher.item (.oneOf ["in", "of"])
  let right ← .item (expression g)
  let _ ← expect ")"
  let body ← .item g.statement
  return do
    let right ← right
    let body ← body
    let name ← checkName name.text pos
    let of := op.text == "of"
    return match kind with
      | some k =>
        .forIn pos none of (some ⟨pos, .ofWord k.text, [⟨pos, name, none, none⟩]⟩) none right body
      | none => .forIn pos none of none (some (.ident pos name)) right body

/-- A loop with three clauses. Its body is checked first. -/
def forStatement (g : Rules) : Matcher (Checked Stmt) := .production do
  let pos ← Matcher.position
  let _ ← Matcher.text "for"
  let _ ← expect "("
  let declared : Matcher (Checked Stmt) := do
    let d ← varDecl g
    return do return .varDecl (← d)
  let evaluated : Matcher (Checked Stmt) := do
    let e ← expression g
    return do return .expr pos (← e)
  let init ← Matcher.optional (.production (.choice [declared, evaluated]))
  let _ ← expect ";"
  let test ← Matcher.optional (expression g)
  let _ ← expect ";"
  let update ← Matcher.optional (expression g)
  let _ ← expect ")"
  let body ← .item g.statement
  return do
    let body ← body
    let init ← Checked.option init
    let test ← Checked.option test
    let update ← Checked.option update
    return .forLoop pos none init test update body

/-- A loop that tests before its body. -/
def whileStatement (g : Rules) : Matcher (Checked Stmt) := .production do
  let pos ← Matcher.position
  let _ ← Matcher.text "while"
  let _ ← expect "("
  let test ← .item (expression g)
  let _ ← expect ")"
  let body ← .item g.statement
  return do return .whileLoop pos (← test) (← body)

/-- A loop that tests behind its body. -/
def doStatement (g : Rules) : Matcher (Checked Stmt) := .production do
  let pos ← Matcher.position
  let _ ← Matcher.text "do"
  let body ← .item g.statement
  let _ ← expect "while"
  let _ ← expect "("
  let test ← .item (expression g)
  let _ ← expect ")"
  let _ ← semicolon
  return do return .doWhile pos (← body) (← test)

/-- A return from a function. -/
def returnStatement (g : Rules) : Matcher (Checked Stmt) := .production do
  let pos ← Matcher.position
  let _ ← Matcher.text "return"
  let value ← Matcher.optional (expression g)
  let _ ← semicolon
  return do return .returnValue pos (← Checked.option value)

/-- A jump with an optional label. -/
def jumpStatement (word : String) (make : Position → String → Stmt) : Matcher (Checked Stmt) :=
  .production do
    let pos ← Matcher.position
    let _ ← Matcher.text word
    let label ← Matcher.optional (.kind .ident)
    let _ ← semicolon
    return match label with
      | none => pure (make pos "")
      | some t => do return make pos (← checkName t.text pos)

def throwStatement (g : Rules) : Matcher (Checked Stmt) := .production do
  let pos ← Matcher.position
  let _ ← Matcher.text "throw"
  let value ← .item (expression g)
  let _ ← semicolon
  return do return .throwValue pos (← value)

def labeledStatement (g : Rules) : Matcher (Checked Stmt) := .production do
  let pos ← Matcher.position
  let label ← Matcher.kind .ident
  let _ ← expect ":"
  let body ← .item g.statement
  return do return .labeled pos (← checkName label.text pos) (← body)

/-- Statements in braces. -/
def blockStatement (g : Rules) : Matcher (Checked Stmt) := .production do
  let pos ← Matcher.position
  let _ ← Matcher.text "\x7b"
  let body ← statements g
  let _ ← expect "\x7d"
  return do return .block pos none (← body)

def exprStatement (g : Rules) : Matcher (Checked Stmt) := .production do
  let pos ← Matcher.position
  let e ← expression g
  let _ ← semicolon
  return do return .expr pos (← e)

def statementRule (g : Rules) : Matcher (Checked Stmt) := .production do
  let pos ← Matcher.position
  let function : Matcher (Checked Stmt) := do
    let f ← g.function
    return do return .function pos (← f)
  let empty : Matcher (Checked Stmt) := do
    let _ ← Matcher.text ";"
    return pure (.empty pos)
  .choice [function, varStatement g, ifStatement g, forInStatement g, forStatement g,
    whileStatement g, doStatement g, returnStatement g, jumpStatement "break" .breakLoop,
    jumpStatement "continue" .continueLoop, throwStatement g, labeledStatement g, blockStatement g,
    empty, exprStatement g]

def nothing : Matcher α := fun c => (.unmatched, c)

/-- The grammar, unrolled to a depth. -/
def rules : Nat → Rules
  | 0 => ⟨nothing, nothing, nothing, nothing, nothing⟩
  | depth + 1 =>
    { statement := fun c => statementRule (rules depth) c
      assignment := fun c => assignmentRule (rules depth) c
      unary := fun c => unaryRule (rules depth) c
      chainHead := fun c => chainHeadRule (rules depth) c
      function := fun c => functionRule (rules depth) c }

/-- A script. At most five productions refer back to one another before a token is read, which bounds
the depth to which the grammar has to be unrolled. -/
def script (tokens : List Token) : Matcher (Checked Script) := .production do
  let pos ← Matcher.position
  let body ← statements (rules (5 * tokens.length + 5))
  return do return ⟨pos, ← body⟩

/-- The tree of a list of tokens. -/
def ofTokens (tokens : List Token) : Except Failure Script :=
  match (script tokens).run tokens with
  | .ok s => s.toExcept
  | .error t => .error ⟨.malformed (.unexpectedToken t.shown), t.pos⟩

end Grammar

/-- The tree of a source. -/
def Script.parse (file source : String) : Except Failure Script := do
  Grammar.ofTokens (← Scan.scan file source)

end ScriptOptimizer
