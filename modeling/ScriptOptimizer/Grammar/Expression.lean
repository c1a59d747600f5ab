import ScriptOptimizer.Grammar.Checked
import ScriptOptimizer.Grammar.Matcher
import ScriptOptimizer.Grammar.Precedence

/-!
# The grammar of expressions

Each production is a matcher over the productions that it refers back to. The knot is tied in
`Grammar.Statement`.
-/

namespace ScriptOptimizer.Grammar

/-- The productions that others refer back to. -/
structure Rules where
  statement : Matcher (Checked Stmt)
  assignment : Matcher (Checked Expr)
  unary : Matcher (Checked Expr)
  chainHead : Matcher (Checked Expr)
  function : Matcher (Checked Func)

/-- A name, which must not be a reserved word. -/
def checkName (name : String) (pos : Position) : Checked String := do
  if isReserved name then Checked.fail (.malformed (.reservedWord name)) pos
  return name

/-- The number of a numeric literal. -/
def checkNumber (text : String) (pos : Position) : Checked Float :=
  match Number.read? text with
  | some x => pure x
  | none => do
    Checked.fail (.malformed (.number text)) pos
    return 0

/-- The value of a string literal. -/
def checkString (text : String) (pos : Position) : Checked Text :=
  match Quoted.decodeLiteral text with
  | .ok t => pure t
  | .error .hexadecimal => do
    Checked.fail (.malformed .hexadecimalEscape) pos
    return []
  | .error .unicode => do
    Checked.fail (.malformed .unicodeEscape) pos
    return []

/-- A comma-separated sequence. -/
def expression (g : Rules) : Matcher (Checked Expr) := .production do
  let pos ← Matcher.position
  let list ← Matcher.list "," g.assignment
  match list with
  | [e] => return e
  | es => return do return .sequence pos (← Checked.list es)

/-- An item of an argument list or an array, possibly spread. -/
def argument (g : Rules) : Matcher (Checked Expr) := .production do
  let pos ← Matcher.position
  let spread ← Matcher.optional (.text "...")
  let value ← .item g.assignment
  return if spread.isSome then do return .spread pos (← value) else value

/-- Items between commas, with an optional comma behind the last one. -/
def items (p : Matcher (Checked α)) : Matcher (Checked (List α)) := do
  let list ← Matcher.optional do
    let list ← Matcher.list "," p
    let _ ← Matcher.optional (.text ",")
    return list
  return Checked.list (list.getD [])

/-- An array literal. -/
def arrayLit (g : Rules) : Matcher (Checked Expr) := .production do
  let pos ← Matcher.position
  let _ ← Matcher.text "["
  let elems ← items (argument g)
  let _ ← Matcher.item (.text "]")
  return do return .array pos (← elems)

/-- The key of an object member and the name it would be short for. -/
inductive Key where
  | computed (key : Expr)
  | name (name : String)
  | text (key : Text)

/-- The key of an object member, with its position. -/
def propertyKey (g : Rules) : Matcher (Position × Checked Key) := .production do
  let pos ← Matcher.position
  let computed : Matcher (Checked Key) := do
    let _ ← Matcher.text "["
    let key ← .item g.assignment
    let _ ← Matcher.item (.text "]")
    return do return .computed (← key)
  let name : Matcher (Checked Key) := do return pure (.name (← Matcher.kind .ident).text)
  let string : Matcher (Checked Key) := do
    let t ← Matcher.kind .string
    return do return .text (← checkString t.text pos)
  let number : Matcher (Checked Key) := do
    let t ← Matcher.kind .number
    return do return .text (Text.ofString (Number.display (← checkNumber t.text pos)))
  let key ← Matcher.choice [computed, name, string, number]
  return (pos, key)

/-- The member that a key and an optional value make; a name may stand for its own value. -/
def checkMember (pos keyPos : Position) (key : Key) (value : Option (Checked Expr)) :
    Checked Property :=
  match key, value with
  | .computed k, some v => do return .computed pos k (some (← v))
  | .name n, some v => do return .named pos (Text.ofString n) (some (← v))
  | .text t, some v => do return .named pos t (some (← v))
  | .name n, none => do
    let name ← checkName n keyPos
    return .named pos (Text.ofString n) (some (.ident pos name))
  | .computed k, none => do
    Checked.fail (.malformed .missingPropertyValue) keyPos
    return .computed pos k none
  | .text t, none => do
    Checked.fail (.malformed .missingPropertyValue) keyPos
    return .named pos t none

/-- A member of an object literal. -/
def property (g : Rules) : Matcher (Checked Property) := .production do
  let pos ← Matcher.position
  let spread : Matcher (Checked Property) := do
    let _ ← Matcher.text "..."
    let value ← .item g.assignment
    return do return .spread pos (← value)
  let pair : Matcher (Checked Property) := .production do
    let (keyPos, key) ← propertyKey g
    let value ← Matcher.optional do
      let _ ← Matcher.text ":"
      .item g.assignment
    return do checkMember pos keyPos (← key) value
  .choice [spread, pair]

/-- An object literal. -/
def objectLit (g : Rules) : Matcher (Checked Expr) := .production do
  let pos ← Matcher.position
  let _ ← Matcher.text "\x7b"
  let props ← items (property g)
  let _ ← Matcher.item (.text "\x7d")
  return do return .object pos (← props)

/-- A name, a literal, a function or an expression in parentheses. -/
def primary (g : Rules) : Matcher (Checked Expr) := .production do
  let pos ← Matcher.position
  let function : Matcher (Checked Expr) := do
    let f ← g.function
    return do return .function pos (← f)
  let number : Matcher (Checked Expr) := do
    let t ← Matcher.kind .number
    return do return .literal pos (.number (← checkNumber t.text pos))
  let string : Matcher (Checked Expr) := do
    let t ← Matcher.kind .string
    return do return .literal pos (.string (← checkString t.text pos))
  let bool : Matcher (Checked Expr) := do
    let t ← Matcher.oneOf ["true", "false"]
    return pure (.literal pos (.bool (t.text == "true")))
  let null : Matcher (Checked Expr) := do
    let _ ← Matcher.text "null"
    return pure (.literal pos .null)
  let receiver : Matcher (Checked Expr) := do
    let _ ← Matcher.text "this"
    return pure (.receiver pos)
  let ident : Matcher (Checked Expr) := do
    let t ← Matcher.kind .ident
    return do return .ident pos (← checkName t.text pos)
  let paren : Matcher (Checked Expr) := do
    let _ ← Matcher.text "("
    let e ← .item (expression g)
    let _ ← Matcher.item (.text ")")
    return e
  .choice [function, arrayLit g, objectLit g, number, string, bool, null, receiver, ident, paren]

/-- What stands behind an expression: a member or an argument list, applied to the expression. -/
abbrev Suffix := Expr → Checked Expr

/-- A member behind its object. -/
def memberSuffix (g : Rules) : Matcher Suffix := .production do
  let pos ← Matcher.position
  let dot : Matcher Suffix := do
    let _ ← Matcher.text "."
    let name ← Matcher.item (.kind .ident)
    return fun object => pure (.member pos object name.text)
  let index : Matcher Suffix := do
    let _ ← Matcher.text "["
    let key ← Matcher.item (expression g)
    let _ ← Matcher.item (.text "]")
    return fun object => do return .index pos object (← key)
  .choice [dot, index]

/-- Arguments in parentheses, with the position of the opening one. -/
def arguments (g : Rules) : Matcher (Position × Checked (List Expr)) := .production do
  let pos ← Matcher.position
  let _ ← Matcher.text "("
  let args ← Matcher.item (items (argument g))
  let _ ← Matcher.item (.text ")")
  return (pos, args)

/-- Applies suffixes from left to right. -/
def applySuffixes (head : Checked Expr) (suffixes : List Suffix) : Checked Expr :=
  suffixes.foldl (fun x s => do s (← x)) head

/-- A construction. -/
def newTarget (g : Rules) : Matcher (Checked Expr) := .production do
  let pos ← Matcher.position
  let _ ← Matcher.text "new"
  let callee ← .item g.chainHead
  let members ← Matcher.many (memberSuffix g)
  let args ← Matcher.optional (arguments g)
  return do
    let callee ← applySuffixes callee members
    let args ← (args.map Prod.snd).getD (pure [])
    return .construct pos callee (some args)

/-- The start of a chain of members and calls. -/
def chainHeadRule (g : Rules) : Matcher (Checked Expr) := .production do
  .choice [newTarget g, primary g]

/-- A member or a call behind an expression. -/
def suffix (g : Rules) : Matcher Suffix := .production do
  let call : Matcher Suffix := do
    let (pos, args) ← arguments g
    return fun callee => do return .call pos callee (← args)
  .choice [memberSuffix g, call]

/-- A chain of members and calls. -/
def callChain (g : Rules) : Matcher (Checked Expr) := .production do
  let head ← g.chainHead
  let suffixes ← Matcher.many (suffix g)
  return applySuffixes head suffixes

/-- A chain with an optional update operator behind it. -/
def postfixRule (g : Rules) : Matcher (Checked Expr) := .production do
  let pos ← Matcher.position
  let x ← callChain g
  let op ← Matcher.optional (.oneOf ["++", "--"])
  return match op with
    | none => x
    | some t => do return .update pos (.ofSymbol t.text) false (← x)

/-- An operator in front of an operand. -/
def prefixRule (g : Rules) : Matcher (Checked Expr) := .production do
  let pos ← Matcher.position
  let op ← Matcher.oneOf ["!", "-", "+", "~", "++", "--", "typeof", "void", "delete"]
  let operand ← .item g.unary
  return do
    let x ← operand
    return if op.text = "++" ∨ op.text = "--" then .update pos (.ofSymbol op.text) true x
      else .unary pos (.ofSymbol op.text) x

/-- An operand of a binary operator. -/
def unaryRule (g : Rules) : Matcher (Checked Expr) := .production do
  .choice [prefixRule g, postfixRule g]

/-- A binary operator and its right operand. -/
def link (g : Rules) : Matcher (Checked Link) := .production do
  let pos ← Matcher.position
  let op ← Matcher.oneOf (BinaryOp.all.map BinaryOp.symbol)
  let right ← .item g.unary
  return do return ⟨pos, .ofSymbol op.text, ← right⟩

/-- A chain of operands and binary operators. -/
def binary (g : Rules) : Matcher (Checked Expr) := .production do
  let first ← g.unary
  let links ← Matcher.many (link g)
  return do
    let first ← first
    return Link.tree first (← Checked.list links)

def conditional (g : Rules) : Matcher (Checked Expr) := .production do
  let pos ← Matcher.position
  let test ← binary g
  let tail ← Matcher.optional (.production do
    let _ ← Matcher.text "?"
    let thenValue ← .item g.assignment
    let _ ← Matcher.item (.text ":")
    let elseValue ← .item g.assignment
    return (thenValue, elseValue))
  return match tail with
    | none => test
    | some (a, b) => do return .conditional pos (← test) (← a) (← b)

/-- The assignment operators in the order in which the grammar tries them. -/
def assignSymbols : List String :=
  ["=", "+=", "-=", "*=", "/=", "%=", "**=", "<<=", ">>=", ">>>=", "&=", "|=", "^=", "&&=", "||=",
    "??="]

/-- An assignment, or an expression that binds tighter. -/
def assignmentRule (g : Rules) : Matcher (Checked Expr) := .production do
  let pos ← Matcher.position
  let target ← conditional g
  let tail ← Matcher.optional (.production do
    let op ← Matcher.oneOf assignSymbols
    let value ← .item g.assignment
    return (op, value))
  return match tail with
    | none => target
    | some (op, value) => do return .assign pos (.ofSymbol op.text) (← target) (← value)

end ScriptOptimizer.Grammar
