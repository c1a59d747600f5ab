import ScriptOptimizer.Emission.State

/-!
# Emission of expressions

A temp is written out where it is read if it is placed so, or if it was waiting and the statement at hand
takes it up; otherwise its variable is read.
-/

namespace ScriptOptimizer.Emission

open IR

/-- How a function is emitted under a name. -/
abbrev Closure := FuncId → String → Emit Func

/-- How an operand is emitted. -/
abbrev Operands := Operand → Emit Expr

/-- A property of an object; a key that is an identifier name is written behind a dot. -/
def member (operand : Operands) (object key : Operand) : Emit Expr := do
  let o ← operand object
  let dotted := match key with
    | .literal (.string t) => t.identifierName?
    | _ => none
  match dotted with
  | some name => return .member {} o name
  | none => return .index {} o (← operand key)

/-- A function that is called without a receiver: where it is a property, it is taken out first. -/
def detach (callee : Expr) : Expr :=
  match callee with
  | .member .. | .index .. => .sequence {} [.literal {} (.number 0), callee]
  | e => e

/-- A member of an object literal. -/
def property (operand : Operands) : Member → Emit Property
  | .named key v => return .named {} key (some (← operand v))
  | .computed key v => do
    let v ← operand v
    return .computed {} (← operand key) (some v)

/-- A value that is computed from operands. -/
def valueOf (operand : Operands) : Value → Emit Expr
  | .operand x => operand x
  | .unary op x => return .unary {} op (← operand x)
  | .binary op l r => do
    let l ← operand l
    let r ← operand r
    return if op.isLogical then .logical {} op l r else .binary {} op l r
  | .member o k _ => member operand o k
  | .call (.method o k) args => do
    let callee ← member operand o k
    return .call {} callee (← args.mapM operand)
  | .call (.function f) args => do
    let callee ← operand f
    return .call {} (detach callee) (← args.mapM operand)
  | .call (.constructor f) args => do
    let callee ← operand f
    return .construct {} (detach callee) (some (← args.mapM operand))
  | .object ms => return .object {} (← ms.mapM (property operand))
  | .array es => return .array {} (← es.mapM operand)
  | .delete o k => return .unary {} .delete (← member operand o k)
  | .merge _ => broken .mergeAsValue

/-- A temp, given how the value that defines it is emitted. -/
def temp (value : Value → Emit Expr) (t : TempId) : Emit Expr := do
  match (← read).definer? t with
  | some (.declare _ _ output) => return name output
  | some (.define _ v placement) =>
    if v.isMerge then return name (← register t)
    else if placement == .inlined || (← frame).taken.contains t then value v
    else
      if !(← get).registers.contains t && placement == .pending then
        broken (.readBeforeDefinition t.text)
      return name (← register t)
  | _ => broken (.undefinedTemp t.text)

/-- An operand. Temps that are written out refer to earlier ones, so the number of statements bounds the
recursion. -/
def operandWith (closure : Closure) : Nat → Operands
  | 0, _ => broken .exhausted
  | fuel + 1, x =>
    match x with
    | .literal v => return .literal {} v
    | .global s | .named s _ => return name s
    | .receiver => return .receiver {}
    | .arguments => return name "arguments"
    | .raw text => return .raw {} text
    | .closure f => do return .function {} (← closure f ((← read).function f).signature.name)
    | .temp t => temp (valueOf (operandWith closure fuel)) t

def operand (closure : Closure) (x : Operand) : Emit Expr := do
  operandWith closure ((← read).stmts.size + 2) x

def value (closure : Closure) (v : Value) : Emit Expr := valueOf (operand closure) v

end ScriptOptimizer.Emission
