import ScriptOptimizer.IR.Traversal
import ScriptOptimizer.Optimize.Fold

/-!
# Simplification

Operands are replaced by the values that their temps are known to hold, and operations whose operands are
known are folded. No statement is removed.
-/

namespace ScriptOptimizer.Simplify

open IR

/-- The longest literal that is substituted when the output is to be small. -/
def maxShortLiteral : Nat := 5

/-- How many copies are followed to find the value of a temp. -/
def maxCopies : Nat := 64

/-- Follows copies from an operand to a value that may be read anywhere: a literal, a name that keeps its
value, or the receiver. Where the copies end in something else the last temp is kept. -/
def resolveWith (forSize : Bool) (p : Program) : Nat → Operand → Operand
  | 0, x => x
  | fuel + 1, x =>
    match x with
    | .temp t =>
      match p.value? t with
      | some (.operand v) =>
        match v with
        | .temp u => if p.isMerge u then x else resolveWith forSize p fuel v
        | .literal l => if forSize && maxShortLiteral < l.source.utf8ByteSize then x else v
        | .named _ pinned => if pinned then x else v
        | .receiver | .arguments => v
        | .global name => if p.assigned.contains name then x else v
        | .closure _ | .raw _ => x
      | _ => x
    | _ => x

/-- The best known form of an operand. -/
def resolve (forSize : Bool) (p : Program) (x : Operand) : Operand :=
  resolveWith forSize p maxCopies x

/-- Whether an operand that a shape records still has its value where the shape is read. -/
def isStable (p : Program) : Operand → Bool
  | .literal _ | .receiver | .arguments => true
  | .named _ pinned => !pinned
  | .global name => !p.assigned.contains name
  | .temp t => (p.definition? t).any fun s => (p.stmt s).live
  | .closure _ | .raw _ => false

/-- The type of the value that a temp certainly holds. -/
def typeOf? (p : Program) (t : TempId) : Option String :=
  match p.definer? t with
  | some (.define _ (.object _) _) | some (.define _ (.array _) _) => some "object"
  | some (.define _ (.operand (.closure _)) _) | some (.declare ..) => some "function"
  | _ => none

/-- The value of a unary operator whose operand is no literal. -/
def unary? (p : Program) (op : UnaryOp) (x : Operand) : Option Literal :=
  match x with
  | .temp t =>
    match typeOf? p t, op with
    | some type, .typeOf => some (Fold.text type)
    | some _, .not => some (.bool false)
    | some _, .void => some .undefined
    | _, _ => none
  | .receiver | .arguments | .named .. => if op = .void then some .undefined else none
  | _ => none

/-- The name of the property that holds a length. -/
def lengthKey : Text := Text.ofString "length"

/-- The literal of a count. -/
def count (n : Nat) : Operand := .literal (.number (Float.ofNat n))

/-- The recorded member of a shape. -/
def shapeMember? (shape : Shape) (g : Generation) (key : Text) : Option Operand :=
  if shape.isArray then (arrayIndex? key).bind fun i => g.elems[i]?
  else if g.computed then none
  else g.props.lookup key

/-- The value of a property whose object has a known shape. -/
def member? (forSize : Bool) (p : Program) (object key : Operand) (generation : Option Nat) :
    Option Operand := do
  let k ← key.key?
  match object with
  | .literal (.string t) => if k = lengthKey then some (count t.units16) else none
  | .temp t =>
    let shape ← p.shape? t
    let g ← shape.generations[← generation]?
    if shape.isArray && k = lengthKey then some (count g.elems.length)
    else
      let v ← shapeMember? shape g k
      if isStable p v then some (resolve forSize p v) else none
  | _ => none

def operand? (forSize : Bool) (p : Program) : Value → Option Operand
  | .unary op (.literal l) => (Fold.unary? op l).map .literal
  | .unary op x => (unary? p op x).map .literal
  | .binary op (.literal l) r =>
    if op.isLogical then Fold.logical? op l r
    else
      match r with
      | .literal r => (Fold.binary? op l r).map .literal
      | _ => none
  | .member object key generation => member? forSize p object key generation
  | _ => none

/-- A value with the operations folded that can be. -/
def fold (forSize : Bool) (p : Program) (v : Value) : Value :=
  match operand? forSize p v with
  | some x => .operand x
  | none => v

/-- Simplifies a statement. -/
def stmt (forSize : Bool) (s : StmtId) (p : Program) : Program :=
  p.modifyStmt s fun x =>
    match x.action.mapOperands (resolve forSize p) with
    | .define t v placement =>
      let v := fold forSize p v
      { x with action := .define t v placement, effects := v.effects }
    | .eval v => { x with action := .eval (fold forSize p v) }
    | .setMember o k v => { x with action := .setMember o k v, effects := [.mutation (.ofObject o)] }
    | a => { x with action := a }

/-- Simplifies the live statements in order. -/
def run (forSize : Bool) (p : Program) : Program := p.visit { stmt := stmt forSize }

end ScriptOptimizer.Simplify
