import ScriptOptimizer.Lowering.Branch
import ScriptOptimizer.Syntax.Printer

/-!
# Lowering of expressions

Each function lowers one form of expression, given how its parts are lowered. Parts are lowered from left
to right. A read of a name that later parts could write is held in a temp.
-/

namespace ScriptOptimizer.Lowering

open IR

/-- How the parts of an expression are lowered. -/
abbrev Part := Site → Expr → Lower Operand

/-- Whether an expression runs no code that could write a name. -/
def isSimple : Expr → Bool
  | .literal .. | .ident .. | .receiver _ | .function .. => true
  | _ => false

/-- Lowers expressions from left to right. -/
def operands (value : Part) (c : Site) : List Expr → Lower (List Operand)
  | [] => pure []
  | e :: es => do
    let x ← value c e
    let x ← if (← isVolatile x) && !es.all isSimple then hold c x e.pos else pure x
    return x :: (← operands value c es)

/-- The key of a member expression. -/
inductive Key where
  | name (name : String)
  | computed (key : Expr)

/-- Lowers the object and the key of a member expression and further expressions behind them. -/
def memberParts (value : Part) (c : Site) (object : Expr) (key : Key) (extra : List Expr) :
    Lower (Operand × Operand × List Operand) := do
  match key with
  | .name name =>
    match ← operands value c (object :: extra) with
    | o :: rest => return (o, .literal (.string (Text.ofString name)), rest)
    | [] => return default
  | .computed key =>
    match ← operands value c (object :: key :: extra) with
    | o :: k :: rest =>
      escape [k]
      return (o, k, rest)
    | _ => return default

/-- Reads a property. -/
def readMember (c : Site) (object key : Operand) (pos : Position) : Lower Operand := do
  temp c (.member object key (← generation? c object)) pos

/-- The object and the key of a member expression. -/
def memberOf? : Expr → Option (Expr × Key)
  | .member _ o name => some (o, .name name)
  | .index _ o k => some (o, .computed k)
  | _ => none

/-- Refuses the target of an assignment that is neither a name nor a member. -/
def refuseTarget (t : Expr) : Lower α :=
  match t with
  | .array .. | .object .. => refuse .destructuringAssignment t.pos
  | _ => fail .invalidAssignTarget t.pos

/-- Reads a target, computes from its old value a new one and a result, and writes the new value back.
When the computation may run code, what could change is held in temps first. -/
def modifyTarget (value : Part) (c : Site) (target : Expr) (runsCode : Bool) (pos : Position)
    (compute : Operand → Lower (Operand × Operand)) : Lower Operand := do
  let settle := fun (x : Operand) (pos : Position) => do
    if runsCode && (← isVolatile x) then hold c x pos else pure x
  match target with
  | .ident namePos name =>
    let b ← resolve c name
    let old ← settle (← readName c name namePos) namePos
    let (next, result) ← compute old
    let _ ← writeName c b name next pos
    return result
  | _ =>
    match memberOf? target with
    | none => refuseTarget target
    | some (object, key) =>
      let (o, k, _) ← memberParts value c object key []
      let o ← settle o target.pos
      let old ← readMember c o k target.pos
      let (next, result) ← compute old
      setMember c o k next pos
      return result

/-- An increment or a decrement. -/
def update (value : Part) (c : Site) (pos : Position) (op : UpdateOp) (inFront : Bool) (target : Expr) :
    Lower Operand :=
  modifyTarget value c target false pos fun old => do
    let number ← temp c (.unary .plus old) pos
    let next ← temp c (.binary op.step number (.literal (.number 1))) pos
    return (next, if inFront then next else number)

/-- An assignment without an operation. -/
def assign (value : Part) (c : Site) (pos : Position) (target source : Expr) : Lower Operand := do
  match target with
  | .ident _ name =>
    let b ← resolve c name
    let v ← value c source
    writeName c b name v pos
  | _ =>
    match memberOf? target with
    | none => refuseTarget target
    | some (object, key) =>
      let (o, k, rest) ← memberParts value c object key [source]
      let v := rest.headD default
      setMember c o k v pos
      return v

/-- Whether a member can be evaluated twice without a difference. -/
def isRepeatable : Expr → Bool
  | .member _ (.ident ..) _ | .member _ (.receiver _) _ => true
  | .index _ o k =>
    (match o with
      | .ident .. | .receiver _ => true
      | _ => false) &&
    (match k with
      | .ident .. | .literal .. => true
      | _ => false)
  | _ => false

/-- An assignment with an operation. -/
def operate (value : Part) (c : Site) (pos : Position) (op : BinaryOp) (target source : Expr) :
    Lower Operand :=
  modifyTarget value c target (!isSimple source) pos fun old => do
    let v ← value c source
    let next ← temp c (.binary op old v) pos
    return (next, next)

/-- Any assignment. -/
def assignment (value : Part) (c : Site) (pos : Position) (op : AssignOp) (target source : Expr) :
    Lower Operand :=
  match op with
  | .set => assign value c pos target source
  | .bare op => operate value c pos op target source
  | .compound op =>
    if op.isLogical then
      if (memberOf? target).isSome && !isRepeatable target then
        refuse .computedLogicalAssignment target.pos
      else value c (.logical pos op target (.assign pos .set target source))
    else operate value c pos op target source

/-- An operator in front of an operand. -/
def unary (value : Part) (c : Site) (pos : Position) (op : UnaryOp) (arg : Expr) : Lower Operand := do
  if op = .delete then
    match memberOf? arg with
    | some (object, key) =>
      let (o, k, _) ← memberParts value c object key []
      escape [o]
      temp c (.delete o k) pos
    | none =>
      match arg with
      | .ident _ name =>
        if (← resolve c name).isSome then return .literal (.bool false)
        else
          let text := (Expr.unary pos op arg).print { compact := true }
          hold c (.raw (text.toOption.getD "")) pos
      | _ =>
        let _ ← value c arg
        return .literal (.bool true)
  else
    let x ← value c arg
    temp c (.unary op x) pos

/-- An operator between two operands. -/
def binary (value : Part) (c : Site) (pos : Position) (op : BinaryOp) (left right : Expr) :
    Lower Operand := do
  match ← operands value c [left, right] with
  | [l, r] => temp c (.binary op l r) pos
  | _ => return default

/-- Whether an expression can be evaluated when its value is not needed. -/
def isSafe (c : Site) : Expr → Lower Bool
  | .literal .. | .receiver _ => return true
  | .ident _ name => do
    match ← resolve c name with
    | none => return name == "undefined"
    | some b => return ((← read).binding b).isTracked && (← value? b).isSome
  | _ => return false

/-- A logical operator. Where the right operand is safe to evaluate it stays an operation, otherwise it
becomes a branch. -/
def logical (value : Part) (c : Site) (pos : Position) (op : BinaryOp) (left right : Expr) :
    Lower Operand := do
  let l ← value c left
  if ← isSafe c right then
    let r ← value c right
    temp c (.binary op l r) pos
  else
    let l ← if ← isVolatile l then hold c l pos else pure l
    let result ← newResult (some l)
    let arm := fun c => do setValue result (some (← value c right))
    match op with
    | .or => branch c l (fun _ => pure ()) (some arm) [result] pos
    | .nullish =>
      let cond ← temp c (.binary .equal l (.literal .null)) pos
      branch c cond arm none [result] pos
    | _ => branch c l arm none [result] pos
    return (← value? result).getD default

def conditional (value : Part) (c : Site) (pos : Position) (test thenValue elseValue : Expr) :
    Lower Operand := do
  let cond ← value c test
  let result ← newResult none
  let arm := fun e c => do setValue result (some (← value c e))
  branch c cond (arm thenValue) (some (arm elseValue)) [result] pos
  return (← value? result).getD default

def refuseSpread (what : Unsupported) (list : List Expr) : Lower Unit :=
  list.forM fun
    | .spread pos _ => refuse what pos
    | _ => pure ()

/-- Follows a method call in the shape of its object. -/
def noteMethod (c : Site) (object key : Operand) (args : List Operand) : Lower Unit := do
  match ← tracked? c object true with
  | some (t, shape) =>
    if shape.isArray && key = pushKey then
      let g := shape.generations.getLastD {}
      addGeneration t { g with elems := g.elems ++ args }
    else escape [object]
  | none => escape [object]

/-- A call or a construction. -/
def call (value : Part) (c : Site) (pos : Position) (isNew : Bool) (callee : Expr) (args : List Expr) :
    Lower Operand := do
  refuseSpread .spreadArgument args
  match if isNew then none else memberOf? callee with
  | some (object, key) =>
    let (o, k, args) ← memberParts value c object key args
    noteMethod c o k args
    escape args
    temp c (.call (.method o k) args) pos
  | none =>
    match ← operands value c (callee :: args) with
    | f :: args =>
      escape [f]
      escape args
      temp c (.call (if isNew then .constructor f else .function f) args) pos
    | [] => return default

/-- An array literal. -/
def array (value : Part) (c : Site) (pos : Position) (elems : List Expr) : Lower Operand := do
  refuseSpread .spreadElement elems
  let elems ← operands value c elems
  escape elems
  let x ← temp c (.array elems) pos
  track c x true { elems }
  return x

/-- The expressions of an object literal in the order of their evaluation. -/
def memberExprs : Property → List Expr
  | .spread _ v => [v]
  | .computed _ k v => [k, v.getD .hole]
  | .named _ _ v => [v.getD .hole]

/-- The members of an object literal, given the values of its expressions. -/
def members : List Property → List Operand → List Member
  | .computed .. :: ps, k :: v :: vs => .computed k v :: members ps vs
  | .named _ key _ :: ps, v :: vs => .named key v :: members ps vs
  | _, _ => []

/-- The shape of a fresh object. -/
def initialShape (ms : List Member) : Generation :=
  ms.foldl (fun g m =>
    match m with
    | .named key v =>
      if key = protoKey then { g with computed := true }
      else { g with props := setEntry key v g.props }
    | .computed .. => { g with computed := true }) {}

/-- An object literal. -/
def object (value : Part) (c : Site) (pos : Position) (props : List Property) : Lower Operand := do
  props.forM fun
    | .spread pos _ => refuse .objectSpread pos
    | _ => pure ()
  let values ← operands value c (props.flatMap memberExprs)
  escape values
  let ms := members props values
  let x ← temp c (.object ms) pos
  track c x false (initialShape ms)
  return x

/-- Expressions of which the last gives the value. -/
def sequence (value : Part) (c : Site) : List Expr → Lower Operand
  | [] => return .literal .undefined
  | [e] => value c e
  | e :: es => do
    let _ ← value c e
    sequence value c es

end ScriptOptimizer.Lowering
