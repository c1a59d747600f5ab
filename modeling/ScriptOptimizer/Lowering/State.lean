import ScriptOptimizer.IR.Text
import ScriptOptimizer.Scope.Output

/-!
# The state of lowering

Lowering turns a resolved tree into an intermediate program. It appends statements at a cursor and keeps
the current value of every binding whose value is known from the text, and the known shapes of fresh
objects and arrays.
-/

namespace ScriptOptimizer.Lowering

open IR

/-- What is known while lowering. The values of the bindings are followed by those of the results that
conditional expressions merge. -/
structure State where
  program : Program
  values : Array (Option Operand)
  /-- The bindings whose declaration has been passed. -/
  declared : Array Bool
  /-- The temps of objects whose shape is still known, with the nesting at which they were made. -/
  tracking : TempMap Nat := {}
  /-- The block that statements are appended to. -/
  block : BlockId := 0
  /-- Whether control cannot reach the end of that block. -/
  terminated : Bool := false
deriving Inhabited

/-- A step of lowering. -/
abbrev Lower := ReaderT Names (StateT State (Except Failure))

/-- An open loop, for the jumps that belong to it. -/
structure Frame where
  loop : StmtId
  /-- The bindings that the loop reassigns, with the merging temps that hold their values. -/
  carried : List (BindingId × TempId)
  /-- What runs at the end of every round. -/
  update : Option Expr
  /-- The scope of the head of the loop. -/
  head : ScopeId

/-- Where code stands. -/
structure Site where
  func : FuncId
  scope : ScopeId
  loop : Option Frame := none
  /-- The branch or loop around the code. -/
  parent : Option StmtId := none
  /-- How many branches and loops of the function are around the code. -/
  nest : Nat := 0
  /-- How deep the code nests in the tree. -/
  depth : Nat := 0

/-- Fails at a position. -/
def fail (fault : Fault) (pos : Position) : Lower α := throw ⟨fault, pos⟩

/-- Refuses a construct outside the subset. -/
def refuse (what : Unsupported) (pos : Position) : Lower α := fail (.unsupported what) pos

/-- Reports a broken invariant. -/
def broken (what : Broken) : Lower α := fail (.broken what) {}

/-- Changes the program. -/
def modifyProgram (f : Program → Program) : Lower Unit :=
  modify fun s => { s with program := f s.program }

/-- The program so far. -/
def program : Lower Program := return (← get).program

/-! ## Blocks and statements -/

def newBlock (func : FuncId) (parent : Option StmtId) : Lower BlockId := do
  let p ← program
  let b := p.blocks.size
  modifyProgram fun p =>
    { p with
      blocks := p.blocks.push { func, parent }
      functions := p.functions.modify func fun f => { f with blocks := f.blocks ++ [b] } }
  return b

/-- A new statement that stands nowhere yet. -/
def newStmt (s : IR.Stmt) : Lower StmtId := do
  let p ← program
  modifyProgram fun p => { p with stmts := p.stmts.push s }
  return p.stmts.size

def append (b : BlockId) (s : StmtId) : Lower Unit :=
  modifyProgram fun p => p.modifyBlock b fun x => { x with stmts := x.stmts ++ [s] }

/-- A list with an item in front of the first occurrence of another. -/
def insertInFront [DecidableEq α] (anchor x : α) : List α → Option (List α)
  | [] => none
  | y :: ys => if y = anchor then some (x :: y :: ys) else (insertInFront anchor x ys).map (y :: ·)

/-- Places a statement in front of another. -/
def insertBefore (anchor s : StmtId) : Lower Unit := do
  let p ← program
  let b := (p.stmt anchor).block
  match insertInFront anchor s (p.block b).stmts with
  | some stmts => modifyProgram fun p => p.modifyBlock b fun x => { x with stmts }
  | none => broken (.anchorNotFound b)

/-- Appends a statement at the cursor. -/
def emit (c : Site) (action : Action) (pos : Position) (effects : List Effect) : Lower StmtId := do
  let b := (← get).block
  let s ← newStmt { action, block := b, parent := c.parent, pos, effects }
  append b s
  return s

/-- A new temp of a block, defined by a statement. -/
def newTemp (b : BlockId) (s : StmtId) : Lower Unit :=
  modifyProgram fun p => p.modifyBlock b fun x => { x with slots := x.slots.push { definition := some s } }

def nextTemp (b : BlockId) : Lower TempId := return ⟨b, ((← program).block b).slots.size⟩

/-- Defines a temp that holds a value. -/
def temp (c : Site) (value : Value) (pos : Position) : Lower Operand := do
  let b := (← get).block
  let t ← nextTemp b
  let s ← emit c (.define t value .undecided) pos value.effects
  newTemp b s
  return .temp t

/-- Defines a temp that holds an operand. -/
def hold (c : Site) (x : Operand) (pos : Position) : Lower Operand := temp c (.operand x) pos

/-- A merging temp of a block; the caller places its definition. -/
def newMerge (c : Site) (b : BlockId) (pos : Position) : Lower (TempId × StmtId) := do
  let t ← nextTemp b
  let s ← newStmt
    { action := .define t (.merge []) .undecided, block := b, parent := c.parent, pos }
  newTemp b s
  return (t, s)

/-! ## Shapes -/

/-- Stops tracking the objects that operands refer to. -/
def escape (xs : List Operand) : Lower Unit :=
  modify fun s =>
    { s with tracking := (xs.filterMap Operand.temp?).foldl (fun t x => t.erase x) s.tracking }

/-- Stops tracking all objects. -/
def forgetShapes : Lower Unit := modify fun s => { s with tracking := {} }

/-- Starts tracking a fresh object. -/
def track (c : Site) (x : Operand) (isArray : Bool) (g : Generation) : Lower Unit :=
  match x with
  | .temp t =>
    modify fun s =>
      { s with
        program := s.program.modifySlot t fun y => { y with shape := some ⟨isArray, [g]⟩ }
        tracking := s.tracking.insert t c.nest }
  | _ => pure ()

/-- The tracked object that an operand refers to, if need be made at the same nesting. -/
def tracked? (c : Site) (object : Operand) (sameNest : Bool) : Lower (Option (TempId × Shape)) := do
  let s ← get
  match object with
  | .temp t =>
    match s.tracking[t]? with
    | some nest =>
      if sameNest && nest != c.nest then return none
      else return (s.program.shape? t).map fun x => (t, x)
    | none => return none
  | _ => return none

/-- The shape that a read of an object observes. -/
def generation? (c : Site) (object : Operand) : Lower (Option Nat) := do
  return (← tracked? c object false).map fun (_, x) => x.generations.length - 1

/-- Records a further shape of an object. -/
def addGeneration (t : TempId) (g : Generation) : Lower Unit :=
  modifyProgram fun p => p.modifySlot t fun y =>
    { y with shape := y.shape.map fun x => { x with generations := x.generations ++ [g] } }

/-- A list with an entry set for a key. -/
def setEntry [DecidableEq α] (key : α) (value : β) : List (α × β) → List (α × β)
  | [] => [(key, value)]
  | (k, v) :: rest => if k = key then (key, value) :: rest else (k, v) :: setEntry key value rest

/-- A list with an item set at an index, or behind the last item. -/
def setElem (index : Nat) (value : Operand) (elems : List Operand) : List Operand :=
  if index = elems.length then elems ++ [value] else elems.set index value

/-- The shape behind a write, if the write leaves it known. -/
def written? (shape : Shape) (key : Operand) (value : Operand) : Option Generation := do
  let k ← key.key?
  let g := shape.generations.getLastD {}
  if k = protoKey then none
  else if shape.isArray then
    match arrayIndex? k with
    | some i => if i ≤ g.elems.length then some { g with elems := setElem i value g.elems } else none
    | none => none
  else some { g with props := setEntry k value g.props }

/-- Follows the write of a property in the shape of its object. -/
def noteWrite (c : Site) (object key value : Operand) : Lower Unit := do
  match ← tracked? c object true with
  | none => escape [object]
  | some (t, shape) =>
    match written? shape key value with
    | some g => addGeneration t g
    | none => escape [object]

/-- Writes a property. -/
def setMember (c : Site) (object key value : Operand) (pos : Position) : Lower Unit := do
  escape [value, key]
  noteWrite c object key value
  discard (emit c (.setMember object key value) pos [.mutation (.ofObject object)])

/-! ## Bindings -/

/-- The current value of a binding. -/
def value? (b : BindingId) : Lower (Option Operand) := return (← get).values.getD b none

/-- Gives a binding a value. -/
def setValue (b : BindingId) (v : Option Operand) : Lower Unit :=
  modify fun s => { s with values := s.values.setIfInBounds b v }

/-- Notes that the declaration of a binding has been passed. -/
def setDeclared (b : BindingId) : Lower Unit :=
  modify fun s => { s with declared := s.declared.setIfInBounds b true }

/-- Room for a result that is merged like the value of a binding. -/
def newResult (v : Option Operand) : Lower BindingId :=
  modifyGet fun s => (s.values.size, { s with values := s.values.push v })

/-- The binding that a name means. -/
def resolve (c : Site) (name : String) : Lower (Option BindingId) :=
  return (← read).resolve c.scope name

/-- Refuses to use a lexical binding in front of its declaration. -/
def checkDeclared (c : Site) (b : BindingId) (pos : Position) : Lower Unit := do
  let names ← read
  let x := names.binding b
  if x.isLexical && !((← get).declared.getD b false) && names.owner b == c.func then
    fail (.useBeforeDeclaration x.name) pos

def readName (c : Site) (name : String) (pos : Position) : Lower Operand := do
  match ← resolve c name with
  | none =>
    if name = "undefined" then return .literal .undefined
    else if name = "arguments" ∧ c.func ≠ topFunc then return .arguments
    else return .global name
  | some b =>
    checkDeclared c b pos
    let x := (← read).binding b
    if x.isGlobal then return .global name
    else if x.pinned then return .named x.output true
    else
      match ← value? b with
      | some v => return v
      | none => broken (.bindingWithoutValue name)

/-- Writes a value to a name that is kept in the output. -/
def store (c : Site) (place : Place) (value : Operand) (pos : Position) : Lower Unit := do
  escape [value]
  discard (emit c (.store place value) pos [.mutation place])

/-- Notes that a global name is written. -/
def noteAssigned (name : String) : Lower Unit :=
  modifyProgram fun p => { p with assigned := p.assigned.insert name }

/-- Writes a name; gives the value of the assignment. -/
def writeName (c : Site) (b : Option BindingId) (name : String) (value : Operand) (pos : Position) :
    Lower Operand := do
  if let some b := b then checkDeclared c b pos
  let names ← read
  let writeGlobal := do
    noteAssigned name
    store c (.global name) value pos
    return value
  match b with
  | none => writeGlobal
  | some b =>
    let x := names.binding b
    if x.isGlobal then writeGlobal
    else if x.pinned || x.kind == .self then
      store c (.named x.output) value pos
      return value
    else
      let v ← match value with
        | .temp _ => pure value
        | _ => hold c value pos
      setValue b (some v)
      return v

/-- Whether an operand reads storage that other code can write. -/
def isVolatile (x : Operand) : Lower Bool := do
  match x with
  | .global name => return (← program).assigned.contains name
  | .named _ pinned => return pinned
  | _ => return false

/-- Copies a value into the register of a merging temp; the caller places the copy. -/
def copyInto (merge : TempId) (value : Option Operand) (block : BlockId) (parent : Option StmtId)
    (pos : Position) : Lower StmtId := do
  escape value.toList
  let p ← program
  match p.definition? merge, p.value? merge with
  | some d, some (.merge copies) =>
    let s ← newStmt { action := .copy merge value, block, parent, pos }
    modifyProgram fun p => p.modifyStmt d fun x =>
      { x with action := .define merge (.merge (copies ++ [s])) .undecided }
    return s
  | _, _ => broken (.notMerge merge.text)

/-- The bindings of the function whose values are known, innermost scope first. -/
def visible (c : Site) : Lower (List BindingId) := do
  let names ← read
  let scopes := (names.chain c.scope).takeWhile fun s => (names.scope s).owner == c.func
  return (scopes.flatMap fun s => (names.scope s).bindings).filter fun b =>
    let x := names.binding b
    x.isTracked && x.kind != .self

/-- Runs a step at the start of a block. Gives its result, the block in which it ended, and whether
control cannot reach the end of that block. -/
def within (b : BlockId) (step : Lower α) : Lower (α × BlockId × Bool) := do
  let outer ← get
  set { outer with block := b, terminated := false }
  let a ← step
  let inner ← get
  set { inner with block := outer.block, terminated := outer.terminated }
  return (a, inner.block, inner.terminated)

/-- Continues a block in a new one and moves the cursor there. -/
def continueFrom (c : Site) (b : BlockId) : Lower Unit := do
  let next ← newBlock c.func ((← program).block b).parent
  modifyProgram fun p =>
    (p.modifyBlock b fun x => { x with next := some next }).modifyBlock next fun x =>
      { x with prev := some b }
  modify fun s => { s with block := next }

end ScriptOptimizer.Lowering
