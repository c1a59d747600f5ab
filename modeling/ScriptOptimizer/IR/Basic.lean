import ScriptOptimizer.Literal
import ScriptOptimizer.Operator
import ScriptOptimizer.Scope.Basic
import Std.Data.TreeMap

/-!
# The intermediate program

Every value of a script is kept in a temp that one statement defines. Statements stand in blocks, which
have no jumps inside; a block may continue in another one. Branches and loops are statements that own
the blocks of their arms. Statements, blocks and functions are numbered and refer to each other by
number.
-/

namespace ScriptOptimizer.IR

/-- The number of a block. -/
abbrev BlockId := Nat

/-- The number of a statement. -/
abbrev StmtId := Nat

/-- A value that is assigned once, named by the block that defines it and its place among the values of
that block. -/
structure TempId where
  block : BlockId
  slot : Nat
deriving DecidableEq, Repr, Inhabited

/-- Temps are ordered by block, then by slot. -/
instance : Ord TempId := ⟨fun a b => (compare a.block b.block).then (compare a.slot b.slot)⟩

/-- A table with an entry for some temps. -/
abbrev TempMap (α : Type) := Std.TreeMap TempId α

/-- What an operation may read directly. -/
inductive Operand where
  | literal (value : Literal)
  | temp (id : TempId)
  /-- A free name or a name of the script's own scope. -/
  | global (name : String)
  /-- A parameter, a captured local or the own name of a function expression; a pinned one may change
  between two reads. -/
  | named (name : String) (pinned : Bool)
  | receiver
  | arguments
  /-- A closure over a function. -/
  | closure (func : FuncId)
  /-- Source text that is passed on untouched. -/
  | raw (text : String)
deriving DecidableEq, Inhabited

/-- What a call applies. -/
inductive Callee where
  | function (f : Operand)
  | method (object key : Operand)
  | constructor (f : Operand)
deriving DecidableEq, Inhabited

/-- A member of an object literal. -/
inductive Member where
  | named (key : Text) (value : Operand)
  | computed (key value : Operand)
deriving DecidableEq, Inhabited

/-- What a statement computes. -/
inductive Value where
  | operand (x : Operand)
  | unary (op : UnaryOp) (x : Operand)
  | binary (op : BinaryOp) (left right : Operand)
  /-- The read of a property, with the known shape of the object that it observes. -/
  | member (object key : Operand) (generation : Option Nat)
  | call (callee : Callee) (args : List Operand)
  | object (members : List Member)
  | array (elems : List Operand)
  /-- The value that the last of some copies left. -/
  | merge (copies : List StmtId)
  | delete (object key : Operand)
deriving DecidableEq, Inhabited

/-- Where a value is stored. -/
inductive Place where
  | temp (t : TempId)
  /-- The register of a merging temp. -/
  | merge (t : TempId)
  /-- A captured local. -/
  | named (name : String)
  /-- A free name or a name of the script's own scope. -/
  | global (name : String)
deriving DecidableEq, Repr, Inhabited

/-- What a statement does beyond producing a value. -/
inductive Effect where
  /-- Something that cannot be looked into, such as a call. -/
  | io
  /-- A write to a known place. -/
  | mutation (target : Place)
deriving DecidableEq, Repr, Inhabited

/-- How the value of a temp reaches its readers. -/
inductive Placement where
  | undecided
  /-- It is kept in a variable. -/
  | register
  /-- It is written out where it is read. -/
  | inlined
  /-- It waits for its only reader. -/
  | pending
deriving DecidableEq, Repr, Inhabited

/-- What makes a loop go on. -/
inductive LoopHead where
  /-- A condition that the chain of blocks from `test` on computes, before or behind the body. -/
  | tested (behind : Bool) (test : BlockId) (cond : Operand)
  /-- The keys of an object, or its values when `of` is set, stored one after the other. -/
  | iterated (of : Bool) (each : Place) (object : Operand)
deriving DecidableEq, Inhabited

/-- What is known of the rounds of a loop. -/
inductive Rounds where
  | unknown | none | once | infinite
deriving DecidableEq, Repr, Inhabited

structure Loop where
  head : LoopHead
  body : BlockId
  rounds : Rounds := .unknown
deriving DecidableEq, Inhabited

/-- What a statement does. -/
inductive Action where
  | define (temp : TempId) (value : Value) (placement : Placement)
  /-- Copies a value into the register of a merging temp; a binding may have no value to copy. -/
  | copy (merge : TempId) (value : Option Operand)
  | store (place : Place) (value : Operand)
  | eval (value : Value)
  | setMember (object key value : Operand)
  | returnValue (value : Operand)
  | throwValue (value : Operand)
  /-- Runs one of two chains of blocks; `known` is the outcome of the condition if it is certain. -/
  | branch (cond : Operand) (thenBlock : BlockId) (elseBlock : Option BlockId) (known : Option Bool)
  | loop (l : Loop)
  | breakLoop (loop : StmtId)
  | continueLoop (loop : StmtId)
  /-- Binds a declared function, which keeps a name in the output. -/
  | declare (place : Place) (func : FuncId) (name : String)
deriving DecidableEq, Inhabited

structure Stmt where
  action : Action
  block : BlockId
  /-- The branch or loop that owns the block. -/
  parent : Option StmtId
  pos : Position
  live : Bool := true
  /-- Whether code outside can get hold of the value. -/
  escapes : Bool := false
  effects : List Effect := []
deriving DecidableEq

/-- A number that no statement has reads as one that does nothing. -/
instance : Inhabited Stmt where
  default := { action := .eval default, block := 0, parent := none, pos := default, live := false }

/-- The known members of an object or an array after some writes. -/
structure Generation where
  props : List (Text × Operand) := []
  elems : List Operand := []
  /-- Whether further members may exist under computed keys. -/
  computed : Bool := false
deriving DecidableEq, Inhabited

/-- The known shapes of an object or array literal, one more after each write. -/
structure Shape where
  isArray : Bool
  generations : List Generation
deriving DecidableEq, Inhabited

/-- What is known of a temp. -/
structure Slot where
  definition : Option StmtId
  shape : Option Shape := none
deriving DecidableEq, Inhabited

/-- A step of control to another block; a weak one starts a further round of a loop. -/
structure Edge where
  block : BlockId
  weak : Bool
deriving DecidableEq, Repr, Inhabited

/-- A run of statements. -/
structure Block where
  func : FuncId
  stmts : List StmtId := []
  next : Option BlockId := none
  prev : Option BlockId := none
  parent : Option StmtId := none
  dead : Bool := false
  succs : List Edge := []
  preds : List Edge := []
  slots : Array Slot := #[]
deriving DecidableEq, Inhabited

/-- A function: its signature and its blocks, the first of which is its entry. -/
structure Procedure where
  signature : Signature
  blocks : List BlockId := []
deriving Inhabited

/-- A whole program. -/
structure Program where
  blocks : Array Block := #[]
  stmts : Array Stmt := #[]
  functions : Array Procedure := #[]
  /-- Every name that the script spells. -/
  reserved : NameSet := {}
  /-- Free names and names of the script's own scope that are written somewhere. -/
  assigned : NameSet := {}
  /-- The variables of the script's own scope, in the order of their declaration. -/
  globals : List String := []
deriving Inhabited

/-- The key under which objects keep their prototype. -/
def protoKey : Text := Text.ofString "__proto__"

/-- The key of the method that appends to an array. -/
def pushKey : Operand := .literal (.string (Text.ofString "push"))

/-- Whether an operand is the value `undefined`. -/
def Operand.isUndefined : Operand → Bool
  | literal v => v.isUndefined
  | _ => false

/-- The temp that an operand reads. -/
def Operand.temp? : Operand → Option TempId
  | temp t => some t
  | _ => none

/-- The property name that an operand denotes if it is a literal. -/
def Operand.key? : Operand → Option Text
  | literal v => some v.toText
  | _ => none

/-- Equality of operands, numbers by value. -/
def Operand.same : Operand → Operand → Bool
  | literal a, literal b => a.same b
  | a, b => decide (a = b)

namespace Place

/-- The temp that a store to a place defines. -/
def temp? : Place → Option TempId
  | temp t => some t
  | _ => none

/-- Whether a place is written by a name of the source. -/
def isNamed : Place → Bool
  | named _ | global _ => true
  | _ => false

/-- The place that names the object of an operand. -/
def ofObject : Operand → Place
  | .temp t => temp t
  | .named name _ => named name
  | .global name => global name
  | .receiver => global "this"
  | .arguments => global "arguments"
  | _ => global "?"

end Place

/-- Whether effects hold one that cannot be looked into. -/
def hasIo (effects : List Effect) : Bool := effects.contains .io

/-- The effects of computing a value. -/
def Value.effects : Value → List Effect
  | call .. | operand (.raw _) => [.io]
  | delete o _ => [.mutation (.ofObject o)]
  | _ => []

/-- Whether a value is a fresh object or array. -/
def Value.isConstruction : Value → Bool
  | object _ | array _ => true
  | _ => false

/-- Whether a value merges copies. -/
def Value.isMerge : Value → Bool
  | merge _ => true
  | _ => false

namespace Loop

/-- The chain of blocks that computes the condition. -/
def test? (l : Loop) : Option BlockId :=
  match l.head with
  | .tested _ test _ => some test
  | .iterated .. => none

/-- The blocks that a loop owns, in the order in which they run. -/
def blocks (l : Loop) : List BlockId :=
  match l.head with
  | .tested false test _ => [test, l.body]
  | .tested true test _ => [l.body, test]
  | .iterated .. => [l.body]

/-- The word for a kind of loop. -/
def word (l : Loop) : String :=
  match l.head with
  | .tested false .. => "while"
  | .tested true .. => "do-while"
  | .iterated false .. => "for-in"
  | .iterated true .. => "for-of"

end Loop

namespace Action

def temp? : Action → Option TempId
  | define t .. => some t
  | declare place .. => place.temp?
  | _ => none

/-- The blocks that an action owns, in the order in which they run. -/
def blocks : Action → List BlockId
  | branch _ a b _ => a :: b.toList
  | loop l => l.blocks
  | _ => []

end Action

namespace Program

def block (p : Program) (b : BlockId) : Block := p.blocks.getD b default

/-- A statement. -/
def stmt (p : Program) (s : StmtId) : Stmt := p.stmts.getD s default

def function (p : Program) (f : FuncId) : Procedure := p.functions.getD f default

/-- The first block of a function. -/
def firstBlock? (p : Program) (f : FuncId) : Option BlockId := (p.function f).blocks.head?

/-- Changes a block. -/
def modifyBlock (p : Program) (b : BlockId) (f : Block → Block) : Program :=
  { p with blocks := p.blocks.modify b f }

/-- Changes a statement. -/
def modifyStmt (p : Program) (s : StmtId) (f : Stmt → Stmt) : Program :=
  { p with stmts := p.stmts.modify s f }

/-- Changes what is known of a temp. -/
def modifySlot (p : Program) (t : TempId) (f : Slot → Slot) : Program :=
  p.modifyBlock t.block fun b => { b with slots := b.slots.modify t.slot f }

/-- What is known of a temp. -/
def slot? (p : Program) (t : TempId) : Option Slot := (p.block t.block).slots[t.slot]?

/-- The statement that defines a temp. -/
def definition? (p : Program) (t : TempId) : Option StmtId := (p.slot? t).bind (·.definition)

def definer? (p : Program) (t : TempId) : Option Action :=
  (p.definition? t).map fun s => (p.stmt s).action

/-- The value that defines a temp, unless a function does. -/
def value? (p : Program) (t : TempId) : Option Value :=
  match p.definer? t with
  | some (.define _ v _) => some v
  | _ => none

/-- The known shapes of the object in a temp. -/
def shape? (p : Program) (t : TempId) : Option Shape := (p.slot? t).bind (·.shape)

/-- Whether a temp merges copies. -/
def isMerge (p : Program) (t : TempId) : Bool := (p.value? t).any Value.isMerge

/-- Whether a temp holds a fresh object or array. -/
def isConstruction (p : Program) (t : TempId) : Bool := (p.value? t).any Value.isConstruction

/-- Forgets the definition of a temp. -/
def dropDefinition (p : Program) (t : TempId) : Program :=
  p.modifySlot t fun s => { s with definition := none }

/-- Whether an operand reads storage that other statements can write. -/
def isVolatile (p : Program) : Operand → Bool
  | .temp t => p.isMerge t
  | .named _ pinned => pinned
  | .global name => p.assigned.contains name
  | _ => false

end Program

/-- Whether a statement may change what volatile operands read. -/
def Stmt.clobbers (s : Stmt) : Bool :=
  !s.effects.isEmpty ||
    match s.action with
    | .copy .. | .store .. | .loop _ => true
    | _ => false

end ScriptOptimizer.IR
