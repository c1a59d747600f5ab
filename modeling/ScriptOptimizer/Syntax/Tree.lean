import ScriptOptimizer.Literal
import ScriptOptimizer.Operator
import ScriptOptimizer.Position

/-!
# Syntax trees

The tree of a script. Every node has a position. A tree that was built by another program may miss
nodes; a required node that is missing is a hole. Name resolution marks every node that opens a scope
with the number of that scope and every function with its number; before it the marks are `none`.
-/

namespace ScriptOptimizer

/-- The keyword of a variable declaration. -/
inductive VarKind where
  | var | lexical | constant
  | other (word : String)
deriving DecidableEq, Repr, Inhabited

namespace VarKind

/-- The keyword as it is written. -/
def word : VarKind → String
  | var => "var"
  | lexical => "let"
  | constant => "const"
  | other w => w

/-- The kind of a keyword. -/
def ofWord : String → VarKind
  | "var" => var
  | "let" => lexical
  | "const" => constant
  | w => other w

end VarKind

mutual

inductive Expr where
  | hole
  | ident (pos : Position) (name : String)
  | literal (pos : Position) (value : Literal)
  | receiver (pos : Position)
  | array (pos : Position) (elems : List Expr)
  | object (pos : Position) (props : List Property)
  | spread (pos : Position) (arg : Expr)
  | function (pos : Position) (func : Func)
  | unary (pos : Position) (op : UnaryOp) (arg : Expr)
  | update (pos : Position) (op : UpdateOp) (inFront : Bool) (target : Expr)
  | binary (pos : Position) (op : BinaryOp) (left right : Expr)
  | logical (pos : Position) (op : BinaryOp) (left right : Expr)
  | assign (pos : Position) (op : AssignOp) (target value : Expr)
  | conditional (pos : Position) (test thenValue elseValue : Expr)
  | call (pos : Position) (callee : Expr) (args : List Expr)
  /-- Construction; the argument list itself may be missing. -/
  | construct (pos : Position) (callee : Expr) (args : Option (List Expr))
  | member (pos : Position) (object : Expr) (name : String)
  | index (pos : Position) (object key : Expr)
  | sequence (pos : Position) (list : List Expr)
  /-- Source text that is passed on untouched. -/
  | raw (pos : Position) (text : String)

/-- A member of an object literal. -/
inductive Property where
  | spread (pos : Position) (value : Expr)
  | computed (pos : Position) (key : Expr) (value : Option Expr)
  | named (pos : Position) (key : Text) (value : Option Expr)

/-- A formal parameter; `pattern` stands in for the name of a destructuring target. -/
structure Param where
  pos : Position
  name : String
  pattern : Option Expr
  default : Option Expr
  rest : Bool

/-- A function, shared by declarations and expressions; the name is empty when it has none. -/
structure Func where
  pos : Position
  id : Option Nat
  name : String
  params : List Param
  body : List Stmt
  generator : Bool

/-- One binding of a variable declaration. -/
structure Declarator where
  pos : Position
  name : String
  pattern : Option Expr
  init : Option Expr

/-- A variable declaration. -/
structure VarDecl where
  pos : Position
  kind : VarKind
  decls : List Declarator

/-- A statement. Labels are empty when there is none. -/
inductive Stmt where
  | hole
  | varDecl (decl : VarDecl)
  | function (pos : Position) (func : Func)
  | block (pos : Position) (scope : Option Nat) (body : List Stmt)
  | ifElse (pos : Position) (test : Expr) (thenBody : Stmt) (elseBody : Option Stmt)
  | forLoop (pos : Position) (scope : Option Nat) (init : Option Stmt) (test update : Option Expr)
      (body : Stmt)
  /-- A loop over keys, or over values when `of` is set. -/
  | forIn (pos : Position) (scope : Option Nat) (of : Bool) (decl : Option VarDecl)
      (target : Option Expr) (right : Expr) (body : Stmt)
  | whileLoop (pos : Position) (test : Expr) (body : Stmt)
  | doWhile (pos : Position) (body : Stmt) (test : Expr)
  | breakLoop (pos : Position) (label : String)
  | continueLoop (pos : Position) (label : String)
  | returnValue (pos : Position) (arg : Option Expr)
  | throwValue (pos : Position) (arg : Expr)
  | expr (pos : Position) (value : Expr)
  | empty (pos : Position)
  | labeled (pos : Position) (label : String) (body : Stmt)

end

instance : Inhabited Expr := ⟨.hole⟩
instance : Inhabited Stmt := ⟨.hole⟩
instance : Inhabited Property := ⟨.spread default .hole⟩
instance : Inhabited Param := ⟨⟨default, "", none, none, false⟩⟩
instance : Inhabited Func := ⟨⟨default, none, "", [], [], false⟩⟩
instance : Inhabited Declarator := ⟨⟨default, "", none, none⟩⟩
instance : Inhabited VarDecl := ⟨⟨default, .var, []⟩⟩

/-- A whole script. -/
structure Script where
  pos : Position
  body : List Stmt
deriving Inhabited

def Expr.pos : Expr → Position
  | hole => {}
  | ident p _ | literal p _ | receiver p | array p _ | object p _ | spread p _ | function p _
  | unary p _ _ | update p _ _ _ | binary p _ _ _ | logical p _ _ _ | assign p _ _ _
  | conditional p _ _ _ | call p _ _ | construct p _ _ | member p _ _ | index p _ _ | sequence p _
  | raw p _ => p

/-- The position of an object member. -/
def Property.pos : Property → Position
  | spread p _ | computed p _ _ | named p _ _ => p

def Stmt.pos : Stmt → Position
  | hole => {}
  | varDecl d => d.pos
  | function p _ | block p _ _ | ifElse p _ _ _ | forLoop p _ _ _ _ _ | forIn p _ _ _ _ _ _
  | whileLoop p _ _ | doWhile p _ _ | breakLoop p _ | continueLoop p _ | returnValue p _
  | throwValue p _ | expr p _ | empty p | labeled p _ _ => p

def Expr.kindName : Expr → String
  | hole => "Illegal"
  | ident .. => "Ident"
  | literal .. => "Literal"
  | receiver .. => "This"
  | array .. => "Array"
  | object .. => "Object"
  | spread .. => "Spread"
  | function .. => "FunctionExpr"
  | unary .. => "Unary"
  | update .. => "Update"
  | binary .. => "Binary"
  | logical .. => "Logical"
  | assign .. => "Assign"
  | conditional .. => "Conditional"
  | call .. => "Call"
  | construct .. => "New"
  | member .. | index .. => "Member"
  | sequence .. => "Sequence"
  | raw .. => "Raw"

def Stmt.kindName : Stmt → String
  | hole => "Illegal"
  | varDecl .. => "VarDecl"
  | function .. => "FunctionDecl"
  | block .. => "Block"
  | ifElse .. => "If"
  | forLoop .. => "For"
  | forIn .. => "ForIn"
  | whileLoop .. => "While"
  | doWhile .. => "DoWhile"
  | breakLoop .. => "Break"
  | continueLoop .. => "Continue"
  | returnValue .. => "Return"
  | throwValue .. => "Throw"
  | expr .. => "ExprStmt"
  | empty .. => "Empty"
  | labeled .. => "Labeled"

end ScriptOptimizer
