import ScriptOptimizer.Diagnostic.Fault
import ScriptOptimizer.IR.Operands
import ScriptOptimizer.IR.Text
import ScriptOptimizer.Syntax.Tree

/-!
# The state of emission

Emission turns the live statements of a program back into a tree. Temps that are kept in variables are
named `$0`, `$1` and so on, leaving out the names that the script spells.
-/

namespace ScriptOptimizer.Emission

open IR

/-- What is known while a function is emitted. -/
structure Frame where
  /-- The temps that wait for their only reader, with their definitions. -/
  pending : List (TempId × StmtId) := []
  /-- The waiting temps that the statement at hand takes up. -/
  taken : List TempId := []
  /-- The names that the function has to declare. -/
  needed : List String := []
  /-- The names that it has declared. -/
  declared : List String := []
deriving Inhabited

/-- What is known while a program is emitted. -/
structure State where
  /-- The variables that hold temps. -/
  registers : TempMap String := {}
  /-- The number of the next variable. -/
  next : Nat := 0
  frame : Frame := {}
  /-- The statements emitted so far. -/
  out : Array ScriptOptimizer.Stmt := #[]
deriving Inhabited

/-- A step of emission. -/
abbrev Emit := ReaderT Program (StateT State (Except Failure))

/-- Reports a broken invariant. -/
def broken (what : Broken) : Emit α := throw ⟨.broken what, {}⟩

/-- Changes what is known of the function. -/
def modifyFrame (f : Frame → Frame) : Emit Unit := modify fun s => { s with frame := f s.frame }

/-- What is known of the function. -/
def frame : Emit Frame := return (← get).frame

def put (s : ScriptOptimizer.Stmt) : Emit Unit := modify fun x => { x with out := x.out.push s }

/-- Emits an expression as a statement. -/
def putExpr (e : Expr) : Emit Unit := put (.expr {} e)

/-- The statements that a step emits, taken apart from the others. -/
def collect (step : Emit Unit) : Emit (List ScriptOptimizer.Stmt) := do
  let outer := (← get).out
  modify fun s => { s with out := #[] }
  step
  let inner := (← get).out
  modify fun s => { s with out := outer }
  return inner.toList

/-- The name of a variable. -/
def registerName (k : Nat) : String := s!"${k}"

/-- The number of the first variable from `k` on whose name the script does not spell. One of as many
candidates as there are such names, plus one, is free. -/
def freeRegister (reserved : NameSet) (k : Nat) : Nat :=
  ((List.range' k (reserved.size + 1)).find? fun i => !reserved.contains (registerName i)).getD k

/-- The variable that holds a temp. -/
def register (t : TempId) : Emit String := do
  let s ← get
  match s.registers[t]? with
  | some name => return name
  | none =>
    let k := freeRegister (← read).reserved s.next
    set { s with registers := s.registers.insert t (registerName k), next := k + 1 }
    return registerName k

/-- A declaration of one variable. -/
def declaration (name : String) (init : Option Expr) : ScriptOptimizer.Stmt :=
  .varDecl ⟨{}, .var, [⟨{}, name, none, init⟩]⟩

def name (s : String) : Expr := .ident {} s

/-- An assignment as an expression. -/
def assignTo (target value : Expr) : Expr := .assign {} .set target value

end ScriptOptimizer.Emission
