import ScriptOptimizer.Position
import Std.Data.TreeSet

/-!
# Scopes and bindings

A scope holds the bindings that a function or a block declares, in order. Scopes, bindings and functions
are numbered in the order in which they are met; function 0 is the script itself. A name resolves to the
binding of the innermost scope that declares it.
-/

namespace ScriptOptimizer

/-- The number of a function; function 0 is the script itself. -/
abbrev FuncId := Nat

/-- The number of a scope. -/
abbrev ScopeId := Nat

/-- The number of a binding. -/
abbrev BindingId := Nat

/-- A set of names. -/
abbrev NameSet := Std.TreeSet String

/-- The function that stands for the script itself. -/
def topFunc : FuncId := 0

/-- How a name was declared. -/
inductive BindingKind where
  | var | lexical | constant | param | function
  /-- The own name of a function expression. -/
  | self
deriving DecidableEq, Repr, Inhabited

/-- A declared name. -/
structure Binding where
  name : String
  kind : BindingKind
  scope : ScopeId
  pos : Position
  /-- Whether a nested function captures the binding. -/
  pinned : Bool := false
  /-- Whether the script itself declares the binding. -/
  isGlobal : Bool := false
  /-- Whether the binding is declared while a loop is open. -/
  inLoop : Bool := false
  /-- Whether the binding has a value when its function is entered. -/
  onEntry : Bool := false
  /-- The name in the output of a binding that keeps one. -/
  output : String := ""
deriving Repr, Inhabited

namespace Binding

/-- Whether a binding cannot be read before its declaration. -/
def isLexical (b : Binding) : Bool := b.kind == .lexical || b.kind == .constant

/-- Whether the value of a binding is known from the text alone. -/
def isTracked (b : Binding) : Bool := !b.pinned && !b.isGlobal

end Binding

/-- The bindings of a function or a block. -/
structure Scope where
  owner : FuncId
  /-- Whether this is the scope of its owner, not of a block. -/
  isFunction : Bool
  /-- The enclosing scopes, innermost first. -/
  outer : List ScopeId
  /-- The bindings in the order of their declaration. -/
  bindings : List BindingId := []
deriving Repr, Inhabited

/-- A formal parameter. -/
structure Formal where
  name : String
  pinned : Bool := false
deriving DecidableEq, Repr, Inhabited

/-- What is known of a function apart from its body. -/
structure Signature where
  name : String
  parent : Option FuncId
  isExpression : Bool := false
  scope : ScopeId := 0
  params : List Formal := []
  /-- The names in the output of captured bindings that are not parameters. -/
  pinned : List String := []
  usesArguments : Bool := false
deriving Repr, Inhabited

/-- The names of a script. -/
structure Names where
  scopes : Array Scope := #[]
  bindings : Array Binding := #[]
  functions : Array Signature := #[]
  /-- Every name that the script spells. -/
  reserved : NameSet := {}
  /-- Free names and names of the script's own scope that are written somewhere. -/
  assigned : NameSet := {}
  /-- The variables of the script's own scope, in the order of their declaration. -/
  globals : List String := []
deriving Inhabited

namespace Names

def scope (n : Names) (s : ScopeId) : Scope := n.scopes.getD s default

/-- A binding. -/
def binding (n : Names) (b : BindingId) : Binding := n.bindings.getD b default

def function (n : Names) (f : FuncId) : Signature := n.functions.getD f default

/-- The function that owns a binding. -/
def owner (n : Names) (b : BindingId) : FuncId := (n.scope (n.binding b).scope).owner

/-- The binding that a scope itself gives a name. -/
def lookup (n : Names) (s : ScopeId) (name : String) : Option BindingId :=
  (n.scope s).bindings.find? fun b => (n.binding b).name == name

/-- A scope and those around it, innermost first. -/
def chain (n : Names) (s : ScopeId) : List ScopeId := s :: (n.scope s).outer

/-- The binding that a name means inside a scope. -/
def resolve (n : Names) (s : ScopeId) (name : String) : Option BindingId :=
  (n.chain s).findSome? fun s => n.lookup s name

/-- Changes a binding. -/
def modifyBinding (n : Names) (b : BindingId) (f : Binding → Binding) : Names :=
  { n with bindings := n.bindings.modify b f }

/-- Changes a function. -/
def modifyFunction (n : Names) (f : FuncId) (g : Signature → Signature) : Names :=
  { n with functions := n.functions.modify f g }

/-- Declares a name in a scope. A name that the scope already has keeps its binding; declaring a function
makes the binding that of a function. -/
def declare (n : Names) (s : ScopeId) (name : String) (kind : BindingKind) (pos : Position) :
    Names × BindingId :=
  match n.lookup s name with
  | some b =>
    (if kind = .function then n.modifyBinding b fun x => { x with kind := .function } else n, b)
  | none =>
    let b := n.bindings.size
    ({ n with
        bindings := n.bindings.push { name, kind, scope := s, pos }
        scopes := n.scopes.modify s fun x => { x with bindings := x.bindings ++ [b] } }, b)

/-- Opens the scope of a function, inside `parent` if there is one. -/
def openFunction (n : Names) (parent : Option ScopeId) (f : FuncId) : Names × ScopeId :=
  let outer := (parent.map n.chain).getD []
  ({ n with scopes := n.scopes.push { owner := f, isFunction := true, outer } }, n.scopes.size)

/-- Opens the scope of a block inside `parent`. -/
def openBlock (n : Names) (parent : ScopeId) : Names × ScopeId :=
  let scope := { owner := (n.scope parent).owner, isFunction := false, outer := n.chain parent }
  ({ n with scopes := n.scopes.push scope }, n.scopes.size)

/-- The scopes of a function in the order in which they were opened. -/
def scopesOf (n : Names) (f : FuncId) : List ScopeId :=
  (List.range n.scopes.size).filter fun s => (n.scope s).owner == f

/-- Notes that the script spells a name. -/
def reserve (n : Names) (name : String) : Names :=
  if name = "" then n else { n with reserved := n.reserved.insert name }

end Names

end ScriptOptimizer
