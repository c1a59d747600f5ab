import ScriptOptimizer.Syntax.Walk

/-!
# Semantic tokens

A client colors the names of a document by their kind. The tokens are sent as numbers of 32 bits, each
token relative to the one before it.
-/

namespace ScriptOptimizer.Semantic

/-- The kinds of name. -/
inductive Kind where
  | function | binding | parameter | property
deriving DecidableEq, Repr

def Kind.name : Kind → String
  | function => "function"
  | binding => "variable"
  | parameter => "parameter"
  | property => "property"

/-- The kinds in the order of their numbers. -/
def kinds : List Kind := [.function, .binding, .parameter, .property]

/-- The number of a kind. -/
def Kind.index (k : Kind) : Nat := kinds.idxOf k

/-- The names of the modifiers in the order of their bits. -/
def modifiers : List String := ["declaration"]

/-- A classified name. Lines and columns count from zero, lengths in UTF-16 units. -/
structure SemanticToken where
  line : UInt32
  column : UInt32
  length : UInt32
  kind : Kind
  isDeclaration : Bool
deriving DecidableEq, Repr

/-- A name to classify: where it stands, and as what. -/
structure Label where
  pos : Position
  name : String
  kind : Kind
  isDeclaration : Bool
deriving DecidableEq

/-- The columns that the mark of a rest parameter takes. -/
def restWidth : Nat := 3

/-- Whether a member stands for its own value: a name at the position of the member. -/
def isShorthand (pos : Position) : Option Expr → Bool
  | some (.ident p _) => p = pos
  | _ => false

/-- The name to classify that a node spells. -/
def label? (v : Visit) : Option Label :=
  match v.node with
  | .param x =>
    if x.name = "" then none
    else
      let column := if x.rest then x.pos.column + restWidth else x.pos.column
      some ⟨{ x.pos with column }, x.name, .parameter, true⟩
  | .declarator d =>
    if d.name = "" ∨ v.role = .loopTarget then none else some ⟨d.pos, d.name, .binding, true⟩
  | .property (.named pos key value) =>
    if isShorthand pos value then none
    else key.identifierName?.map fun name => ⟨pos, name, .property, true⟩
  | .expr (.ident pos name) =>
    match v.role with
    | .loopTarget => none
    | .callee => some ⟨pos, name, .function, false⟩
    | .plain => some ⟨pos, name, .binding, false⟩
  | _ => none

/-- The names to classify of a script, in the order of a walk. -/
def labels (s : Script) : List Label := (Walk.script (fun _ => true) s).filterMap label?

/-- The token of a name; none for a name without a place. -/
def Label.token? (l : Label) : Option SemanticToken :=
  if l.pos.line < 1 ∨ l.pos.column < 1 then none
  else some ⟨.ofNat (l.pos.line - 1), .ofNat (l.pos.column - 1), .ofNat (units16 l.name), l.kind, l.isDeclaration⟩

/-- Whether a token does not stand behind another. -/
def SemanticToken.le (a b : SemanticToken) : Bool :=
  a.line < b.line || (a.line == b.line && a.column ≤ b.column)

/-- The tokens of a script in the order of the text. -/
def collect (s : Script) : List SemanticToken :=
  ((labels s).filterMap Label.token?).mergeSort SemanticToken.le

/-- The bits of the modifiers of a token. -/
def SemanticToken.bits (t : SemanticToken) : UInt32 := if t.isDeclaration then 1 else 0

/-- The numbers of tokens behind a line and a column; a difference below zero wraps around. -/
def encodeFrom (line column : UInt32) : List SemanticToken → List UInt32
  | [] => []
  | t :: ts =>
    let down := t.line - line
    let start := if down = 0 then t.column - column else t.column
    down :: start :: t.length :: .ofNat t.kind.index :: t.bits :: encodeFrom t.line t.column ts

/-- The numbers of tokens. -/
def encode (ts : List SemanticToken) : List UInt32 := encodeFrom 0 0 ts

end ScriptOptimizer.Semantic
