import ScriptOptimizer.Syntax.Layout
import ScriptOptimizer.Syntax.Tree

/-!
# Printing trees

The pieces of a tree. An operand is put in parentheses when it binds weaker than its place requires. An
expression statement that would begin like a declaration or a block is put in parentheses as a whole,
and `??` is never mixed with `||` and `&&` without parentheses.
-/

namespace ScriptOptimizer

/-- Whether an expression begins with `function` or an opening brace. -/
def Expr.startsAmbiguously : Expr → Bool
  | .function .. | .object .. => true
  | .binary _ _ l _ | .logical _ _ l _ => l.startsAmbiguously
  | .assign _ _ t _ => t.startsAmbiguously
  | .conditional _ t _ _ => t.startsAmbiguously
  | .call _ c _ => c.startsAmbiguously
  | .member _ o _ | .index _ o _ => o.startsAmbiguously
  | .sequence _ (x :: _) => x.startsAmbiguously
  | .update _ _ inFront x => !inFront && x.startsAmbiguously
  | _ => false

/-- Whether the function of a construction holds a call outside parentheses. -/
def Expr.containsCall : Expr → Bool
  | .call .. => true
  | .member _ o _ | .index _ o _ => o.containsCall
  | _ => false

/-- The binding strength of an expression. -/
def Expr.level : Expr → Nat
  | .sequence .. | .raw .. => Rank.sequence.level
  | .assign .. => Rank.assignment.level
  | .conditional .. => Rank.conditional.level
  | .binary _ op _ _ | .logical _ op _ _ => op.level
  | .unary .. => Rank.unary.level
  | .update .. => Rank.update.level
  | .call .. => Rank.call.level
  | .construct _ _ args => if args.isNone then Rank.member.level else Rank.call.level
  | .member .. | .index .. => Rank.member.level
  | .literal _ .undefined => Rank.unary.level
  | .literal _ (.number x) => if Number.isNegative x then Rank.unary.level else Rank.primary.level
  | _ => Rank.primary.level

namespace Printer

/-- Pieces in parentheses. -/
def parens (ps : List Piece) : List Piece := .glued "(" :: ps ++ [.glued ")"]

/-- The pieces of an operand, in parentheses when it binds weaker than `min`. -/
def operand (min : Nat) (e : Expr) (ps : List Piece) : List Piece :=
  if e.level < min then parens ps else ps

/-- A comma between items. -/
def comma : List Piece := [.glued ",", .space]

/-- The strength that an operand of a logical operator needs: mixing with `??` takes parentheses. -/
def logicalMin (op : BinaryOp) (x : Expr) (min : Nat) : Nat :=
  match x with
  | .logical _ inner _ _ =>
    if decide (op = .nullish) != decide (inner = .nullish) then Rank.primary.level else min
  | _ => min

/-- The strengths that the operands of a binary operator need. -/
def operandMins (op : BinaryOp) (left right : Expr) : Nat × Nat :=
  let (l, r) :=
    if op = .power then
      (match left with
        | .unary .. => Rank.primary.level
        | _ => op.level + 1, op.level)
    else (op.level, op.level + 1)
  if op.isLogical then (logicalMin op left l, logicalMin op right r) else (l, r)

/-- Whether an operator symbol is a word. -/
def isWordSymbol (symbol : String) : Bool := symbol.toList.head?.any Layout.isWordChar

/-- The symbol between two operands. -/
def infixSymbol (op : BinaryOp) : List Piece :=
  if isWordSymbol op.symbol then [.glued " ", .word op.symbol, .glued " "]
  else [.space, .word op.symbol, .space]

def literal : Literal → List Piece
  | .string t => [.glued (Quoted.encode t)]
  | .undefined => [.word "void", .glued " 0"]
  | l => [.word l.source]

/-- The name of a member behind its object. -/
def memberName (name : String) : List Piece :=
  if isIdentifierName name then [.glued ".", .glued name]
  else [.glued "[", .glued (Quoted.encode (Text.ofString name)), .glued "]"]

/-- The key of a named member of an object literal. -/
def propertyName (key : Text) : Piece :=
  match key.identifierName? with
  | some name => .word name
  | none => .glued (Quoted.encode key)

/-- Statements in braces, given their pieces. -/
def braces (isEmpty : Bool) (ps : List Piece) : List Piece :=
  if isEmpty then [.glued "\x7b", .glued "\x7d"]
  else .glued "\x7b" :: .indent :: .newline :: ps ++ [.dedent, .newline, .glued "\x7d"]

/-- An expression where any expression may stand. -/
def whole (e : Expr) (ps : List Piece) : List Piece := operand Rank.sequence.level e ps

/-- The function of a construction; one that holds a call takes parentheses. -/
def newCallee (callee : Expr) (ps : List Piece) : List Piece :=
  .word "new" :: .glued " " ::
    if callee.containsCall then parens ps else operand Rank.member.level callee ps

/-- The object of a member; a number takes parentheses. -/
def memberObject (object : Expr) (ps : List Piece) : List Piece :=
  match object with
  | .literal _ (.number _) => parens ps
  | _ => operand Rank.call.level object ps

/-- The body of a conditional or a loop, always in braces. -/
def block (body : Stmt) (ps : List Piece) : List Piece :=
  match body with
  | .block .. => ps
  | .hole => braces true []
  | _ => braces false ps

/-- The second branch of a conditional statement; a nested conditional needs no braces. -/
def elseBody (body : Stmt) (ps : List Piece) : List Piece :=
  match body with
  | .ifElse .. => .glued " " :: ps
  | _ => .space :: block body ps

/-- The label and the end of a jump. -/
def jumpLabel (label : String) : List Piece :=
  if label = "" then [.glued ";"] else [.glued " ", .word label, .glued ";"]

mutual

/-- The pieces of an expression without parentheses of its own. -/
def expr : Expr → List Piece
  | .hole => [.missing .expression]
  | .ident _ name => [.word name]
  | .literal _ value => literal value
  | .receiver _ => [.word "this"]
  | .raw _ text => [.word text]
  | .array _ elems => .glued "[" :: exprs elems ++ [.glued "]"]
  | .object _ [] => [.glued "\x7b", .glued "\x7d"]
  | .object _ (p :: ps) =>
    .glued "\x7b" :: .space :: properties (p :: ps) ++ [.space, .glued "\x7d"]
  | .spread _ arg => .glued "..." :: operand Rank.assignment.level arg (expr arg)
  | .function _ f => func f
  | .unary _ op arg =>
    (if isWordSymbol op.symbol then [.word op.symbol, .glued " "] else [.word op.symbol]) ++
      operand Rank.unary.level arg (expr arg)
  | .update _ op true target =>
    .word op.symbol :: operand Rank.unary.level target (expr target)
  | .update _ op false target =>
    operand Rank.call.level target (expr target) ++ [.glued op.symbol]
  | .binary _ op left right =>
    operand (operandMins op left right).1 left (expr left) ++ infixSymbol op ++
      operand (operandMins op left right).2 right (expr right)
  | .logical _ op left right =>
    operand (operandMins op left right).1 left (expr left) ++ infixSymbol op ++
      operand (operandMins op left right).2 right (expr right)
  | .assign _ op target value =>
    operand Rank.call.level target (expr target) ++ [.space, .glued op.symbol, .space] ++
      operand Rank.assignment.level value (expr value)
  | .conditional _ test thenValue elseValue =>
    operand Rank.nullish.level test (expr test) ++ [.space, .glued "?", .space] ++
      operand Rank.assignment.level thenValue (expr thenValue) ++ [.space, .glued ":", .space] ++
      operand Rank.assignment.level elseValue (expr elseValue)
  | .call _ callee args => operand Rank.call.level callee (expr callee) ++ parens (exprs args)
  | .construct _ callee none => newCallee callee (expr callee) ++ parens []
  | .construct _ callee (some args) => newCallee callee (expr callee) ++ parens (exprs args)
  | .member _ object name => memberObject object (expr object) ++ memberName name
  | .index _ object key =>
    memberObject object (expr object) ++ .glued "[" :: whole key (expr key) ++ [.glued "]"]
  | .sequence _ list => exprs list

/-- Expressions between commas. -/
def exprs : List Expr → List Piece
  | [] => []
  | [e] => operand Rank.assignment.level e (expr e)
  | e :: es => operand Rank.assignment.level e (expr e) ++ comma ++ exprs es

/-- Members of an object literal between commas. -/
def properties : List Property → List Piece
  | [] => []
  | [p] => property p
  | p :: ps => property p ++ comma ++ properties ps

/-- A member of an object literal. -/
def property : Property → List Piece
  | .spread _ value => .glued "..." :: operand Rank.assignment.level value (expr value)
  | .computed _ key value =>
    .glued "[" :: operand Rank.assignment.level key (expr key) ++ .glued "]" :: propertyValue value
  | .named _ key value => propertyName key :: propertyValue value

/-- The value of a member of an object literal. -/
def propertyValue : Option Expr → List Piece
  | none => []
  | some value => .glued ":" :: .space :: operand Rank.assignment.level value (expr value)

/-- The initial value of a binding. -/
def initializer : Option Expr → List Piece
  | none => []
  | some value => .space :: .glued "=" :: .space :: operand Rank.assignment.level value (expr value)

def bindingTarget (name : String) : Option Expr → List Piece
  | none => [.word name]
  | some pattern => operand Rank.assignment.level pattern (expr pattern)

def func : Func → List Piece
  | ⟨_, _, name, ps, body, generator⟩ =>
    .word "function" :: (if generator then [.glued "*"] else []) ++
      (if name = "" then [] else [.glued " ", .word name]) ++
      parens (params ps) ++ .space :: braces body.isEmpty (stmts body)

/-- Parameters between commas. -/
def params : List Param → List Piece
  | [] => []
  | [p] => param p
  | p :: ps => param p ++ comma ++ params ps

def param : Param → List Piece
  | ⟨_, name, pattern, default, rest⟩ =>
    (if rest then [.glued "..."] else []) ++ bindingTarget name pattern ++ initializer default

/-- A variable declaration without its semicolon. -/
def varDecl : VarDecl → List Piece
  | ⟨_, kind, decls⟩ => .word kind.word :: .glued " " :: declarators decls

/-- Declarators between commas. -/
def declarators : List Declarator → List Piece
  | [] => []
  | [d] => declarator d
  | d :: ds => declarator d ++ comma ++ declarators ds

def declarator : Declarator → List Piece
  | ⟨_, name, pattern, init⟩ => bindingTarget name pattern ++ initializer init

def stmt : Stmt → List Piece
  | .hole => [.missing .statement]
  | .varDecl d => varDecl d ++ [.glued ";"]
  | .function _ f => func f
  | .block _ _ body => braces body.isEmpty (stmts body)
  | .ifElse _ test thenBody elseBody =>
    .word "if" :: .space :: parens (whole test (expr test)) ++ .space :: block thenBody (stmt thenBody) ++
      elsePart elseBody
  | .forLoop _ _ init test update body =>
    .word "for" :: .space :: .glued "(" :: forInit init ++ .glued ";" :: clause test ++
      .glued ";" :: clause update ++ .glued ")" :: .space :: block body (stmt body)
  | .forIn _ _ of decl target right body =>
    .word "for" :: .space :: .glued "(" ::
      (if decl.isSome then forDecl decl else forTarget target) ++
      [.word (if of then "of" else "in"), .glued " "] ++
      operand Rank.assignment.level right (expr right) ++
      .glued ")" :: .space :: block body (stmt body)
  | .whileLoop _ test body =>
    .word "while" :: .space :: parens (whole test (expr test)) ++ .space :: block body (stmt body)
  | .doWhile _ body test =>
    .word "do" :: .space :: block body (stmt body) ++
      .space :: .word "while" :: .space :: .glued "(" :: whole test (expr test) ++ [.glued ");"]
  | .breakLoop _ label => .word "break" :: jumpLabel label
  | .continueLoop _ label => .word "continue" :: jumpLabel label
  | .returnValue _ none => [.word "return", .glued ";"]
  | .returnValue _ (some arg) => .word "return" :: .glued " " :: whole arg (expr arg) ++ [.glued ";"]
  | .throwValue _ arg => .word "throw" :: .glued " " :: whole arg (expr arg) ++ [.glued ";"]
  | .expr _ x =>
    (if x.startsAmbiguously then parens (whole x (expr x)) else whole x (expr x)) ++ [.glued ";"]
  | .empty _ => [.glued ";"]
  | .labeled _ label body => .word label :: .glued ":" :: .space :: stmt body

/-- Statements on lines of their own. -/
def stmts : List Stmt → List Piece
  | [] => []
  | [s] => stmt s
  | s :: ss => stmt s ++ .newline :: stmts ss

/-- The optional second branch of a conditional statement. -/
def elsePart : Option Stmt → List Piece
  | none => []
  | some s => .space :: .word "else" :: elseBody s (stmt s)

/-- The first clause of a loop. -/
def forInit : Option Stmt → List Piece
  | some (.varDecl d) => varDecl d
  | some (.expr _ x) => whole x (expr x)
  | _ => []

/-- The second and third clause of a loop. -/
def clause : Option Expr → List Piece
  | none => []
  | some e => .space :: whole e (expr e)

/-- The declaration of a loop over keys or values. -/
def forDecl : Option VarDecl → List Piece
  | none => []
  | some d => varDecl d

/-- The target of a loop over keys or values that declares nothing. -/
def forTarget : Option Expr → List Piece
  | none => [.missing .expression]
  | some t => operand Rank.call.level t (expr t)

end

end Printer

/-- The text of an expression. -/
def Expr.print (e : Expr) (layout : Layout) : Except Missing String :=
  layout.render (Printer.whole e (Printer.expr e))

/-- The text of a script. -/
def Script.print (s : Script) (layout : Layout) : Except Missing String :=
  layout.render (Printer.stmts s.body)

end ScriptOptimizer
