import ScriptOptimizer.Emission.Pending
import ScriptOptimizer.Emission.Sequence

/-!
# Emission of scripts

Statements are emitted along the chains of blocks. A function is emitted where it is declared or read.
-/

namespace ScriptOptimizer.Emission

open IR

/-- How a chain of blocks is emitted. -/
abbrev Walk := Option BlockId → Emit Unit

/-- Whether a statement is a directive. -/
def isDirective : ScriptOptimizer.Stmt → Bool
  | .expr _ (.literal _ (.string _)) => true
  | _ => false

/-- A body with declarations of the names that it does not declare itself, behind the directives. -/
def withHeader (names : List String) (body : List ScriptOptimizer.Stmt) : List ScriptOptimizer.Stmt :=
  if names.isEmpty then body
  else
    let header := ScriptOptimizer.Stmt.varDecl ⟨{}, .var, names.map fun s => ⟨{}, s, none, none⟩⟩
    body.takeWhile isDirective ++ header :: body.dropWhile isDirective

/-- The body of a function that declares some names. -/
def body (walk : Walk) (closure : Closure) (f : FuncId) (names : List String) :
    Emit (List ScriptOptimizer.Stmt) := do
  let outer ← frame
  let needed := names.eraseDups
  modifyFrame fun _ => { needed }
  let out ← collect do
    walk ((← read).firstBlock? f)
    flush closure
  let inner ← frame
  modifyFrame fun _ => outer
  return withHeader (needed.filter fun s => !inner.declared.contains s) out

/-- A nested function. -/
def function (walk : Walk) (closure : Closure) (f : FuncId) (name : String) : Emit Func := do
  let signature := ((← read).function f).signature
  let params := signature.params.map fun x => (⟨{}, x.name, none, none, false⟩ : ScriptOptimizer.Param)
  let stmts ← body walk closure f signature.pinned
  return ⟨{}, none, name, params, stmts, false⟩

/-- The statements of a chain of blocks that another statement owns. -/
def contained (walk : Walk) (closure : Closure) (b : BlockId) : Emit (List ScriptOptimizer.Stmt) :=
  collect do
    walk (some b)
    flush closure

/-- Whether evaluating an operand on its own can be left out. -/
def isQuiet (x : Operand) : Emit Bool := do
  match x with
  | .literal _ | .receiver | .arguments | .named .. | .closure _ => return true
  | .temp t =>
    if (← frame).taken.contains t then return false
    else
      match (← read).definer? t with
      | some (.declare ..) => return true
      | some (.define _ _ placement) => return placement != .inlined
      | _ => return false
  | .global _ | .raw _ => return false

/-- The opposite of a condition. -/
def negate : Expr → Expr
  | .unary _ .not x => x
  | e => .unary {} .not e

def braces (stmts : List ScriptOptimizer.Stmt) : ScriptOptimizer.Stmt := .block {} none stmts

/-- The second arm of a branch. -/
def elseArm : List ScriptOptimizer.Stmt → Option ScriptOptimizer.Stmt
  | [] => none
  | [.ifElse p t a b] => some (.ifElse p t a b)
  | stmts => some (braces stmts)

/-- A branch with an unknown outcome. -/
def branch (walk : Walk) (closure : Closure) (cond : Operand) (a : BlockId) (b : Option BlockId) :
    Emit Unit := do
  consume closure [cond]
  let test ← operand closure cond
  let quiet ← isQuiet cond
  done
  let first ← contained walk closure a
  let second ← match b with
    | some b => contained walk closure b
    | none => pure []
  match first, second with
  | [], [] => unless quiet do putExpr test
  | [], _ => put (.ifElse {} (negate test) (braces second) none)
  | _, _ => put (.ifElse {} test (braces first) (elseArm second))

/-- The test of a loop as one expression. -/
def testOf (walk : Walk) (closure : Closure) (test : BlockId) (cond : Operand) : Emit Expr := do
  let outer := (← get).out
  modify fun s => { s with out := #[] }
  walk (some test)
  consume closure [cond]
  let x ← operand closure cond
  done
  let stmts := (← get).out.toList
  modify fun s => { s with out := outer }
  if stmts.isEmpty then return x
  match Sequence.list stmts with
  | .error what => broken what
  | .ok (list, names) =>
    unless names.isEmpty do
      put (.varDecl ⟨{}, .var, names.map fun s => ⟨{}, s, none, none⟩⟩)
    return .sequence {} (list ++ [x])

def isLiteral : Expr → Bool
  | .literal .. => true
  | _ => false

/-- Notes that a name is declared; tells whether the declaration is to be written now. -/
def declareNow (s : String) : Emit Bool := do
  let f ← frame
  if f.needed.contains s && !f.declared.contains s then
    modifyFrame fun f => { f with declared := s :: f.declared }
    return true
  else return false

/-- The name of the place that a loop over keys or values stores them in. -/
def eachName : Place → String
  | .named s | .global s => s
  | .temp _ | .merge _ => ""

/-- A loop that is not left out. -/
def loop (walk : Walk) (closure : Closure) (l : Loop) : Emit Unit := do
  flush closure
  match l.head with
  | .tested false test cond =>
    let x ← testOf walk closure test cond
    let inner ← contained walk closure l.body
    if isLiteral x && l.rounds == .infinite then
      put (.forLoop {} none none none none (braces inner))
    else put (.whileLoop {} x (braces inner))
  | .tested true test cond =>
    let isDead := ((← read).block test).dead
    if l.rounds == .once then
      walk (some l.body)
      flush closure
      unless isDead do
        walk (some test)
        consume closure [cond]
        unless ← isQuiet cond do putExpr (← operand closure cond)
        done
    else
      let inner ← contained walk closure l.body
      let x ← if isDead then pure (.literal {} (.bool false)) else testOf walk closure test cond
      put (.doWhile {} (braces inner) x)
  | .iterated of each object =>
    consume closure [object]
    let right ← operand closure object
    done
    let (decl, target) ← match each with
      | .merge t => do pure (none, some (name (← register t)))
      | _ => do
        let s := eachName each
        if ← declareNow s then
          pure (some (⟨{}, .var, [⟨{}, s, none, none⟩]⟩ : VarDecl), none)
        else pure (none, some (name s))
    let inner ← contained walk closure l.body
    put (.forIn {} none of decl target right (braces inner))

/-- Whether the last statement declares a variable and gives it no value. -/
def declaresLast (s : String) (out : Array ScriptOptimizer.Stmt) : Bool :=
  match out.back? with
  | some (.varDecl ⟨_, _, [⟨_, name, none, none⟩]⟩) => name == s
  | _ => false

/-- Copies a value into the variable of a merging temp, in its declaration if that comes right in front. -/
def copy (closure : Closure) (t : TempId) (v : Option Operand) : Emit Unit := do
  consume closure v.toList
  let x ← match v with
    | some v => operand closure v
    | none => broken .absentOperand
  let s ← get
  match s.registers[t]? with
  | some r =>
    if declaresLast r s.out then
      set { s with out := s.out.pop }
      put (declaration r (some x))
    else putExpr (assignTo (name r) x)
  | none => putExpr (assignTo (name (← register t)) x)
  done

def define (closure : Closure) (s : StmtId) (t : TempId) (v : Value) (placement : Placement) :
    Emit Unit := do
  if v.isMerge then
    flush closure
    put (declaration (← register t) none)
  else
    match placement with
    | .inlined => pure ()
    | .pending => modifyFrame fun f => { f with pending := f.pending ++ [(t, s)] }
    | .undecided | .register =>
      consume closure v.operands
      let x ← value closure v
      put (declaration (← register t) (some x))
      done

/-- Writes a name that is kept in the output, in a declaration if it has to be declared. -/
def store (closure : Closure) (place : Place) (v : Operand) : Emit Unit := do
  consume closure [v]
  let x ← operand closure v
  let s := eachName place
  if ← declareNow s then put (declaration s (some x))
  else putExpr (assignTo (name s) x)
  done

/-- Emits a live statement. -/
def stmt (walk : Walk) (closure : Closure) (s : StmtId) : Emit Unit := do
  match ((← read).stmt s).action with
  | .define t v placement => define closure s t v placement
  | .copy t v => copy closure t v
  | .store place v => store closure place v
  | .eval v => do
    consume closure v.operands
    putExpr (← value closure v)
    done
  | .setMember o k v => do
    consume closure [o, k, v]
    let target ← member (operand closure) o k
    putExpr (assignTo target (← operand closure v))
    done
  | .returnValue v => do
    consume closure [v]
    put (.returnValue {} (← if v.isUndefined then pure none else some <$> operand closure v))
    done
  | .throwValue v => do
    consume closure [v]
    put (.throwValue {} (← operand closure v))
    done
  | .branch cond a b known =>
    match known with
    | none => branch walk closure cond a b
    | some true => do
      flush closure
      walk (some a)
    | some false => do
      flush closure
      if b.isSome then walk b
  | .loop l => unless l.rounds == .none do loop walk closure l
  | .breakLoop _ => do
    flush closure
    put (.breakLoop {} "")
  | .continueLoop _ => do
    flush closure
    put (.continueLoop {} "")
  | .declare place f output => do
    flush closure
    if place.isNamed then modifyFrame fun x => { x with declared := output :: x.declared }
    put (.function {} (← closure f output))

mutual

/-- Emits a chain of blocks. Neither nesting nor continuing meets a block or a function twice, so their
number bounds the recursion. -/
def chain : Nat → Walk
  | _, none => pure ()
  | 0, some _ => broken .exhausted
  | fuel + 1, some b => do
    let p ← read
    unless (p.block b).dead do
      (p.block b).stmts.forM fun s => do
        if (p.stmt s).live then stmt (chain fuel) (nested fuel) s
      chain fuel (p.block b).next

/-- Emits a function inside another. -/
def nested : Nat → Closure
  | 0, _, _ => broken .exhausted
  | fuel + 1, f, name => function (chain fuel) (nested fuel) f name

end

end ScriptOptimizer.Emission

namespace ScriptOptimizer

def IR.Program.emit (p : IR.Program) : Except Failure Script := do
  let fuel := p.blocks.size + p.functions.size + 2
  let body := Emission.body (Emission.chain fuel) (Emission.nested fuel) topFunc p.globals
  let (stmts, _) ← (body.run p).run {}
  return ⟨{}, stmts⟩

end ScriptOptimizer
