import ScriptOptimizer.Lowering.Expression
import ScriptOptimizer.Lowering.Loop

/-!
# Lowering of scripts

Expressions, statements and functions refer to each other. Every step into the tree counts towards the
allowed nesting. Two of the counts that bound the recursion are enough for it: at most `maxDepth` steps
pass the check, and behind the last of them only functions nest, at most `maxDepth` times.
-/

namespace ScriptOptimizer.Lowering

open IR

/-- One step further into the tree. -/
def deeper (c : Site) (pos : Position) : Lower Site := do
  let c := { c with depth := c.depth + 1 }
  if maxDepth < c.depth then fail .nestingTooDeep pos
  return c

/-- A statement that is a directive or runs for its effects. -/
def exprStmt (value : Part) (c : Site) (pos : Position) (e : Expr) : Lower Unit := do
  match e with
  | .literal _ (.string t) =>
    discard (emit c (.eval (.operand (.literal (.string t)))) pos [.io])
  | _ => discard (value c e)

/-- The bindings of a variable declaration. -/
def varDecl (value : Part) (c : Site) (d : VarDecl) : Lower Unit :=
  d.decls.forM fun x => do
    let b ← resolve c x.name
    let v ← match x.init with
      | some e => do pure (some (← value c e))
      | none => pure (if d.kind = .var then none else some (.literal .undefined))
    if let some b := b then setDeclared b
    if let some v := v then discard (writeName c b x.name v x.pos)

/-- Ends the block with a statement that control does not pass. -/
def leave (c : Site) (action : Operand → Action) (v : Operand) (pos : Position) : Lower Unit := do
  escape [v]
  discard (emit c (action v) pos [])
  modify fun s => { s with terminated := true }

/-- The statement that gives a parameter its default value. -/
def defaultStmt (x : Param) (default : Expr) : Stmt :=
  let name := Expr.ident x.pos x.name
  let undefined := Expr.unary x.pos .void (.literal {} (.number 0))
  .ifElse x.pos (.binary x.pos .same name undefined)
    (.expr x.pos (.assign x.pos .set name default)) none

/-- Binds a declared function. -/
def declareFunction (function : Site → Func → Lower FuncId) (c : Site) (pos : Position) (f : Func) :
    Lower Unit := do
  let func ← function c f
  let names ← read
  match names.lookup c.scope f.name with
  | none => broken (.undeclaredFunction f.name)
  | some b =>
    let x := names.binding b
    let bind := fun (place : Place) =>
      discard (emit c (.declare place func x.output) pos [.mutation place])
    if x.isGlobal then bind (.global x.name)
    else if x.pinned then bind (.named x.output)
    else
      let block := (← get).block
      let t ← nextTemp block
      let s ← emit c (.declare (.temp t) func x.output) pos []
      newTemp block s
      setValue b (some (.temp t))

/-- Lowers statements until control cannot pass one. -/
def run (stmt : Site → Stmt → Lower Unit) (c : Site) : List Stmt → Lower Unit
  | [] => pure ()
  | s :: ss => do
    unless (← get).terminated do
      stmt c s
      run stmt c ss

/-- Lowers a list of statements, the functions that it declares first. -/
def body (function : Site → Func → Lower FuncId) (stmt : Site → Stmt → Lower Unit) (c : Site)
    (list : List Stmt) : Lower Unit := do
  list.forM fun
    | .function pos f => declareFunction function c pos f
    | _ => pure ()
  run stmt c list

/-- Gives the variables of a function the value `undefined`. -/
def initVars (c : Site) : Lower Unit := do
  let names ← read
  (names.scope c.scope).bindings.forM fun b => do
    let x := names.binding b
    if x.kind == .var && x.isTracked then
      setValue b (some (← hold c (.literal .undefined) x.pos))

/-- Lowers an expression, given how its parts and the functions in it are lowered; gives an operand that
holds its value. -/
def exprWith (value : Part) (function : Site → Func → Lower FuncId) (c : Site) (e : Expr) :
    Lower Operand := do
  let c ← deeper c e.pos
  match e with
  | .hole => broken (.unexpectedStatement e.kindName)
  | .literal _ v => return .literal v
  | .ident pos name => readName c name pos
  | .receiver _ => return .receiver
  | .raw pos text => hold c (.raw text) pos
  | .function pos f => do hold c (.closure (← function c f)) pos
  | .array pos es => array value c pos es
  | .object pos ps => object value c pos ps
  | .spread pos _ => refuse .spreadElement pos
  | .unary pos op x => unary value c pos op x
  | .update pos op i x => update value c pos op i x
  | .binary pos op l r => binary value c pos op l r
  | .logical pos op l r => logical value c pos op l r
  | .assign pos op t v => assignment value c pos op t v
  | .conditional pos t a b => conditional value c pos t a b
  | .call pos f as => call value c pos false f as
  | .construct pos f as => call value c pos true f (as.getD [])
  | .member pos o name => do
    let (o, k, _) ← memberParts value c o (.name name) []
    readMember c o k pos
  | .index pos o k => do
    let (o, k, _) ← memberParts value c o (.computed k) []
    readMember c o k pos
  | .sequence _ es => sequence value c es

/-- Lowers a statement, given how its parts and the functions in it are lowered. -/
def stmtWith (value : Part) (stmt : Site → Stmt → Lower Unit) (function : Site → Func → Lower FuncId)
    (c : Site) (s : Stmt) : Lower Unit := do
  let c ← deeper c s.pos
  match s with
  | .hole => broken (.unexpectedStatement s.kindName)
  | .varDecl d => varDecl value c d
  | .function .. => pure ()
  | .block _ scope b => body function stmt { c with scope := scope.getD c.scope } b
  | .expr pos e => exprStmt value c pos e
  | .ifElse pos t a b => do
    let cond ← value c t
    branch c cond (fun c => stmt c a) (b.map fun b c => stmt c b) [] pos
  | .whileLoop pos t b => testedLoop value stmt c false t b none pos
  | .doWhile pos b t => testedLoop value stmt c true t b none pos
  | .forLoop pos scope init test update b => do
    let c := { c with scope := scope.getD c.scope }
    init.forM (stmt c)
    testedLoop value stmt c false (test.getD (.literal {} (.bool true))) b update pos
  | .forIn pos scope of decl target right b => do
    let object ← value c right
    escape [object]
    let c := { c with scope := scope.getD c.scope }
    let name := match decl with
      | some d => (d.decls.head?.map (·.name)).getD ""
      | none => (target.bind identName?).getD ""
    iteratedLoop stmt c of decl.isSome name object b pos
  | .breakLoop pos _ => jump value c false pos
  | .continueLoop pos _ => jump value c true pos
  | .returnValue pos arg =>
    if c.func = topFunc then fail (.malformed .returnOutsideFunction) pos
    else do
      let v ← match arg with
        | some e => value c e
        | none => pure (.literal .undefined)
      leave c .returnValue v pos
  | .throwValue pos arg => do leave c .throwValue (← value c arg) pos
  | .empty _ => pure ()
  | .labeled pos _ _ => refuse .labeledStatement pos

/-- Lowers a function into blocks of its own, given how its parts are lowered. One that has blocks already
stands in the update of a loop, which is lowered again at every jump to its end. -/
def functionWith (stmt : Site → Stmt → Lower Unit) (function : Site → Func → Lower FuncId) (c : Site)
    (f : Func) : Lower FuncId := do
  let some func := f.id | broken (.undiscoveredFunction f.name)
  let outer ← get
  if (outer.program.firstBlock? func).isSome then refuse .updateClosure f.pos
  let entry ← newBlock func none
  let names ← read
  let inner : Site := { func, scope := (names.function func).scope, depth := c.depth + 1 }
  forgetShapes
  let _ ← within entry do
    initVars inner
    f.params.forM fun x => do
      if let some e := x.default then stmt inner (defaultStmt x e)
    body function stmt inner f.body
  modify fun s => { s with tracking := outer.tracking }
  return func

mutual

/-- Lowers an expression that may nest to the given number of steps. -/
def expr : Nat → Site → Expr → Lower Operand
  | 0, _, e => fail .nestingTooDeep e.pos
  | fuel + 1, c, e => exprWith (expr fuel) (function fuel) c e

/-- Lowers a statement that may nest to the given number of steps. -/
def stmt : Nat → Site → Stmt → Lower Unit
  | 0, _, s => fail .nestingTooDeep s.pos
  | fuel + 1, c, s => stmtWith (expr fuel) (stmt fuel) (function fuel) c s

/-- Lowers a function that may nest to the given number of steps. -/
def function : Nat → Site → Func → Lower FuncId
  | 0, _, f => fail .nestingTooDeep f.pos
  | fuel + 1, c, f => functionWith (stmt fuel) (function fuel) c f

end

/-- The state before a script with resolved names is lowered. -/
def initial (names : Names) : State :=
  { program :=
      { functions := names.functions.map fun signature => { signature }
        reserved := names.reserved
        assigned := names.assigned
        globals := names.globals }
    values := names.bindings.map fun b => if b.onEntry then some (.named b.name false) else none
    declared := names.bindings.map fun _ => false }

/-- The steps into a tree that lowering takes at most. -/
def maxSteps : Nat := 2 * maxDepth + 2

/-- Lowers a script with resolved names. -/
def script (names : Names) (s : Script) : Lower Unit := do
  let entry ← newBlock topFunc none
  modify fun s => { s with block := entry }
  body (function maxSteps) (stmt maxSteps)
    { func := topFunc, scope := (names.function topFunc).scope } s.body

end ScriptOptimizer.Lowering

namespace ScriptOptimizer

/-- The intermediate program of a script. -/
def Script.lower (s : Script) : Except Failure IR.Program := do
  let (s, names) ← s.resolve
  let ((), state) ← ((Lowering.script names s).run names).run (Lowering.initial names)
  return state.program

end ScriptOptimizer
