import ScriptOptimizer.Diagnostic.Fault
import ScriptOptimizer.Scope.Basic
import ScriptOptimizer.Syntax.Walk

/-!
# Name resolution

Resolution visits a script once. It opens the scopes, declares the bindings, marks those that a nested
function captures, and refuses the constructs outside the subset. The resolved tree carries the numbers
of its scopes and functions.
-/

namespace ScriptOptimizer.Resolution

/-- Where a node stands. -/
structure Place where
  func : FuncId
  scope : ScopeId
  /-- Whether a loop of the function is open. -/
  inLoop : Bool := false

/-- A step of resolution. -/
abbrev Resolve := StateT Names (Except Failure)

/-- Refuses a construct outside the subset. -/
def refuse (what : Unsupported) (pos : Position) : Resolve α := throw ⟨.unsupported what, pos⟩

/-- Refuses malformed input. -/
def reject (what : Malformed) (pos : Position) : Resolve α := throw ⟨.malformed what, pos⟩

def declare (scope : ScopeId) (name : String) (kind : BindingKind) (pos : Position) :
    Resolve BindingId :=
  modifyGet fun n =>
    let (n, b) := n.declare scope name kind pos
    (b, n)

def openBlock (parent : ScopeId) : Resolve ScopeId :=
  modifyGet fun n =>
    let (n, s) := n.openBlock parent
    (s, n)

/-- Notes that the script spells a name. -/
def reserve (name : String) : Resolve Unit := modify (·.reserve name)

/-- Marks a binding as captured. A binding that every round of a loop declares anew cannot be. -/
def pin (b : BindingId) : Resolve Unit := do
  let x := (← get).binding b
  if x.pinned then return
  if x.isLexical && x.inLoop then refuse (.loopClosure x.name) x.pos
  modify (·.modifyBinding b fun x => { x with pinned := true })

/-- Resolves a name where it is read or written. -/
def reference (p : Place) (name : String) (isWrite : Bool) : Resolve Unit := do
  reserve name
  let n ← get
  let assign := modify fun n : Names =>
    if isWrite then { n with assigned := n.assigned.insert name } else n
  match n.resolve p.scope name with
  | none =>
    if name = "arguments" ∧ p.func ≠ topFunc then
      modify (·.modifyFunction p.func fun f => { f with usesArguments := true })
    assign
  | some b =>
    if (n.binding b).isGlobal then assign
    else if n.owner b ≠ p.func then pin b

/-- Whether hoisting looks inside a node: functions keep their variables to themselves. -/
def isOpen : Node → Bool
  | .func _ | .expr (.function ..) | .stmt (.function ..) => false
  | _ => true

/-- The variables that a node declares for the whole function. -/
def hoistedVars : Node → List Declarator
  | .varDecl d => if d.kind = .var then d.decls else []
  | _ => []

/-- Declares a name that is not a pattern. -/
def declareName (scope : ScopeId) (kind : BindingKind) (d : Declarator) : Resolve BindingId := do
  if d.pattern.isSome then refuse .destructuringDeclaration d.pos
  declare scope d.name kind d.pos

/-- Declares the variables of a function body, wherever they stand in it. -/
def hoistVars (scope : ScopeId) (body : List Stmt) : Resolve Unit :=
  (body.flatMap (Walk.stmt isOpen)).forM fun v =>
    (hoistedVars v.node).forM fun d => discard (declareName scope .var d)

/-- Declares what a statement of a list declares for the list. -/
def hoistLexical (scope : ScopeId) (inLoop : Bool) : Stmt → Resolve Unit
  | .varDecl d =>
    if d.kind = .var then pure ()
    else
      d.decls.forM fun x => do
        let b ← declareName scope (if d.kind = .constant then .constant else .lexical) x
        modify (·.modifyBinding b fun y => { y with inLoop })
  | .function pos f => discard (declare scope f.name .function pos)
  | _ => pure ()

/-- Declares the names of a block. -/
def hoistBlock (scope : ScopeId) (inLoop : Bool) (body : List Stmt) : Resolve Unit :=
  body.forM (hoistLexical scope inLoop)

/-- Declares the names of a function body. -/
def hoistFunction (scope : ScopeId) (inLoop : Bool) (body : List Stmt) : Resolve Unit := do
  hoistVars scope body
  hoistBlock scope inLoop body

/-- Checks the single statement that is the body of a conditional or a loop. -/
def checkBody : Stmt → Resolve Unit
  | .varDecl d => if d.kind = .var then pure () else reject .lexicalDeclarationAsBody d.pos
  | .function pos _ => reject .functionDeclarationAsBody pos
  | _ => pure ()

/-- Refuses spread expressions in a list. -/
def refuseSpread (what : Unsupported) : Expr → Resolve Unit
  | .spread pos _ => refuse what pos
  | _ => pure ()

/-- The target of an assignment or an update. -/
def target (expr : Expr → Resolve Expr) (p : Place) (t : Expr) : Resolve Expr :=
  match t with
  | .ident _ name => do
    reference p name true
    return t
  | .member .. | .index .. => expr t
  | .array .. | .object .. => refuse .destructuringAssignment t.pos
  | _ => throw ⟨.invalidAssignTarget, t.pos⟩

/-- The initial values of a variable declaration. -/
def declarators (expr : Expr → Resolve Expr) (p : Place) (kind : VarKind) (ds : List Declarator) :
    Resolve (List Declarator) :=
  ds.mapM fun d => do
    if d.pattern.isSome then refuse .destructuringDeclaration d.pos
    match d.init with
    | some e =>
      let e ← expr e
      reference p d.name true
      return { d with init := some e }
    | none =>
      if kind = .constant then reject (.constWithoutInitializer d.name) d.pos
      reserve d.name
      return d

/-- A member of an object literal. -/
def property (expr : Expr → Resolve Expr) : Property → Resolve Property
  | .spread pos _ => refuse .objectSpread pos
  | .computed pos k v => return .computed pos (← expr k) (some (← expr (v.getD .hole)))
  | .named pos k v => return .named pos k (some (← expr (v.getD .hole)))

/-- The function of a call, then its arguments. -/
def call (expr : Expr → Resolve Expr) (callee : Expr) (args : List Expr) :
    Resolve (Expr × List Expr) := do
  let callee ← expr callee
  let args ← args.mapM fun a => do
    refuseSpread .spreadArgument a
    expr a
  return (callee, args)

/-- Declares the own name of a function expression unless its scope has that name already. -/
def declareSelf (scope : ScopeId) (f : Func) (isExpression : Bool) : Resolve Unit := do
  if isExpression && f.name != "" && ((← get).lookup scope f.name).isNone then
    let b ← declare scope f.name .self f.pos
    modify (·.modifyBinding b fun x => { x with onEntry := true, output := f.name })

def declareParam (scope : ScopeId) (func : FuncId) (x : Param) : Resolve Unit := do
  if x.pattern.isSome then refuse .destructuringParameter x.pos
  if x.rest then refuse .restParameter x.pos
  reserve x.name
  let b ← declare scope x.name .param x.pos
  modify (·.modifyBinding b fun y => { y with onEntry := true, output := x.name })
  modify (·.modifyFunction func fun f => { f with params := f.params ++ [{ name := x.name }] })

/-- Captures the parameters of a function that uses its arguments object, and records which parameters
are captured. -/
def pinParams (scope : ScopeId) (func : FuncId) (params : List Param) : Resolve Unit := do
  if ((← get).function func).usesArguments then
    params.forM fun x => do
      if let some b := (← get).lookup scope x.name then pin b
  modify fun n => n.modifyFunction func fun f =>
    { f with params := f.params.map fun x =>
        { x with pinned := (n.lookup scope x.name).any fun b => (n.binding b).pinned } }

/-- A function, given how its expressions and statements are resolved. -/
def function (expr : Place → Expr → Resolve Expr) (stmt : Place → Stmt → Resolve Stmt) (p : Place)
    (isExpression : Bool) (f : Func) : Resolve Func := do
  if f.generator then refuse .generatorFunction f.pos
  let n ← get
  let func := n.functions.size
  let (n, scope) := n.openFunction (some p.scope) func
  let signature := { name := f.name, parent := some p.func, isExpression, scope }
  set { n with functions := n.functions.push signature }
  reserve f.name
  f.params.forM (declareParam scope func)
  hoistFunction scope p.inLoop f.body
  declareSelf scope f isExpression
  let inner : Place := { func, scope }
  let params ← f.params.mapM fun x => do return { x with default := ← x.default.mapM (expr inner) }
  let body ← f.body.mapM (stmt inner)
  pinParams scope func f.params
  return { f with id := some func, params, body }

/-- The scope of the declaration in the head of a loop, unless it declares for the whole function. -/
def headScope (p : Place) : Option VarDecl → Resolve (Option ScopeId)
  | none => pure none
  | some d =>
    if d.kind = .var then pure none
    else do
      let s ← openBlock p.scope
      hoistBlock s true [.varDecl d]
      return some s

def varDecl? : Stmt → Option VarDecl
  | .varDecl d => some d
  | _ => none

/-- The declaration of a loop over keys or values. -/
def loopDecl (p : Place) (d : VarDecl) : Resolve (Option ScopeId) :=
  match d.decls with
  | [⟨pos, name, pattern, none⟩] => do
    if pattern.isSome then refuse .destructuringDeclaration pos
    let head ← headScope p (some d)
    reference { p with scope := head.getD p.scope } name true
    return head
  | _ => reject .loopDeclaration d.pos

/-- The target of a loop over keys or values that declares nothing. -/
def loopTarget (p : Place) : Expr → Resolve Unit
  | .ident _ name => reference p name true
  | .array pos _ | .object pos _ => refuse .destructuringLoopTarget pos
  | e => refuse .memberLoopTarget e.pos

mutual

/-- Resolves an expression that may nest to the given depth. -/
def expr : Nat → Place → Expr → Resolve Expr
  | 0, _, e => throw ⟨.nestingTooDeep, e.pos⟩
  | depth + 1, p, e =>
    let sub := expr depth p
    match e with
    | .hole => throw ⟨.broken (.unexpectedStatement e.kindName), e.pos⟩
    | .ident _ name => do
      reference p name false
      return e
    | .literal .. | .receiver .. | .raw .. => return e
    | .array pos es => do
      let es ← es.mapM fun x => do
        refuseSpread .spreadElement x
        sub x
      return .array pos es
    | .object pos ps => return .object pos (← ps.mapM (property sub))
    | .spread pos _ => refuse .spreadElement pos
    | .function pos f => return .function pos (← function (expr depth) (stmt depth) p true f)
    | .unary pos op x => return .unary pos op (← sub x)
    | .update pos op i x => return .update pos op i (← target sub p x)
    | .binary pos op l r => return .binary pos op (← sub l) (← sub r)
    | .logical pos op l r => return .logical pos op (← sub l) (← sub r)
    | .assign pos op t v => return .assign pos op (← target sub p t) (← sub v)
    | .conditional pos t a b => return .conditional pos (← sub t) (← sub a) (← sub b)
    | .call pos c as => do
      let (c, as) ← call sub c as
      return .call pos c as
    | .construct pos c as => do
      let (c, as) ← call sub c (as.getD [])
      return .construct pos c (some as)
    | .member pos o name => return .member pos (← sub o) name
    | .index pos o k => return .index pos (← sub o) (← sub k)
    | .sequence pos es => return .sequence pos (← es.mapM sub)

/-- Resolves a statement that may nest to the given depth. -/
def stmt : Nat → Place → Stmt → Resolve Stmt
  | 0, _, s => throw ⟨.nestingTooDeep, s.pos⟩
  | depth + 1, p, s =>
    let sub := expr depth p
    let body := fun (p : Place) (s : Stmt) => do
      checkBody s
      stmt depth p s
    let inLoop := { p with inLoop := true }
    match s with
    | .hole => throw ⟨.broken (.unexpectedStatement s.kindName), s.pos⟩
    | .varDecl d => return .varDecl { d with decls := ← declarators sub p d.kind d.decls }
    | .function pos f => return .function pos (← function (expr depth) (stmt depth) p false f)
    | .block pos _ b => do
      let scope ← openBlock p.scope
      hoistBlock scope p.inLoop b
      return .block pos (some scope) (← b.mapM (stmt depth { p with scope }))
    | .ifElse pos t a b =>
      return .ifElse pos (← sub t) (← body p a) (← b.mapM (body p))
    | .forLoop pos _ init test update b => do
      let head ← headScope p (init.bind varDecl?)
      let p := { p with scope := head.getD p.scope }
      let inLoop := { p with inLoop := true }
      let init ← init.mapM (stmt depth p)
      let test ← test.mapM (expr depth inLoop)
      let update ← update.mapM (expr depth inLoop)
      return .forLoop pos head init test update (← body inLoop b)
    | .forIn pos _ of decl tgt right b => do
      let right ← sub right
      let head ← match decl with
        | some d => loopDecl p d
        | none => do
          loopTarget p (tgt.getD .hole)
          pure none
      let inner := { inLoop with scope := head.getD p.scope }
      return .forIn pos head of decl tgt right (← body inner b)
    | .whileLoop pos t b => return .whileLoop pos (← expr depth inLoop t) (← body inLoop b)
    | .doWhile pos b t => do
      let b ← body inLoop b
      return .doWhile pos b (← expr depth inLoop t)
    | .returnValue pos arg => return .returnValue pos (← arg.mapM sub)
    | .throwValue pos arg => return .throwValue pos (← sub arg)
    | .breakLoop pos label =>
      if label = "" then return s else refuse .labeledBreak pos
    | .continueLoop pos label =>
      if label = "" then return s else refuse .labeledContinue pos
    | .labeled pos _ _ => refuse .labeledStatement pos
    | .expr pos x => return .expr pos (← sub x)
    | .empty _ => return s

end

/-- Makes the bindings of the script's own scope global. -/
def declareGlobals (scope : ScopeId) : Resolve Unit :=
  modify fun n =>
    (n.scope scope).bindings.foldl (fun n b =>
      let x := n.binding b
      let n := n.modifyBinding b fun x => { x with isGlobal := true, output := x.name }
      if x.kind = .function then n else { n with globals := n.globals ++ [x.name] }) n

def script (s : Script) : Resolve Script := do
  let (n, scope) := ({} : Names).openFunction none topFunc
  set { n with functions := #[{ name := "", parent := none, scope }] }
  hoistFunction scope false s.body
  declareGlobals scope
  let body ← s.body.mapM (stmt maxDepth { func := topFunc, scope })
  return { s with body }

end ScriptOptimizer.Resolution
