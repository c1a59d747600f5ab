import ScriptOptimizer.Lowering.State

/-!
# Loops

A binding that a loop reassigns is carried: a merging temp holds its value across the rounds. The value
at the start of the loop and the values at the ends of its rounds are copied into it.
-/

namespace ScriptOptimizer.Lowering

open IR

/-- Whether assignments inside a node count for the loop around it: those of functions do not. -/
def isLoopCode : Node → Bool
  | .func _ => false
  | _ => true

def identName? : Expr → Option String
  | .ident _ name => some name
  | _ => none

/-- The names that a node itself assigns. -/
def assignedBy : Node → List String
  | .expr (.assign _ _ t _) => (identName? t).toList
  | .expr (.update _ _ _ t) => (identName? t).toList
  | .declarator d => if d.init.isSome then [d.name] else []
  | .stmt (.forIn _ _ _ decl target _ _) =>
    (target.bind identName?).toList ++ ((decl.map (·.decls)).getD []).map (·.name)
  | _ => []

/-- The names that some code assigns. -/
def assignedNames (visits : List Visit) : List String := visits.flatMap fun v => assignedBy v.node

/-- The names that an expression assigns. -/
def exprAssigns (e : Expr) : List String := assignedNames (Walk.expr isLoopCode .plain e)

/-- The names that a statement assigns. -/
def stmtAssigns (s : Stmt) : List String := assignedNames (Walk.stmt isLoopCode s)

/-- The visible bindings that some names mean. -/
def carried (c : Site) (assigned : List String) : Lower (List BindingId) := do
  let names ← read
  return (← visible c).filter fun b =>
    let name := (names.binding b).name
    assigned.contains name && names.resolve c.scope name == some b

/-- Defines a merging temp for a carried binding and copies its value into it. -/
def enterBinding (c : Site) (pos : Position) (b : BindingId) : Lower (BindingId × TempId) := do
  let block := (← get).block
  let (merge, definition) ← newMerge c block pos
  append block definition
  if let some v ← value? b then
    append block (← copyInto merge (some v) block c.parent pos)
  setValue b (some (.temp merge))
  return (b, merge)

/-- Gives the carried bindings the values that their merging temps hold. -/
def reload (carried : List (BindingId × TempId)) : Lower Unit :=
  carried.forM fun (b, merge) => setValue b (some (.temp merge))

/-- The copies that the end of a round needs. A value that is itself one of the merging temps is held in
a temp first, so that the copies act at once. -/
def pendingCopies (c : Site) (pos : Position) (merges : List TempId) :
    List (BindingId × TempId) → Lower (List (TempId × Operand))
  | [] => pure []
  | (b, merge) :: rest => do
    match ← value? b with
    | none => pendingCopies c pos merges rest
    | some v =>
      if v = .temp merge then pendingCopies c pos merges rest
      else
        let v ← if (v.temp?).any merges.contains then hold c v pos else pure v
        return (merge, v) :: (← pendingCopies c pos merges rest)

/-- Copies the current values of the carried bindings into their merging temps. -/
def sync (c : Site) (frame : Frame) (pos : Position) : Lower Unit := do
  let copies ← pendingCopies c pos (frame.carried.map Prod.snd) frame.carried
  let block := (← get).block
  copies.forM fun (merge, v) => do append block (← copyInto merge (some v) block c.parent pos)
  reload frame.carried

/-- The site of the blocks that a loop owns. -/
def Site.inLoop (c : Site) (frame : Frame) : Site :=
  { c with parent := some frame.loop, nest := c.nest + 1, loop := some frame }

/-- Moves the cursor behind a loop. -/
def exitLoop (c : Site) (frame : Frame) : Lower Unit := do
  reload frame.carried
  continueFrom c ((← program).stmt frame.loop).block
  forgetShapes

/-- Runs the update of a loop in the scope of its head. -/
def runUpdate (value : Site → Expr → Lower Operand) (c : Site) (frame : Frame) : Lower Unit :=
  match frame.update with
  | none => pure ()
  | some e => discard (value { c with scope := frame.head } e)

/-- Lowers a loop with a condition. -/
def testedLoop (value : Site → Expr → Lower Operand) (stmt : Site → Stmt → Lower Unit) (c : Site)
    (behind : Bool) (test : Expr) (body : Stmt) (update : Option Expr) (pos : Position) :
    Lower Unit := do
  let bindings ← carried c
    (exprAssigns test ++ (update.map exprAssigns).getD [] ++ stmtAssigns body)
  forgetShapes
  let carried ← bindings.mapM (enterBinding c pos)
  let testBlock := (← program).blocks.size
  let bodyBlock := testBlock + 1
  let loop := fun cond => Action.loop { head := .tested behind testBlock cond, body := bodyBlock }
  let s ← emit c (loop (.literal .undefined)) pos []
  let _ ← newBlock c.func (some s)
  let _ ← newBlock c.func (some s)
  let frame : Frame := { loop := s, carried, update, head := c.scope }
  let inner := c.inLoop frame
  let lowerTest := do
    let (cond, _) ← within testBlock do
      let cond ← value inner test
      sync inner frame pos
      return cond
    modifyProgram fun p => p.modifyStmt s fun x => { x with action := loop cond }
  unless behind do lowerTest
  let _ ← within bodyBlock do
    stmt inner body
    unless (← get).terminated do
      runUpdate value inner frame
      sync inner frame pos
  if behind then
    reload carried
    lowerTest
  exitLoop c frame

/-- The place that a loop over keys or values stores them in. -/
def eachPlace (name : String) (b : Option BindingId) (carried : List (BindingId × TempId)) :
    Lower Place := do
  let names ← read
  match b with
  | none => return .global name
  | some b =>
    let x := names.binding b
    if x.isGlobal then return .global name
    else if x.pinned then return .named x.output
    else
      match carried.find? (·.1 == b) with
      | some (_, merge) => return .merge merge
      | none => return .temp default

/-- Lowers a loop over keys or values. -/
def iteratedLoop (stmt : Site → Stmt → Lower Unit) (c : Site) (of isDeclared : Bool) (name : String)
    (object : Operand) (body : Stmt) (pos : Position) : Lower Unit := do
  let names ← read
  let b ← resolve c name
  if let some b := b then
    if isDeclared then setDeclared b
  let target := match b with
    | some b => if (names.binding b).isTracked then [name] else []
    | none => []
  let bindings ← carried c (target ++ stmtAssigns body)
  forgetShapes
  let carried ← bindings.mapM (enterBinding c pos)
  let each ← eachPlace name b carried
  if let .global _ := each then noteAssigned name
  let bodyBlock := (← program).blocks.size
  let s ← emit c (.loop { head := .iterated of each object, body := bodyBlock }) pos
    (if each.isNamed then [.mutation each] else [])
  let _ ← newBlock c.func (some s)
  let frame : Frame := { loop := s, carried, update := none, head := c.scope }
  let inner := c.inLoop frame
  let _ ← within bodyBlock do
    stmt inner body
    unless (← get).terminated do sync inner frame pos
  exitLoop c frame

/-- Lowers a jump out of a round of the innermost loop. -/
def jump (value : Site → Expr → Lower Operand) (c : Site) (isContinue : Bool) (pos : Position) :
    Lower Unit := do
  match c.loop with
  | none =>
    fail (.malformed (if isContinue then .continueOutsideLoop else .breakOutsideLoop)) pos
  | some frame =>
    if isContinue then runUpdate value c frame
    sync c frame pos
    let action := if isContinue then .continueLoop frame.loop else .breakLoop frame.loop
    discard (emit c action pos [])
    modify fun s => { s with terminated := true }

end ScriptOptimizer.Lowering
