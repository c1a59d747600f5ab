import ScriptOptimizer.IR.Uses

/-!
# Writes to literals

A write to a fresh object or array, and a push onto one, is folded back into the literal. The literal
moves to the place of the write, which is dropped. Any other use of the object ends this.
-/

namespace ScriptOptimizer.LiteralWrites

open IR

def plainKey? : Member → Option Text
  | .named key _ => if key = protoKey then none else some key
  | .computed .. => none

/-- Sets a member, in its place if it exists and behind the others if not. -/
def setMember (key : Text) (v : Operand) : List Member → List Member
  | [] => [.named key v]
  | m :: ms => if plainKey? m = some key then .named key v :: ms else m :: setMember key v ms

/-- The literal behind a write of a property, if the write can be folded into it. -/
def set? (literal : Value) (key value : Operand) : Option Value := do
  let k ← key.key?
  if k = protoKey then none
  else
    match literal with
    | .object ms =>
      if ms.all fun m => (plainKey? m).isSome then some (.object (setMember k value ms)) else none
    | .array es => do
      let i ← arrayIndex? k
      if i = es.length then some (.array (es ++ [value]))
      else if i < es.length then some (.array (es.set i value))
      else none
    | _ => none

/-- The literal behind a push, if the push can be folded into it. -/
def push? (literal : Value) (key : Operand) (args : List Operand) : Option Value :=
  match literal with
  | .array es => if key = pushKey then some (.array (es ++ args)) else none
  | _ => none

/-- The literals that can still take up writes, with their definitions. -/
abbrev Open := List (TempId × StmtId)

/-- The definition of the open literal that a statement writes to, with the literal behind the write. -/
def folded? (p : Program) (uses : Uses) (isOpen : Open) (a : Action) : Option (StmtId × TempId × Value) :=
  match a with
  | .setMember (.temp t) key value => do
    let d ← isOpen.lookup t
    if value = .temp t then none
    else
      let v ← set? (← p.value? t) key value
      return (d, t, v)
  | .define r (.call (.method (.temp t) key) args) _ =>
    if !(uses.of r).isEmpty then none
    else do
      let d ← isOpen.lookup t
      if args.contains (.temp t) then none
      else
        let v ← push? (← p.value? t) key args
        return (d, t, v)
  | _ => none

/-- A program, the open literals, and the statements of the block that were passed, last first. -/
structure State where
  program : Program
  isOpen : Open := []
  passed : List StmtId := []

/-- Whether a literal holds a value that later writes could change. -/
def readsVolatile (p : Program) (t : TempId) : Bool :=
  (p.value? t).any fun v => v.operands.any p.isVolatile

/-- Passes a statement that is not folded: the literals that it reads are closed, and a literal that it
defines is opened. -/
def pass (st : State) (s : StmtId) : State :=
  let p := st.program
  let x := p.stmt s
  let temps := x.action.temps
  let rest := st.isOpen.filter fun (t, _) => !temps.contains t
  let rest :=
    match x.action with
    | .define t v _ =>
      if x.effects.isEmpty && v.isConstruction then (t, s) :: rest.filter (·.1 ≠ t) else rest
    | _ => rest
  let rest := if x.clobbers then rest.filter fun (t, _) => !readsVolatile p t else rest
  { st with isOpen := rest, passed := s :: st.passed }

/-- Gives a temp another value. -/
def redefine (d : StmtId) (t : TempId) (v : Value) (p : Program) : Program :=
  p.modifyStmt d fun x =>
    match x.action with
    | .define _ _ placement => { x with action := .define t v placement }
    | _ => x

/-- Drops a statement whose write was folded. -/
def drop (s : StmtId) (p : Program) : Program :=
  let p :=
    match (p.stmt s).action with
    | .define t .. => p.dropDefinition t
    | _ => p
  p.modifyStmt s fun x => { x with live := false, effects := [] }

/-- Folds a statement into an open literal, or passes it. -/
def step (uses : Uses) (st : State) (s : StmtId) : State :=
  let x := st.program.stmt s
  if !x.live then { st with passed := s :: st.passed }
  else
    match folded? st.program uses st.isOpen x.action with
    | some (d, t, v) =>
      let p := drop s (redefine d t v st.program)
      pass { st with program := p, passed := s :: st.passed.filter (· ≠ d) } d
    | none => pass st s

/-- Folds the writes of a block. -/
def block (uses : Uses) (b : BlockId) (p : Program) : Program :=
  let st := (p.block b).stmts.foldl (step uses) { program := p }
  st.program.modifyBlock b fun x => { x with stmts := st.passed.reverse }

/-- Folds the writes of all blocks. -/
def run (p : Program) : Program := p.visit { block := block p.uses }

end ScriptOptimizer.LiteralWrites
