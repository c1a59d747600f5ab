import ScriptOptimizer.IR.Traversal

/-!
# Liveness

A statement is live when what can be observed of the program depends on it. The roots are jumps, loops
and effects on storage that other code can see. What a live statement depends on is live in turn; a write
to a fresh object is live when the object is.
-/

namespace ScriptOptimizer.Liveness

open IR

/-- The writes to fresh objects and arrays. -/
abbrev Writes := TempMap (List StmtId)

/-- The fresh object that an effect writes to. -/
def written? (p : Program) : Effect → Option TempId
  | .mutation (.temp t) => if p.isConstruction t then some t else none
  | _ => none

/-- The writes among some statements. -/
def writes (p : Program) (stmts : List StmtId) : Writes :=
  stmts.foldl (fun w s =>
    ((p.stmt s).effects.filterMap (written? p)).foldl (fun w t => w.insert t (w.getD t [] ++ [s])) w) {}

/-- Whether a statement is live on its own account. -/
def isRoot (p : Program) (s : Stmt) : Bool :=
  match s.action with
  | .returnValue _ | .throwValue _ | .breakLoop _ | .continueLoop _ => true
  | .loop l => l.rounds != .none
  | _ => hasIo s.effects || s.effects.any fun e => (written? p e).isNone

/-- The definitions of the temps that operands read. -/
def definitions (p : Program) (xs : List Operand) : List StmtId :=
  (xs.filterMap Operand.temp?).filterMap p.definition?

/-- What a loop depends on. The condition counts only while its test can run. -/
def loopDependencies (p : Program) (l : Loop) : List StmtId :=
  match l.head with
  | .tested _ test cond => if (p.block test).dead then [] else definitions p [cond]
  | .iterated _ each object =>
    definitions p [object] ++
      match each with
      | .merge t => (p.definition? t).toList
      | _ => []

/-- The copies that a merging temp depends on. -/
def copyDependencies (p : Program) : Value → List StmtId
  | .merge copies => copies.filter fun s => !(p.block (p.stmt s).block).dead
  | _ => []

/-- What a live statement depends on. -/
def dependencies (p : Program) (w : Writes) (s : Stmt) : List StmtId :=
  s.parent.toList ++
    match s.action with
    | .loop l => loopDependencies p l
    | .copy t v => (p.definition? t).toList ++ definitions p v.toList
    | .define t v _ => copyDependencies p v ++ w.getD t [] ++ definitions p v.operands
    | .declare (.temp t) .. => w.getD t []
    | a => definitions p a.operands

/-- The arguments of the call that a statement makes. -/
def callArgs : Action → List Operand
  | .define _ (.call _ args) _ | .eval (.call _ args) => args
  | _ => []

/-- Marks a statement as live and notes that what it depends on has still to be marked. -/
def mark (state : Program × List StmtId) (s : StmtId) : Program × List StmtId :=
  let (p, work) := state
  if (p.stmt s).live then state else (p.modifyStmt s fun x => { x with live := true }, s :: work)

/-- Marks what the statements at work depend on. Every statement is at work at most once, so the number
of statements bounds the rounds. -/
def propagate (w : Writes) : Nat → Program × List StmtId → Program
  | 0, (p, _) | _, (p, []) => p
  | fuel + 1, (p, s :: work) =>
    let x := p.stmt s
    let p := (definitions p (callArgs x.action)).foldl (fun p d =>
      p.modifyStmt d fun y => { y with escapes := true }) p
    propagate w fuel ((dependencies p w x).foldl mark (p, work))

/-- Marks the live statements. -/
def run (p : Program) : Program :=
  let stmts := p.allStmts
  let p := stmts.foldl (fun p s => p.modifyStmt s fun x => { x with live := false, escapes := false }) p
  let roots := stmts.filter fun s => isRoot p (p.stmt s)
  propagate (writes p stmts) (p.stmts.size + 1) (roots.foldl mark (p, []))

end ScriptOptimizer.Liveness
