import ScriptOptimizer.IR.Traversal

/-!
# Culling

Statements that are not live are removed from their blocks, and copies that do not reach their merging
temp from its list.
-/

namespace ScriptOptimizer.Culling

open IR

/-- Whether a copy still reaches its merging temp. -/
def reaches (p : Program) (s : StmtId) : Bool :=
  (p.stmt s).live && !(p.block (p.stmt s).block).dead

/-- Drops the copies that do not reach a merging temp. -/
def dropCopies (p : Program) (s : StmtId) : Program :=
  match (p.stmt s).action with
  | .define t (.merge copies) placement =>
    p.modifyStmt s fun x => { x with action := .define t (.merge (copies.filter (reaches p))) placement }
  | _ => p

/-- Forgets what a removed statement defines and owns. -/
def remove (s : StmtId) (p : Program) : Program :=
  let a := (p.stmt s).action
  let p :=
    match a.temp? with
    | some t => if p.definition? t = some s then p.dropDefinition t else p
    | none => p
  a.blocks.foldl Program.kill p

/-- Removes the statements of a block that are not live. -/
def block (b : BlockId) (p : Program) : Program :=
  let stmts := (p.block b).stmts
  let kept := stmts.filter fun s => (p.stmt s).live
  let p := (stmts.filter fun s => !(p.stmt s).live).foldl (fun p s => remove s p) p
  p.modifyBlock b fun x => { x with stmts := kept }

/-- Removes all statements that are not live. -/
def run (p : Program) : Program := (p.allStmts.foldl dropCopies p).visit { block }

end ScriptOptimizer.Culling
