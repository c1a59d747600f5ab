import ScriptOptimizer.IR.Traversal

/-!
# Uses

A use is one occurrence of a temp as an operand of a live statement. The condition of a loop is used at
the end of the chain that computes it.
-/

namespace ScriptOptimizer.IR

/-- An occurrence of a temp. -/
structure Use where
  stmt : StmtId
  block : BlockId
deriving DecidableEq, Repr, Inhabited

/-- The uses of all temps. -/
abbrev Uses := TempMap (List Use)

namespace Uses

/-- The uses of a temp, in order. -/
def of (u : Uses) (t : TempId) : List Use := u.getD t []

/-- Adds uses behind those of a temp. -/
def add (u : Uses) (t : TempId) (more : List Use) : Uses := u.insert t (u.of t ++ more)

end Uses

namespace Program

/-- The block in which a statement reads its operands. -/
def readBlock (p : Program) (s : Stmt) : BlockId :=
  match s.action with
  | .loop ⟨.tested _ test _, _, _⟩ => p.chainEnd p.depth test
  | _ => s.block

/-- The uses of all temps in live statements. -/
def uses (p : Program) : Uses :=
  p.allStmts.foldl (fun u s =>
    let x := p.stmt s
    if x.live then x.action.temps.foldl (fun u t => u.add t [⟨s, p.readBlock x⟩]) u else u) {}

end Program

end ScriptOptimizer.IR
