import ScriptOptimizer.IR.Operands

/-!
# Traversal

A program is visited along its chains of blocks: the statements of a block in order, the blocks that a
statement owns right behind it, and then the block in which the chain continues. Dead blocks are left
out together with all that follows them in their chain. Neither nesting nor continuing meets a block
twice, so the number of blocks bounds the recursion.
-/

namespace ScriptOptimizer.IR

namespace Program

/-- The depth that bounds a visit of the program. -/
def depth (p : Program) : Nat := p.blocks.size + 1

/-- The statements of the blocks of a chain that are not dead. -/
def chainStmts (p : Program) : Nat → Option BlockId → List StmtId
  | 0, _ | _, none => []
  | fuel + 1, some b =>
    let block := p.block b
    if block.dead then []
    else
      (block.stmts.flatMap fun s =>
        s :: (p.stmt s).action.blocks.flatMap fun b => p.chainStmts fuel (some b)) ++
      p.chainStmts fuel block.next

def functionStmts (p : Program) (f : FuncId) : List StmtId := p.chainStmts p.depth (p.firstBlock? f)

/-- The statements of all functions. -/
def allStmts (p : Program) : List StmtId :=
  (List.range p.functions.size).flatMap p.functionStmts

/-- The last block of a chain. -/
def chainEnd (p : Program) : Nat → BlockId → BlockId
  | 0, b => b
  | fuel + 1, b =>
    match (p.block b).next with
    | some next => p.chainEnd fuel next
    | none => b

/-- What a visit does to blocks and to live statements. -/
structure Visitor where
  block : BlockId → Program → Program := fun _ p => p
  stmt : StmtId → Program → Program := fun _ p => p

/-- Visits a chain of blocks. Each visit sees what those before it did. -/
def visitChain (v : Visitor) : Nat → Option BlockId → Program → Program
  | 0, _, p | _, none, p => p
  | fuel + 1, some b, p =>
    if (p.block b).dead then p
    else
      let p := v.block b p
      let p := (p.block b).stmts.foldl (fun p s =>
        if (p.stmt s).live then
          let p := v.stmt s p
          (p.stmt s).action.blocks.foldl (fun p b => visitChain v fuel (some b) p) p
        else p) p
      visitChain v fuel (p.block b).next p

/-- Visits all functions. -/
def visit (v : Visitor) (p : Program) : Program :=
  (List.range p.functions.size).foldl (fun p f => visitChain v p.depth (p.firstBlock? f) p) p

/-- Marks a chain of blocks and all that it holds as dead. -/
def markDead : Nat → Option BlockId → Program → Program
  | 0, _, p | _, none, p => p
  | fuel + 1, some b, p =>
    let p := p.modifyBlock b fun x => { x with dead := true }
    let p := (p.block b).stmts.foldl (fun p s =>
      let p := p.modifyStmt s fun x => { x with live := false }
      (p.stmt s).action.blocks.foldl (fun p b => markDead fuel (some b) p) p) p
    markDead fuel (p.block b).next p

/-- Marks the chain from a block on and all that it holds as dead. -/
def kill (p : Program) (b : BlockId) : Program := markDead p.depth (some b) p

end Program

end ScriptOptimizer.IR
