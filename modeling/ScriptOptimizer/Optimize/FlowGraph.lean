import ScriptOptimizer.IR.Traversal

/-!
# The flow graph

Blocks are linked along the steps that control can take, and those that no path from the entry reaches
are marked dead. The step to a further round of a loop is weak.
-/

namespace ScriptOptimizer.FlowGraph

open IR

def link (source : BlockId) (target : Option BlockId) (weak : Bool) (p : Program) : Program :=
  match target with
  | none => p
  | some target =>
    (p.modifyBlock source fun b => { b with succs := b.succs ++ [⟨target, weak⟩] }).modifyBlock target
      fun b => { b with preds := b.preds ++ [⟨source, weak⟩] }

/-- What linking a chain gives: the program, the last block of the chain, and whether control can leave
the chain at its end. -/
structure Linked where
  program : Program
  last : BlockId
  falls : Bool

/-- How the chain from a block on is linked. -/
abbrev Walk := BlockId → Program → Linked

/-- Links a chain and, if control can leave it at its end, goes on from its last block. -/
def follow (walk : Walk) (b : BlockId) (behind : BlockId → Program → Program) (p : Program) : Program :=
  let r := walk b p
  if r.falls then behind r.last r.program else r.program

/-- Links an arm of a branch. -/
def arm (walk : Walk) (source b : BlockId) (next : Option BlockId) (p : Program) : Program :=
  follow walk b (fun last => link last next false) (link source (some b) false p)

/-- Links the arms of a branch that can run. -/
def branch (walk : Walk) (source a : BlockId) (b : Option BlockId) (known : Option Bool)
    (next : Option BlockId) (p : Program) : Program :=
  let p := if known = some false then p else arm walk source a next p
  if known = some true then p
  else
    match b with
    | some b => arm walk source b next p
    | none => link source next false p

/-- Links the blocks of a loop. -/
def loop (walk : Walk) (source : BlockId) (l : Loop) (next : Option BlockId) (p : Program) : Program :=
  if l.rounds = .none then link source next false p
  else
    let leave := fun (last : BlockId) (p : Program) =>
      if l.rounds = .infinite then p else link last next false p
    match l.head with
    | .tested false test _ =>
      let p := link source (some test) false p
      let p := follow walk test (fun last p => leave last (link last (some l.body) false p)) p
      follow walk l.body (fun last => link last (some test) true) p
    | .tested true test _ =>
      let p := link source (some l.body) false p
      let p := follow walk l.body (fun last => link last (some test) false) p
      follow walk test (fun last p =>
        leave last (if l.rounds = .once then p else link last (some l.body) true p)) p
    | .iterated .. =>
      let p := link source next false (link source (some l.body) false p)
      follow walk l.body (fun last p => link last next false (link last (some l.body) true p)) p

def behindLoop (p : Program) (s : StmtId) : Option BlockId := (p.block (p.stmt s).block).next

/-- Links the end of a round to what a continued loop does next. -/
def continueLoop (source : BlockId) (s : StmtId) (p : Program) : Program :=
  match (p.stmt s).action with
  | .loop l =>
    match l.head with
    | .tested behind test _ => link source (some test) (!behind) p
    | .iterated .. => link source (behindLoop p s) false (link source (some l.body) true p)
  | _ => p

/-- Links a block to the blocks that follow its last statement; tells whether control can leave its chain
there. -/
def terminator (walk : Walk) (b : BlockId) (p : Program) : Program × Bool :=
  let block := p.block b
  match block.stmts.getLast?.map fun s => (p.stmt s).action with
  | some (.branch _ x y known) => (branch walk b x y known block.next p, false)
  | some (.loop l) => (loop walk b l block.next p, false)
  | some (.returnValue _) | some (.throwValue _) => (p, false)
  | some (.breakLoop s) => (link b (behindLoop p s) false p, false)
  | some (.continueLoop s) => (continueLoop b s p, false)
  | _ => (link b block.next false p, block.next.isNone)

/-- Links a chain of blocks. -/
def chain : Nat → Walk
  | 0, b, p => ⟨p, b, false⟩
  | fuel + 1, b, p =>
    let (p, falls) := terminator (chain fuel) b p
    match (p.block b).next with
    | some next => chain fuel next p
    | none => ⟨p, b, falls⟩

/-- The blocks that can be reached from some blocks. Every block waits at most once, so the number of
blocks bounds the rounds. -/
def reach (p : Program) : Nat → List BlockId → Std.TreeSet BlockId → Std.TreeSet BlockId
  | 0, _, seen | _, [], seen => seen
  | fuel + 1, b :: waiting, seen =>
    let (waiting, seen) := (p.block b).succs.foldl (fun (waiting, seen) e =>
      if seen.contains e.block then (waiting, seen) else (e.block :: waiting, seen.insert e.block))
      (waiting, seen)
    reach p fuel waiting seen

/-- Links the blocks of a function and marks those that cannot be reached. -/
def function (p : Program) (f : FuncId) : Program :=
  let blocks := (p.function f).blocks
  let p := blocks.foldl (fun p b => p.modifyBlock b fun x => { x with succs := [], preds := [] }) p
  match blocks.head? with
  | none => p
  | some entry =>
    let p := (chain p.depth entry p).program
    let seen := reach p p.depth [entry] (Std.TreeSet.empty.insert entry)
    blocks.foldl (fun p b => if seen.contains b || (p.block b).dead then p else p.kill b) p

/-- Links the blocks of all functions. -/
def run (p : Program) : Program := (List.range p.functions.size).foldl function p

end ScriptOptimizer.FlowGraph
