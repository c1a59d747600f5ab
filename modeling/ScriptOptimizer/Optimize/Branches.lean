import ScriptOptimizer.IR.Traversal

/-!
# Known conditions

A branch or a loop whose condition has a known outcome is marked with it, and the blocks that can no
longer run are marked dead.
-/

namespace ScriptOptimizer.Branches

open IR

/-- The outcome of a condition, where it is certain. -/
def outcome? (p : Program) : Operand → Option Bool
  | .literal l => some l.truthy
  | .closure _ => some true
  | .temp t =>
    match p.definer? t with
    | some (.declare ..) => some true
    | some (.define _ v _) =>
      match v with
      | .object _ | .array _ | .operand (.closure _) => some true
      | _ => none
    | _ => none
  | _ => none

/-- Whether a statement only computes a value. -/
def isPure (s : Stmt) : Bool :=
  match s.action with
  | .define .. => s.effects.isEmpty
  | _ => false

/-- Whether a chain of blocks only computes values. -/
def isPureChain (p : Program) : Nat → Option BlockId → Bool
  | 0, _ | _, none => true
  | fuel + 1, some b =>
    ((p.block b).stmts.all fun s => isPure (p.stmt s)) && isPureChain p fuel (p.block b).next

/-- Whether an action jumps out of a round of a loop. -/
def isJumpOf (loop : StmtId) : Action → Bool
  | .breakLoop l | .continueLoop l => l == loop
  | _ => false

/-- Whether a chain of blocks jumps out of a round of a loop. -/
def jumps (p : Program) (loop : StmtId) : Nat → Option BlockId → Bool
  | 0, _ | _, none => false
  | fuel + 1, some b =>
    !(p.block b).dead &&
      (((p.block b).stmts.any fun s =>
          isJumpOf loop (p.stmt s).action ||
            (p.stmt s).action.blocks.any fun b => jumps p loop fuel (some b)) ||
        jumps p loop fuel (p.block b).next)

/-- Marks a loop with what is known of its rounds. -/
def setRounds (s : StmtId) (l : Loop) (rounds : Rounds) (p : Program) : Program :=
  p.modifyStmt s fun x => { x with action := .loop { l with rounds } }

/-- Marks a loop whose condition has a known outcome. -/
def loop (s : StmtId) (l : Loop) (p : Program) : Program :=
  match l.head with
  | .iterated .. => p
  | .tested behind test cond =>
    if l.rounds != .unknown || (p.block test).dead then p
    else
      match outcome? p cond with
      | none => p
      | some true => setRounds s l .infinite p
      | some false =>
        if behind then
          if jumps p s p.depth (some l.body) then p else setRounds s l .once p
        else if isPureChain p p.depth (some test) then
          let p := setRounds s l .none p
          let p := p.modifyStmt s fun x => { x with live := false }
          (p.kill test).kill l.body
        else p

/-- Marks a branch whose condition has a known outcome. -/
def branch (s : StmtId) (cond : Operand) (a : BlockId) (b : Option BlockId) (known : Option Bool)
    (p : Program) : Program :=
  let known := known <|> outcome? p cond
  let p := p.modifyStmt s fun x => { x with action := .branch cond a b known }
  match known with
  | none => p
  | some true => b.elim p p.kill
  | some false => p.kill a

/-- Marks the branch or loop that a statement is. -/
def stmt (s : StmtId) (p : Program) : Program :=
  match (p.stmt s).action with
  | .branch cond a b known => branch s cond a b known p
  | .loop l => loop s l p
  | _ => p

/-- Marks the branches and loops with known conditions. -/
def run (p : Program) : Program := p.visit { stmt }

end ScriptOptimizer.Branches
