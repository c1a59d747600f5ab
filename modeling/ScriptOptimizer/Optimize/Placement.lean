import ScriptOptimizer.IR.Uses

/-!
# Placement of temps

Every temp is kept in a variable, written out where it is read, or left to wait for its only reader. A
temp that only copies another is replaced by it, and one that nobody reads is dropped or computed for its
effects alone.
-/

namespace ScriptOptimizer.Placing

open IR

/-- The text that the declaration of a variable adds. -/
def declarationCost : Nat := 8

/-- A program with the uses of its temps. -/
structure State where
  program : Program
  uses : Uses

/-- Sets the placement of a temp. -/
def setPlacement (s : StmtId) (placement : Placement) (p : Program) : Program :=
  p.modifyStmt s fun x =>
    match x.action with
    | .define t v _ => { x with action := .define t v placement }
    | _ => x

/-- Puts a temp in the place of another. -/
def replace (t u : TempId) (x : Operand) : Operand := if x = .temp t then .temp u else x

/-- Replaces a temp that only copies another. A copy of a merging temp keeps its value and stays. -/
def coalesce (st : State) (s : StmtId) : State :=
  match (st.program.stmt s).action with
  | .define t (.operand (.temp u)) _ =>
    if st.program.isMerge u then st
    else
      let uses := st.uses.of t
      let p := uses.foldl (fun p use => p.modifyStmt use.stmt fun x =>
        { x with action := x.action.mapOperands (replace t u) }) st.program
      { program := p.modifyStmt s fun x => { x with live := false }
        uses := (st.uses.add u uses).erase t }
  | _ => st

/-- Whether an operand can be read at any later point with the same result. -/
def isIndependentOperand (p : Program) : Operand → Bool
  | .literal _ | .receiver | .arguments => true
  | .named _ pinned => !pinned
  | .global name => !p.assigned.contains name
  | .temp t =>
    !p.isMerge t &&
      match p.definer? t with
      | some (.define _ _ placement) => placement != .pending
      | _ => true
  | .closure _ | .raw _ => false

/-- Whether a value can be computed at any later point with the same result. -/
def isIndependent (p : Program) : Value → Bool
  | .operand x => isIndependentOperand p x
  | .unary _ x => isIndependentOperand p x
  | .binary _ l r => isIndependentOperand p l && isIndependentOperand p r
  | _ => false

/-- Whether writing a literal out `n` times takes no more text than a variable. -/
def isCheap (l : Literal) (n : Nat) : Bool :=
  let size := l.source.utf8ByteSize
  n * size ≤ size + declarationCost + 2 * n

/-- Computes an unread value for its effects alone. -/
def dropTemp (s : StmtId) (t : TempId) (v : Value) (p : Program) : Program :=
  (p.modifyStmt s fun x => { x with action := .eval v }).dropDefinition t

/-- Decides how a temp reaches its readers. -/
def decidePlacement (uses : Uses) (p : Program) (s : StmtId) : Program :=
  let x := p.stmt s
  match x.action with
  | .define t v _ =>
    if !x.live then p
    else if v.isMerge then setPlacement s .register p
    else
      match uses.of t with
      | [] =>
        if x.effects.isEmpty then p.modifyStmt s fun x => { x with live := false }
        else dropTemp s t v p
      | [use] =>
        if x.effects.isEmpty && isIndependent p v then setPlacement s .inlined p
        else if use.block = x.block then setPlacement s .pending p
        else setPlacement s .register p
      | list =>
        match v with
        | .operand (.literal l) =>
          setPlacement s (if isCheap l list.length then .inlined else .register) p
        | _ => setPlacement s .register p
  | _ => p

/-- Whether a statement is the live definition of a temp. -/
def isDefinition (s : Stmt) : Bool :=
  match s.action with
  | .define .. => s.live
  | _ => false

/-- Places all temps. -/
def run (p : Program) : Program :=
  let definitions := p.allStmts.filter fun s => isDefinition (p.stmt s)
  let p := definitions.foldl (fun p s => setPlacement s .undecided p) p
  let st := definitions.foldl coalesce { program := p, uses := p.uses }
  definitions.foldl (decidePlacement st.uses) st.program

end ScriptOptimizer.Placing
