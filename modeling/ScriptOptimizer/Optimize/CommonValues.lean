import ScriptOptimizer.IR.Text
import ScriptOptimizer.IR.Traversal

/-!
# Common values

A computation without effects that repeats an earlier one becomes a reference to the earlier temp. What is
available in front of a branch or a loop is available inside it, but not the other way round. A
computation that reads storage which other statements can write is reused only inside its block and only
up to the next statement that may write.
-/

namespace ScriptOptimizer.CommonValues

open IR

/-- The temps that hold computations, by the keys of these. -/
abbrev Available := Std.TreeMap String TempId

/-- The key of a computation, and whether it reads storage that other statements can write. Operands that
may be exchanged are put in order. -/
def key? (p : Program) : Value → Option (String × Bool)
  | .unary op x => some (op.symbol ++ " " ++ x.text, p.isVolatile x)
  | .binary op l r =>
    let (a, b) :=
      if op.isCommutative && decide (r.text < l.text) then (r.text, l.text) else (l.text, r.text)
    some (a ++ " " ++ op.symbol ++ " " ++ b, p.isVolatile l || p.isVolatile r)
  | .member object key generation => some ((Value.member object key generation).text, true)
  | _ => none

/-- A program with the computations available at some point: lasting ones and those of the block. -/
structure State where
  program : Program
  lasting : Available
  passing : Available := {}

/-- Reuses or records the computation of a statement. -/
def compute (s : StmtId) (st : State) : State :=
  let x := st.program.stmt s
  match x.action with
  | .define t v placement =>
    if !x.effects.isEmpty then st
    else
      match key? st.program v with
      | none => st
      | some (key, isVolatile) =>
        match (if isVolatile then st.passing else st.lasting)[key]? with
        | some prev =>
          { st with program := st.program.modifyStmt s fun x =>
              { x with action := .define t (.operand (.temp prev)) placement, effects := [] } }
        | none =>
          if isVolatile then { st with passing := st.passing.insert key t }
          else { st with lasting := st.lasting.insert key t }
  | _ => st

/-- How the chain from a block on is worked through. -/
abbrev Walk := BlockId → Program × Available → Program × Available

/-- Works through the blocks that a statement owns. The body of a loop sees what its test computes in
front of it; otherwise the blocks do not see each other. -/
def nested (walk : Walk) (a : Action) (st : State) : State :=
  let apart := fun (blocks : List BlockId) =>
    blocks.foldl (fun p b => (walk b (p, st.lasting)).1) st.program
  match a with
  | .loop ⟨.tested false test _, body, _⟩ =>
    { st with program := (walk body (walk test (st.program, st.lasting))).1 }
  | a => { st with program := apart a.blocks }

/-- Works through a live statement. -/
def stmt (walk : Walk) (st : State) (s : StmtId) : State :=
  if (st.program.stmt s).live then
    let st := compute s st
    let x := st.program.stmt s
    nested walk x.action (if x.clobbers then { st with passing := {} } else st)
  else st

/-- Works through a chain of blocks. -/
def chain : Nat → Option BlockId → Program × Available → Program × Available
  | 0, _, r | _, none, r => r
  | fuel + 1, some b, (p, lasting) =>
    if (p.block b).dead then (p, lasting)
    else
      let st := (p.block b).stmts.foldl (stmt fun b => chain fuel (some b)) { program := p, lasting }
      chain fuel (st.program.block b).next (st.program, st.lasting)

/-- Reuses common values in all functions. -/
def run (p : Program) : Program :=
  (List.range p.functions.size).foldl (fun p f => (chain p.depth (p.firstBlock? f) (p, {})).1) p

end ScriptOptimizer.CommonValues
