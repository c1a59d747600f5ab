import ScriptOptimizer.Optimize.Branches
import ScriptOptimizer.Optimize.CommonValues
import ScriptOptimizer.Optimize.Culling
import ScriptOptimizer.Optimize.FlowGraph
import ScriptOptimizer.Optimize.Liveness
import ScriptOptimizer.Optimize.LiteralWrites
import ScriptOptimizer.Optimize.Placement
import ScriptOptimizer.Optimize.Simplify

/-!
# The pipeline

The passes run in a fixed order and are repeated until the text of the program stays the same, or a bound
is reached.
-/

namespace ScriptOptimizer

/-- The passes of the optimizer. -/
inductive Pass where
  | liveness
  | simplify
  | branchElimination
  | controlFlowGraph
  | commonSubexpressions
  | instanceInlining
  | temporaryMaterialization
  | deadStatementCulling
deriving DecidableEq, Repr

namespace Pass

def name : Pass → String
  | liveness => "liveness"
  | simplify => "simplify"
  | branchElimination => "branchElimination"
  | controlFlowGraph => "controlFlowGraph"
  | commonSubexpressions => "commonSubexpressions"
  | instanceInlining => "instanceInlining"
  | temporaryMaterialization => "temporaryMaterialization"
  | deadStatementCulling => "deadStatementCulling"

/-- The passes in the order in which they run. -/
def all : List Pass :=
  [liveness, simplify, branchElimination, controlFlowGraph, commonSubexpressions, instanceInlining,
    temporaryMaterialization, deadStatementCulling]

/-- The pass with a given name. -/
def ofName? (s : String) : Option Pass := all.find? (·.name == s)

/-- Applies a pass; with `forSize` simplifications that make the output longer are left out. -/
def apply (forSize : Bool) : Pass → IR.Program → IR.Program
  | liveness => Liveness.run
  | simplify => Simplify.run forSize
  | branchElimination => Branches.run
  | controlFlowGraph => FlowGraph.run
  | commonSubexpressions => CommonValues.run
  | instanceInlining => LiteralWrites.run
  | temporaryMaterialization => Placing.run
  | deadStatementCulling => Culling.run

/-- Applies passes in order. -/
def applyAll (forSize : Bool) (passes : List Pass) (p : IR.Program) : IR.Program :=
  passes.foldl (fun p pass => pass.apply forSize p) p

end Pass

/-- How often the pipeline is repeated at most. -/
def maxRounds : Nat := 8

namespace IR.Program

/-- Repeats the pipeline until the text of the program stays the same; counts the rounds. -/
def rounds (forSize : Bool) : Nat → Nat → String → Program → Program × Nat
  | 0, round, _, p => (p, round)
  | left + 1, round, before, p =>
    let p := Pass.applyAll forSize Pass.all p
    let after := p.text
    if after = before then (p, round + 1) else rounds forSize left (round + 1) after p

/-- The optimized program and the number of rounds that it took. -/
def optimize (forSize : Bool) (p : Program) : Program × Nat := rounds forSize maxRounds 0 p.text p

end IR.Program

end ScriptOptimizer
