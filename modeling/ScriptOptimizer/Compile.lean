import ScriptOptimizer.Emission.Script
import ScriptOptimizer.Grammar.Statement
import ScriptOptimizer.Lowering.Script
import ScriptOptimizer.Optimize.Pipeline

/-!
# Compilation

A script is parsed, lowered to an intermediate program, optimized, and emitted again as source.
-/

namespace ScriptOptimizer

/-- What compilation produces. -/
structure Options where
  /-- Leave out what makes the output longer. -/
  forSize : Bool := false
  /-- Give the text of the program as it was lowered, not source. -/
  showProgram : Bool := false
  /-- Print source without optional space. -/
  compact : Bool := false
deriving DecidableEq, Repr, Inhabited

namespace Options

/-- The words that switch an option on. -/
def affirmative : List String :=
  ["1", "ABSOLUTELY", "AFFIRMATIVE", "Absolutely", "Affirmative", "ENABLE", "ENABLED", "Enable",
    "Enabled", "POSITIVE", "Positive", "T", "TRUE", "True", "Y", "YES", "Yes", "absolutely",
    "affirmative", "enable", "enabled", "positive", "t", "true", "y", "yes"]

/-- The options that environment variables set, where the values that switch one on are given. -/
def ofEnvironment (value : String → Option String) (holds : String → Bool := affirmative.contains) : Options :=
  let isOn := fun name => (value name).any holds
  { forSize := isOn "JSOPT_SIZE", showProgram := isOn "JSOPT_IR", compact := isOn "JSOPT_COMPACT" }

end Options

/-- The files that can be read, by path. -/
abbrev Files := String → Option String

/-- Why a file could not be compiled. -/
inductive Problem where
  | missingFile (path : String)
  | failure (f : Failure)

/-- The reason for which a missing file cannot be opened. -/
def missingReason (path : String) : String := s!"open {path}: no such file or directory"

namespace Problem

/-- The message of a problem on one line. -/
def message : Problem → String
  | missingFile path => "failed to read file: " ++ missingReason path
  | failure f => f.diagnostic.summary

end Problem

/-- Printed source; an emitted tree misses no node. -/
def printed (s : Script) (layout : Layout) : Except Failure String :=
  match s.print layout with
  | .ok text => .ok text
  | .error m => .error ⟨.broken (.missingNode m.message), {}⟩

namespace Script

def compile (o : Options) (s : Script) : Except Failure String := do
  let p ← s.lower
  if o.showProgram then return p.text
  else printed (← (p.optimize o.forSize).1.emit) { compact := o.compact }

end Script

/-- Compiles the text of a script. -/
def compileSource (o : Options) (name text : String) : Except Failure String := do
  (← Script.parse name text).compile o

/-- The text of a file. -/
def readFile (files : Files) (path : String) : Except Problem String :=
  match files path with
  | some text => .ok text
  | none => .error (.missingFile path)

/-- Parses a file. -/
def parseFile (files : Files) (path : String) : Except Problem Script := do
  (Script.parse path (← readFile files path)).mapError .failure

def compileFile (o : Options) (files : Files) (path : String) : Except Problem String := do
  (compileSource o path (← readFile files path)).mapError .failure

end ScriptOptimizer
