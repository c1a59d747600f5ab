import ScriptOptimizer.Diagnostic.Fault

/-!
# Findings

A finding is a diagnostic as a client of the language server sees it: lines and columns count from zero,
and the advice is part of the message.
-/

namespace ScriptOptimizer

/-- A span of a document from one place to another. -/
structure Span where
  startLine : Nat := 0
  startColumn : Nat := 0
  endLine : Nat := 0
  endColumn : Nat := 0
deriving DecidableEq, Repr, Inhabited

/-- A diagnostic for a client. -/
structure Finding where
  span : Span := {}
  /-- From 1 for an error to 4 for a hint. -/
  severity : Nat := 1
  code : Option String := none
  message : String
deriving DecidableEq, Repr, Inhabited

namespace Finding

/-- The number of a severity. -/
def severityOf : Level → Nat
  | .warning => 2
  | .note => 3
  | .help => 4
  | _ => 1

def ofDiagnostic (d : Diagnostic) : Finding :=
  let line := (d.line - 1).toNat
  let start := (d.column - 1).toNat
  let length := if d.length ≤ 0 then 1 else d.length.toNat
  { span := ⟨line, start, line, start + length⟩
    severity := severityOf d.level
    code := some d.code
    message := if d.help = "" then d.message else d.message ++ "\nhelp: " ++ d.help }

def ofFailure (f : Failure) : Finding := ofDiagnostic f.diagnostic

end Finding

end ScriptOptimizer
