import ScriptOptimizer.Compile
import ScriptOptimizer.Diagnostic.Report

/-!
# Line sessions

A session compiles every line of its input as a script of its own and shows the result or a report. A line
that does not fit the buffer ends the session.
-/

namespace ScriptOptimizer.Session

/-- What a session shows when it waits for a line. -/
def prompt : String := ">> "

/-- The name of the input in reports. -/
def inputName : String := "<stdin>"

/-- The size of the buffer for a line in bytes. -/
def bufferSize : Nat := 65536

/-- Why a session ended before its input. -/
inductive Stop where
  | lineTooLong
deriving DecidableEq, Repr

/-- The words for the end of a session. -/
def Stop.message : Stop → String
  | lineTooLong => "bufio.Scanner: token too long"

/-- The lines of an input; the last one needs no line feed. -/
def lines (input : String) : List String :=
  let parts := input.splitOn "\n"
  if parts.getLast? = some "" then parts.dropLast else parts

/-- A line without the carriage return at its end. -/
def dropReturn (line : String) : String :=
  match line.toList.reverse with
  | '\r' :: rest => String.ofList rest.reverse
  | _ => line

/-- What a session shows for a line. -/
def answer (o : Options) (paint : Palette) (line : String) : String :=
  if line = "" then ""
  else
    match compileSource o inputName line with
    | .ok text => text ++ "\n"
    | .error f => f.diagnostic.report inputName line paint

/-- What a session shows for some lines, and why it ended early. -/
def run (o : Options) (paint : Palette) : List String → String × Option Stop
  | [] => (prompt ++ "\n", none)
  | line :: rest =>
    if bufferSize ≤ line.utf8ByteSize then (prompt ++ "\n", some .lineTooLong)
    else
      let (later, stop) := run o paint rest
      (prompt ++ answer o paint (dropReturn line) ++ later, stop)

/-- What a session shows for an input, and why it ended early. -/
def start (o : Options) (paint : Palette) (input : String) : String × Option Stop :=
  run o paint (lines input)

end ScriptOptimizer.Session
