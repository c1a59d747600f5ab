import ScriptOptimizer.CommandLine
import ScriptOptimizer.Session

/-!
# The program

Reads the command line, compiles a file or runs a session, and shows the result.
-/

namespace ScriptOptimizer

/-- Runs a session line by line. -/
partial def converse (o : Options) (paint : Palette) (input output : IO.FS.Stream) : IO UInt32 := do
  output.putStr Session.prompt
  output.flush
  let line ← input.getLine
  if line.isEmpty then
    output.putStrLn ""
    return 0
  let text := (Session.lines line).headD ""
  if Session.bufferSize ≤ text.utf8ByteSize then
    output.putStrLn ""
    IO.eprintln Session.Stop.lineTooLong.message
    return 1
  output.putStr (Session.answer o paint (Session.dropReturn text))
  converse o paint input output

/-- The options that the environment sets. -/
def environmentOptions : IO Options := do
  let size ← IO.getEnv "JSOPT_SIZE"
  let ir ← IO.getEnv "JSOPT_IR"
  let compact ← IO.getEnv "JSOPT_COMPACT"
  return .ofEnvironment fun name =>
    if name = "JSOPT_SIZE" then size else if name = "JSOPT_IR" then ir else compact

/-- Compiles a file. -/
def compileTo (c : CommandLine.Command) (path : String) (paint : Palette) : IO UInt32 := do
  let start ← IO.monoNanosNow
  let source ← try some <$> IO.FS.readFile path catch _ => pure none
  match source with
  | none =>
    IO.eprintln (Problem.missingFile path).message
    return 1
  | some source =>
    let result := compileSource c.options path source
    let time := CommandLine.duration ((← IO.monoNanosNow) - start)
    match result, c.output with
    | .error f, _ =>
      IO.eprint (f.diagnostic.report path source paint)
      IO.println s!"Optimization failed after {time}"
      return 1
    | .ok text, none =>
      IO.println text
      return 0
    | .ok text, some target =>
      try
        IO.FS.writeFile target (text ++ "\n")
        IO.println s!"Optimized {path} into {target} in {time}"
        return 0
      catch e =>
        IO.eprintln s!"failed to write file: {e}"
        return 1

end ScriptOptimizer

open ScriptOptimizer in
/-- The program. -/
def main (arguments : List String) : IO UInt32 := do
  let options ← environmentOptions
  match CommandLine.read { options } arguments with
  | .error fault =>
    if let some message := fault.message then IO.eprintln message
    IO.eprint (CommandLine.usage options)
    return fault.exitCode
  | .ok c =>
    let output ← IO.getStdout
    let paint := Palette.ofColor (← output.isTty)
    match c.file with
    | some path => compileTo c path paint
    | none =>
      output.putStrLn "jsopt REPL"
      converse c.options paint (← IO.getStdin) output
