import ScriptOptimizer.Compile

/-!
# The command line

The arguments are flags, followed by at most one file. A flag is written with one or two dashes; its value
stands behind an equals sign or, unless the flag is a switch, in the next argument. Without a file the
input is a session.
-/

namespace ScriptOptimizer.CommandLine

/-- What the program is asked to do. -/
structure Command where
  options : Options
  /-- The file that takes the result, or none for the standard output. -/
  output : Option String := none
  file : Option String := none
deriving DecidableEq, Repr

/-- Why arguments are refused. -/
inductive Fault where
  | help
  | malformedFlag (argument : String)
  | unknownFlag (name : String)
  | missingValue (name : String)
  | notBoolean (name value : String)
  | notInteger (name value : String)
  | tooManyFiles
deriving DecidableEq, Repr

namespace Fault

/-- The message for refused arguments; a request for help has none. -/
def message : Fault → Option String
  | help | tooManyFiles => none
  | malformedFlag argument => some s!"bad flag syntax: {argument}"
  | unknownFlag name => some s!"flag provided but not defined: -{name}"
  | missingValue name => some s!"flag needs an argument: -{name}"
  | notBoolean name value =>
    some s!"invalid boolean value {Escaped.escape value} for -{name}: parse error"
  | notInteger name value =>
    some s!"invalid value {Escaped.escape value} for flag -{name}: parse error"

/-- The exit code for refused arguments. -/
def exitCode : Fault → UInt32
  | help => 0
  | tooManyFiles => 1
  | _ => 2

end Fault

/-- How the program is called; a switch that is on already says so. -/
def usage (o : Options) : String :=
  let entry := fun (name text : String) (on : Bool) =>
    "  -" ++ name ++ "\n    \t" ++ text ++ (if on then " (default true)" else "") ++ "\n"
  "Usage: jsopt [flags] [file.js]\n"
    ++ "Without a file, each line read from stdin is optimized on its own.\n"
    ++ entry "compact" "omit optional whitespace" o.compact
    ++ entry "ir" "print the optimized IR instead of source" o.showProgram
    ++ entry "o file" "write the result to file instead of stdout" false
    ++ entry "size" "avoid rewrites that grow the output" o.forSize
    ++ entry "v int" "log verbosity (0 quiet, 1 info, 2 debug)" false

/-- The value of a switch. -/
def switch? : String → Option Bool
  | "1" | "t" | "T" | "true" | "TRUE" | "True" => some true
  | "0" | "f" | "F" | "false" | "FALSE" | "False" => some false
  | _ => none

/-- The name and the value of a flag. -/
def splitFlag (cs : List Char) : String × Option String :=
  let name := String.ofList (cs.takeWhile (· ≠ '='))
  match cs.dropWhile (· ≠ '=') with
  | _ :: value => (name, some (String.ofList value))
  | [] => (name, none)

/-- The flag that an argument holds, or none if it is no flag. -/
def flag? (argument : String) : Option (Except Fault (String × Option String)) :=
  let body := fun (cs : List Char) =>
    match cs with
    | [] | '-' :: _ | '=' :: _ => .error (.malformedFlag argument)
    | _ => .ok (splitFlag cs)
  match argument.toList with
  | '-' :: '-' :: cs => some (body cs)
  | ['-'] => none
  | '-' :: cs => some (body cs)
  | _ => none

def setSwitch (o : Options) (name : String) (on : Bool) : Option Options :=
  match name with
  | "ir" => some { o with showProgram := on }
  | "size" => some { o with forSize := on }
  | "compact" => some { o with compact := on }
  | _ => none

/-- Whether a text is a decimal integer. -/
def isInteger (text : String) : Bool :=
  let digits := fun (cs : List Char) => !cs.isEmpty && cs.all Char.isDigit
  match text.toList with
  | '-' :: cs | '+' :: cs => digits cs
  | cs => digits cs

/-- Reads the value of a flag that needs one; the verbosity has no effect on the result. -/
def setValue (c : Command) (name value : String) : Except Fault Command :=
  if name = "o" then .ok { c with output := if value = "" then none else some value }
  else if isInteger value then .ok c
  else .error (.notInteger name value)

/-- Reads the files behind the flags. -/
def files (c : Command) : List String → Except Fault Command
  | [] => .ok c
  | [file] => .ok { c with file := some file }
  | _ => .error .tooManyFiles

/-- Reads arguments. -/
def read (c : Command) : List String → Except Fault Command
  | [] => .ok c
  | "--" :: rest => files c rest
  | argument :: rest =>
    match flag? argument with
    | none => files c (argument :: rest)
    | some (.error fault) => .error fault
    | some (.ok (name, value)) =>
      match setSwitch c.options name true with
      | some options =>
        match value with
        | none => read { c with options } rest
        | some text =>
          match (switch? text).bind (setSwitch c.options name) with
          | some options => read { c with options } rest
          | none => .error (.notBoolean name text)
      | none =>
        if name = "h" ∨ name = "help" then .error .help
        else if name ≠ "o" ∧ name ≠ "v" then .error (.unknownFlag name)
        else
          match value, rest with
          | some text, rest => do read (← setValue c name text) rest
          | none, text :: rest => do read (← setValue c name text) rest
          | none, [] => .error (.missingValue name)

/-- A quotient with some decimal places, rounded to the nearest. -/
def rounded (places n d : Nat) : String :=
  let scale := Nat.pow 10 places
  let q := (2 * n * scale + d) / (2 * d)
  let fraction := toString (q % scale)
  toString (q / scale) ++ "." ++ String.ofList (List.replicate (places - fraction.length) '0') ++ fraction

/-- The text of a time in nanoseconds. -/
def duration (n : Nat) : String :=
  if 60000000000 ≤ n then rounded 2 n 60000000000 ++ "min"
  else if 1000000000 ≤ n then rounded 2 n 1000000000 ++ "s"
  else if 1000000 ≤ n then rounded 1 n 1000000 ++ "ms"
  else if 1000 ≤ n then rounded 1 n 1000 ++ "μs"
  else s!"{n}ns"

end ScriptOptimizer.CommandLine
