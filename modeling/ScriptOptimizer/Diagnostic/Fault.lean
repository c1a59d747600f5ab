import ScriptOptimizer.Diagnostic.Basic
import ScriptOptimizer.Text.Escaped

/-!
# Faults

The reasons for which an input is refused, apart from their wording. `Failure.diagnostic` gives each
fault its code, message and advice.
-/

namespace ScriptOptimizer

/-- Constructs outside the subset that can be optimized. -/
inductive Unsupported where
  | labeledStatement | labeledBreak | labeledContinue
  | destructuringDeclaration | destructuringParameter | destructuringAssignment
  | destructuringLoopTarget
  | spreadElement | spreadArgument | objectSpread | restParameter
  | generatorFunction | yieldExpression
  | memberLoopTarget | computedLogicalAssignment
  | loopClosure (name : String)
  | updateClosure
  | tryStatement | switchStatement | classForm | withStatement | moduleForm | enumDeclaration
  | debuggerStatement
deriving DecidableEq, Repr

namespace Unsupported

/-- The code of an unsupported construct. -/
def code : Unsupported → String
  | labeledStatement | labeledBreak | labeledContinue => "E0101"
  | destructuringDeclaration | destructuringParameter | destructuringAssignment
  | destructuringLoopTarget => "E0102"
  | spreadElement | spreadArgument | objectSpread | restParameter => "E0103"
  | generatorFunction | yieldExpression => "E0104"
  | memberLoopTarget | computedLogicalAssignment => "E0105"
  | loopClosure _ => "E0108"
  | updateClosure => "E0109"
  | tryStatement | switchStatement | classForm | withStatement | moduleForm | enumDeclaration
  | debuggerStatement => "E0110"

/-- The words for an unsupported construct. -/
def construct : Unsupported → String
  | labeledStatement => "labeled statements"
  | labeledBreak => "labeled break statements"
  | labeledContinue => "labeled continue statements"
  | destructuringDeclaration => "destructuring declarations"
  | destructuringParameter => "destructuring parameters"
  | destructuringAssignment => "destructuring assignments"
  | destructuringLoopTarget => "destructuring loop targets"
  | spreadElement => "spread elements"
  | spreadArgument => "spread arguments"
  | objectSpread => "object spread"
  | restParameter => "rest parameters"
  | generatorFunction => "generator functions"
  | yieldExpression => "yield expressions"
  | memberLoopTarget => "member expressions as loop targets"
  | computedLogicalAssignment => "logical assignment to a computed member"
  | loopClosure name => "closures over '" ++ name ++ "'"
  | updateClosure => "function expressions in loop updates"
  | tryStatement => "try statements"
  | switchStatement => "switch statements"
  | classForm => "classes"
  | withStatement => "with statements"
  | moduleForm => "module syntax"
  | enumDeclaration => "enum declarations"
  | debuggerStatement => "debugger statements"

end Unsupported

/-- Input that no reader of the script language accepts. -/
inductive Malformed where
  | unreadableText (rest : List Char)
  | unexpectedToken (text : String)
  | lineBreakAfterThrow
  | missingSeparator
  | reservedWord (word : String)
  | number (text : String)
  | hexadecimalEscape
  | unicodeEscape
  | missingPropertyValue
  | lexicalDeclarationAsBody
  | functionDeclarationAsBody
  | loopDeclaration
  | constWithoutInitializer (name : String)
  | returnOutsideFunction
  | breakOutsideLoop
  | continueOutsideLoop
deriving DecidableEq, Repr

namespace Malformed

/-- The words for malformed input. -/
def message : Malformed → String
  | unreadableText rest => "lexer: invalid input text " ++ Escaped.escape (Escaped.sample rest)
  | unexpectedToken text => "unexpected token " ++ Escaped.escape text
  | lineBreakAfterThrow => "line break is not allowed after throw"
  | missingSeparator => "expected \";\" or a line break before this statement"
  | reservedWord word => "'" ++ word ++ "' is a reserved word"
  | number text => "malformed number literal " ++ text
  | hexadecimalEscape => "malformed \\x escape"
  | unicodeEscape => "malformed \\u escape"
  | missingPropertyValue => "object property is missing a value"
  | lexicalDeclarationAsBody => "lexical declaration cannot appear in a single-statement context"
  | functionDeclarationAsBody => "function declaration cannot appear in a single-statement context"
  | loopDeclaration =>
    "for-in and for-of declarations take a single binding without initializer"
  | constWithoutInitializer name => "missing initializer in const declaration of '" ++ name ++ "'"
  | returnOutsideFunction => "return outside of a function"
  | breakOutsideLoop => "break outside of a loop"
  | continueOutsideLoop => "continue outside of a loop"

/-- Whether the input fails before it has a tree, where the advice is about the whole language. -/
def isReading : Malformed → Bool
  | unreadableText _ | unexpectedToken _ => true
  | _ => false

end Malformed

/-- Broken invariants of the optimizer. -/
inductive Broken where
  | undiscoveredFunction (name : String)
  | undeclaredFunction (name : String)
  | bindingWithoutValue (name : String)
  | anchorNotFound (block : Nat)
  | notMerge (temp : String)
  | unexpectedStatement (kind : String)
  | absentOperand
  | mergeAsValue
  | readBeforeDefinition (temp : String)
  | undefinedTemp (temp : String)
  | notInTest (kind : String)
  | missingNode (text : String)
  | exhausted
deriving DecidableEq, Repr

namespace Broken

/-- The words for a broken invariant. -/
def message : Broken → String
  | undiscoveredFunction name => "function " ++ Escaped.escape name ++ " was not discovered"
  | undeclaredFunction name => "function " ++ Escaped.escape name ++ " was not declared"
  | bindingWithoutValue name => "binding " ++ Escaped.escape name ++ " has no value"
  | anchorNotFound block => s!"anchor statement not found in block {block}"
  | notMerge temp => s!"{temp} is not a merge temp"
  | unexpectedStatement kind => s!"unexpected {kind} statement"
  | absentOperand => "compound <nil> used as an operand"
  | mergeAsValue => "merge value used as an expression"
  | readBeforeDefinition temp => s!"{temp} read before its definition"
  | undefinedTemp temp => s!"{temp} has no definition"
  | notInTest kind => s!"{kind} cannot appear in a loop test"
  | missingNode text => text
  | exhausted => "nesting exceeds the size of the program"

end Broken

/-- Why an input is refused. -/
inductive Fault where
  | unsupported (what : Unsupported)
  | malformed (what : Malformed)
  | useBeforeDeclaration (name : String)
  | invalidAssignTarget
  | nestingTooDeep
  | broken (what : Broken)
deriving DecidableEq, Repr

/-- A fault and the place where it shows. -/
structure Failure where
  fault : Fault
  pos : Position
deriving DecidableEq, Repr

/-- How deep statements and expressions may nest. -/
def maxDepth : Nat := 256

namespace Diagnostic

/-- The diagnostic for a construct outside the subset, with the advice that belongs to its code. -/
def unsupported (code construct : String) (pos : Position) : Diagnostic :=
  let verb := if construct.toList.getLast? = some 's' then "are" else "is"
  let d := located pos code (construct ++ " " ++ verb ++ " not supported")
  match code with
  | "E0101" =>
    { d with suggestions :=
        ["restructure the loop so that an unlabeled break or continue is enough"] }
  | "E0102" =>
    { d with suggestions := ["bind the value to a name and read its members explicitly"] }
  | "E0103" => { d with suggestions := ["use apply, concat or explicit assignments instead"] }
  | "E0108" =>
    { d with
      notes := ["each iteration would need its own binding"]
      suggestions := ["declare the binding with 'var' or move the closure out of the loop"] }
  | _ => d

end Diagnostic

def Failure.diagnostic (f : Failure) : Diagnostic :=
  match f.fault with
  | .unsupported what => .unsupported what.code what.construct f.pos
  | .malformed what =>
    let d := Diagnostic.located f.pos "E0150" what.message
    if what.isReading then
      { d with help := "only the supported script subset can be optimized" }
    else d
  | .useBeforeDeclaration name =>
    { Diagnostic.located f.pos "E0106" ("'" ++ name ++ "' is used before its declaration") with
      length := name.utf8ByteSize
      notes := ["let and const bindings are not hoisted"] }
  | .invalidAssignTarget =>
    { Diagnostic.located f.pos "E0105" "invalid assignment target" with
      help := "only names and member expressions can be assigned" }
  | .nestingTooDeep => .located f.pos "E0107" s!"nesting exceeds {maxDepth} levels"
  | .broken what =>
    { Diagnostic.located {} "E0900" what.message with notes := ["this is a bug in the optimizer"] }

end ScriptOptimizer
