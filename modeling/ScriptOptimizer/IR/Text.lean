import ScriptOptimizer.IR.Basic

/-!
# The text of a program

The text shows every function with its blocks and statements. Two programs with the same text count as
the same when the optimizer looks for a fixpoint.
-/

namespace ScriptOptimizer.IR

/-- Texts between commas. -/
def commas (texts : List String) : String := ", ".intercalate texts

/-- The text of a temp. -/
def TempId.text (t : TempId) : String := s!"t{t.block}_{t.slot}"

def Operand.text : Operand → String
  | literal v => v.source
  | temp t => t.text
  | global name => "@" ++ name
  | named name pinned => if pinned then "%" ++ name else name
  | receiver => "this"
  | arguments => "arguments"
  | closure f => s!"#{f}"
  | raw text => "raw(" ++ text ++ ")"

/-- The text of a property of an object. -/
def memberText (object key : Operand) : String := object.text ++ "[" ++ key.text ++ "]"

/-- The text of an object member. -/
def Member.text : Member → String
  | named key v => Quoted.encode key ++ ": " ++ v.text
  | computed key v => "[" ++ key.text ++ "]: " ++ v.text

/-- The text of what a call applies. -/
def Callee.text : Callee → String
  | function f => f.text
  | method o k => memberText o k
  | constructor f => "new " ++ f.text

def Value.text : Value → String
  | operand x => x.text
  | unary op x => if isIdentifierName op.symbol then op.symbol ++ " " ++ x.text else op.symbol ++ x.text
  | binary op l r => l.text ++ " " ++ op.symbol ++ " " ++ r.text
  | member o k generation =>
    memberText o k ++
      match generation with
      | some g => s!"@g{g}"
      | none => ""
  | call c args => c.text ++ "(" ++ commas (args.map Operand.text) ++ ")"
  | object ms => "\x7b" ++ commas (ms.map Member.text) ++ "\x7d"
  | array es => "[" ++ commas (es.map Operand.text) ++ "]"
  | merge _ => "phi"
  | delete o k => "delete " ++ memberText o k

def Place.text : Place → String
  | temp t => t.text
  | merge t => "%" ++ t.text
  | named name => "%" ++ name
  | global name => "@" ++ name

def Effect.text : Effect → String
  | io => "io"
  | mutation target => "mut " ++ target.text

def Placement.mark : Placement → String
  | undecided => ""
  | register => " [reg]"
  | inlined => " [inline]"
  | pending => " [pending]"

/-- The mark of what is known of the rounds of a loop. -/
def Rounds.mark : Rounds → String
  | unknown => ""
  | none => " (eliminated)"
  | once => " (once)"
  | infinite => " (infinite)"

def Loop.text (l : Loop) : String :=
  let head :=
    match l.head with
    | .tested _ test cond => s!"{l.word} {cond.text} test {test}"
    | .iterated of each object =>
      let word := if of then "of" else "in"
      s!"for {each.text} {word} {object.text}"
  s!"{head} body {l.body}{l.rounds.mark}"

/-- The body of the loop that a jump belongs to. -/
def Program.loopBody (p : Program) (s : StmtId) : BlockId :=
  match (p.stmt s).action with
  | .loop l => l.body
  | _ => 0

def Action.text (p : Program) : Action → String
  | define t v placement => s!"{t.text} = {v.text}{placement.mark}"
  | copy t (some v) => s!"%{t.text} := {v.text}"
  | copy t none => s!"%{t.text} := <nil>"
  | store place v => s!"{place.text} := {v.text}"
  | eval v => v.text
  | setMember o k v => memberText o k ++ " = " ++ v.text
  | returnValue v => "return " ++ v.text
  | throwValue v => "throw " ++ v.text
  | branch c a b known =>
    let elseText :=
      match b with
      | some b => s!" else {b}"
      | none => ""
    let mark :=
      match known with
      | some true => " (true)"
      | some false => " (false)"
      | none => ""
    s!"if {c.text} then {a}{elseText}{mark}"
  | loop l => l.text
  | breakLoop s => s!"break {p.loopBody s}"
  | continueLoop s => s!"continue {p.loopBody s}"
  | declare place f name => s!"{place.text} = function #{f} {name}"

def Stmt.text (p : Program) (s : Stmt) : String :=
  s.action.text p ++ if s.live then "" else " ; dead"

def line (depth : Nat) (text : String) : String :=
  String.join (List.replicate depth "  ") ++ text ++ "\n"

def Block.title (b : Block) (id : BlockId) : String :=
  if b.dead then s!"{id}: dead"
  else
    match b.prev with
    | some prev => s!"{id}: (continued {prev})"
    | none => s!"{id}:"

namespace Program

/-- The text of a chain of blocks. Neither nesting nor continuing meets a block twice, so the number of
blocks bounds the recursion. -/
def chainText (p : Program) : Nat → Nat → Option BlockId → String
  | 0, _, _ | _, _, none => ""
  | fuel + 1, depth, some b =>
    let block := p.block b
    let title := line depth (block.title b)
    if block.dead then title
    else
      let stmts := block.stmts.map fun s =>
        let s := p.stmt s
        line (depth + 1) (s.text p) ++
          String.join (s.action.blocks.map fun b => p.chainText fuel (depth + 2) (some b))
      title ++ String.join stmts ++ p.chainText fuel depth block.next

/-- The text of a parameter. -/
def formalText (x : Formal) : String := if x.pinned then "%" ++ x.name else x.name

/-- The text of a function. -/
def functionText (p : Program) (f : FuncId) : String :=
  let s := (p.function f).signature
  let name := if s.name = "" then "<anonymous>" else s.name
  let params := commas (s.params.map formalText)
  let title := if f = topFunc then "program" else s!"function #{f} {name}({params})"
  let pinned := if s.pinned.isEmpty then "" else line 0 ("  pinned " ++ commas s.pinned)
  line 0 title ++ pinned ++ p.chainText (p.blocks.size + 1) 1 (p.firstBlock? f)

def text (p : Program) : String :=
  String.join ((List.range p.functions.size).map p.functionText)

end Program

end ScriptOptimizer.IR
