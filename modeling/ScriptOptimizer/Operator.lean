/-!
# Operators and precedence

Each operator has a symbol. A tree that was built by another program may name an operator that no
script can write; such an operator keeps its symbol and has no meaning of its own.
-/

namespace ScriptOptimizer

/-- Operators in front of one operand. -/
inductive UnaryOp where
  | minus | plus | not | complement | typeOf | void | delete
  | other (symbol : String)
deriving DecidableEq, Repr, Inhabited

namespace UnaryOp

/-- The symbol of a unary operator. -/
def symbol : UnaryOp → String
  | minus => "-"
  | plus => "+"
  | not => "!"
  | complement => "~"
  | typeOf => "typeof"
  | void => "void"
  | delete => "delete"
  | other s => s

/-- The unary operator with a given symbol. -/
def ofSymbol : String → UnaryOp
  | "-" => minus
  | "+" => plus
  | "!" => not
  | "~" => complement
  | "typeof" => typeOf
  | "void" => void
  | "delete" => delete
  | s => other s

end UnaryOp

/-- Operators between two operands, the logical ones included. -/
inductive BinaryOp where
  | nullish | or | and
  | bitOr | bitXor | bitAnd
  | equal | notEqual | same | notSame
  | less | greater | atMost | atLeast | within | instanceOf
  | shiftLeft | shiftRight | shiftRightZero
  | add | subtract
  | multiply | divide | remainder
  | power
  | other (symbol : String)
deriving DecidableEq, Repr, Inhabited

namespace BinaryOp

/-- The symbol of a binary operator. -/
def symbol : BinaryOp → String
  | nullish => "??" | or => "||" | and => "&&"
  | bitOr => "|" | bitXor => "^" | bitAnd => "&"
  | equal => "==" | notEqual => "!=" | same => "===" | notSame => "!=="
  | less => "<" | greater => ">" | atMost => "<=" | atLeast => ">="
  | within => "in" | instanceOf => "instanceof"
  | shiftLeft => "<<" | shiftRight => ">>" | shiftRightZero => ">>>"
  | add => "+" | subtract => "-"
  | multiply => "*" | divide => "/" | remainder => "%"
  | power => "**"
  | other s => s

/-- The operators that a script can write, in the order in which the grammar tries them. -/
def all : List BinaryOp :=
  [nullish, or, and, bitOr, bitXor, bitAnd, same, notSame, equal, notEqual, atMost, atLeast, less,
    greater, instanceOf, within, shiftLeft, shiftRightZero, shiftRight, add, subtract, power,
    multiply, divide, remainder]

/-- The binary operator with a given symbol. -/
def ofSymbol (s : String) : BinaryOp := (all.find? (·.symbol == s)).getD (other s)

/-- Whether an operator may skip its right operand. -/
def isLogical : BinaryOp → Bool
  | nullish | or | and => true
  | _ => false

/-- Whether the operands may be exchanged. -/
def isCommutative : BinaryOp → Bool
  | multiply | bitAnd | bitOr | bitXor | equal | notEqual | same | notSame => true
  | _ => false

end BinaryOp

/-- Operators that read, step and write back a target. -/
inductive UpdateOp where
  | increment | decrement
  | other (symbol : String)
deriving DecidableEq, Repr, Inhabited

namespace UpdateOp

/-- The symbol of an update operator. -/
def symbol : UpdateOp → String
  | increment => "++"
  | decrement => "--"
  | other s => s

/-- The update operator with a given symbol. -/
def ofSymbol : String → UpdateOp
  | "++" => increment
  | "--" => decrement
  | s => other s

/-- The arithmetic operator of a step by one. -/
def step : UpdateOp → BinaryOp
  | decrement => .subtract
  | _ => .add

end UpdateOp

/-- Assignment operators: plain, compound as in `+=`, or a symbol without an equals sign. -/
inductive AssignOp where
  | set
  | compound (op : BinaryOp)
  | bare (op : BinaryOp)
deriving DecidableEq, Repr, Inhabited

namespace AssignOp

/-- The symbol of an assignment operator. -/
def symbol : AssignOp → String
  | set => "="
  | compound op => op.symbol ++ "="
  | bare op => op.symbol

/-- The assignment operator with a given symbol. -/
def ofSymbol (s : String) : AssignOp :=
  if s = "=" then set
  else
    match s.toList.reverse with
    | '=' :: rest => compound (.ofSymbol (String.ofList rest.reverse))
    | _ => bare (.ofSymbol s)

end AssignOp

/-- Binding strength, from the comma to a name or literal; a higher rank binds tighter. -/
inductive Rank where
  | sequence | assignment | conditional | nullish | or | and | bitOr | bitXor | bitAnd | equality
  | relational | shift | additive | multiplicative | exponent | unary | update | call | member
  | primary
deriving DecidableEq, Repr

/-- The rank as a number from 1. -/
def Rank.level (r : Rank) : Nat := r.ctorIdx + 1

/-- The binding strength of a binary operator; 0 for one that no script can write. -/
def BinaryOp.level : BinaryOp → Nat
  | nullish => Rank.nullish.level
  | or => Rank.or.level
  | and => Rank.and.level
  | bitOr => Rank.bitOr.level
  | bitXor => Rank.bitXor.level
  | bitAnd => Rank.bitAnd.level
  | equal | notEqual | same | notSame => Rank.equality.level
  | less | greater | atMost | atLeast | within | instanceOf => Rank.relational.level
  | shiftLeft | shiftRight | shiftRightZero => Rank.shift.level
  | add | subtract => Rank.additive.level
  | multiply | divide | remainder => Rank.multiplicative.level
  | power => Rank.exponent.level
  | other _ => 0

end ScriptOptimizer
