import ScriptOptimizer.IR.Basic

/-!
# Operands

The operands of a value or a statement, in the order in which they are evaluated, and their replacement.
-/

namespace ScriptOptimizer.IR

namespace Callee

def operands : Callee → List Operand
  | function f | constructor f => [f]
  | method o k => [o, k]

/-- Replaces the operands of a callee. -/
def mapOperands (g : Operand → Operand) : Callee → Callee
  | function f => function (g f)
  | constructor f => constructor (g f)
  | method o k => method (g o) (g k)

end Callee

namespace Member

/-- The operands of an object member. -/
def operands : Member → List Operand
  | named _ v => [v]
  | computed k v => [k, v]

/-- Replaces the operands of an object member. -/
def mapOperands (g : Operand → Operand) : Member → Member
  | named k v => named k (g v)
  | computed k v => computed (g k) (g v)

end Member

namespace Value

def operands : Value → List Operand
  | operand x => [x]
  | unary _ x => [x]
  | binary _ l r => [l, r]
  | member o k _ => [o, k]
  | call c as => c.operands ++ as
  | object ms => ms.flatMap Member.operands
  | array es => es
  | merge _ => []
  | delete o k => [o, k]

/-- Replaces the operands of a value. -/
def mapOperands (g : Operand → Operand) : Value → Value
  | operand x => operand (g x)
  | unary op x => unary op (g x)
  | binary op l r => binary op (g l) (g r)
  | member o k n => member (g o) (g k) n
  | call c as => call (c.mapOperands g) (as.map g)
  | object ms => object (ms.map (Member.mapOperands g))
  | array es => array (es.map g)
  | merge cs => merge cs
  | delete o k => delete (g o) (g k)

/-- The temps that a value reads, one entry for each occurrence. -/
def temps (v : Value) : List TempId := v.operands.filterMap Operand.temp?

end Value

namespace LoopHead

def operands : LoopHead → List Operand
  | tested _ _ cond => [cond]
  | iterated _ _ object => [object]

/-- Replaces the operands of a loop. -/
def mapOperands (g : Operand → Operand) : LoopHead → LoopHead
  | tested b t cond => tested b t (g cond)
  | iterated of each object => iterated of each (g object)

end LoopHead

namespace Action

def operands : Action → List Operand
  | define _ v _ | eval v => v.operands
  | copy _ v => v.toList
  | store _ v | returnValue v | throwValue v => [v]
  | setMember o k v => [o, k, v]
  | branch c .. => [c]
  | loop l => l.head.operands
  | breakLoop _ | continueLoop _ | declare .. => []

/-- Replaces the operands of an action. -/
def mapOperands (g : Operand → Operand) : Action → Action
  | define t v m => define t (v.mapOperands g) m
  | eval v => eval (v.mapOperands g)
  | copy t v => copy t (v.map g)
  | store p v => store p (g v)
  | returnValue v => returnValue (g v)
  | throwValue v => throwValue (g v)
  | setMember o k v => setMember (g o) (g k) (g v)
  | branch c a b k => branch (g c) a b k
  | loop l => loop { l with head := l.head.mapOperands g }
  | breakLoop s => breakLoop s
  | continueLoop s => continueLoop s
  | declare p f n => declare p f n

/-- The temps that an action reads, one entry for each occurrence. -/
def temps (a : Action) : List TempId := a.operands.filterMap Operand.temp?

end Action

end ScriptOptimizer.IR
